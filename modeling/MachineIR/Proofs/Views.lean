import MachineIR.Routine.Basic

/-!
This module contains what changes to a routine do to what can be seen of it: its instructions, its
blocks, its operand slots and its lists of uses.
-/

namespace MachineIR

namespace Store

variable {α β : Type}

def map (f : α → β) (s : Store α) : Store β := ⟨s.cells.map (Option.map f)⟩

@[simp]
theorem size_map (f : α → β) (s : Store α) : (s.map f).size = s.size := by
  simp [map, size]

@[simp]
theorem get?_map (f : α → β) (s : Store α) (i : Nat) : (s.map f).get? i = (s.get? i).map f := by
  unfold map get?
  rw [Array.getElem?_map]
  cases s.cells[i]? with
  | none => rfl
  | some a => rfl

theorem map_modify {f : α → β} {g : α → α} {g' : β → β} (h : ∀ a, f (g a) = g' (f a))
    (s : Store α) (i : Nat) : (s.modify i g).map f = (s.map f).modify i g' := by
  unfold modify map
  congr 1
  apply Array.ext_getElem?
  intro j
  simp only [Array.getElem?_map, Array.getElem?_modify]
  split
  . simp [Function.comp_def, h]
  . rfl

theorem map_erase (f : α → β) (s : Store α) (i : Nat) : (s.erase i).map f = (s.map f).erase i := by
  unfold erase map
  congr 1
  apply Array.ext_getElem?
  intro j
  simp only [Array.getElem?_map, Array.getElem?_setIfInBounds, Array.size_map]
  split
  . split <;> rfl
  . rfl

theorem map_modify_of_eq {f : α → β} {g : α → α} (h : ∀ a, f (g a) = f a) (s : Store α) (i : Nat)
    : (s.modify i g).map f = s.map f := by
  unfold modify map
  congr 1
  apply Array.ext_getElem?
  intro j
  simp only [Array.getElem?_map, Array.getElem?_modify]
  split
  . simp [Function.comp_def, h]
  . rfl

theorem mem_entries {s : Store α} {n : Nat} {a : α}
    : (n, a) ∈ s.entries ↔ s.get? n = some a := by
  unfold entries get?
  rw [List.mem_filterMap]
  constructor
  . rintro ⟨⟨cell, m⟩, hmem, hcell⟩
    rw [List.mem_zipIdx_iff_getElem?] at hmem
    cases cell with
    | none => cases hcell
    | some b =>
      cases hcell
      rw [Array.getElem?_toList] at hmem
      rw [hmem]
      rfl
  . intro h
    refine ⟨(some a, n), ?_, rfl⟩
    rw [List.mem_zipIdx_iff_getElem?, Array.getElem?_toList]
    exact Option.join_eq_some_iff.mp h

end Store

theorem Insn.operand?_eq (i : Insn) (k : Nat) : i.operand? k = i.operands[k]? := by
  simp [operand?, operands]

theorem Insn.operand?_of_code_eq {i i' : Insn} (h : i'.code = i.code) (k : Nat)
    : i'.operand? k = i.operand? k := by
  have : i'.operands = i.operands := congrArg Instruction.operands h
  rw [operand?_eq, this, operand?_eq]

namespace Routine

section Lookup

variable (r : Routine)

@[simp]
theorem insn?_modifyInsn (id j : InsnId) (f : Insn → Insn)
    : (r.modifyInsn id f).insn? j = if j = id then (r.insn? j).map f else r.insn? j := by
  unfold insn? modifyInsn
  rw [Store.get?_modify]
  simp only [InsnId.toNat_inj, eq_comm]

@[simp]
theorem block?_modifyInsn (id : InsnId) (b : BlockId) (f : Insn → Insn)
    : (r.modifyInsn id f).block? b = r.block? b := rfl

@[simp]
theorem block?_modifyBlock (b c : BlockId) (f : Block → Block)
    : (r.modifyBlock b f).block? c = if c = b then (r.block? c).map f else r.block? c := by
  unfold block? modifyBlock
  rw [Store.get?_modify]
  simp only [BlockId.toNat_inj, eq_comm]

@[simp]
theorem insn?_modifyBlock (b : BlockId) (id : InsnId) (f : Block → Block)
    : (r.modifyBlock b f).insn? id = r.insn? id := rfl

end Lookup

def slot? (r : Routine) (id : InsnId) (k : Nat) : Option Slot := (r.insn? id).bind (·.slots[k]?)

theorem slot?_eq {r : Routine} {id : InsnId} {i : Insn} (h : r.insn? id = some i) (k : Nat)
    : r.slot? id k = i.slots[k]? := by
  simp [slot?, h]

theorem contains_eq (r : Routine) (v : ValueId) : r.contains v = (r.useList? v).isSome := by
  cases v with
  | insn id => simp [contains, useList?]
  | block b => simp [contains, useList?]

section Slots

variable {r : Routine}

theorem slot?_modifyInsn {f : Insn → Insn} (hf : ∀ i, (f i).slots = i.slots) (id j : InsnId)
    (k : Nat) : (r.modifyInsn id f).slot? j k = r.slot? j k := by
  unfold slot?
  rw [insn?_modifyInsn]
  split
  . cases r.insn? j with
    | none => rfl
    | some i => simp [hf]
  . rfl

theorem useList?_modifyInsn {f : Insn → Insn} (hf : ∀ i, (f i).uses = i.uses) (id : InsnId)
    (v : ValueId) : (r.modifyInsn id f).useList? v = r.useList? v := by
  cases v with
  | insn j =>
    simp only [useList?, insn?_modifyInsn]
    split
    . cases r.insn? j with
      | none => rfl
      | some i => simp [hf]
    . rfl
  | block b => rfl

theorem useList?_modifyBlock {f : Block → Block} (hf : ∀ b, (f b).uses = b.uses) (b : BlockId)
    (v : ValueId) : (r.modifyBlock b f).useList? v = r.useList? v := by
  cases v with
  | insn j => rfl
  | block c =>
    simp only [useList?, block?_modifyBlock]
    split
    . cases r.block? c with
      | none => rfl
      | some i => simp [hf]
    . rfl

theorem slot?_modifySlot (id j : InsnId) (k n : Nat) (f : Slot → Slot)
    : (r.modifySlot id k f).slot? j n =
        if j = id ∧ n = k then (r.slot? j n).map f else r.slot? j n := by
  unfold slot? modifySlot
  rw [insn?_modifyInsn]
  by_cases hj : j = id
  . subst hj
    cases r.insn? j with
    | none => simp
    | some i =>
      simp only [↓reduceIte, Option.map_some, Option.bind_some, true_and, List.getElem?_modify]
      by_cases hn : k = n
      . simp [hn]
      . have : ¬ n = k := fun heq => hn heq.symm
        simp [hn, this]
  . simp [hj]

@[simp]
theorem useList?_modifySlot (id : InsnId) (k : Nat) (f : Slot → Slot) (v : ValueId)
    : (r.modifySlot id k f).useList? v = r.useList? v := by
  apply useList?_modifyInsn
  intro i
  rfl

@[simp]
theorem slot?_setUseList (v : ValueId) (l : UseList) (id : InsnId) (k : Nat)
    : (r.setUseList v l).slot? id k = r.slot? id k := by
  cases v with
  | insn j =>
    apply slot?_modifyInsn
    intro i
    rfl
  | block b => rfl

theorem useList?_setUseList (v w : ValueId) (l : UseList)
    : (r.setUseList v l).useList? w =
        if w = v then (r.useList? w).map fun _ => l else r.useList? w := by
  cases v with
  | insn id =>
    cases w with
    | insn j =>
      simp only [setUseList, useList?, insn?_modifyInsn, ValueId.insn.injEq]
      split
      . cases r.insn? j <;> rfl
      . rfl
    | block b => simp [setUseList, useList?]
  | block b =>
    cases w with
    | insn j => simp [setUseList, useList?]
    | block c =>
      simp only [setUseList, useList?, block?_modifyBlock, ValueId.block.injEq]
      split
      . cases r.block? c <;> rfl
      . rfl

@[simp]
theorem uses_setUseList (v : ValueId) (l : UseList) : (r.setUseList v l).uses = r.uses := by
  cases v <;> rfl

end Slots

end Routine

section Bare

def Slot.bare (s : Slot) : Slot := { s with use := none }

def Insn.bare (i : Insn) : Insn := { i with slots := i.slots.map Slot.bare, uses := {} }

def Block.bare (b : Block) : Block := { b with uses := {} }

theorem Insn.code_bare (i : Insn) : i.bare.code = i.code := by
  unfold code operands bare
  rw [List.map_map]
  rfl

theorem Insn.operand?_bare {i : Insn} {k : Nat} : i.bare.operand? k = i.operand? k := by
  unfold operand? bare
  rw [List.getElem?_map, Option.map_map]
  rfl

namespace Routine

def bare (r : Routine) : Routine :=
  { r with insns := r.insns.map Insn.bare, blocks := r.blocks.map Block.bare, uses := {} }

def sizes (r : Routine) : Nat × Nat := (r.insns.size, r.blocks.size)

variable {r : Routine}

theorem sizes_bare : r.bare.sizes = r.sizes := by
  simp [sizes, bare]

theorem sizes_modifyInsn (f : Insn → Insn) (id : InsnId) : (r.modifyInsn id f).sizes = r.sizes := by
  simp [sizes, modifyInsn]

theorem sizes_of_bare_eq {r r' : Routine} (h : r'.bare = r.bare) : r'.sizes = r.sizes := by
  rw [← sizes_bare, h, sizes_bare]

@[simp]
theorem insn?_bare (id : InsnId) : r.bare.insn? id = (r.insn? id).map Insn.bare := by
  unfold insn? bare
  rw [Store.get?_map]

theorem exists_insn?_of_bare_eq {r r' : Routine} (h : r'.bare = r.bare) {id : InsnId} {i' : Insn}
    (hi' : r'.insn? id = some i') : ∃ i, r.insn? id = some i ∧ i'.bare = i.bare := by
  have := congrArg (fun r => r.insn? id) h
  simp only [insn?_bare, hi', Option.map_some] at this
  obtain ⟨i, hi, heq⟩ := Option.map_eq_some_iff.mp this.symm
  exact ⟨i, hi, heq.symm⟩

@[simp]
theorem block?_bare (b : BlockId) : r.bare.block? b = (r.block? b).map Block.bare := by
  unfold block? bare
  rw [Store.get?_map]

@[simp]
theorem slot?_bare (id : InsnId) (k : Nat) : r.bare.slot? id k = (r.slot? id k).map Slot.bare := by
  unfold slot?
  rw [insn?_bare]
  cases r.insn? id with
  | none => rfl
  | some i => simp [Insn.bare]

theorem bare_setUses (uses : UseTable) : { r with uses }.bare = r.bare := rfl

theorem bare_modifyInsn_of_eq {f : Insn → Insn} (hf : ∀ i, (f i).bare = i.bare) (id : InsnId)
    : (r.modifyInsn id f).bare = r.bare := by
  unfold bare modifyInsn
  dsimp only
  rw [Store.map_modify_of_eq hf]

theorem bare_modifyBlock_of_eq {f : Block → Block} (hf : ∀ b, (f b).bare = b.bare) (b : BlockId)
    : (r.modifyBlock b f).bare = r.bare := by
  unfold bare modifyBlock
  dsimp only
  rw [Store.map_modify_of_eq hf]

theorem bare_modifyInsn {f g : Insn → Insn} (hf : ∀ i, (f i).bare = g i.bare) (id : InsnId)
    : (r.modifyInsn id f).bare = r.bare.modifyInsn id g := by
  unfold bare modifyInsn
  dsimp only
  rw [Store.map_modify hf]

theorem bare_modifyBlock {f g : Block → Block} (hf : ∀ b, (f b).bare = g b.bare) (b : BlockId)
    : (r.modifyBlock b f).bare = r.bare.modifyBlock b g := by
  unfold bare modifyBlock
  dsimp only
  rw [Store.map_modify hf]

theorem bare_setUseList (v : ValueId) (l : UseList) : (r.setUseList v l).bare = r.bare := by
  cases v with
  | insn id =>
    apply bare_modifyInsn_of_eq
    intro i
    rfl
  | block b =>
    apply bare_modifyBlock_of_eq
    intro b
    rfl

theorem bare_modifySlot {f g : Slot → Slot} (hf : ∀ s, (f s).bare = g s.bare) (id : InsnId)
    (k : Nat) : (r.modifySlot id k f).bare = r.bare.modifySlot id k g := by
  apply bare_modifyInsn
  intro i
  unfold Insn.bare
  congr 1
  apply List.ext_getElem?
  intro n
  simp only [List.getElem?_map, List.getElem?_modify]
  split
  . simp [Function.comp_def, hf]
  . simp

theorem bare_modifySlot_of_eq {f : Slot → Slot} (hf : ∀ s, (f s).bare = s.bare) (id : InsnId)
    (k : Nat) : (r.modifySlot id k f).bare = r.bare := by
  apply bare_modifyInsn_of_eq
  intro i
  unfold Insn.bare
  congr 1
  apply List.ext_getElem?
  intro n
  simp only [List.getElem?_map, List.getElem?_modify]
  split
  . simp [Function.comp_def, hf]
  . simp

theorem contains_bare (v : ValueId) : r.bare.contains v = r.contains v := by
  cases v with
  | insn id => simp [contains]
  | block b => simp [contains]

end Routine

end Bare

end MachineIR
