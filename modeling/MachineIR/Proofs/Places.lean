import MachineIR.Proofs.BlockLists
import MachineIR.Proofs.BlockEdits

/-!
This module contains the places of instructions: the blocks of a routine hold their instructions in
lists, every instruction is on the list of its block, and the edits of operands, opcodes and types
leave all instructions where they are.
-/

namespace MachineIR

namespace Routine

variable {r r' r'' : Routine} {b c : BlockId} {ids front back : List InsnId} {id j : InsnId} {i : Insn}

structure Holds (r : Routine) (b : BlockId) (ids : List InsnId) : Prop where
  lists : r.Lists b ids
  whole : ∀ id n, r.neighbours? b id = some n → id ∈ ids

structure Arranged (r : Routine) : Prop where
  home : ∀ b id n, r.neighbours? b id = some n → r.extent? b ≠ none
  holds : ∀ b, r.extent? b ≠ none → ∃ ids, r.Holds b ids

theorem block?_ne_none_iff : r.extent? b ≠ none ↔ r.block? b ≠ none := by
  simp [extent?]

theorem Lists.length_le (h : r.Lists b ids) : ids.length ≤ r.insns.size := by
  have hnodup : (ids.map InsnId.toNat).Nodup := by
    unfold List.Nodup
    rw [List.pairwise_map]
    apply h.chain.nodup.imp
    intro a b hne heq
    exact hne (InsnId.toNat_inj.mp heq)
  have hsub : ids.map InsnId.toNat ⊆ List.range r.insns.size := by
    intro n hn
    obtain ⟨id, hid, rfl⟩ := List.mem_map.mp hn
    obtain ⟨n, hn⟩ := h.chain.isSome_of_mem hid
    obtain ⟨i, hi, -⟩ := neighbours?_eq_some.mp hn
    rw [List.mem_range]
    exact Store.lt_size_of_get? hi
  have hle := hnodup.length_le_of_subset hsub
  simpa using hle

theorem walk_eq_of_chain {prev : Option InsnId} {n : Nat} (h : Chain (r.neighbours? b) prev ids none)
    (hn : ids.length ≤ n)
    : walk (fun id => some (id, (r.insn? id).bind Insn.next)) n ids.head? = ids := by
  induction n generalizing prev ids with
  | zero =>
    cases List.eq_nil_of_length_eq_zero (Nat.le_zero.mp hn)
    rfl
  | succ n ih =>
    cases ids with
    | nil => rfl
    | cons a rest =>
      obtain ⟨i, hi, -, hlinks⟩ := neighbours?_eq_some.mp h.1
      rw [Prod.mk.injEq, Option.or_none] at hlinks
      rw [List.head?_cons, walk]
      dsimp only
      rw [hi, Option.bind_some, hlinks.2, ih h.2 (Nat.le_of_succ_le_succ hn)]

theorem Lists.insnsFrom_eq (front : List InsnId) (h : r.Lists b (front ++ back))
    : r.insnsFrom back.head? = back := by
  have hlen := h.length_le
  rw [List.length_append] at hlen
  exact walk_eq_of_chain (Chain.append.mp h.chain).2 (by omega)

theorem Lists.insnsOf_eq (h : r.Lists b ids) : r.insnsOf b = ids := by
  obtain ⟨found, hfound, heq⟩ := Option.map_eq_some_iff.mp h.extent
  unfold insnsOf
  rw [hfound, Option.bind_some, (Prod.mk.inj heq).1]
  exact Lists.insnsFrom_eq [] h

theorem Lists.disjoint {ids' : List InsnId} (h : r.Lists b ids) (h' : r.Lists c ids') (hne : c ≠ b)
    (hid : id ∈ ids) : id ∉ ids' := by
  intro hid'
  obtain ⟨n, hn⟩ := h.chain.isSome_of_mem hid
  obtain ⟨n', hn'⟩ := h'.chain.isSome_of_mem hid'
  obtain ⟨x, hx, hxb, -⟩ := neighbours?_eq_some.mp hn
  obtain ⟨y, hy, hyc, -⟩ := neighbours?_eq_some.mp hn'
  rw [hx] at hy
  cases hy
  exact hne (hyc.symm.trans hxb)

theorem Holds.mem_iff (h : r.Holds b ids) : id ∈ ids ↔ ∃ i, r.insn? id = some i ∧ i.block = b := by
  constructor
  . intro hid
    obtain ⟨n, hn⟩ := h.lists.chain.isSome_of_mem hid
    obtain ⟨i, hi, hb, -⟩ := neighbours?_eq_some.mp hn
    exact ⟨i, hi, hb⟩
  . rintro ⟨i, hi, hb⟩
    exact h.whole id _ (neighbours?_of_insn? hi hb)

theorem Arranged.holds_block (h : r.Arranged) (hi : r.insn? id = some i)
    : ∃ front back, r.Holds i.block (front ++ id :: back) ∧ i.prev = front.getLast? ∧
        i.next = back.head? := by
  have hn := neighbours?_of_insn? hi rfl
  obtain ⟨ids, hids⟩ := h.holds _ (h.home _ id _ hn)
  obtain ⟨front, back, rfl⟩ := List.append_of_mem (hids.whole id _ hn)
  refine ⟨front, back, hids, ?_⟩
  have hlinks := hids.lists.chain.links_eq
  rw [hn, Option.some.injEq, Prod.mk.injEq] at hlinks
  exact hlinks

structure SamePlaces (r r' : Routine) : Prop where
  neighbours : ∀ b id, r'.neighbours? b id = r.neighbours? b id
  extent : ∀ b, r'.extent? b = r.extent? b

namespace SamePlaces

theorem refl (r : Routine) : r.SamePlaces r := ⟨fun _ _ => rfl, fun _ => rfl⟩

theorem trans (h : r.SamePlaces r') (h' : r'.SamePlaces r'') : r.SamePlaces r'' := by
  constructor
  . intro b id
    rw [h'.neighbours, h.neighbours]
  . intro b
    rw [h'.extent, h.extent]

instance : Std.Refl SamePlaces := ⟨refl⟩

instance : Trans SamePlaces SamePlaces SamePlaces := ⟨trans⟩

theorem lists (h : r.SamePlaces r') (hids : r.Lists b ids) : r'.Lists b ids :=
  hids.congr (h.extent b) fun id _ => h.neighbours b id

theorem holds (h : r.SamePlaces r') (hids : r.Holds b ids) : r'.Holds b ids := by
  refine ⟨h.lists hids.lists, ?_⟩
  intro id n hn
  rw [h.neighbours] at hn
  exact hids.whole id n hn

theorem arranged (h : r.SamePlaces r') (harranged : r.Arranged) : r'.Arranged := by
  constructor
  . intro b id n hn
    rw [h.neighbours] at hn
    rw [h.extent]
    exact harranged.home b id n hn
  . intro b hb
    rw [h.extent] at hb
    obtain ⟨ids, hids⟩ := harranged.holds b hb
    exact ⟨ids, h.holds hids⟩

theorem of_bare_eq (h : r'.bare = r.bare) : r.SamePlaces r' := by
  constructor
  . intro b id
    rw [← neighbours?_bare, h, neighbours?_bare]
  . intro b
    rw [← extent?_bare, h, extent?_bare]

theorem modifyInsn {f : Insn → Insn}
    (hf : ∀ i, (f i).block = i.block ∧ (f i).prev = i.prev ∧ (f i).next = i.next) (r : Routine)
    (id : InsnId) : r.SamePlaces (r.modifyInsn id f) := by
  constructor
  . intro b j
    unfold neighbours?
    rw [insn?_modifyInsn]
    split
    . cases r.insn? j with
      | none => rfl
      | some i =>
        obtain ⟨hblock, hprev, hnext⟩ := hf i
        simp [hblock, hprev, hnext]
    . rfl
  . intro b
    rfl

theorem modifyBlock {f : Block → Block}
    (hf : ∀ b, (f b).first = b.first ∧ (f b).last = b.last ∧ (f b).len = b.len) (r : Routine)
    (b : BlockId) : r.SamePlaces (r.modifyBlock b f) := by
  constructor
  . intro c j
    rfl
  . intro c
    unfold extent?
    rw [block?_modifyBlock]
    split
    . cases r.block? c with
      | none => rfl
      | some found =>
        obtain ⟨hfirst, hlast, hlen⟩ := hf found
        simp [hfirst, hlast, hlen]
    . rfl

end SamePlaces

def SameBare (r r' : Routine) : Prop := r'.bare = r.bare

namespace SameBare

theorem refl (r : Routine) : r.SameBare r := rfl

instance : Std.Refl SameBare := ⟨refl⟩

instance : Trans SameBare SameBare SameBare := ⟨fun h h' => h'.trans h⟩

end SameBare

end Routine

namespace Edit

open Routine

section SamePlaces

theorem sameBare_linkUse (v : ValueId) (user : InsnId) (slot : Nat)
    : Within SameBare (linkUse v user slot) := by
  intro r
  cases hl : r.useList? v with
  | none =>
    have hrun : linkUse v user slot r = .error (.invalidHandle v) r := by
      simp [linkUse, hl]
    rw [left_of_error hrun]
    apply SameBare.refl
  | some l =>
    rw [left_of_ok (linkUse_run hl user slot)]
    unfold SameBare
    rw [bare_setUseList, bare_setUses]

theorem sameBare_unlinkUse (v : ValueId) (use : UseId) : Within SameBare (unlinkUse v use) := by
  intro r
  cases hl : r.useList? v with
  | none =>
    have hrun : unlinkUse v use r = .error (.integrity (.destroyedValue v)) r := by
      simp [unlinkUse, hl]
    rw [left_of_error hrun]
    apply SameBare.refl
  | some l =>
    cases hunlink : r.uses.unlink? l use with
    | none =>
      have hrun : unlinkUse v use r = .error (.integrity (.notLinked use v)) r := by
        simp [unlinkUse, hl, hunlink]
      rw [left_of_error hrun]
      apply SameBare.refl
    | some p =>
      obtain ⟨t, l'⟩ := p
      rw [left_of_ok (unlinkUse_run hl hunlink)]
      unfold SameBare
      rw [bare_setUseList, bare_setUses]

theorem sameBare_releaseOperand (id : InsnId) (k : Nat)
    : Within SameBare (releaseOperand id k) := by
  unfold releaseOperand
  refine Within.bind (Within.insn id) fun i => ?_
  split
  . exact Within.throw _
  . refine Within.bind (sameBare_unlinkUse _ _) fun _ => ?_
    apply Within.modify
    intro r
    apply bare_modifySlot_of_eq
    intro s
    rfl
  . exact Within.pure _

theorem samePlaces_releaseOperand (id : InsnId) (k : Nat)
    : Within SamePlaces (releaseOperand id k) :=
  (sameBare_releaseOperand id k).mono fun _ _ h => .of_bare_eq h

theorem samePlaces_modifyInsn {f : Insn → Insn}
    (hf : ∀ i, (f i).block = i.block ∧ (f i).prev = i.prev ∧ (f i).next = i.next) (id : InsnId)
    : Within SamePlaces (modify (·.modifyInsn id f) : Edit PUnit) :=
  Within.modify fun r => SamePlaces.modifyInsn hf r id

theorem samePlaces_modifyBlock {f : Block → Block}
    (hf : ∀ b, (f b).first = b.first ∧ (f b).last = b.last ∧ (f b).len = b.len) (b : BlockId)
    : Within SamePlaces (modify (·.modifyBlock b f) : Edit PUnit) :=
  Within.modify fun r => SamePlaces.modifyBlock hf r b

theorem samePlaces_modifySlot (id : InsnId) (k : Nat) (f : Slot → Slot)
    : Within SamePlaces (modify (·.modifySlot id k f) : Edit PUnit) :=
  samePlaces_modifyInsn (by intro i; exact ⟨rfl, rfl, rfl⟩) id

theorem samePlaces_setOperand (id : InsnId) (k : Nat) (x : Operand)
    : Within SamePlaces (setOperand id k x) := by
  unfold setOperand
  refine Within.bind (Within.requireLive x) fun _ => ?_
  refine Within.bind (samePlaces_releaseOperand id k) fun _ => ?_
  split
  . refine Within.bind (Within.map _ ((sameBare_linkUse _ _ _).mono fun _ _ h => .of_bare_eq h)) fun use => ?_
    apply samePlaces_modifySlot
  . refine Within.bind (Within.pure _) fun use => ?_
    apply samePlaces_modifySlot

theorem samePlaces_pushOperand (id : InsnId) (x : Operand)
    : Within SamePlaces (pushOperand id x) := by
  unfold pushOperand
  refine Within.bind (Within.requireLive x) fun _ => ?_
  refine Within.bind (Within.insn id) fun i => ?_
  refine Within.bind (samePlaces_modifyInsn (by intro i; exact ⟨rfl, rfl, rfl⟩) id) fun _ => ?_
  refine Within.bind (samePlaces_setOperand _ _ _) fun _ => ?_
  exact Within.pure _

theorem samePlaces_removeOperand (id : InsnId) (k : Nat)
    : Within SamePlaces (removeOperand id k) := by
  unfold removeOperand
  refine Within.bind (samePlaces_releaseOperand id k) fun _ => ?_
  refine Within.bind (Within.insn id) fun i => ?_
  split
  . exact Within.throw _
  . refine Within.bind (Within.modify fun r => ?_) fun _ => ?_
    . have hslots : r.SamePlaces
          (r.modifyInsn id fun i => { i with slots := i.slots.eraseIdx k }) := by
        apply SamePlaces.modifyInsn
        intro i
        exact ⟨rfl, rfl, rfl⟩
      exact hslots.trans ⟨fun _ _ => rfl, fun _ => rfl⟩
    . exact Within.pure _

theorem samePlaces_setOpcode (id : InsnId) (opcode : Opcode)
    : Within SamePlaces (setOpcode id opcode) := by
  unfold setOpcode
  refine Within.bind (Within.insn id) fun i => ?_
  exact samePlaces_modifyInsn (by intro i; exact ⟨rfl, rfl, rfl⟩) id

theorem samePlaces_setTemplate (id : InsnId) (index : Nat) (t : Ty)
    : Within SamePlaces (setTemplate id index t) := by
  unfold setTemplate
  refine Within.bind (Within.insn id) fun i => ?_
  split
  . exact samePlaces_modifyInsn (by intro i; exact ⟨rfl, rfl, rfl⟩) id
  . exact samePlaces_modifyInsn (by intro i; exact ⟨rfl, rfl, rfl⟩) id
  . exact Within.throw _

end SamePlaces

end Edit

end MachineIR
