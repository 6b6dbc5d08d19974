import Mathlib.Data.List.TakeWhile
import Mathlib.Data.Set.Basic
import MachineIR.Proofs.DeadWrites
import MachineIR.Proofs.Ranks

/-!
This module contains runs through a block in a straight line, on words and with registers that are
read and written, and the comparison of two runs through blocks that differ in a few instructions.
-/

namespace MachineIR

def Operand.registers : Operand → List Register
  | .mem m => m.registers
  | _ => []

namespace Instruction

variable {i : Instruction} {x : Register} {y : Operand} {v : ValueId}

def readRegister? (i : Instruction) : Option Register :=
  match i.opcode, i.operands with
  | .readReg, [.reg x] => some x
  | _, _ => none

def write? (i : Instruction) : Option (Register × Operand) :=
  match i.opcode, i.operands with
  | .writeReg, [.reg x, y] => some (x, y)
  | _, _ => none

theorem readRegister?_eq_some
    : i.readRegister? = some x ↔ i.opcode = .readReg ∧ i.operands = [.reg x] := by
  unfold readRegister?
  split
  . simp_all
  . next hother =>
    simp only [reduceCtorEq, false_iff, not_and]
    exact hother x

theorem write?_eq_some
    : i.write? = some (x, y) ↔ i.opcode = .writeReg ∧ i.operands = [.reg x, y] := by
  unfold write?
  split
  . simp_all
  . next hother =>
    simp only [reduceCtorEq, false_iff, not_and]
    exact hother x y

theorem readRegister?_eq_none (h : i.opcode ≠ .readReg) : i.readRegister? = none := by
  rw [Option.eq_none_iff_forall_ne_some]
  intro x hx
  exact h (readRegister?_eq_some.mp hx).1

theorem write?_eq_none (h : i.opcode ≠ .writeReg) : i.write? = none := by
  rw [Option.eq_none_iff_forall_ne_some]
  rintro ⟨x, y⟩ hx
  exact h (write?_eq_some.mp hx).1

structure Regular (width : Register → Nat) (i : Instruction) : Prop where
  read : i.opcode = .readReg → ∃ x, i.operands = [.reg x] ∧ (i.template 0).isSymbolic = false ∧
    (i.template 0).bitWidth = width x
  write : i.opcode = .writeReg → ∃ x y, i.operands = [.reg x, y] ∧
    (i.template 0).isSymbolic = false ∧ (i.template 0).bitWidth = width x
  addresses : ∀ y ∈ i.operands, y.registers = []

namespace Regular

variable {width : Register → Nat}

theorem of_opcode (hread : i.opcode ≠ .readReg) (hwrite : i.opcode ≠ .writeReg)
    (haddresses : ∀ y ∈ i.operands, y.registers = []) : i.Regular width :=
  ⟨fun h => absurd h hread, fun h => absurd h hwrite, haddresses⟩

theorem substitute (h : i.Regular width) (hy : y.registers = [])
    : (i.substitute v y).Regular width := by
  constructor
  . intro hread
    obtain ⟨x, hx, hty⟩ := h.read hread
    exact ⟨x, by simp [Instruction.substitute, hx], hty⟩
  . intro hwrite
    obtain ⟨x, z, hx, hty⟩ := h.write hwrite
    exact ⟨x, if z = .value v then y else z, by simp [Instruction.substitute, hx], hty⟩
  . intro z hz
    obtain ⟨z', hz', rfl⟩ := List.mem_map.mp hz
    split
    . exact hy
    . exact h.addresses z' hz'

theorem readRegister?_substitute (h : i.Regular width)
    : (i.substitute v y).readRegister? = i.readRegister? := by
  by_cases hread : i.opcode = .readReg
  . obtain ⟨x, hx, -⟩ := h.read hread
    rw [readRegister?_eq_some.mpr ⟨hread, hx⟩, readRegister?_eq_some]
    exact ⟨hread, by simp [Instruction.substitute, hx]⟩
  . rw [readRegister?_eq_none hread]
    exact readRegister?_eq_none hread

theorem write?_substitute (h : i.Regular width)
    : (i.substitute v y).write? =
        i.write?.map fun (x, z) => (x, if z = .value v then y else z) := by
  by_cases hwrite : i.opcode = .writeReg
  . obtain ⟨x, z, hx, -⟩ := h.write hwrite
    rw [write?_eq_some.mpr ⟨hwrite, hx⟩, Option.map_some, write?_eq_some]
    exact ⟨hwrite, by simp [Instruction.substitute, hx]⟩
  . rw [write?_eq_none hwrite]
    exact write?_eq_none hwrite

end Regular

end Instruction

structure Interpretation (W : Type) where
  literal : Constant → W
  -- A register that is named by an operand.
  register : Register → W
  label : BlockId → W
  address : MemoryRef → (Register → W) → W
  address_congr : ∀ m f g, (∀ x ∈ m.registers, f x = g x) → address m f = address m g
  -- The result of an instruction that depends on its operands only.
  result : Opcode → Ty × Ty → List W → W
  result_bitcast : ∀ t t' w, t.isSymbolic = false → t'.isSymbolic = false →
    t.bitWidth = t'.bitWidth → result .bitcast (t, t') [w] = w
  -- The result of a load or a phi.
  given : InsnId → W
  -- What an instruction that touches registers makes of them, with the words of its operands.
  touched : InsnId → List W → (Register → W) → Register → W

structure Stage (W : Type) where
  registers : Register → W
  values : InsnId → W

namespace Interpretation

variable {W : Type} (E : Interpretation W)

def operand (s : Stage W) : Operand → W
  | .const c => E.literal c
  | .reg x => E.register x
  | .mem m => E.address m s.registers
  | .value (.insn id) => s.values id
  | .value (.block b) => E.label b

def value (s : Stage W) (id : InsnId) (i : Instruction) : W :=
  match i.readRegister? with
  | some x => s.registers x
  | none =>
    if i.opcode = .loadMem ∨ i.opcode = .phi then
      E.given id
    else
      E.result i.opcode i.templates (i.operands.map (E.operand s))

def registersAfter (s : Stage W) (id : InsnId) (i : Instruction) : Register → W :=
  match i.write? with
  | some (x, y) => Function.update s.registers x (E.operand s y)
  | none =>
    if i.opcode.touchesRegisters then
      E.touched id (i.operands.map (E.operand s)) s.registers
    else
      s.registers

def step (r : Routine) (s : Stage W) (id : InsnId) : Stage W :=
  match r.code? id with
  | some i => ⟨E.registersAfter s id i, Function.update s.values id (E.value s id i)⟩
  | none => s

def run (r : Routine) (ids : List InsnId) (s : Stage W) : Stage W :=
  ids.foldl (E.step r) s

def before (r : Routine) (ids : List InsnId) (s : Stage W) (id : InsnId)
    : Stage W :=
  E.run r (ids.takeWhile (· ≠ id)) s

def seen (r : Routine) (ids : List InsnId) (s : Stage W) (id : InsnId)
    : List W :=
  match r.code? id with
  | some i =>
    i.operands.map
      (E.operand (if i.opcode = .phi then E.run r ids s else E.before r ids s id))
  | none => []

/--
A run through a block after a change is as it was before: the instructions that are still there find
the same in their operands, and those that touch registers are there and find the same registers,
which are also left in the end.
-/
structure Simulates (s : Stage W) (b : BlockId) (r r' : Routine) : Prop where
  seen : ∀ id ∈ r.insnsOf b, id ∈ r'.insnsOf b →
    E.seen r' (r'.insnsOf b) s id = E.seen r (r.insnsOf b) s id
  touched : ∀ id ∈ r.insnsOf b, r.Touches id → id ∈ r'.insnsOf b ∧ r'.Touches id ∧
    (E.before r' (r'.insnsOf b) s id).registers = (E.before r (r.insnsOf b) s id).registers
  final : (E.run r' (r'.insnsOf b) s).registers = (E.run r (r.insnsOf b) s).registers

end Interpretation

namespace Interpretation

variable {W : Type} {E : Interpretation W} {r r' : Routine}
  {s s' : Stage W} {id j : InsnId} {i : Instruction} {x : Register} {y : Operand}
  {ids front back : List InsnId}

section Run

theorem run_cons : E.run r (id :: ids) s = E.run r ids (E.step r s id) := rfl

theorem run_append : E.run r (front ++ back) s = E.run r back (E.run r front s) :=
  List.foldl_append

theorem run_congr (h : ∀ j ∈ ids, r'.code? j = r.code? j) : E.run r' ids s = E.run r ids s := by
  induction ids generalizing s with
  | nil => rfl
  | cons k rest ih =>
    obtain ⟨hk, hrest⟩ := List.forall_mem_cons.mp h
    have hstep : E.step r' s k = E.step r s k := by
      unfold step
      rw [hk]
    rw [run_cons, run_cons, hstep]
    exact ih hrest

theorem before_append_left (h : id ∈ front)
    : E.before r (front ++ back) s id = E.before r front s id := by
  unfold before
  rw [List.takeWhile_append, if_neg]
  intro hlength
  have hall := (List.takeWhile_prefix (· ≠ id)).eq_of_length hlength
  simpa using List.takeWhile_eq_self_iff.mp hall id h

theorem before_append_right (h : id ∉ front)
    : E.before r (front ++ back) s id = E.before r back (E.run r front s) id := by
  unfold before
  rw [List.takeWhile_append_of_pos, run_append]
  intro j hj
  simp only [ne_eq, decide_eq_true_eq]
  rintro rfl
  exact h hj

@[simp]
theorem before_singleton : E.before r [id] s id = s := by
  simp [before, run]

theorem operand_congr (hvalue : ∀ j, y = .insn j → s'.values j = s.values j)
    (hy : y.registers = []) : E.operand s' y = E.operand s y := by
  cases y with
  | const c => rfl
  | reg x => rfl
  | mem m =>
    apply E.address_congr
    intro x hx
    rw [show m.registers = [] from hy] at hx
    cases hx
  | value v =>
    cases v with
    | insn j => exact hvalue j rfl
    | block b => rfl

theorem step_values_of_ne (hne : j ≠ id) : (E.step r s id).values j = s.values j := by
  unfold step
  split
  . exact Function.update_of_ne hne _ _
  . rfl

theorem step_values_self (hi : r.code? id = some i)
    : (E.step r s id).values id = E.value s id i := by
  unfold step
  rw [hi]
  exact Function.update_self _ _ _

theorem step_registers (hi : r.code? id = some i)
    : (E.step r s id).registers = E.registersAfter s id i := by
  unfold step
  rw [hi]

theorem registersAfter_of_write (hwrite : i.write? = some (x, y))
    : E.registersAfter s id i = Function.update s.registers x (E.operand s y) := by
  unfold registersAfter
  rw [hwrite]

theorem registersAfter_of_calm (hwrite : i.write? = none) (htouch : i.opcode.touchesRegisters = false)
    : E.registersAfter s id i = s.registers := by
  unfold registersAfter
  rw [hwrite, htouch]
  rfl

theorem step_registers_of_ne (hi : r.code? id = some i)
    (htouch : i.opcode.touchesRegisters = false) (hwrite : ∀ y, i.write? ≠ some (x, y))
    : (E.step r s id).registers x = s.registers x := by
  rw [step_registers hi]
  cases hw : i.write? with
  | none => rw [registersAfter_of_calm hw htouch]
  | some p =>
    obtain ⟨z, y⟩ := p
    rw [registersAfter_of_write hw]
    apply Function.update_of_ne
    rintro rfl
    exact hwrite y hw

theorem operand_step (hne : y ≠ .insn id) (hy : y.registers = [])
    : E.operand (E.step r s id) y = E.operand s y := by
  apply operand_congr _ hy
  rintro j rfl
  apply step_values_of_ne
  rintro rfl
  exact hne rfl

end Run

end Interpretation

section Agreement

structure Stage.Agrees {W : Type} (X : Set Register) (U : Set InsnId) (s s' : Stage W) : Prop where
  registers : ∀ x, x ∉ X → s'.registers x = s.registers x
  values : ∀ j, j ∉ U → s'.values j = s.values j

structure Instruction.Ignores (X : Set Register) (U : Set InsnId) (id : InsnId) (i : Instruction)
    : Prop where
  operands : ∀ j, .insn j ∈ i.operands → j ∉ U
  addresses : ∀ y ∈ i.operands, y.registers = []
  read : ∀ x, i.readRegister? = some x → x ∈ X → id ∈ U
  touch : i.opcode.touchesRegisters = true → X = ∅

open Instruction

variable {W : Type} {E : Interpretation W} {r r' : Routine}
  {s s' : Stage W} {X Y Z : Set Register} {U : Set InsnId} {id j : InsnId} {i i' : Instruction}
  {x : Register} {y : Operand} {ids ids' front front' back back' : List InsnId}

namespace Stage.Agrees

theorem refl (s : Stage W) : s.Agrees X U s := ⟨fun _ _ => rfl, fun _ _ => rfl⟩

theorem registers_eq (h : s.Agrees ∅ U s') : s'.registers = s.registers := by
  funext x
  exact h.registers x (Set.notMem_empty x)

theorem operand (h : s.Agrees X U s') (hvalue : ∀ j, y = .insn j → j ∉ U) (hy : y.registers = [])
    : E.operand s' y = E.operand s y :=
  Interpretation.operand_congr (fun j hj => h.values j (hvalue j hj)) hy

theorem operands (h : s.Agrees X U s') (hvalues : ∀ j, .insn j ∈ i.operands → j ∉ U)
    (haddresses : ∀ y ∈ i.operands, y.registers = [])
    : i.operands.map (E.operand s') = i.operands.map (E.operand s) := by
  apply List.map_congr_left
  intro y hy
  apply h.operand _ (haddresses y hy)
  rintro j rfl
  exact hvalues j hy

theorem value (h : s.Agrees X U s') (hi : i.Ignores X U id) (hid : id ∉ U)
    : E.value s' id i = E.value s id i := by
  unfold Interpretation.value
  rw [h.operands hi.operands hi.addresses]
  split
  . next x hx => exact h.registers x fun hmem => hid (hi.read x hx hmem)
  . rfl

theorem written (h : s.Agrees X U s') (hi : i.Ignores X U id) (hwrite : i.write? = some (x, y))
    : E.operand s' y = E.operand s y := by
  have hy : y ∈ i.operands := by
    rw [(write?_eq_some.mp hwrite).2]
    exact List.mem_cons_of_mem _ List.mem_cons_self
  apply h.operand _ (hi.addresses y hy)
  rintro j rfl
  exact hi.operands j hy

theorem registersAfter (h : s.Agrees X U s') (hi : i.Ignores X U id) (hx : x ∉ X)
    : E.registersAfter s' id i x = E.registersAfter s id i x := by
  cases hwrite : i.write? with
  | some p =>
    obtain ⟨z, y⟩ := p
    rw [Interpretation.registersAfter_of_write hwrite, Interpretation.registersAfter_of_write hwrite,
      h.written hi hwrite]
    by_cases hz : x = z
    . rw [hz, Function.update_self, Function.update_self]
    . rw [Function.update_of_ne hz, Function.update_of_ne hz]
      exact h.registers x hx
  | none =>
    unfold Interpretation.registersAfter
    rw [hwrite]
    by_cases htouch : i.opcode.touchesRegisters = true
    . cases hi.touch htouch
      rw [h.operands hi.operands hi.addresses, h.registers_eq]
    . dsimp only
      rw [if_neg htouch, if_neg htouch]
      exact h.registers x hx

theorem step (h : s.Agrees X U s') (hcode : r'.code? id = r.code? id)
    (hi : ∀ i, r.code? id = some i → i.Ignores X U id)
    : (E.step r s id).Agrees X U (E.step r' s' id) := by
  cases hid : r.code? id with
  | none =>
    unfold Interpretation.step
    rw [hcode, hid]
    exact h
  | some i =>
    rw [hid] at hcode
    constructor
    . intro x hx
      rw [Interpretation.step_registers hid, Interpretation.step_registers hcode]
      exact h.registersAfter (hi i hid) hx
    . intro j hj
      by_cases hne : j = id
      . subst hne
        rw [Interpretation.step_values_self hid, Interpretation.step_values_self hcode]
        exact h.value (hi i hid) hj
      . rw [Interpretation.step_values_of_ne hne, Interpretation.step_values_of_ne hne]
        exact h.values j hj

theorem run (h : s.Agrees X U s') (hcode : ∀ j ∈ ids, r'.code? j = r.code? j)
    (hi : ∀ j ∈ ids, ∀ i, r.code? j = some i → i.Ignores X U j)
    : (E.run r ids s).Agrees X U (E.run r' ids s') := by
  induction ids generalizing s s' with
  | nil => exact h
  | cons k rest ih =>
    obtain ⟨hk, hrest⟩ := List.forall_mem_cons.mp hcode
    obtain ⟨hik, hirest⟩ := List.forall_mem_cons.mp hi
    exact ih (h.step hk hik) hrest hirest

theorem drop (h : s.Agrees X U s') (hi : r.code? id = some i) (hid : id ∈ U)
    (htouch : i.opcode.touchesRegisters = false) (hX : X ⊆ Y)
    (hwrite : ∀ x y, i.write? = some (x, y) → x ∈ Y) : (E.step r s id).Agrees Y U s' := by
  constructor
  . intro x hx
    rw [h.registers x fun hmem => hx (hX hmem)]
    exact (Interpretation.step_registers_of_ne hi htouch fun y hy => hx (hwrite x y hy)).symm
  . intro j hj
    rw [h.values j hj, Interpretation.step_values_of_ne]
    rintro rfl
    exact hj hid

theorem add (h : s.Agrees X U s') (hi : r'.code? id = some i) (hid : id ∈ U)
    (htouch : i.opcode.touchesRegisters = false) (hwrite : i.write? = none)
    : s.Agrees X U (E.step r' s' id) := by
  constructor
  . intro x hx
    rw [← h.registers x hx]
    exact Interpretation.step_registers_of_ne hi htouch (by simp [hwrite])
  . intro j hj
    rw [← h.values j hj, Interpretation.step_values_of_ne]
    rintro rfl
    exact hj hid

end Stage.Agrees

theorem Routine.not_touches (hi : r.code? id = some i) (htouch : i.opcode.touchesRegisters = false)
    : ¬ r.Touches id := by
  rintro ⟨k, hk, hktouch⟩
  rw [hi] at hk
  cases hk
  rw [htouch] at hktouch
  cases hktouch

/--
The instructions `ids'` in place of `ids` lead from stages that agree apart from `X` to stages that
agree apart from `Y`. Those that touch registers are kept, and nothing differs where they stand.
-/
structure Interpretation.Matches (E : Interpretation W) (r r' : Routine)
    (U : Set InsnId) (X Y : Set Register) (ids ids' : List InsnId) : Prop where
  after : ∀ {s s'}, s.Agrees X U s' → (E.run r ids s).Agrees Y U (E.run r' ids' s')
  before : ∀ {s s' id}, s.Agrees X U s' → id ∈ ids → id ∈ ids' →
    ∃ Z, (E.before r ids s id).Agrees Z U (E.before r' ids' s' id)
  touched : ∀ {s s' id}, s.Agrees X U s' → id ∈ ids → r.Touches id →
    id ∈ ids' ∧ (E.before r ids s id).Agrees ∅ U (E.before r' ids' s' id)

namespace Interpretation.Matches

theorem same (hcode : ∀ j ∈ ids, r'.code? j = r.code? j)
    (hi : ∀ j ∈ ids, ∀ i, r.code? j = some i → i.Ignores X U j)
    : E.Matches r r' U X X ids ids := by
  have hbefore : ∀ {s s'} id, s.Agrees X U s' →
      (E.before r ids s id).Agrees X U (E.before r' ids s' id) := by
    intro s s' id h
    have hsub : ∀ j ∈ ids.takeWhile (· ≠ id), j ∈ ids :=
      fun j hj => (List.takeWhile_prefix _).subset hj
    exact h.run (fun j hj => hcode j (hsub j hj)) fun j hj => hi j (hsub j hj)
  constructor
  . intro s s' h
    exact h.run hcode hi
  . intro s s' id h _ _
    exact ⟨X, hbefore id h⟩
  . rintro s s' id h hid ⟨i, hcode, htouch⟩
    cases (hi id hid i hcode).touch htouch
    exact ⟨hid, hbefore id h⟩

theorem append (h : E.Matches r r' U X Y front front')
    (h' : E.Matches r r' U Y Z back back') (hold : ∀ j ∈ front, j ∉ back)
    (hnew : ∀ j ∈ front', j ∉ back) (hnew' : ∀ j ∈ front, j ∉ back')
    : E.Matches r r' U X Z (front ++ back) (front' ++ back') := by
  constructor
  . intro s s' hs
    rw [run_append, run_append]
    exact h'.after (h.after hs)
  . intro s s' id hs hid hid'
    rcases List.mem_append.mp hid with hid | hid
    . have hid' := (List.mem_append.mp hid').resolve_right (hnew' id hid)
      rw [before_append_left hid, before_append_left hid']
      exact h.before hs hid hid'
    . have hfront : id ∉ front := fun hf => hold id hf hid
      have hfront' : id ∉ front' := fun hf => hnew id hf hid
      rw [before_append_right hfront, before_append_right hfront']
      exact h'.before (h.after hs) hid ((List.mem_append.mp hid').resolve_left hfront')
  . intro s s' id hs hid htouch
    rcases List.mem_append.mp hid with hid | hid
    . obtain ⟨hid', hbefore⟩ := h.touched hs hid htouch
      rw [before_append_left hid, before_append_left hid']
      exact ⟨List.mem_append_left _ hid', hbefore⟩
    . obtain ⟨hid', hbefore⟩ := h'.touched (h.after hs) hid htouch
      rw [before_append_right fun hf => hold id hf hid, before_append_right fun hf => hnew id hf hid]
      exact ⟨List.mem_append_right _ hid', hbefore⟩

theorem drop (hi : r.code? id = some i) (hid : id ∈ U)
    (htouch : i.opcode.touchesRegisters = false) (hX : X ⊆ Y)
    (hwrite : ∀ x y, i.write? = some (x, y) → x ∈ Y) : E.Matches r r' U X Y [id] [] := by
  constructor
  . intro s s' h
    exact h.drop hi hid htouch hX hwrite
  . intro s s' j h hj hj'
    cases hj'
  . intro s s' j h hj hjtouch
    cases List.mem_singleton.mp hj
    exact absurd hjtouch (Routine.not_touches hi htouch)

theorem add (hi : r'.code? id = some i) (hid : id ∈ U)
    (htouch : i.opcode.touchesRegisters = false) (hwrite : i.write? = none)
    : E.Matches r r' U X X [] [id] := by
  constructor
  . intro s s' h
    exact h.add hi hid htouch hwrite
  . intro s s' j h hj
    cases hj
  . intro s s' j h hj
    cases hj

theorem change (hi : r.code? id = some i) (hi' : r'.code? id = some i') (hid : id ∈ U)
    (htouch : i.opcode.touchesRegisters = false) (htouch' : i'.opcode.touchesRegisters = false)
    (hwrite : i.write? = none) (hwrite' : i'.write? = none)
    : E.Matches r r' U X X [id] [id] := by
  constructor
  . intro s s' h
    exact (h.drop hi hid htouch subset_rfl (by simp [hwrite])).add hi' hid htouch' hwrite'
  . intro s s' j h hj hj'
    cases List.mem_singleton.mp hj
    rw [before_singleton, before_singleton]
    exact ⟨X, h⟩
  . intro s s' j h hj hjtouch
    cases List.mem_singleton.mp hj
    exact absurd hjtouch (Routine.not_touches hi htouch)

theorem overwrite (hi : r.code? id = some i) (hcode : r'.code? id = r.code? id)
    (hignores : i.Ignores {x} U id) (hwrite : i.write? = some (x, y))
    : E.Matches r r' U {x} ∅ [id] [id] := by
  have hsame : E.Matches r r' U {x} {x} [id] [id] := by
    apply same
    . intro j hj
      rw [List.mem_singleton.mp hj, hcode]
    . intro j hj k hk
      cases List.mem_singleton.mp hj
      rw [hi] at hk
      cases hk
      exact hignores
  refine ⟨?_, hsame.before, hsame.touched⟩
  intro s s' h
  refine ⟨?_, (hsame.after h).values⟩
  intro z _
  by_cases hz : z = x
  . show (E.step r' s' id).registers z = (E.step r s id).registers z
    rw [step_registers hi, step_registers (hcode.trans hi), registersAfter_of_write hwrite,
      registersAfter_of_write hwrite, h.written hignores hwrite, hz, Function.update_self,
      Function.update_self]
  . exact (hsame.after h).registers z hz

end Interpretation.Matches

end Agreement

section Substitution

variable {W : Type} {E : Interpretation W} {r r' : Routine} {s : Stage W} {b : BlockId}
  {width : Register → Nat} {v : ValueId} {id j : InsnId} {i : Instruction} {y : Operand}
  {ids front back : List InsnId}

open Instruction

namespace Interpretation

theorem operands_substitute (h : .value v ∈ i.operands → E.operand s y = E.operand s (.value v))
    : (i.substitute v y).operands.map (E.operand s) = i.operands.map (E.operand s) := by
  unfold Instruction.substitute
  rw [List.map_map]
  apply List.map_congr_left
  intro z hz
  dsimp only [Function.comp_apply]
  split
  . next heq =>
    rw [heq] at hz ⊢
    exact h hz
  . rfl

theorem value_substitute (hi : i.Regular width)
    (h : i.opcode ≠ .phi → .value v ∈ i.operands → E.operand s y = E.operand s (.value v))
    : E.value s j (i.substitute v y) = E.value s j i := by
  unfold value
  rw [hi.readRegister?_substitute]
  by_cases hphi : i.opcode = .phi
  . have hphi' : (i.substitute v y).opcode = .phi := hphi
    simp only [hphi, hphi', or_true, if_true]
  . rw [operands_substitute (h hphi)]
    rfl

theorem registersAfter_substitute (hi : i.Regular width)
    (h : i.opcode ≠ .phi → .value v ∈ i.operands → E.operand s y = E.operand s (.value v))
    : E.registersAfter s j (i.substitute v y) = E.registersAfter s j i := by
  cases hwrite : i.write? with
  | some p =>
    obtain ⟨x, z⟩ := p
    obtain ⟨hopcode, hoperands⟩ := write?_eq_some.mp hwrite
    have hwrite' : (i.substitute v y).write? = some (x, if z = .value v then y else z) := by
      rw [hi.write?_substitute, hwrite]
      rfl
    rw [registersAfter_of_write hwrite', registersAfter_of_write hwrite]
    congr 1
    split
    . next heq =>
      rw [heq]
      exact h (by simp [hopcode]) (by simp [hoperands, heq])
    . rfl
  | none =>
    have hwrite' : (i.substitute v y).write? = none := by
      rw [hi.write?_substitute, hwrite]
      rfl
    unfold registersAfter
    rw [hwrite, hwrite']
    by_cases hphi : i.opcode = .phi
    . have hphi' : (i.substitute v y).opcode = .phi := hphi
      rw [hphi, hphi']
      rfl
    . rw [operands_substitute (h hphi)]
      rfl

theorem step_substitute (hcode : r'.code? j = (r.code? j).map (·.substitute v y))
    (hregular : ∀ i, r.code? j = some i → i.Regular width)
    (h : ∀ i, r.code? j = some i → i.opcode ≠ .phi → .value v ∈ i.operands →
      E.operand s y = E.operand s (.value v))
    : E.step r' s j = E.step r s j := by
  unfold step
  rw [hcode]
  cases hi : r.code? j with
  | none => rfl
  | some i =>
    dsimp only [Option.map_some]
    rw [value_substitute (hregular i hi) (h i hi), registersAfter_substitute (hregular i hi) (h i hi)]

theorem run_substitute_of_free (hcode : ∀ j, r'.code? j = (r.code? j).map (·.substitute v y))
    (hregular : ∀ j ∈ ids, ∀ i, r.code? j = some i → i.Regular width)
    (hfree : ∀ j ∈ ids, ∀ i, r.code? j = some i → i.opcode ≠ .phi → .value v ∉ i.operands)
    : E.run r' ids s = E.run r ids s := by
  induction ids generalizing s with
  | nil => rfl
  | cons k rest ih =>
    obtain ⟨hk, hrest⟩ := List.forall_mem_cons.mp hregular
    obtain ⟨hfreek, hfreerest⟩ := List.forall_mem_cons.mp hfree
    rw [run_cons, run_cons, step_substitute (hcode k) hk
      fun i hi hphi hv => absurd hv (hfreek i hi hphi)]
    exact ih hrest hfreerest

theorem operand_run (hids : ∀ j ∈ ids, j ≠ id ∧ y ≠ .insn j) (hy : y.registers = [])
    (hheld : E.operand s y = s.values id)
    : E.operand (E.run r ids s) y = (E.run r ids s).values id := by
  induction ids generalizing s with
  | nil => exact hheld
  | cons k rest ih =>
    obtain ⟨⟨hk, hyk⟩, hrest⟩ := List.forall_mem_cons.mp hids
    apply ih hrest
    rw [operand_step hyk hy, step_values_of_ne hk.symm]
    exact hheld

theorem run_substitute_of_held (hcode : ∀ j, r'.code? j = (r.code? j).map (·.substitute (.insn id) y))
    (hregular : ∀ j ∈ ids, ∀ i, r.code? j = some i → i.Regular width)
    (hids : ∀ j ∈ ids, j ≠ id ∧ y ≠ .insn j) (hy : y.registers = [])
    (hheld : E.operand s y = s.values id)
    : E.run r' ids s = E.run r ids s := by
  induction ids generalizing s with
  | nil => rfl
  | cons k rest ih =>
    obtain ⟨hk, hrest⟩ := List.forall_mem_cons.mp hregular
    obtain ⟨⟨hid, hyk⟩, hidrest⟩ := List.forall_mem_cons.mp hids
    rw [run_cons, run_cons, step_substitute (hcode k) hk fun i _ _ _ => hheld]
    apply ih hrest hidrest
    rw [operand_step hyk hy, step_values_of_ne hid.symm]
    exact hheld

end Interpretation

structure Interpretation.Substitutes (E : Interpretation W) (s : Stage W) (r : Routine)
    (width : Register → Nat) (id : InsnId) (y : Operand) (front back : List InsnId) : Prop where
  regular : ∀ j ∈ front ++ back, ∀ i, r.code? j = some i → i.Regular width
  free : ∀ j ∈ front, ∀ i, r.code? j = some i → i.opcode ≠ .phi → .insn id ∉ i.operands
  behind : ∀ j ∈ back, j ≠ id ∧ y ≠ .insn j
  fixed : y.registers = []
  held : E.operand (E.run r front s) y = (E.run r front s).values id

namespace Interpretation.Substitutes

section Code

variable (h : E.Substitutes s r width id y front back)
  (hcode : ∀ j, r'.code? j = (r.code? j).map (·.substitute (.insn id) y))

include h hcode

theorem run_front (hids : ids ⊆ front) : E.run r' ids s = E.run r ids s :=
  run_substitute_of_free hcode (fun j hj => h.regular j (List.mem_append_left _ (hids hj)))
    fun j hj => h.free j (hids hj)

theorem run_back (hids : ids ⊆ back)
    : E.run r' ids (E.run r' front s) = E.run r ids (E.run r front s) := by
  rw [h.run_front hcode (List.Subset.refl front)]
  exact run_substitute_of_held hcode (fun j hj => h.regular j (List.mem_append_right _ (hids hj)))
    (fun j hj => h.behind j (hids hj)) h.fixed h.held

theorem before_eq (j : InsnId)
    : E.before r' (front ++ back) s j = E.before r (front ++ back) s j := by
  by_cases hj : j ∈ front
  . rw [before_append_left hj, before_append_left hj]
    exact h.run_front hcode (List.takeWhile_prefix _).subset
  . rw [before_append_right hj, before_append_right hj]
    exact h.run_back hcode (List.takeWhile_prefix _).subset

theorem run_eq : E.run r' (front ++ back) s = E.run r (front ++ back) s := by
  rw [run_append, run_append]
  exact h.run_back hcode (List.Subset.refl back)

theorem seen_eq (j : InsnId)
    : E.seen r' (front ++ back) s j = E.seen r (front ++ back) s j := by
  unfold seen
  rw [hcode, h.before_eq hcode, h.run_eq hcode]
  cases hi : r.code? j with
  | none => rfl
  | some i =>
    apply operands_substitute
    intro hv
    -- a phi can stand anywhere, since it looks at the end of the run
    by_cases hphi : i.opcode = .phi
    . have hphi' : (i.substitute (.insn id) y).opcode = .phi := hphi
      rw [if_pos hphi', run_append]
      exact operand_run h.behind h.fixed h.held
    . have hphi' : (i.substitute (.insn id) y).opcode ≠ .phi := hphi
      have hj : j ∉ front := fun hmem => h.free j hmem i hi hphi hv
      rw [if_neg hphi', before_append_right hj]
      exact operand_run (fun k hk => h.behind k ((List.takeWhile_prefix _).subset hk)) h.fixed h.held

end Code

theorem simulates (h : E.Substitutes s r width id y front back)
    (hlist : r.insnsOf b = front ++ back) (hlist' : r'.insnsOf b = front ++ back)
    (hcode : ∀ j, r'.code? j = (r.code? j).map (·.substitute (.insn id) y))
    : E.Simulates s b r r' := by
  constructor
  . intro j _ _
    rw [hlist, hlist', h.seen_eq hcode]
  . rintro j hj ⟨i, hi, htouch⟩
    refine ⟨by rwa [hlist', ← hlist], ⟨i.substitute (.insn id) y, ?_, htouch⟩, ?_⟩
    . rw [hcode, hi]
      rfl
    . rw [hlist, hlist', h.before_eq hcode]
  . rw [hlist, hlist', h.run_eq hcode]

end Interpretation.Substitutes

end Substitution

end MachineIR
