import MachineIR.Constant.Conversion
import MachineIR.Proofs.Identity

/-!
This module contains the evaluation of operands by the algebra of literals. Some instructions, such
as reads of registers, are given their values; the others are computed from their operands, which is
done down to a depth, so that a value that depends on itself has no result.
-/

namespace MachineIR

def Opcode.isGiven : Opcode → Bool
  | readReg | loadMem | phi | undef | poison => true
  | _ => false

namespace Insn

def perform? (i : Insn) (arg : Nat → Option Constant) : Option Constant :=
  match i.opcode with
  | .binop | .cmp => do Constant.binary? (← i.operator?) (← arg 1) (← arg 2)
  | .unop => do Constant.unary? (← i.operator?) (← arg 1)
  | .cast => do Constant.convert? .zero (← arg 0) (i.template 1)
  | .castSx => do Constant.convert? .sign (← arg 0) (i.template 1)
  | .bitcast => do Constant.bitcast? (← arg 0) (i.template 1)
  | .select => do if ← Constant.toBool? (← arg 0) then arg 1 else arg 2
  | _ => none

def compute? (i : Insn) (arg : Nat → Option Constant) : Option Constant :=
  (i.perform? arg).filter (·.ty == i.ty)

def argument? (i : Insn) (value : Operand → Option Constant) (k : Nat) : Option Constant :=
  (i.operand? k).bind value

def result? (i : Insn) (given : Option Constant) (value : Operand → Option Constant) :
    Option Constant :=
  if i.opcode.isGiven then given else i.compute? (i.argument? value)

theorem compute?_eq_some {i : Insn} {arg : Nat → Option Constant} {c : Constant}
    : i.compute? arg = some c ↔ i.perform? arg = some c ∧ c.ty = i.ty := by
  simp [compute?, Option.filter_eq_some_iff]

theorem operator?_eq (i : Insn)
    : i.operator? = match i.opcode, i.const? 0 with
        | .binop, some (.op o) => some o
        | .unop, some (.op o) => some o
        | .cmp, some (.op o) => some o
        | _, _ => none := by
  unfold const?
  rw [operand?_eq]
  rfl

theorem operator?_congr {i i' : Insn} (hopcode : i'.opcode = i.opcode)
    (hconst : i'.const? 0 = i.const? 0) : i'.operator? = i.operator? := by
  rw [operator?_eq, operator?_eq, hopcode, hconst]

theorem const?_of_operator? {i : Insn} {o : Operator} (h : i.operator? = some o)
    : i.const? 0 = some (.op o) := by
  rw [operator?_eq] at h
  split at h
  . next heq =>
    cases h
    exact heq
  . next heq =>
    cases h
    exact heq
  . next heq =>
    cases h
    exact heq
  . cases h

theorem perform?_mono {i i' : Insn} {arg arg' : Nat → Option Constant} {c : Constant}
    (hopcode : i'.opcode = i.opcode) (htemplates : i'.templates = i.templates)
    (hoperator : ∀ o, i.operator? = some o → i'.operator? = some o)
    (harg : ∀ k c, arg k = some c → arg' k = some c) (h : i.perform? arg = some c)
    : i'.perform? arg' = some c := by
  have htemplate : i'.template 1 = i.template 1 := by
    simp [template, code, Instruction.template, htemplates]
  unfold perform? at h ⊢
  rw [hopcode, htemplate]
  generalize i.opcode = opcode at h ⊢
  cases opcode
  case binop | cmp =>
    simp only [Option.bind_eq_bind, Option.bind_eq_some_iff] at h ⊢
    obtain ⟨o, ho, a, ha, b, hb, hc⟩ := h
    exact ⟨o, hoperator o ho, a, harg 1 a ha, b, harg 2 b hb, hc⟩
  case unop =>
    simp only [Option.bind_eq_bind, Option.bind_eq_some_iff] at h ⊢
    obtain ⟨o, ho, a, ha, hc⟩ := h
    exact ⟨o, hoperator o ho, a, harg 1 a ha, hc⟩
  case cast | castSx | bitcast =>
    simp only [Option.bind_eq_bind, Option.bind_eq_some_iff] at h ⊢
    obtain ⟨a, ha, hc⟩ := h
    exact ⟨a, harg 0 a ha, hc⟩
  case select =>
    simp only [Option.bind_eq_bind, Option.bind_eq_some_iff] at h ⊢
    obtain ⟨a, ha, b, hb, hc⟩ := h
    refine ⟨a, harg 0 a ha, b, hb, ?_⟩
    cases b with
    | true => exact harg 1 c hc
    | false => exact harg 2 c hc
  all_goals cases h

theorem ty_eq_of_templates {i i' : Insn} (hopcode : i'.opcode = i.opcode)
    (htemplates : i'.templates = i.templates) : i'.ty = i.ty := by
  have htemplate : i'.code.template = i.code.template := by
    funext k
    simp [code, Instruction.template, htemplates]
  have hresolve : i'.code.resolve? = i.code.resolve? := by
    funext slot
    cases slot <;> simp [Instruction.resolve?, htemplate]
  unfold ty Instruction.ty
  rw [hresolve]
  change (i.code.resolve? i'.opcode.signature.result).getD .none = _
  rw [hopcode]
  rfl

theorem result?_mono {i i' : Insn} {given : Option Constant} {value value' : Operand → Option Constant}
    {c : Constant} (hopcode : i'.opcode = i.opcode) (htemplates : i'.templates = i.templates)
    (hoperator : ∀ o, i.operator? = some o → i'.operator? = some o)
    (harg : ∀ k c, i.argument? value k = some c → i'.argument? value' k = some c)
    (h : i.result? given value = some c) : i'.result? given value' = some c := by
  unfold result? at h ⊢
  rw [hopcode]
  split
  . next hgiven => rwa [if_pos hgiven] at h
  . next hgiven =>
    rw [if_neg hgiven, compute?_eq_some] at h
    rw [compute?_eq_some, ty_eq_of_templates hopcode htemplates]
    exact ⟨perform?_mono hopcode htemplates hoperator harg h.1, h.2⟩

theorem result?_congr {i i' : Insn} {given : Option Constant}
    {value value' : Operand → Option Constant} (hopcode : i'.opcode = i.opcode)
    (htemplates : i'.templates = i.templates) (hoperator : i'.operator? = i.operator?)
    (harg : ∀ k, i'.argument? value' k = i.argument? value k)
    : i'.result? given value' = i.result? given value := by
  apply Option.ext
  intro c
  constructor
  . apply result?_mono hopcode.symm htemplates.symm
    . intro o ho
      rw [← hoperator, ho]
    . intro k d hd
      rw [← harg, hd]
  . apply result?_mono hopcode htemplates
    . intro o ho
      rw [hoperator, ho]
    . intro k d hd
      rw [harg, hd]

section Operations

variable {i : Insn} {given : Option Constant} {value : Operand → Option Constant} {c : Constant}

theorem argument?_eq_some {k : Nat} {a : Constant}
    : i.argument? value k = some a ↔ ∃ x, i.operand? k = some x ∧ value x = some a :=
  Option.bind_eq_some_iff

theorem result?_of_binary (hopcode : i.opcode = .binop ∨ i.opcode = .cmp)
    : i.result? given value = some c ↔
        ∃ o a b, i.operator? = some o ∧ i.argument? value 1 = some a ∧
          i.argument? value 2 = some b ∧ Constant.binary? o a b = some c ∧ c.ty = i.ty := by
  have hgiven : i.opcode.isGiven = false := by
    rcases hopcode with h | h <;> rw [h] <;> rfl
  have happly : i.perform? (i.argument? value) = i.operator?.bind fun o =>
      (i.argument? value 1).bind fun a => (i.argument? value 2).bind (Constant.binary? o a) := by
    unfold perform?
    rcases hopcode with h | h <;> rw [h] <;> rfl
  rw [result?, hgiven, if_neg Bool.false_ne_true, compute?_eq_some, happly]
  simp only [Option.bind_eq_some_iff]
  constructor
  . rintro ⟨⟨o, ho, a, ha, b, hb, hc⟩, hty⟩
    exact ⟨o, a, b, ho, ha, hb, hc, hty⟩
  . rintro ⟨o, a, b, ho, ha, hb, hc, hty⟩
    exact ⟨⟨o, ho, a, ha, b, hb, hc⟩, hty⟩

theorem result?_of_unop (hopcode : i.opcode = .unop)
    : i.result? given value = some c ↔
        ∃ o a, i.operator? = some o ∧ i.argument? value 1 = some a ∧
          Constant.unary? o a = some c ∧ c.ty = i.ty := by
  rw [result?, hopcode, if_neg (by decide), compute?_eq_some, perform?, hopcode]
  simp only [Option.bind_eq_bind, Option.bind_eq_some_iff]
  constructor
  . rintro ⟨⟨o, ho, a, ha, hc⟩, hty⟩
    exact ⟨o, a, ho, ha, hc, hty⟩
  . rintro ⟨o, a, ho, ha, hc, hty⟩
    exact ⟨⟨o, ho, a, ha, hc⟩, hty⟩

theorem result?_of_bitcast (hopcode : i.opcode = .bitcast)
    : i.result? given value = some c ↔
        ∃ a, i.argument? value 0 = some a ∧ Constant.bitcast? a (i.template 1) = some c ∧
          c.ty = i.ty := by
  rw [result?, hopcode, if_neg (by decide), compute?_eq_some, perform?, hopcode]
  simp only [Option.bind_eq_bind, Option.bind_eq_some_iff]
  constructor
  . rintro ⟨⟨a, ha, hc⟩, hty⟩
    exact ⟨a, ha, hc, hty⟩
  . rintro ⟨a, ha, hc, hty⟩
    exact ⟨⟨a, ha, hc⟩, hty⟩

theorem argument?_of_select (hopcode : i.opcode = .select) (h : i.result? given value = some c)
    : i.argument? value 1 = some c ∨ i.argument? value 2 = some c := by
  rw [result?, hopcode, if_neg (by decide), compute?_eq_some, perform?, hopcode] at h
  simp only [Option.bind_eq_bind, Option.bind_eq_some_iff] at h
  obtain ⟨⟨a, -, b, -, hc⟩, -⟩ := h
  cases b with
  | true => exact Or.inl hc
  | false => exact Or.inr hc

end Operations

end Insn

namespace Routine

variable {r r' : Routine} {given : InsnId → Option Constant} {n : Nat} {x y : Operand} {c : Constant}

def evaluate? (r : Routine) (given : InsnId → Option Constant) : Nat → Operand → Option Constant
  | _, .const c => some c
  | depth + 1, .value (.insn id) =>
    (r.insn? id).bind fun i => i.result? (given id) (evaluate? r given depth)
  | _, _ => none

def Evaluates (r : Routine) (given : InsnId → Option Constant) (x : Operand) (c : Constant) : Prop :=
  ∃ n, r.evaluate? given n x = some c

@[simp]
theorem evaluate?_const : r.evaluate? given n (.const c) = some c := by
  unfold evaluate?
  rfl

theorem evaluate?_insn {id : InsnId}
    : r.evaluate? given (n + 1) (.insn id) =
        (r.insn? id).bind fun i => i.result? (given id) (r.evaluate? given n) := by
  rw [evaluate?]

theorem evaluate?_eq_some (h : r.evaluate? given n x = some c)
    : x = .const c ∨ ∃ m id i, n = m + 1 ∧ x = .insn id ∧ r.insn? id = some i ∧
        i.result? (given id) (r.evaluate? given m) = some c := by
  cases x with
  | const d =>
    rw [evaluate?_const] at h
    cases h
    exact Or.inl rfl
  | reg s => simp [evaluate?] at h
  | mem m => simp [evaluate?] at h
  | value v =>
    cases v with
    | block b => simp [evaluate?] at h
    | insn id =>
      cases n with
      | zero => simp [evaluate?] at h
      | succ m =>
        rw [evaluate?_insn, Option.bind_eq_some_iff] at h
        obtain ⟨i, hi, hc⟩ := h
        exact Or.inr ⟨m, id, i, rfl, rfl, hi, hc⟩

theorem evaluate?_of_step
    (hstep : ∀ m id i c, r.insn? id = some i → i.result? (given id) (r.evaluate? given m) = some c →
      ∃ i', r'.insn? id = some i' ∧ i'.result? (given id) (r.evaluate? given m) = some c)
    (h : r.evaluate? given n x = some c) (d : Nat) : r'.evaluate? given (n + d) x = some c := by
  induction n generalizing x c with
  | zero =>
    rcases evaluate?_eq_some h with rfl | ⟨m, id, i, hm, -⟩
    . exact evaluate?_const
    . cases hm
  | succ n ih =>
    rcases evaluate?_eq_some h with rfl | ⟨m, id, i, hm, rfl, hi, hc⟩
    . exact evaluate?_const
    . cases hm
      obtain ⟨i', hi', hc'⟩ := hstep n id i c hi hc
      rw [Nat.add_right_comm, evaluate?_insn, hi', Option.bind_some]
      refine Insn.result?_mono rfl rfl (fun o ho => ho) ?_ hc'
      intro k d hd
      obtain ⟨y, hy, hval⟩ := Option.bind_eq_some_iff.mp hd
      exact Option.bind_eq_some_iff.mpr ⟨y, hy, ih hval⟩

theorem evaluate?_mono {m : Nat} (h : r.evaluate? given n x = some c) (hle : n ≤ m)
    : r.evaluate? given m x = some c := by
  obtain ⟨d, rfl⟩ := Nat.exists_eq_add_of_le hle
  exact evaluate?_of_step (fun m id i c hi hc => ⟨i, hi, hc⟩) h d

/-- Values for the instructions that are given theirs. -/
structure Valuation (r : Routine) where
  value : InsnId → Option Constant
  typed : ∀ id i c, r.insn? id = some i → i.opcode.isGiven = true → value id = some c → c.ty = i.ty
  identical : ∀ a b i j, r.insn? a = some i → r.insn? b = some j → i.opcode.isGiven = true →
    j.opcode.isGiven = true → r.identicalValues (.insn a) (.insn b) = true → value a = value b

namespace Valuation

variable (ρ : r.Valuation)

theorem ty_evaluate? (h : r.evaluate? ρ.value n x = some c) : c.ty = r.operandType x := by
  rcases evaluate?_eq_some h with rfl | ⟨m, id, i, -, rfl, hi, hc⟩
  . rfl
  . have hty : r.operandType (.insn id) = i.ty := by
      simp [operandType, valueType, hi]
    rw [hty]
    unfold Insn.result? at hc
    split at hc
    . next hgiven => exact ρ.typed id i c hi hgiven hc
    . exact (Insn.compute?_eq_some.mp hc).2

theorem evaluate?_eq_of_identical (h : r.identical x y = true)
    : r.evaluate? ρ.value n x = r.evaluate? ρ.value n y := by
  rw [identical_iff] at h
  induction n generalizing x y with
  | zero =>
    unfold Operand.Related at h
    split at h
    . simp [evaluate?]
    . rw [h]
  | succ n ih =>
    unfold Operand.Related at h
    split at h
    . next a b =>
      rcases h.cases with rfl | hmem | ⟨-, p, q, i, j, rfl, rfl, hi, hj, hshape, hops⟩
      . rfl
      . cases hmem
      . obtain ⟨hopcode, htemplates, hlength⟩ := Insn.eq_of_sameShape hshape
        -- The operands are related slot by slot, and both lists of them end at the same slot.
        have hrelated : ∀ k, (i.operand? k = none ∧ j.operand? k = none) ∨
            ∃ x y, i.operand? k = some x ∧ j.operand? k = some y ∧ x.Related (r.Alike []) y := by
          intro k
          rw [Insn.operand?_eq, Insn.operand?_eq]
          by_cases hk : k < i.operands.length
          . right
            have hk' : k < j.operands.length := by omega
            exact ⟨_, _, List.getElem?_eq_getElem hk, List.getElem?_eq_getElem hk',
              hops k _ _ (List.getElem?_eq_getElem hk) (List.getElem?_eq_getElem hk')⟩
          . left
            exact ⟨List.getElem?_eq_none (by omega), List.getElem?_eq_none (by omega)⟩
        -- A valuation gives the same value to instructions that are identical.
        have hgiven : i.opcode.isGiven = true → ρ.value p = ρ.value q := by
          intro hgiven
          exact ρ.identical p q i j hi hj hgiven (by rw [← hopcode, hgiven])
            (identicalValues_iff.mpr h)
        rw [evaluate?_insn, evaluate?_insn, hi, hj, Option.bind_some, Option.bind_some]
        have hsame : i.result? (ρ.value p) (r.evaluate? ρ.value n) =
            j.result? (ρ.value p) (r.evaluate? ρ.value n) := by
          apply Insn.result?_congr hopcode htemplates
          . apply Insn.operator?_congr hopcode
            unfold Insn.const?
            rcases hrelated 0 with ⟨hx, hy⟩ | ⟨x, y, hx, hy, hxy⟩
            . rw [hx, hy]
            . rw [hx, hy, Option.bind_some, Option.bind_some, hxy.const?_eq]
          . intro k
            unfold Insn.argument?
            rcases hrelated k with ⟨hx, hy⟩ | ⟨x, y, hx, hy, hxy⟩
            . rw [hx, hy]
            . rw [hx, hy, Option.bind_some, Option.bind_some, ih hxy]
        rw [hsame]
        unfold Insn.result?
        split
        . next hj => exact hgiven (by rw [hopcode, hj])
        . rfl
    . rw [h]

def uniform (r : Routine) (raw : Nat) : r.Valuation where
  value id := (r.insn? id).bind fun i => Constant.ofBits? i.ty raw
  typed := by
    intro id i c hi _ hc
    rw [hi, Option.bind_some] at hc
    cases ht : i.ty <;> rw [ht] at hc <;> cases hc
    rfl
  identical := by
    intro a b i j hi hj _ _ h
    rw [hi, hj, Option.bind_some, Option.bind_some]
    rcases (identicalValues_iff.mp h).cases with heq | hmem | ⟨hty, -⟩
    . cases heq
      rw [hi] at hj
      cases hj
      rfl
    . cases hmem
    . simp only [valueType, hi, hj, Option.map_some, Option.getD_some] at hty
      rw [hty]

end Valuation

end Routine

end MachineIR
