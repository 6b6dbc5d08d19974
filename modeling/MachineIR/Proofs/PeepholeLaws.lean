import MachineIR.Proofs.Algebra
import MachineIR.Proofs.Checks
import MachineIR.Proofs.Evaluation
import MachineIR.Proofs.PeepholeRules

/-!
This module contains the soundness of the local simplifications: whatever an instruction evaluates
to, it does so after a rule has been applied to any instruction, and so do the operands of the
others.
-/

namespace MachineIR

namespace Insn

variable {i : Insn} {k : Nat} {x : Operand}

def withOperand (k : Nat) (x : Operand) (i : Insn) : Insn :=
  { i with slots := i.slots.modify k fun _ => ⟨x, none⟩ }

theorem operand?_withOperand (hk : i.operand? k ≠ none) (m : Nat)
    : (i.withOperand k x).operand? m = if m = k then some x else i.operand? m := by
  unfold operand? withOperand at *
  simp only [List.getElem?_modify]
  by_cases hm : k = m
  . subst hm
    cases hs : i.slots[k]? with
    | none => simp [hs] at hk
    | some s => simp
  . have : ¬ m = k := fun heq => hm heq.symm
    simp [hm, this]

theorem operator?_of_const {o : Operator} (hopcode : i.opcode = .binop)
    (h : i.operand? 0 = some (.const (.op o))) : i.operator? = some o := by
  rw [operator?_eq, hopcode, const?, h]
  rfl

theorem slotType?_eq {o : Opcode} (h : i.opcode = o) (k : Nat)
    : i.code.slotType? k =
        i.code.resolve? (o.signature.operands.getD k (o.signature.variadic.getD .any)) := by
  rw [← h]
  rfl

theorem ty_eq {o : Opcode} (h : i.opcode = o)
    : i.ty = (i.code.resolve? o.signature.result).getD .none := by
  rw [← h]
  rfl

theorem ty_of_conversion (h : i.opcode = .bitcast ∨ i.opcode = .cast ∨ i.opcode = .castSx)
    : i.ty = i.template 1 ∧ i.code.slotType? 0 = some (i.template 0) := by
  rcases h with h | h | h <;> rw [ty_eq h, slotType?_eq h] <;> exact ⟨rfl, rfl⟩

theorem slotType?_of_binary (h : i.opcode = .binop ∨ i.opcode = .cmp) (hk : k = 1 ∨ k = 2)
    : i.code.slotType? k = some (i.template 0) := by
  rcases h with h | h <;> rcases hk with rfl | rfl <;> rw [slotType?_eq h] <;> rfl

end Insn

namespace Operator

variable {o : Operator} {x y : Operand} {a c d : Constant} {t : Ty}

theorem eq_zero_of_isZero {s : Scalar} {q : BitVec s.width} (hs : s.isInteger = true)
    (h : (Constant.scalar s q).isZero = true) : q = 0#_ := by
  simp only [Constant.isZero, Constant.toNat?, hs, ↓reduceIte, beq_iff_eq, Option.some.injEq] at h
  apply BitVec.eq_of_toNat_eq
  simpa using h

theorem eq_one_of_isOne {s : Scalar} {q : BitVec s.width} (hs : s.isInteger = true)
    (h : (Constant.scalar s q).isOne = true) : q = 1#_ := by
  simp only [Constant.isOne, Constant.toNat?, hs, ↓reduceIte, beq_iff_eq, Option.some.injEq] at h
  apply BitVec.eq_of_toNat_eq
  rw [h, BitVec.toNat_ofNat, Nat.mod_eq_of_lt (Nat.one_lt_two_pow (Nat.ne_of_gt s.width_pos))]

theorem eq_allOnes_of_isAllOnes {s : Scalar} {q : BitVec s.width}
    (h : (Constant.scalar s q).isAllOnes = true) : q = BitVec.allOnes _ := by
  simp only [Constant.isAllOnes, Bool.and_eq_true, beq_iff_eq] at h
  exact h.2

theorem withConstant?_sound (h : o.withConstant? x c t = some y) (ha : a.ty = t)
    (ht : t.isInteger = true) (hbinary : Constant.binary? o a c = some d)
    : (y = x ∧ d = a) ∨ y = .const d := by
  subst ha
  obtain ⟨s, p, q, rfl, rfl, hd⟩ := Constant.binary?_eq_some hbinary
  have hs := Constant.isInteger_of_ty ht
  have hzero : Constant.ofInt? (Constant.scalar s p).ty 0 = some (.scalar s 0#_) := by
    simp [Constant.ofInt?, hs]
  -- Zero is neutral on the right of most operators, and these share one argument.
  cases o
  case add | sub | xor | shl | shr | sar | rol | ror =>
    rw [Constant.binaryWords?_of_int hs rfl] at hd
    simp only [withConstant?, Option.ite_none_right_eq_some, Option.some.injEq] at h
    obtain ⟨hc, rfl⟩ := h
    rw [eq_zero_of_isZero hs hc, Constant.intBinary?_zero (by simp)] at hd
    cases hd
    exact Or.inl ⟨rfl, rfl⟩
  case or =>
    rw [Constant.binaryWords?_of_int hs rfl] at hd
    simp only [withConstant?] at h
    split at h
    . next hc =>
      cases h
      rw [eq_zero_of_isZero hs hc, Constant.intBinary?_zero (by simp)] at hd
      cases hd
      exact Or.inl ⟨rfl, rfl⟩
    . split at h
      . next hc =>
        cases h
        rw [eq_allOnes_of_isAllOnes hc] at hd ⊢
        cases hd
        right
        simp
      . cases h
  case mul =>
    rw [Constant.binaryWords?_of_int hs rfl] at hd
    simp only [withConstant?, hzero, Option.map_some] at h
    split at h
    . next hc =>
      cases h
      rw [eq_one_of_isOne hs hc, Constant.intBinary?_one (by simp)] at hd
      cases hd
      exact Or.inl ⟨rfl, rfl⟩
    . split at h
      . next hc =>
        cases h
        rw [eq_zero_of_isZero hs hc, Constant.intBinary?_absorbing (by simp)] at hd
        cases hd
        exact Or.inr rfl
      . cases h
  case div | udiv =>
    rw [Constant.binaryWords?_of_int hs rfl] at hd
    simp only [withConstant?, Option.ite_none_right_eq_some, Option.some.injEq] at h
    obtain ⟨hc, rfl⟩ := h
    rw [eq_one_of_isOne hs hc, Constant.intBinary?_one (by simp)] at hd
    cases hd
    exact Or.inl ⟨rfl, rfl⟩
  case and =>
    rw [Constant.binaryWords?_of_int hs rfl] at hd
    simp only [withConstant?, hzero, Option.map_some] at h
    split at h
    . next hc =>
      cases h
      rw [eq_allOnes_of_isAllOnes hc] at hd
      cases hd
      left
      simp
    . split at h
      . next hc =>
        cases h
        rw [eq_zero_of_isZero hs hc, Constant.intBinary?_absorbing (by simp)] at hd
        cases hd
        exact Or.inr rfl
      . cases h
  case rem | urem =>
    rw [Constant.binaryWords?_of_int hs rfl] at hd
    simp only [withConstant?, hzero, Option.map_some, Option.ite_none_right_eq_some,
      Option.some.injEq] at h
    obtain ⟨hc, rfl⟩ := h
    rw [eq_one_of_isOne hs hc, Constant.intBinary?_rem_one (by simp)] at hd
    cases hd
    exact Or.inr rfl
  all_goals cases h

theorem withSelf?_sound (h : o.withSelf? x t = some y) (ha : a.ty = t) (ht : t.isInteger = true)
    (hbinary : Constant.binary? o a a = some d) : (y = x ∧ d = a) ∨ y = .const d := by
  subst ha
  obtain ⟨s, p, q, rfl, heq, hd⟩ := Constant.binary?_eq_some hbinary
  cases heq
  have hs := Constant.isInteger_of_ty ht
  cases o
  case or | and | max | umax | min | umin =>
    rw [Constant.binaryWords?_of_int hs rfl, Constant.intBinary?_self (by simp)] at hd
    cases h
    cases hd
    exact Or.inl ⟨rfl, rfl⟩
  case xor | sub =>
    rw [Constant.binaryWords?_of_int hs rfl, Constant.intBinary?_cancel (by simp)] at hd
    simp only [withSelf?, Constant.ofInt?, Constant.ty_scalar, hs, ↓reduceIte, Option.map_some,
      Option.some.injEq] at h
    subst h
    cases hd
    right
    simp
  all_goals cases h

theorem mem_of_isInvolution (h : o.isInvolution = true) : o ∈ [.not, .neg, .byteswap] := by
  cases o
  case not | neg | byteswap => simp
  all_goals cases h

end Operator

namespace Simplification

def applied (s : Simplification) (i : Insn) : Insn :=
  match s with
  | .replace _ => i
  | .operands k x m y => (i.withOperand k x).withOperand m y
  | .source t x => { i with templates := (t, i.templates.2) }.withOperand 0 x

def Sound (value : Nat → Operand → Option Constant) (given : Option Constant) (i : Insn)
    (s : Simplification) : Prop :=
  ∀ n c, i.result? given (value n) = some c →
    match s with
    | .replace x => value n x = some c
    | s => (s.applied i).result? given (value n) = some c

end Simplification

namespace Rule

variable {r : Routine} {i : Insn} {s : Simplification} {id : InsnId}

theorem evaluate?_producer {given : InsnId → Option Constant} {n : Nat} {x : Operand} {inner : Insn}
    {a : Constant} (h : r.producer? x = some inner) (ha : r.evaluate? given n x = some a)
    : ∃ m j, n = m + 1 ∧ inner.result? (given j) (r.evaluate? given m) = some a := by
  obtain ⟨j, hj, hinner⟩ := Option.bind_eq_some_iff.mp h
  rcases Routine.evaluate?_eq_some ha with rfl | ⟨m, id, i, hm, rfl, hi, hc⟩
  . cases hj
  . cases hj
    rw [hinner] at hi
    cases hi
    exact ⟨m, j, hm, hc⟩

theorem ty_argument {ρ : r.Valuation} (hfits : r.Fits i) {n k : Nat} {a : Constant} {t : Ty}
    (ha : i.argument? (r.evaluate? ρ.value n) k = some a) (ht : i.code.slotType? k = some t)
    : a.ty = t := by
  obtain ⟨x, hx, ha⟩ := Insn.argument?_eq_some.mp ha
  rw [ρ.ty_evaluate? ha, hfits.types k x t hx ht]

variable {ρ : r.Valuation} {n : Nat} {c : Constant} {o : Operator} {x y z : Operand} {inner : Insn}

theorem arguments_of_binary (hfits : r.Fits i) (hopcode : i.opcode = .binop ∨ i.opcode = .cmp)
    (ho : i.operator? = some o) (hx : i.operand? 1 = some x) (hy : i.operand? 2 = some y)
    (hc : i.result? (ρ.value id) (r.evaluate? ρ.value n) = some c)
    : ∃ a b, r.evaluate? ρ.value n x = some a ∧ r.evaluate? ρ.value n y = some b ∧
        a.ty = i.template 0 ∧ Constant.binary? o a b = some c ∧ c.ty = i.ty := by
  obtain ⟨o', a, b, ho', ha, hb, hc, hty⟩ := (Insn.result?_of_binary hopcode).mp hc
  have haty := ty_argument hfits ha (Insn.slotType?_of_binary hopcode (Or.inl rfl))
  simp only [Insn.argument?, hx, hy, Option.bind_some] at ha hb
  rw [ho] at ho'
  cases ho'
  exact ⟨a, b, ha, hb, haty, hc, hty⟩

theorem result?_of_operands (i' : Insn) (hopcode : i.opcode = .binop ∨ i.opcode = .cmp)
    (hsame : i'.opcode = i.opcode) (htemplates : i'.templates = i.templates)
    (ho : i'.operator? = some o) (hx : i'.operand? 1 = some x) (hy : i'.operand? 2 = some y)
    {a b : Constant} (ha : r.evaluate? ρ.value n x = some a) (hb : r.evaluate? ρ.value n y = some b)
    (hc : Constant.binary? o a b = some c) (hty : c.ty = i.ty)
    : i'.result? (ρ.value id) (r.evaluate? ρ.value n) = some c := by
  rw [← hsame] at hopcode
  rw [Insn.result?_of_binary hopcode]
  refine ⟨o, a, b, ho, ?_, ?_, hc, ?_⟩
  . exact Insn.argument?_eq_some.mpr ⟨x, hx, ha⟩
  . exact Insn.argument?_eq_some.mpr ⟨y, hy, hb⟩
  . rw [hty, Insn.ty_eq_of_templates hsame htemplates]

theorem operator?_withOperand {k : Nat} (hk : i.operand? k ≠ none) (hne : k ≠ 0)
    : (i.withOperand k x).operator? = i.operator? := by
  refine Insn.operator?_congr (i := i) rfl ?_
  unfold Insn.const?
  rw [Insn.operand?_withOperand hk, if_neg (fun h => hne h.symm)]

theorem sound_commute (hfits : r.Fits i) (hopcode : i.opcode = .binop ∨ i.opcode = .cmp)
    (ho : i.operator? = some o) (hx : i.operand? 1 = some x) (hy : i.operand? 2 = some y)
    (hinteger : (i.template 0).isInteger = true) (hcommutative : o.isCommutative = true)
    : (Simplification.operands 1 y 2 x).Sound (r.evaluate? ρ.value) (ρ.value id) i := by
  intro n c hc
  obtain ⟨a, b, ha, hb, haty, hc, hty⟩ := arguments_of_binary hfits hopcode ho hx hy hc
  have h1 : i.operand? 1 ≠ none := by simp [hx]
  have h2 : (i.withOperand 1 y).operand? 2 ≠ none := by simp [Insn.operand?_withOperand h1, hy]
  refine result?_of_operands ((i.withOperand 1 y).withOperand 2 x) hopcode rfl rfl
    (o := o) (x := y) (y := x) ?_ ?_ ?_ hb ha ?_ hty
  . rw [operator?_withOperand h2 (by decide), operator?_withOperand h1 (by decide), ho]
  . simp [Insn.operand?_withOperand h2, Insn.operand?_withOperand h1]
  . simp [Insn.operand?_withOperand h2]
  . apply Constant.binary?_comm hcommutative _ hc
    rw [haty, hinteger]

theorem sound_constant {d : Constant} (hfits : r.Fits i) (hopcode : i.opcode = .binop)
    (ho : i.operator? = some o) (hx : i.operand? 1 = some x) (hy : i.operand? 2 = some (.const d))
    (hinteger : (i.template 0).isInteger = true)
    (hz : o.withConstant? x d (i.template 0) = some z)
    : (Simplification.replace z).Sound (r.evaluate? ρ.value) (ρ.value id) i := by
  intro n c hc
  obtain ⟨a, b, ha, hb, haty, hc, -⟩ := arguments_of_binary hfits (Or.inl hopcode) ho hx hy hc
  rw [Routine.evaluate?_const] at hb
  cases hb
  rcases Operator.withConstant?_sound hz haty hinteger hc with ⟨rfl, rfl⟩ | rfl
  . exact ha
  . exact Routine.evaluate?_const

theorem sound_self (hfits : r.Fits i) (hopcode : i.opcode = .binop)
    (ho : i.operator? = some o) (hx : i.operand? 1 = some x) (hy : i.operand? 2 = some y)
    (hinteger : (i.template 0).isInteger = true) (hidentical : r.identical x y = true)
    (hz : o.withSelf? x (i.template 0) = some z)
    : (Simplification.replace z).Sound (r.evaluate? ρ.value) (ρ.value id) i := by
  intro n c hc
  obtain ⟨a, b, ha, hb, haty, hc, -⟩ := arguments_of_binary hfits (Or.inl hopcode) ho hx hy hc
  rw [← ρ.evaluate?_eq_of_identical hidentical, ha] at hb
  cases hb
  rcases Operator.withSelf?_sound hz haty hinteger hc with ⟨rfl, rfl⟩ | rfl
  . exact ha
  . exact Routine.evaluate?_const

theorem sound_onEqual {b : Bool} (hfits : r.Fits i) (hopcode : i.opcode = .cmp)
    (ho : i.operator? = some o) (hx : i.operand? 1 = some x) (hy : i.operand? 2 = some y)
    (hinteger : (i.template 0).isInteger = true) (hidentical : r.identical x y = true)
    (hb : o.onEqual? = some b)
    : (Simplification.replace (.const (.ofBool b))).Sound (r.evaluate? ρ.value) (ρ.value id) i := by
  intro n c hc
  obtain ⟨a, a', ha, ha', haty, hc, -⟩ := arguments_of_binary hfits (Or.inr hopcode) ho hx hy hc
  rw [← ρ.evaluate?_eq_of_identical hidentical, ha] at ha'
  cases ha'
  rw [Constant.binary?_onEqual hb (by rw [haty, hinteger]) hc]
  exact Routine.evaluate?_const

theorem sound_addNegated {d zero negated : Constant} (hfits : r.Fits i)
    (hopcode : i.opcode = .binop) (ho : i.operator? = some .sub)
    (hx : i.operand? 1 = some x) (hy : i.operand? 2 = some (.const d))
    (hinteger : (i.template 0).isInteger = true)
    (hzero : Constant.ofInt? (i.template 0) 0 = some zero)
    (hnegated : Constant.binary? .sub zero d = some negated)
    : (Simplification.operands 0 (.const (.op .add)) 2 (.const negated)).Sound
        (r.evaluate? ρ.value) (ρ.value id) i := by
  intro n c hc
  obtain ⟨a, b, ha, hb, haty, hc, hty⟩ := arguments_of_binary hfits (Or.inl hopcode) ho hx hy hc
  rw [Routine.evaluate?_const] at hb
  cases hb
  have h0 : i.operand? 0 ≠ none := by
    have := hfits.enough
    rw [hopcode] at this
    simp only [Opcode.signature, List.length_cons, List.length_nil] at this
    simp only [Insn.operand?, ne_eq, Option.map_eq_none_iff, List.getElem?_eq_none_iff]
    omega
  have h2 : (i.withOperand 0 (.const (.op .add))).operand? 2 ≠ none := by
    simp [Insn.operand?_withOperand h0, hy]
  refine result?_of_operands ((i.withOperand 0 (.const (.op .add))).withOperand 2 (.const negated))
    (Or.inl hopcode) rfl rfl (o := .add) (x := x) (y := .const negated) ?_ ?_ ?_ ha
    Routine.evaluate?_const ?_ hty
  . rw [operator?_withOperand h2 (by decide)]
    refine Insn.operator?_of_const (i := i.withOperand 0 _) hopcode ?_
    simp [Insn.operand?_withOperand h0]
  . simp [Insn.operand?_withOperand h2, Insn.operand?_withOperand h0, hx]
  . simp [Insn.operand?_withOperand h2]
  . rw [← haty] at hzero
    exact Constant.binary?_add_negated (by rw [haty, hinteger]) hzero hnegated hc

theorem sound_mergeAdditions {d d' merged : Constant} (hfits : r.Fits i) (hinnerFits : r.Fits inner)
    (hopcode : i.opcode = .binop) (ho : i.operator? = some .add) (hx : i.operand? 1 = some x)
    (hy : i.operand? 2 = some (.const d)) (hinteger : (i.template 0).isInteger = true)
    (hinner : r.producer? x = some inner) (hinnerOpcode : inner.opcode = .binop)
    (hinnerOperator : inner.operator? = some .add) (htemplate : inner.template 0 = i.template 0)
    (hinnerX : inner.operand? 1 = some y) (hinnerY : inner.operand? 2 = some (.const d'))
    (hmerged : Constant.binary? .add d' d = some merged)
    : (Simplification.operands 1 y 2 (.const merged)).Sound (r.evaluate? ρ.value) (ρ.value id) i := by
  intro n c hc
  obtain ⟨a, b, ha, hb, -, houter, hty⟩ := arguments_of_binary hfits (Or.inl hopcode) ho hx hy hc
  rw [Routine.evaluate?_const] at hb
  cases hb
  obtain ⟨m, j, rfl, hresult⟩ := evaluate?_producer hinner ha
  obtain ⟨a', b', ha', hb', haty, hsum, -⟩ :=
    arguments_of_binary hinnerFits (Or.inl hinnerOpcode) hinnerOperator hinnerX hinnerY hresult
  rw [Routine.evaluate?_const] at hb'
  cases hb'
  have h1 : i.operand? 1 ≠ none := by simp [hx]
  have h2 : (i.withOperand 1 y).operand? 2 ≠ none := by simp [Insn.operand?_withOperand h1, hy]
  refine result?_of_operands ((i.withOperand 1 y).withOperand 2 (.const merged)) (Or.inl hopcode)
    rfl rfl (o := .add) (x := y) (y := .const merged) ?_ ?_ ?_
    (Routine.evaluate?_mono ha' (Nat.le_succ m)) Routine.evaluate?_const ?_ hty
  . rw [operator?_withOperand h2 (by decide), operator?_withOperand h1 (by decide), ho]
  . simp [Insn.operand?_withOperand h2, Insn.operand?_withOperand h1]
  . simp [Insn.operand?_withOperand h2]
  . exact Constant.binary?_add_assoc (by rw [haty, htemplate, hinteger]) hsum houter hmerged

theorem sound_undo (hopcode : i.opcode = .unop) (ho : i.operator? = some o)
    (hx : i.operand? 1 = some x) (hinvolution : o.isInvolution = true)
    (hinner : r.producer? x = some inner) (hinnerOpcode : inner.opcode = .unop)
    (hinnerOperator : inner.operator? = some o) (hy : inner.operand? 1 = some y)
    : (Simplification.replace y).Sound (r.evaluate? ρ.value) (ρ.value id) i := by
  intro n c hc
  obtain ⟨o', a, ho', ha, houter, -⟩ := (Insn.result?_of_unop hopcode).mp hc
  rw [ho] at ho'
  cases ho'
  simp only [Insn.argument?, hx, Option.bind_some] at ha
  obtain ⟨m, j, rfl, hresult⟩ := evaluate?_producer hinner ha
  obtain ⟨o', a', ho', ha', hsecond, -⟩ := (Insn.result?_of_unop hinnerOpcode).mp hresult
  rw [hinnerOperator] at ho'
  cases ho'
  simp only [Insn.argument?, hy, Option.bind_some] at ha'
  rw [Constant.unary?_unary? (Operator.mem_of_isInvolution hinvolution) hsecond houter]
  exact Routine.evaluate?_mono ha' (Nat.le_succ m)

theorem sound_sameType (hfits : r.Fits i) (hopcode : i.opcode = .bitcast)
    (hx : i.operand? 0 = some x) (htemplate : i.template 0 = i.template 1)
    : (Simplification.replace x).Sound (r.evaluate? ρ.value) (ρ.value id) i := by
  intro n c hc
  obtain ⟨a, ha, hc, -⟩ := (Insn.result?_of_bitcast hopcode).mp hc
  have haty := ty_argument hfits ha (by rw [Insn.slotType?_eq hopcode]; rfl)
  simp only [Insn.argument?, hx, Option.bind_some] at ha
  rw [← htemplate] at hc
  change a.ty = i.template 0 at haty
  rw [← haty] at hc
  rw [Constant.bitcast?_self hc]
  exact ha

theorem sound_bitcasts (hopcode : i.opcode = .bitcast) (hx : i.operand? 0 = some x)
    (hinner : r.producer? x = some inner) (hinnerOpcode : inner.opcode = .bitcast)
    (hy : inner.operand? 0 = some y) (t : Ty)
    : (Simplification.source t y).Sound (r.evaluate? ρ.value) (ρ.value id) i := by
  intro n c hc
  obtain ⟨a, ha, houter, hty⟩ := (Insn.result?_of_bitcast hopcode).mp hc
  simp only [Insn.argument?, hx, Option.bind_some] at ha
  obtain ⟨m, j, rfl, hresult⟩ := evaluate?_producer hinner ha
  obtain ⟨a', ha', hsecond, -⟩ := (Insn.result?_of_bitcast hinnerOpcode).mp hresult
  simp only [Insn.argument?, hy, Option.bind_some] at ha'
  have h0 : ({ i with templates := (t, i.templates.2) } : Insn).operand? 0 ≠ none := by
    change i.operand? 0 ≠ none
    simp [hx]
  have hopcode' : ((Simplification.source t y).applied i).opcode = .bitcast := hopcode
  refine (Insn.result?_of_bitcast hopcode').mpr
    ⟨a', ?_, Constant.bitcast?_bitcast? hsecond houter, ?_⟩
  . rw [Insn.argument?_eq_some]
    refine ⟨y, ?_, Routine.evaluate?_mono ha' (Nat.le_succ m)⟩
    simp [Simplification.applied, Insn.operand?_withOperand h0]
  . rw [hty, (Insn.ty_of_conversion (Or.inl hopcode)).1,
      (Insn.ty_of_conversion (Or.inl hopcode')).1]
    rfl

theorem sound_sameArms (hopcode : i.opcode = .select) (hx : i.operand? 1 = some x)
    (hy : i.operand? 2 = some y) (hidentical : r.identical x y = true)
    : (Simplification.replace x).Sound (r.evaluate? ρ.value) (ρ.value id) i := by
  intro n c hc
  rcases Insn.argument?_of_select hopcode hc with hc | hc
  . simpa [Insn.argument?, hx] using hc
  . simp only [Insn.argument?, hy, Option.bind_some] at hc
    rw [← hc]
    exact ρ.evaluate?_eq_of_identical hidentical

theorem sound (h : Rule r i s) (hcheck : r.check = .ok ()) (hi : r.insn? id = some i)
    (hcast : i.opcode.extension? = none) (ρ : r.Valuation)
    : s.Sound (r.evaluate? ρ.value) (ρ.value id) i := by
  have hfits := Routine.fits_of_check hcheck hi
  cases h with
  | commute hopcode ho hx hy hinteger hcommutative =>
    exact sound_commute hfits hopcode ho hx hy hinteger hcommutative
  | constant hopcode ho hx hy hinteger hz => exact sound_constant hfits hopcode ho hx hy hinteger hz
  | self hopcode ho hx hy hinteger hidentical hz =>
    exact sound_self hfits hopcode ho hx hy hinteger hidentical hz
  | addNegated hopcode ho hx hy hinteger hzero hnegated =>
    exact sound_addNegated hfits hopcode ho hx hy hinteger hzero hnegated
  | mergeAdditions hopcode ho hx hy hinteger hinner hinnerOpcode hinnerOperator htemplate hinnerX
      hinnerY hmerged =>
    obtain ⟨j, -, hj⟩ := Option.bind_eq_some_iff.mp hinner
    exact sound_mergeAdditions hfits (Routine.fits_of_check hcheck hj) hopcode ho hx hy hinteger
      hinner hinnerOpcode hinnerOperator htemplate hinnerX hinnerY hmerged
  | onEqual hopcode ho hx hy hinteger hidentical hb =>
    exact sound_onEqual hfits hopcode ho hx hy hinteger hidentical hb
  | undo hopcode ho hx hinvolution hinner hinnerOpcode hinnerOperator htemplate hy =>
    exact sound_undo hopcode ho hx hinvolution hinner hinnerOpcode hinnerOperator hy
  | sameType hopcode hx htemplate =>
    rcases hopcode with hopcode | hopcode | hopcode
    . exact sound_sameType hfits hopcode hx htemplate
    . rw [hopcode] at hcast
      cases hcast
    . rw [hopcode] at hcast
      cases hcast
  | bitcasts hopcode hx hinner hinnerOpcode hy =>
    exact sound_bitcasts hopcode hx hinner hinnerOpcode hy _
  | casts he =>
    rw [hcast] at he
    cases he
  | dropCasts he =>
    rw [hcast] at he
    cases he
  | sameArms hopcode hx hy hidentical => exact sound_sameArms hopcode hx hy hidentical

end Rule

end MachineIR
