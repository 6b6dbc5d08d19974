import MachineIR.Pass.Peephole
import MachineIR.Proofs.Views

/-!
This module contains what the local simplifications can do to an instruction and when they do it:
one case for each rule, with all that the rule has found out.
-/

namespace MachineIR

inductive Rule (r : Routine) (i : Insn) : Simplification → Prop where
  | commute {o x y} (hopcode : i.opcode = .binop ∨ i.opcode = .cmp) (ho : i.operator? = some o)
      (hx : i.operand? 1 = some x) (hy : i.operand? 2 = some y)
      (hinteger : (i.template 0).isInteger = true) (hcommutative : o.isCommutative = true)
      (hconst : x.isConst = true) (hother : y.isConst = false)
      : Rule r i (.operands 1 y 2 x)
  | constant {o x c z} (hopcode : i.opcode = .binop) (ho : i.operator? = some o)
      (hx : i.operand? 1 = some x) (hy : i.operand? 2 = some (.const c))
      (hinteger : (i.template 0).isInteger = true)
      (hz : o.withConstant? x c (i.template 0) = some z)
      : Rule r i (.replace z)
  | self {o x y z} (hopcode : i.opcode = .binop) (ho : i.operator? = some o)
      (hx : i.operand? 1 = some x) (hy : i.operand? 2 = some y)
      (hinteger : (i.template 0).isInteger = true) (hidentical : r.identical x y = true)
      (hz : o.withSelf? x (i.template 0) = some z)
      : Rule r i (.replace z)
  | addNegated {x c zero negated} (hopcode : i.opcode = .binop) (ho : i.operator? = some .sub)
      (hx : i.operand? 1 = some x) (hy : i.operand? 2 = some (.const c))
      (hinteger : (i.template 0).isInteger = true)
      (hzero : Constant.ofInt? (i.template 0) 0 = some zero)
      (hnegated : Constant.binary? .sub zero c = some negated)
      : Rule r i (.operands 0 (.const (.op .add)) 2 (.const negated))
  | mergeAdditions {x c inner y d merged} (hopcode : i.opcode = .binop)
      (ho : i.operator? = some .add) (hx : i.operand? 1 = some x)
      (hy : i.operand? 2 = some (.const c)) (hinteger : (i.template 0).isInteger = true)
      (hinner : r.producer? x = some inner) (hinnerOpcode : inner.opcode = .binop)
      (hinnerOperator : inner.operator? = some .add) (htemplate : inner.template 0 = i.template 0)
      (hinnerX : inner.operand? 1 = some y) (hinnerY : inner.operand? 2 = some (.const d))
      (hmerged : Constant.binary? .add d c = some merged)
      : Rule r i (.operands 1 y 2 (.const merged))
  | onEqual {o x y b} (hopcode : i.opcode = .cmp) (ho : i.operator? = some o)
      (hx : i.operand? 1 = some x) (hy : i.operand? 2 = some y)
      (hinteger : (i.template 0).isInteger = true) (hidentical : r.identical x y = true)
      (hb : o.onEqual? = some b)
      : Rule r i (.replace (.const (.ofBool b)))
  | undo {o x inner y} (hopcode : i.opcode = .unop) (ho : i.operator? = some o)
      (hx : i.operand? 1 = some x) (hinvolution : o.isInvolution = true)
      (hinner : r.producer? x = some inner) (hinnerOpcode : inner.opcode = .unop)
      (hinnerOperator : inner.operator? = some o) (htemplate : inner.template 0 = i.template 0)
      (hy : inner.operand? 1 = some y)
      : Rule r i (.replace y)
  | sameType {x} (hopcode : i.opcode = .bitcast ∨ i.opcode = .cast ∨ i.opcode = .castSx)
      (hx : i.operand? 0 = some x) (htemplate : i.template 0 = i.template 1)
      : Rule r i (.replace x)
  | bitcasts {x inner y} (hopcode : i.opcode = .bitcast) (hx : i.operand? 0 = some x)
      (hinner : r.producer? x = some inner) (hinnerOpcode : inner.opcode = .bitcast)
      (hy : inner.operand? 0 = some y)
      : Rule r i (.source (inner.template 0) y)
  | casts {x inner y e e'} (he : i.opcode.extension? = some e) (hx : i.operand? 0 = some x)
      (hinner : r.producer? x = some inner) (he' : inner.opcode.extension? = some e')
      (htemplate : inner.template 1 = i.template 0) (hy : inner.operand? 0 = some y)
      (hchain : castChain e' e (inner.template 0) (i.template 0) (i.template 1) = .shorten)
      : Rule r i (.source (inner.template 0) y)
  | dropCasts {x inner y e e'} (he : i.opcode.extension? = some e) (hx : i.operand? 0 = some x)
      (hinner : r.producer? x = some inner) (he' : inner.opcode.extension? = some e')
      (htemplate : inner.template 1 = i.template 0) (hy : inner.operand? 0 = some y)
      (hchain : castChain e' e (inner.template 0) (i.template 0) (i.template 1) = .drop)
      : Rule r i (.replace y)
  | sameArms {x y} (hopcode : i.opcode = .select) (hx : i.operand? 1 = some x)
      (hy : i.operand? 2 = some y) (hidentical : r.identical x y = true)
      : Rule r i (.replace x)

namespace Rule

variable {r : Routine} {i : Insn} {s : Simplification}

theorem producerOf?_eq_some {o : Opcode} {x : Operand} {inner : Insn}
    : r.producerOf? o x = some inner ↔ r.producer? x = some inner ∧ inner.opcode = o := by
  unfold Routine.producerOf?
  rw [Option.filter_eq_some_iff]
  simp

theorem const?_eq_some {x : Operand} {c : Constant} (h : x.const? = some c) : x = .const c := by
  cases x <;> cases h
  rfl

theorem eq_some_of_orElse {α : Type} {x y : Option α} {a : α} (h : (x <|> y) = some a)
    : x = some a ∨ y = some a := by
  cases x with
  | none => exact Or.inr h
  | some b => exact Or.inl h

theorem of_commute? {o : Operator} {x y : Operand}
    (hopcode : i.opcode = .binop ∨ i.opcode = .cmp) (ho : i.operator? = some o)
    (hx : i.operand? 1 = some x) (hy : i.operand? 2 = some y)
    (hinteger : (i.template 0).isInteger = true) (h : Routine.commute? o x y = some s)
    : Rule r i s := by
  unfold Routine.commute? at h
  split at h
  . next hc =>
    cases h
    simp only [Bool.and_eq_true, Bool.not_eq_true'] at hc
    exact commute hopcode ho hx hy hinteger hc.1.1 hc.1.2 hc.2
  . cases h

theorem of_addNegated? {o : Operator} {x : Operand} {c : Constant} (hopcode : i.opcode = .binop)
    (ho : i.operator? = some o) (hx : i.operand? 1 = some x) (hy : i.operand? 2 = some (.const c))
    (hinteger : (i.template 0).isInteger = true)
    (h : Routine.addNegated? o x c (i.template 0) = some s) : Rule r i s := by
  unfold Routine.addNegated? at h
  split at h
  . next hc =>
    simp only [Option.bind_eq_bind, Option.bind_eq_some_iff, Option.pure_def] at h
    obtain ⟨zero, hzero, negated, hnegated, heq⟩ := h
    cases heq
    rw [hc.1] at ho
    exact addNegated hopcode ho hx hy hinteger hzero hnegated
  . cases h

theorem of_mergeAdditions? {o : Operator} {x : Operand} {c : Constant} (hopcode : i.opcode = .binop)
    (ho : i.operator? = some o) (hx : i.operand? 1 = some x) (hy : i.operand? 2 = some (.const c))
    (hinteger : (i.template 0).isInteger = true)
    (h : r.mergeAdditions? o x c (i.template 0) = some s) : Rule r i s := by
  unfold Routine.mergeAdditions? at h
  simp only [Option.bind_eq_bind, Option.bind_eq_some_iff, Option.pure_def] at h
  obtain ⟨inner, hinner, h⟩ := h
  split at h
  . next hc =>
    simp only [Option.bind_eq_some_iff] at h
    obtain ⟨d, hd, merged, hmerged, y, hinnerX, heq⟩ := h
    cases heq
    obtain ⟨z, hinnerY, hz⟩ := Option.bind_eq_some_iff.mp hd
    cases const?_eq_some hz
    rw [hc.1] at ho
    obtain ⟨hproducer, hinnerOpcode⟩ := producerOf?_eq_some.mp hinner
    exact mergeAdditions hopcode ho hx hy hinteger hproducer hinnerOpcode hc.2.1 hc.2.2 hinnerX
      hinnerY hmerged
  . cases h

theorem of_combineBinop? (hopcode : i.opcode = .binop) (h : r.combineBinop? i = some s)
    : Rule r i s := by
  unfold Routine.combineBinop? at h
  simp only [Option.bind_eq_bind, Option.bind_eq_some_iff] at h
  obtain ⟨o, ho, x, hx, y, hy, h⟩ := h
  split at h
  . cases h
  . next hinteger =>
    simp only [Bool.not_eq_true, Bool.not_eq_false'] at hinteger
    rcases eq_some_of_orElse h with h | h
    . exact of_commute? (Or.inl hopcode) ho hx hy hinteger h
    rcases eq_some_of_orElse h with h | h
    . obtain ⟨z, hz, heq⟩ := Option.map_eq_some_iff.mp h
      cases heq
      obtain ⟨c, hc, hz⟩ := Option.bind_eq_some_iff.mp hz
      cases const?_eq_some hc
      exact constant hopcode ho hx hy hinteger hz
    rcases eq_some_of_orElse h with h | h
    . split at h
      . next hidentical =>
        obtain ⟨z, hz, heq⟩ := Option.map_eq_some_iff.mp h
        cases heq
        exact self hopcode ho hx hy hinteger hidentical hz
      . cases h
    rcases eq_some_of_orElse h with h | h
    . obtain ⟨c, hc, h⟩ := Option.bind_eq_some_iff.mp h
      cases const?_eq_some hc
      exact of_addNegated? hopcode ho hx hy hinteger h
    . obtain ⟨c, hc, h⟩ := Option.bind_eq_some_iff.mp h
      cases const?_eq_some hc
      exact of_mergeAdditions? hopcode ho hx hy hinteger h

theorem of_combineCmp? (hopcode : i.opcode = .cmp) (h : r.combineCmp? i = some s) : Rule r i s := by
  unfold Routine.combineCmp? at h
  simp only [Option.bind_eq_bind, Option.bind_eq_some_iff] at h
  obtain ⟨o, ho, x, hx, y, hy, h⟩ := h
  split at h
  . cases h
  . next hinteger =>
    simp only [Bool.not_eq_true, Bool.not_eq_false'] at hinteger
    rcases eq_some_of_orElse h with h | h
    . exact of_commute? (Or.inr hopcode) ho hx hy hinteger h
    . split at h
      . next hidentical =>
        obtain ⟨b, hb, heq⟩ := Option.map_eq_some_iff.mp h
        cases heq
        exact onEqual hopcode ho hx hy hinteger hidentical hb
      . cases h

theorem of_combineUnop? (hopcode : i.opcode = .unop) (h : r.combineUnop? i = some s)
    : Rule r i s := by
  unfold Routine.combineUnop? at h
  simp only [Option.bind_eq_bind, Option.bind_eq_some_iff] at h
  obtain ⟨o, ho, x, hx, inner, hinner, h⟩ := h
  obtain ⟨hproducer, hinnerOpcode⟩ := producerOf?_eq_some.mp hinner
  split at h
  . next hc =>
    simp only [Bool.and_eq_true, beq_iff_eq] at hc
    obtain ⟨y, hy, heq⟩ := Option.map_eq_some_iff.mp h
    cases heq
    exact undo hopcode ho hx hc.1.1 hproducer hinnerOpcode hc.1.2 hc.2 hy
  . cases h

theorem of_combineBitcast? (hopcode : i.opcode = .bitcast) (h : r.combineBitcast? i = some s)
    : Rule r i s := by
  unfold Routine.combineBitcast? at h
  simp only [Option.bind_eq_bind, Option.bind_eq_some_iff, Option.pure_def] at h
  obtain ⟨x, hx, h⟩ := h
  split at h
  . next htemplate =>
    cases h
    exact sameType (Or.inl hopcode) hx htemplate
  . simp only [Option.bind_eq_some_iff] at h
    obtain ⟨inner, hinner, y, hy, heq⟩ := h
    cases heq
    obtain ⟨hproducer, hinnerOpcode⟩ := producerOf?_eq_some.mp hinner
    exact bitcasts hopcode hx hproducer hinnerOpcode hy

theorem of_combineCast? {e : Extension} (he : i.opcode.extension? = some e)
    (h : r.combineCast? e i = some s) : Rule r i s := by
  unfold Routine.combineCast? at h
  simp only [Option.bind_eq_bind, Option.bind_eq_some_iff] at h
  obtain ⟨x, hx, h⟩ := h
  split at h
  . next htemplate =>
    cases h
    refine sameType (Or.inr ?_) hx htemplate
    cases hopcode : i.opcode <;> simp_all [Opcode.extension?]
  . simp only [Option.bind_eq_some_iff] at h
    obtain ⟨inner, hinner, e', he', y, hy, h⟩ := h
    split at h
    . next htemplate =>
      split at h
      . cases h
      . next hchain =>
        cases h
        exact dropCasts he hx hinner he' htemplate hy hchain
      . next hchain =>
        cases h
        exact casts he hx hinner he' htemplate hy hchain
    . cases h

theorem of_combineSelect? (hopcode : i.opcode = .select) (h : r.combineSelect? i = some s)
    : Rule r i s := by
  unfold Routine.combineSelect? at h
  simp only [Option.bind_eq_bind, Option.bind_eq_some_iff] at h
  obtain ⟨x, hx, y, hy, h⟩ := h
  split at h
  . next hidentical =>
    cases h
    exact sameArms hopcode hx hy hidentical
  . cases h

theorem of_combine? (h : r.combine? i = some s) : Rule r i s := by
  unfold Routine.combine? at h
  split at h
  . next hopcode => exact of_combineBinop? hopcode h
  . next hopcode => exact of_combineCmp? hopcode h
  . next hopcode => exact of_combineUnop? hopcode h
  . next hopcode => exact of_combineBitcast? hopcode h
  . next hopcode => exact of_combineCast? (by rw [hopcode]; rfl) h
  . next hopcode => exact of_combineCast? (by rw [hopcode]; rfl) h
  . next hopcode => exact of_combineSelect? hopcode h
  . cases h

end Rule

end MachineIR
