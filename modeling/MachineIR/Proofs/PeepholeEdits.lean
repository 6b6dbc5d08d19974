import MachineIR.Proofs.Checks
import MachineIR.Proofs.PeepholeLaws
import MachineIR.Proofs.Replacement

/-!
This module contains the simplifications as edits: what a rule asks for can be carried out, and what
the routine then looks like.
-/

namespace MachineIR

section Bare

variable {i : Insn} {k : Nat} {x : Operand}

theorem Insn.bare_withOperand : (i.withOperand k x).bare = i.bare.withOperand k x := by
  unfold bare withOperand
  congr 1
  apply List.ext_getElem?
  intro n
  simp only [List.getElem?_map, List.getElem?_modify]
  split
  . simp [Function.comp_def, Slot.bare]
  . simp

theorem Simplification.bare_applied (s : Simplification) (i : Insn)
    : (s.applied i).bare = s.applied i.bare := by
  cases s with
  | replace x => rfl
  | operands k x m y =>
    unfold applied
    rw [Insn.bare_withOperand, Insn.bare_withOperand]
  | source t x =>
    unfold applied
    rw [Insn.bare_withOperand]
    rfl

end Bare

namespace Routine

variable {r r' : Routine} {id : InsnId} {i : Insn} {k : Nat} {s : Slot} {x y : Operand}

theorem modifyInsn_modifyInsn (f g : Insn → Insn)
    : (r.modifyInsn id f).modifyInsn id g = r.modifyInsn id fun i => g (f i) := by
  unfold modifyInsn
  dsimp only
  congr 1
  apply Store.ext_get?
  . simp
  . intro n
    simp only [Store.get?_modify]
    split
    . rw [Option.map_map]
      rfl
    . rfl

theorem Owned.releasable (h : r.Owned id k s) : r.Releasable s := by
  intro use huse
  obtain ⟨v, l, heq, href, hl⟩ := h.record huse
  exact ⟨v, l, heq, hl, by rw [href]; simp⟩

theorem slot?_of_operand? (hi : r.insn? id = some i) (hk : i.operand? k ≠ none)
    : ∃ s, r.slot? id k = some s := by
  rw [slot?_eq hi]
  cases hs : i.slots[k]? with
  | none => simp [Insn.operand?, hs] at hk
  | some s => exact ⟨s, rfl⟩

theorem admits_of_operand? (howns : r.Owns) (hi : r.insn? id = some i)
    (hx : i.operand? k = some x) : r.Admits x := by
  intro v heq
  subst heq
  obtain ⟨⟨y, own⟩, hs, heq⟩ := Option.map_eq_some_iff.mp hx
  cases heq
  rw [← slot?_eq hi] at hs
  have howned := howns _ _ _ hs
  cases own with
  | none => exact howned.elim
  | some use => exact howned.2

theorem admits_const (r : Routine) (c : Constant) : r.Admits (.const c) := by
  intro v heq
  cases heq

end Routine

namespace Rule

variable {r : Routine} {i : Insn} {s : Simplification} {id : InsnId}

def Admissible (r : Routine) (i : Insn) : Simplification → Prop
  | .replace x => r.Admits x
  | .operands k x m y =>
    k ≠ m ∧ i.operand? k ≠ none ∧ i.operand? m ≠ none ∧ r.Admits x ∧ r.Admits y
  | .source _ x => i.operand? 0 ≠ none ∧ r.Admits x

theorem withConstant?_eq {o : Operator} {x z : Operand} {c : Constant} {t : Ty}
    (h : o.withConstant? x c t = some z)
    : z = x ∨ z = .const c ∨ ∃ zero, Constant.ofInt? t 0 = some zero ∧ z = .const zero := by
  have hzero : ∀ {z}, (Constant.ofInt? t 0).map Operand.const = some z →
      ∃ zero, Constant.ofInt? t 0 = some zero ∧ z = .const zero := by
    intro z hz
    obtain ⟨zero, hzero, rfl⟩ := Option.map_eq_some_iff.mp hz
    exact ⟨zero, hzero, rfl⟩
  cases o
  case add | sub | xor | shl | shr | sar | rol | ror | div | udiv =>
    simp only [Operator.withConstant?, Option.ite_none_right_eq_some, Option.some.injEq] at h
    exact Or.inl h.2.symm
  case or =>
    simp only [Operator.withConstant?] at h
    split at h
    . cases h
      exact Or.inl rfl
    . split at h
      . cases h
        exact Or.inr (Or.inl rfl)
      . cases h
  case mul | and =>
    simp only [Operator.withConstant?] at h
    split at h
    . cases h
      exact Or.inl rfl
    . split at h
      . exact Or.inr (Or.inr (hzero h))
      . cases h
  case rem | urem =>
    simp only [Operator.withConstant?, Option.ite_none_right_eq_some] at h
    exact Or.inr (Or.inr (hzero h.2))
  all_goals cases h

theorem withSelf?_eq {o : Operator} {x z : Operand} {t : Ty} (h : o.withSelf? x t = some z)
    : z = x ∨ ∃ zero, Constant.ofInt? t 0 = some zero ∧ z = .const zero := by
  cases o
  case or | and | max | umax | min | umin =>
    cases h
    exact Or.inl rfl
  case xor | sub =>
    obtain ⟨zero, hzero, rfl⟩ := Option.map_eq_some_iff.mp h
    exact Or.inr ⟨zero, hzero, rfl⟩
  all_goals cases h

theorem admits_producer (howns : r.Owns) {x y : Operand} {inner : Insn} {k : Nat}
    (hinner : r.producer? x = some inner) (hy : inner.operand? k = some y) : r.Admits y := by
  obtain ⟨j, -, hj⟩ := Option.bind_eq_some_iff.mp hinner
  exact Routine.admits_of_operand? howns hj hy

theorem admissible (h : Rule r i s) (howns : r.Owns) (hi : r.insn? id = some i)
    : Admissible r i s := by
  have hadmits : ∀ {k x}, i.operand? k = some x → r.Admits x := by
    intro k x hx
    exact Routine.admits_of_operand? howns hi hx
  cases h with
  | commute hopcode ho hx hy =>
    exact ⟨by decide, by simp [hx], by simp [hy], hadmits hy, hadmits hx⟩
  | constant hopcode ho hx hy hinteger hz =>
    rcases withConstant?_eq hz with rfl | rfl | ⟨zero, -, rfl⟩
    . exact hadmits hx
    . exact Routine.admits_const r _
    . exact Routine.admits_const r zero
  | self hopcode ho hx hy hinteger hidentical hz =>
    rcases withSelf?_eq hz with rfl | ⟨zero, -, rfl⟩
    . exact hadmits hx
    . exact Routine.admits_const r zero
  | addNegated hopcode ho hx hy =>
    obtain ⟨z, h0, -⟩ := Option.bind_eq_some_iff.mp (Insn.const?_of_operator? ho)
    exact ⟨by decide, by simp [h0], by simp [hy], Routine.admits_const r _,
      Routine.admits_const r _⟩
  | mergeAdditions hopcode ho hx hy hinteger hinner hinnerOpcode hinnerOperator htemplate hinnerX =>
    exact ⟨by decide, by simp [hx], by simp [hy], admits_producer howns hinner hinnerX,
      Routine.admits_const r _⟩
  | onEqual => exact Routine.admits_const r _
  | undo hopcode ho hx hinvolution hinner hinnerOpcode hinnerOperator htemplate hy =>
    exact admits_producer howns hinner hy
  | sameType hopcode hx => exact hadmits hx
  | bitcasts hopcode hx hinner hinnerOpcode hy =>
    exact ⟨by simp [hx], admits_producer howns hinner hy⟩
  | casts he hx hinner he' htemplate hy => exact ⟨by simp [hx], admits_producer howns hinner hy⟩
  | dropCasts he hx hinner he' htemplate hy => exact admits_producer howns hinner hy
  | sameArms hopcode hx => exact hadmits hx

end Rule

namespace Edit

open Routine

variable {r : Routine} {id : InsnId} {i : Insn} {k m : Nat} {x y : Operand}

theorem simplify_operands_run (howns : r.Owns) (hi : r.insn? id = some i)
    (hne : k ≠ m) (hk : i.operand? k ≠ none) (hm : i.operand? m ≠ none) (hx : r.Admits x)
    (hy : r.Admits y)
    : ∃ r', simplify id (.operands k x m y) r = .ok 1 r' ∧
        r'.bare = r.bare.modifyInsn id (Simplification.operands k x m y).applied := by
  obtain ⟨s, hs⟩ := slot?_of_operand? hi hk
  obtain ⟨s', hs'⟩ := slot?_of_operand? hi hm
  have hown := howns _ _ _ hs
  have hown' := howns _ _ _ hs'
  obtain ⟨r₁, hrun, hset, -⟩ := setOperand_run hs hown.releasable hx
  have hs₁ : r₁.slot? id m = some s' := by
    rw [hset.slot id m (fun h => hne h.2.symm), hs']
  have hrel : r₁.Releasable s' := by
    intro use huse
    obtain ⟨v, l, heq, hl, href⟩ := hown'.releasable use huse
    have hlive := admits_of_bare_eq hset.bare (y := .value v) (by intro w hw; cases hw; exact ⟨l, hl⟩)
    obtain ⟨l', hl'⟩ := hlive v rfl
    refine ⟨v, l', heq, hl', hset.records use ?_ href⟩
    -- The records of the two slots are different, because a record names its slot.
    intro huse'
    obtain ⟨v', l', -, href, -⟩ := hown.record huse'
    obtain ⟨w, l'', -, href', -⟩ := hown'.record huse
    rw [href] at href'
    cases href'
    exact hne rfl
  obtain ⟨r₂, hrun₂, hset₂, -⟩ := setOperand_run hs₁ hrel (admits_of_bare_eq hset.bare hy)
  refine ⟨r₂, ?_, ?_⟩
  . rw [simplify, bind_of_ok hrun, bind_of_ok hrun₂, pure_run]
  . rw [hset₂.bare, hset.bare]
    exact modifyInsn_modifyInsn _ _

theorem simplify_source_run (howns : r.Owns) (hi : r.insn? id = some i)
    (h0 : i.operand? 0 ≠ none) (hx : r.Admits x) (t : Ty)
    : ∃ r', simplify id (.source t x) r = .ok 1 r' ∧
        r'.bare = r.bare.modifyInsn id (Simplification.source t x).applied := by
  obtain ⟨s, hs⟩ := slot?_of_operand? hi h0
  have hown := howns _ _ _ hs
  have htemplate : setTemplate id 0 t r =
      .ok () (r.modifyInsn id fun i => { i with templates := (t, i.templates.2) }) := by
    unfold setTemplate
    rw [bind_of_ok (insn_run_some hi)]
    rfl
  have hlist := useList?_modifyInsn (r := r)
    (f := fun i => { i with templates := (t, i.templates.2) }) (by intro i; rfl) id
  have hrel : (r.modifyInsn id fun i => { i with templates := (t, i.templates.2) }).Releasable s := by
    intro use huse
    obtain ⟨v, l, heq, hl, href⟩ := hown.releasable use huse
    exact ⟨v, l, heq, by rw [hlist, hl], href⟩
  have hadmits : (r.modifyInsn id fun i => { i with templates := (t, i.templates.2) }).Admits x := by
    intro v heq
    rw [hlist]
    exact hx v heq
  obtain ⟨r₂, hrun, hset, -⟩ := setOperand_run
    (by rw [slot?_modifyInsn (by intro i; rfl), hs]) hrel hadmits
  refine ⟨r₂, ?_, ?_⟩
  . rw [simplify, bind_of_ok htemplate, bind_of_ok hrun, pure_run]
  . rw [hset.bare, bare_modifyInsn (g := fun i => { i with templates := (t, i.templates.2) })
      (by intro i; rfl)]
    exact modifyInsn_modifyInsn _ _

end Edit

end MachineIR
