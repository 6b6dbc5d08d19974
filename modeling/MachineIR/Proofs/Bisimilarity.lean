import Mathlib.Data.List.Forall2
import MachineIR.Proofs.Codes
import MachineIR.Proofs.Loops

/-!
This module contains bisimilarity of values. Two values are bisimilar if they are equal or if they
are expressions of the same form over bisimilar operands, also if they are computed from themselves.
It is what the structural comparison of values decides. It only depends on the operands up to
bisimilarity.
-/

namespace MachineIR

theorem forall₂_iff_getElem? {α β : Type} {R : α → β → Prop} {xs : List α} {ys : List β}
    : List.Forall₂ R xs ys ↔
        xs.length = ys.length ∧
          ∀ (k : Nat) (x : α) (y : β), xs[k]? = some x → ys[k]? = some y → R x y := by
  rw [List.forall₂_iff_zip]
  refine and_congr_right fun _ => ⟨?_, ?_⟩
  . intro h k x y hx hy
    apply h
    rw [List.mem_iff_getElem?]
    exact ⟨k, List.getElem?_zip_eq_some.mpr ⟨hx, hy⟩⟩
  . intro h x y hxy
    obtain ⟨k, hk⟩ := List.mem_iff_getElem?.mp hxy
    obtain ⟨hx, hy⟩ := List.getElem?_zip_eq_some.mp hk
    exact h k x y hx hy

theorem Instruction.ty_eq {i j : Instruction} (hopcode : i.opcode = j.opcode)
    (htemplates : i.templates = j.templates) : i.ty = j.ty := by
  have htemplate : i.template = j.template := by
    funext k
    unfold template
    rw [htemplates]
  unfold ty resolve?
  rw [hopcode, htemplate]

theorem Insn.sameShape_iff {i j : Insn}
    : i.sameShape j = true ↔
        i.opcode = j.opcode ∧ i.templates = j.templates ∧ i.operands.length = j.operands.length ∧
          i.opcode.isPure = true ∧ i.opcode.hasSideEffect = false := by
  simp only [sameShape, operands, List.length_map, Bool.and_eq_true, beq_iff_eq, Bool.not_eq_true']
  tauto

section Operands

variable {R S : ValueId → ValueId → Prop} {x y z : Operand}

theorem Operand.Related.refl (h : ∀ a, R a a) (x : Operand) : x.Related R x := by
  cases x with
  | value a => exact h a
  | _ => rfl

theorem Operand.Related.symm (h : x.Related R y) : y.Related (fun a b => R b a) x := by
  cases x with
  | value a =>
    cases y with
    | value b => exact h
    | _ => cases h
  | _ =>
    cases h
    rfl

theorem Operand.Related.comp (h : x.Related R y) (h' : y.Related S z)
    : x.Related (Relation.Comp R S) z := by
  cases x with
  | value a =>
    cases y with
    | value b =>
      cases z with
      | value c => exact ⟨b, h, h'⟩
      | _ => cases h'
    | _ => cases h
  | _ =>
    cases h
    cases h'
    rfl

end Operands

structure Instruction.Mirrors (R : ValueId → ValueId → Prop) (i j : Instruction) : Prop where
  opcode : i.opcode = j.opcode
  templates : i.templates = j.templates
  operands : List.Forall₂ (Operand.Related R) i.operands j.operands

namespace Instruction.Mirrors

variable {R S : ValueId → ValueId → Prop} {i j k : Instruction}

theorem symm (h : i.Mirrors R j) : j.Mirrors (fun a b => R b a) i :=
  ⟨h.opcode.symm, h.templates.symm, (h.operands.imp fun _ _ hxy => hxy.symm).flip⟩

theorem comp (h : i.Mirrors R j) (h' : j.Mirrors S k) : i.Mirrors (Relation.Comp R S) k := by
  refine ⟨h.opcode.trans h'.opcode, h.templates.trans h'.templates, ?_⟩
  have hoperands := h.operands
  have hoperands' := h'.operands
  generalize i.operands = xs, j.operands = ys, k.operands = zs at hoperands hoperands' ⊢
  induction hoperands generalizing zs with
  | nil =>
    cases hoperands'
    exact .nil
  | cons hx _ ih =>
    cases hoperands' with
    | cons hy hys => exact .cons (hx.comp hy) (ih _ hys)

end Instruction.Mirrors

namespace Routine

variable {r r' r'' : Routine} {R S : ValueId → ValueId → Prop} {a b c : ValueId}

def Corresponds (r r' : Routine) (R : ValueId → ValueId → Prop) (a b : ValueId) : Prop :=
  ∃ p q i j, a = .insn p ∧ b = .insn q ∧ r.code? p = some i ∧ r'.code? q = some j ∧
    i.opcode.isPure = true ∧ i.opcode.hasSideEffect = false ∧ i.Mirrors R j

namespace Corresponds

theorem mono (hsub : ∀ a b, R a b → S a b) (h : r.Corresponds r' R a b) : r.Corresponds r' S a b := by
  obtain ⟨p, q, i, j, ha, hb, hi, hj, hpure, heffect, hmirrors⟩ := h
  refine ⟨p, q, i, j, ha, hb, hi, hj, hpure, heffect, hmirrors.opcode, hmirrors.templates, ?_⟩
  exact hmirrors.operands.imp fun _ _ hxy => hxy.mono hsub

theorem symm (h : r.Corresponds r' R a b) : r'.Corresponds r (fun a b => R b a) b a := by
  obtain ⟨p, q, i, j, ha, hb, hi, hj, hpure, heffect, hmirrors⟩ := h
  rw [hmirrors.opcode] at hpure heffect
  exact ⟨q, p, j, i, hb, ha, hj, hi, hpure, heffect, hmirrors.symm⟩

theorem comp (h : r.Corresponds r' R a b) (h' : r'.Corresponds r'' S b c)
    : r.Corresponds r'' (Relation.Comp R S) a c := by
  obtain ⟨p, q, i, j, ha, rfl, hi, hj, hpure, heffect, hmirrors⟩ := h
  obtain ⟨q', s, j', k, hq, hc, hj', hk, -, -, hmirrors'⟩ := h'
  cases hq
  rw [hj] at hj'
  cases hj'
  exact ⟨p, s, i, k, ha, hc, hi, hk, hpure, heffect, hmirrors.comp hmirrors'⟩

end Corresponds

def Bisimulation (r : Routine) (R : ValueId → ValueId → Prop) : Prop :=
  ∀ a b, R a b → a = b ∨ r.Corresponds r R a b

def Bisimilar (r : Routine) (a b : ValueId) : Prop := ∃ R, r.Bisimulation R ∧ R a b

namespace Bisimilar

theorem refl (r : Routine) (a : ValueId) : r.Bisimilar a a :=
  ⟨Eq, fun _ _ h => Or.inl h, rfl⟩

theorem cases (h : r.Bisimilar a b) : a = b ∨ r.Corresponds r r.Bisimilar a b := by
  obtain ⟨R, hR, hab⟩ := h
  apply (hR a b hab).imp_right
  apply Corresponds.mono
  intro c d hcd
  exact ⟨R, hR, hcd⟩

theorem symm (h : r.Bisimilar a b) : r.Bisimilar b a := by
  refine ⟨fun a b => r.Bisimilar b a, ?_, h⟩
  intro c d hdc
  exact hdc.cases.imp Eq.symm Corresponds.symm

theorem trans (h : r.Bisimilar a b) (h' : r.Bisimilar b c) : r.Bisimilar a c := by
  refine ⟨Relation.Comp r.Bisimilar r.Bisimilar, ?_, b, h, h'⟩
  rintro d f ⟨e, hde, hef⟩
  rcases hde.cases with rfl | hcorr
  . exact hef.cases.imp_right (Corresponds.mono fun x y hxy => ⟨x, .refl r x, hxy⟩)
  . rcases hef.cases with rfl | hcorr'
    . exact Or.inr (hcorr.mono fun x y hxy => ⟨y, hxy, .refl r y⟩)
    . exact Or.inr (hcorr.comp hcorr')

theorem equivalence (r : Routine) : Equivalence r.Bisimilar := ⟨refl r, symm, trans⟩

end Bisimilar

section Comparison

theorem matches_iff : r.Matches R a b ↔ r.Corresponds r R a b := by
  constructor
  . rintro ⟨-, p, q, i, j, rfl, rfl, hi, hj, hshape, hoperands⟩
    obtain ⟨hopcode, htemplates, hlength, hpure, heffect⟩ := Insn.sameShape_iff.mp hshape
    exact ⟨p, q, i.code, j.code, rfl, rfl, code?_of_insn? hi, code?_of_insn? hj, hpure, heffect,
      hopcode, htemplates, forall₂_iff_getElem?.mpr ⟨hlength, hoperands⟩⟩
  . rintro ⟨p, q, k, m, rfl, rfl, hk, hm, hpure, heffect, hopcode, htemplates, hoperands⟩
    obtain ⟨i, hi, rfl⟩ := exists_insn?_of_code? hk
    obtain ⟨j, hj, rfl⟩ := exists_insn?_of_code? hm
    obtain ⟨hlength, hoperands⟩ := forall₂_iff_getElem?.mp hoperands
    refine ⟨?_, p, q, i, j, rfl, rfl, hi, hj, ?_, hoperands⟩
    . simp only [valueType, hi, hj, Option.map_some, Option.getD_some]
      exact Instruction.ty_eq hopcode htemplates
    . exact Insn.sameShape_iff.mpr ⟨hopcode, htemplates, hlength, hpure, heffect⟩

theorem alike_iff_bisimilar : r.Alike [] a b ↔ r.Bisimilar a b := by
  unfold Alike Bisimilar Bisimulation
  simp only [List.not_mem_nil, false_or, matches_iff]
  exact exists_congr fun R => and_comm

theorem identicalValues_iff_bisimilar : r.identicalValues a b = true ↔ r.Bisimilar a b := by
  rw [identicalValues_iff, alike_iff_bisimilar]

theorem Compares.identicalWithin_eq {pairs : List (ValueId × ValueId)} {x : Bool}
    (h : r.Compares pairs a b x) {depth : Nat} (hdepth : (r.openPairs pairs).card < depth)
    : r.identicalWithin depth pairs a b = x := by
  -- Every pair that is taken up leaves one pair less to be met, so the depth stays above their
  -- number.
  induction h generalizing depth with
  | same =>
    cases depth with
    | zero => omega
    | succ depth => simp [identicalWithin]
  | types hne hty =>
    cases depth with
    | zero => omega
    | succ depth => simp [identicalWithin, hne, hty]
  | assumed hne hty hmem =>
    cases depth with
    | zero => omega
    | succ depth => simp [identicalWithin, hne, hty, hmem]
  | @other pairs a b hne hty hmem hother =>
    cases depth with
    | zero => omega
    | succ depth =>
      unfold identicalWithin
      rw [if_neg hne, if_neg (Classical.not_not.mpr hty), if_neg (by simpa using hmem)]
      split
      . next p q =>
        split
        . next i j hi hj => exact absurd hj (hother p q i j rfl rfl hi)
        . rfl
      . rfl
  | @descend pairs p q i j same hne hty hmem hi hj _ ih =>
    cases depth with
    | zero => omega
    | succ depth =>
      have hcard := card_openPairs_cons hi hj hmem
      unfold identicalWithin
      rw [if_neg (by simpa using hne), if_neg (Classical.not_not.mpr hty),
        if_neg (by simpa using hmem)]
      dsimp only
      rw [hi, hj]
      dsimp only
      congr 1
      rw [Bool.eq_iff_iff, List.all_eq_true, List.all_eq_true]
      refine forall₂_congr fun xy hxy => ?_
      obtain ⟨x, y⟩ := xy
      cases x with
      | value c =>
        cases y with
        | value d =>
          have hcd : r.identicalWithin depth ((.insn p, .insn q) :: pairs) c d = same c d :=
            ih c d hxy (by omega)
          simp only [Operand.identical, hcd]
        | _ => rfl
      | _ => rfl

theorem compares_iff {x : Bool} : r.Compares [] a b x ↔ x = r.identicalValues a b := by
  constructor
  . intro h
    exact (h.identicalWithin_eq (card_openPairs_lt r [])).symm
  . rintro rfl
    exact compares_identicalValues

end Comparison

section Change

theorem Corresponds.of_bisimilar {d : ValueId} (hab : r.Bisimilar a b) (h : r.Corresponds r R b c)
    (hcd : r.Bisimilar c d)
    : r.Corresponds r (Relation.Comp r.Bisimilar (Relation.Comp R r.Bisimilar)) a d := by
  have hright : r.Corresponds r (Relation.Comp R r.Bisimilar) b d := by
    rcases hcd.cases with rfl | hcorr
    . exact h.mono fun x y hxy => ⟨y, hxy, .refl r y⟩
    . exact h.comp hcorr
  rcases hab.cases with rfl | hcorr
  . exact hright.mono fun x y hxy => ⟨x, .refl r x, hxy⟩
  . exact hcorr.comp hright

def Redirected (r r' : Routine) : Prop :=
  ∀ id, Option.Rel (Instruction.Mirrors r.Bisimilar) (r.code? id) (r'.code? id)

namespace Redirected

theorem corresponds (h : r.Redirected r') {id : InsnId} {i : Instruction}
    (hi : r.code? id = some i ∨ r'.code? id = some i) (hpure : i.opcode.isPure = true)
    (heffect : i.opcode.hasSideEffect = false)
    : r.Corresponds r' r.Bisimilar (.insn id) (.insn id) := by
  have hrel := h id
  cases hj : r.code? id with
  | none =>
    rw [hj] at hrel hi
    generalize r'.code? id = o at hrel hi
    cases hrel
    simp at hi
  | some j =>
    rw [hj] at hrel
    obtain ⟨j', hj', hmirrors⟩ : ∃ j', r'.code? id = some j' ∧ j.Mirrors r.Bisimilar j' := by
      generalize r'.code? id = o at hrel
      cases hrel with
      | some hmirrors => exact ⟨_, rfl, hmirrors⟩
    have hopcode : i.opcode = j.opcode := by
      rcases hi with hi | hi
      . rw [hj] at hi
        cases hi
        rfl
      . rw [hj'] at hi
        cases hi
        exact hmirrors.opcode.symm
    rw [hopcode] at hpure heffect
    exact ⟨id, id, j, j', rfl, rfl, hj, hj', hpure, heffect, hmirrors⟩

theorem of_corresponds (h : r.Redirected r')
    (hcorr : r.Corresponds r R a b ∨ r'.Corresponds r' R a b)
    : r.Corresponds r' r.Bisimilar a a ∧ r.Corresponds r' r.Bisimilar b b := by
  rcases hcorr with ⟨p, q, i, j, rfl, rfl, hi, hj, hpure, heffect, hmirrors⟩ |
    ⟨p, q, i, j, rfl, rfl, hi, hj, hpure, heffect, hmirrors⟩
  . refine ⟨h.corresponds (Or.inl hi) hpure heffect, ?_⟩
    rw [hmirrors.opcode] at hpure heffect
    exact h.corresponds (Or.inl hj) hpure heffect
  . refine ⟨h.corresponds (Or.inr hi) hpure heffect, ?_⟩
    rw [hmirrors.opcode] at hpure heffect
    exact h.corresponds (Or.inr hj) hpure heffect

theorem bisimilar (h : r.Redirected r') (hab : r.Bisimilar a b) : r'.Bisimilar a b := by
  refine ⟨r.Bisimilar, ?_, hab⟩
  intro c d hcd
  apply hcd.cases.imp_right
  intro hcorr
  obtain ⟨hc, hd⟩ := h.of_corresponds (Or.inl hcorr)
  apply ((hc.symm.comp hcorr).comp hd).mono
  rintro x y ⟨v, ⟨u, hxu, huv⟩, hvy⟩
  exact (hxu.symm.trans huv).trans hvy

theorem bisimilar_iff (h : r.Redirected r') : r'.Bisimilar a b ↔ r.Bisimilar a b := by
  refine ⟨?_, h.bisimilar⟩
  intro hab
  -- What is bisimilar in `r'` is related up to what is bisimilar in `r`.
  refine ⟨Relation.Comp r.Bisimilar (Relation.Comp r'.Bisimilar r.Bisimilar), ?_,
    a, .refl r a, b, hab, .refl r b⟩
  rintro c f ⟨d, hcd, e, hde, hef⟩
  rcases hde.cases with rfl | hcorr
  . apply (hcd.trans hef).cases.imp_right
    apply Corresponds.mono
    intro x y hxy
    exact ⟨x, .refl r x, x, .refl r' x, hxy⟩
  . right
    obtain ⟨hd, he⟩ := h.of_corresponds (Or.inr hcorr)
    apply (Corresponds.of_bisimilar hcd ((hd.comp hcorr).comp he.symm) hef).mono
    rintro x y ⟨s, hxs, t, ⟨u, ⟨v, hsv, hvu⟩, hut⟩, hty⟩
    exact ⟨v, hxs.trans hsv, u, hvu, hut.symm.trans hty⟩

end Redirected

theorem Bisimilar.restrict {P : ValueId → Prop} (h : r.Bisimilar a b) (ha : P a) (hb : P b)
    (hcode : ∀ id, P (.insn id) → r'.code? id = r.code? id)
    (hclosed : ∀ id v, P (.insn id) → r.Refers id v → P v) : r'.Bisimilar a b := by
  refine ⟨fun c d => r.Bisimilar c d ∧ P c ∧ P d, ?_, h, ha, hb⟩
  rintro c d ⟨hcd, hc, hd⟩
  apply hcd.cases.imp_right
  rintro ⟨p, q, i, j, rfl, rfl, hi, hj, hpure, heffect, hopcode, htemplates, hoperands⟩
  refine ⟨p, q, i, j, rfl, rfl, ?_, ?_, hpure, heffect, hopcode, htemplates, ?_⟩
  . rw [hcode p hc, hi]
  . rw [hcode q hd, hj]
  . rw [forall₂_iff_getElem?] at hoperands ⊢
    refine ⟨hoperands.1, ?_⟩
    intro k x y hx hy
    apply (hoperands.2 k x y hx hy).imp
    rintro u v rfl rfl huv
    exact ⟨huv, hclosed p u hc ⟨i, hi, List.mem_of_getElem? hx⟩,
      hclosed q v hd ⟨j, hj, List.mem_of_getElem? hy⟩⟩

end Change

theorem identity_is_bisimilarity (r : Routine)
    : (∀ a b x, r.Compares [] a b x ↔ x = r.identicalValues a b) ∧
        (∀ a b, r.identicalValues a b = true ↔ ∃ R, r.Bisimulation R ∧ R a b) ∧
        Equivalence fun a b => r.identicalValues a b = true := by
  refine ⟨fun _ _ _ => compares_iff, fun _ _ => identicalValues_iff_bisimilar, ?_⟩
  simp only [identicalValues_iff_bisimilar]
  exact Bisimilar.equivalence r

-- Two phis that are computed from each other are identical.
example
    : (after [.addBlock, .pushBack (.ofNat 0) (.phi .i64 []),
        .pushBack (.ofNat 0) (.phi .i64 [.insn (.ofNat 0)]),
        .pushOperand (.ofNat 0) (.insn (.ofNat 1))]).identicalValues
          (.insn (.ofNat 0)) (.insn (.ofNat 1)) = true := by
  decide +kernel

end Routine

end MachineIR
