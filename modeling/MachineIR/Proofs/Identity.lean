import Mathlib.Data.Finset.Prod
import MachineIR.Proofs.Views
import MachineIR.Routine.Identity

/-!
This module contains what structural identity means: two values are identical if and only if some
relation holds of them that only relates equal values and values which are computed in the same way
from related operands. The comparison finds out, because on its way down it never meets a pair
twice and the depth it may go to is the number of pairs.
-/

namespace MachineIR

def Operand.Related (R : ValueId → ValueId → Prop) : Operand → Operand → Prop
  | .value a, .value b => R a b
  | x, y => x = y

theorem Operand.Related.imp {R S : ValueId → ValueId → Prop} {x y : Operand} (h : x.Related R y)
    (hsub : ∀ a b, x = .value a → y = .value b → R a b → S a b) : x.Related S y := by
  unfold Related at h ⊢
  split
  . exact hsub _ _ rfl rfl h
  . next hne =>
    split at h
    . next heq => exact absurd rfl (hne _ _ rfl)
    . exact h

theorem Operand.Related.mono {R S : ValueId → ValueId → Prop} (hsub : ∀ a b, R a b → S a b)
    {x y : Operand} (h : x.Related R y) : x.Related S y := h.imp fun a b _ _ => hsub a b

theorem Operand.Related.const?_eq {R : ValueId → ValueId → Prop} {x y : Operand} (h : x.Related R y)
    : x.const? = y.const? := by
  unfold Related at h
  split at h
  . rfl
  . rw [h]

theorem Insn.eq_of_sameShape {i j : Insn} (h : i.sameShape j = true)
    : i.opcode = j.opcode ∧ i.templates = j.templates ∧
        i.operands.length = j.operands.length := by
  simp only [Insn.sameShape, Bool.and_eq_true, beq_iff_eq] at h
  refine ⟨h.1.1.1.1, h.1.1.1.2, ?_⟩
  simp only [Insn.operands, List.length_map]
  exact h.1.1.2

namespace Routine

variable {r : Routine} {a b : ValueId}

def Matches (r : Routine) (R : ValueId → ValueId → Prop) (a b : ValueId) : Prop :=
  r.valueType a = r.valueType b ∧
    ∃ p q i j, a = .insn p ∧ b = .insn q ∧ r.insn? p = some i ∧ r.insn? q = some j ∧
      i.sameShape j = true ∧
      ∀ (k : Nat) (x y : Operand), i.operands[k]? = some x → j.operands[k]? = some y → x.Related R y

theorem Matches.mono {R S : ValueId → ValueId → Prop} (hsub : ∀ a b, R a b → S a b)
    (h : r.Matches R a b) : r.Matches S a b := by
  obtain ⟨hty, p, q, i, j, ha, hb, hi, hj, hshape, hops⟩ := h
  refine ⟨hty, p, q, i, j, ha, hb, hi, hj, hshape, ?_⟩
  intro k x y hx hy
  exact (hops k x y hx hy).mono hsub

def Alike (r : Routine) (pairs : List (ValueId × ValueId)) (a b : ValueId) : Prop :=
  ∃ R : ValueId → ValueId → Prop, R a b ∧
    ∀ c d, R c d → c = d ∨ (c, d) ∈ pairs ∨ r.Matches R c d

theorem Alike.cases {pairs : List (ValueId × ValueId)} (h : r.Alike pairs a b)
    : a = b ∨ (a, b) ∈ pairs ∨ r.Matches (r.Alike pairs) a b := by
  obtain ⟨R, hab, hclosed⟩ := h
  rcases hclosed a b hab with heq | hmem | hmatch
  . exact Or.inl heq
  . exact Or.inr (Or.inl hmem)
  . right
    right
    apply hmatch.mono
    intro c d hcd
    exact ⟨R, hcd, hclosed⟩

theorem alike_of_matches {pairs : List (ValueId × ValueId)}
    (h : r.Matches (r.Alike ((a, b) :: pairs)) a b) : r.Alike pairs a b := by
  refine ⟨fun c d => r.Alike ((a, b) :: pairs) c d ∨ (c, d) = (a, b), Or.inr rfl, ?_⟩
  have hab := h.mono (S := fun c d => r.Alike ((a, b) :: pairs) c d ∨ (c, d) = (a, b))
    fun c d hcd => Or.inl hcd
  intro c d hcd
  rcases hcd with hcd | heq
  . rcases hcd.cases with heq | hmem | hmatch
    . exact Or.inl heq
    . rcases List.mem_cons.mp hmem with heq | hmem
      . cases heq
        exact Or.inr (Or.inr hab)
      . exact Or.inr (Or.inl hmem)
    . exact Or.inr (Or.inr (hmatch.mono fun c d hcd => Or.inl hcd))
  . cases heq
    exact Or.inr (Or.inr hab)

theorem related_of_identical {same : ValueId → ValueId → Bool} {R : ValueId → ValueId → Prop}
    (h : ∀ a b, same a b = true → R a b) {x y : Operand} (hxy : x.identical same y = true)
    : x.Related R y := by
  cases x with
  | value a =>
    cases y with
    | value b => exact h a b hxy
    | _ => exact eq_of_beq hxy
  | _ => exact eq_of_beq hxy

theorem identical_of_related {same : ValueId → ValueId → Bool} {R : ValueId → ValueId → Prop}
    (h : ∀ a b, R a b → same a b = true) {x y : Operand} (hxy : x.Related R y)
    : x.identical same y = true := by
  cases x with
  | value a =>
    cases y with
    | value b => exact h a b hxy
    | _ => exact beq_iff_eq.mpr hxy
  | _ => exact beq_iff_eq.mpr hxy

theorem alike_of_identicalWithin {depth : Nat} {pairs : List (ValueId × ValueId)}
    (h : r.identicalWithin depth pairs a b = true) : r.Alike pairs a b := by
  -- Each way to a positive answer comes with a relation: equality, the pairs that are assumed, or
  -- what the comparison of the operands gives.
  induction depth generalizing pairs a b with
  | zero => cases h
  | succ depth ih =>
    unfold identicalWithin at h
    split at h
    . next heq => exact ⟨fun c d => c = d, heq, fun c d hcd => Or.inl hcd⟩
    . split at h
      . cases h
      . next hty =>
        split at h
        . next hmem =>
          refine ⟨fun c d => (c, d) ∈ pairs, by simpa using hmem, ?_⟩
          intro c d hcd
          exact Or.inr (Or.inl hcd)
        . apply alike_of_matches
          refine ⟨Classical.not_not.mp hty, ?_⟩
          cases a with
          | block c => simp at h
          | insn p =>
            cases b with
            | block c => simp at h
            | insn q =>
              dsimp only at h
              split at h
              . next i j hi hj =>
                rw [Bool.and_eq_true, List.all_eq_true] at h
                refine ⟨p, q, i, j, rfl, rfl, hi, hj, h.1, ?_⟩
                intro k x y hx hy
                apply related_of_identical fun c d hcd => ih hcd
                apply h.2 (x, y)
                rw [List.mem_iff_getElem?]
                refine ⟨k, ?_⟩
                simp [List.getElem?_zip_eq_some, hx, hy]
              . cases h

def openPairs (r : Routine) (pairs : List (ValueId × ValueId)) : Finset (Nat × Nat) :=
  (Finset.range r.insns.size ×ˢ Finset.range r.insns.size).filter fun (p, q) =>
    (ValueId.insn (.ofNat p), ValueId.insn (.ofNat q)) ∉ pairs

theorem card_openPairs_lt (r : Routine) (pairs : List (ValueId × ValueId))
    : (r.openPairs pairs).card < r.insns.size * r.insns.size + 1 := by
  apply Nat.lt_succ_of_le
  refine Nat.le_trans (Finset.card_filter_le _ _) ?_
  simp

theorem card_openPairs_cons {p q : InsnId} {i j : Insn} {pairs : List (ValueId × ValueId)}
    (hi : r.insn? p = some i) (hj : r.insn? q = some j)
    (hmem : (ValueId.insn p, ValueId.insn q) ∉ pairs)
    : (r.openPairs ((.insn p, .insn q) :: pairs)).card < (r.openPairs pairs).card := by
  apply Finset.card_lt_card
  rw [Finset.ssubset_iff_of_subset]
  . refine ⟨(p.toNat, q.toNat), ?_, ?_⟩
    . have hp := Store.lt_size_of_get? hi
      have hq := Store.lt_size_of_get? hj
      simp [openPairs, hp, hq, hmem]
    . simp [openPairs]
  . intro x hx
    simp only [openPairs, Finset.mem_filter, List.mem_cons, not_or] at hx ⊢
    exact ⟨hx.1, hx.2.2⟩

theorem identicalWithin_of_alike {depth : Nat} {pairs : List (ValueId × ValueId)}
    (h : r.Alike [] a b) (hdepth : (r.openPairs pairs).card < depth)
    : r.identicalWithin depth pairs a b = true := by
  -- The depth is sufficient, because no pair is met twice.
  induction depth generalizing pairs a b with
  | zero => omega
  | succ depth ih =>
    unfold identicalWithin
    split
    . rfl
    . next hne =>
      rcases h.cases with heq | hmem | ⟨hty, p, q, i, j, rfl, rfl, hi, hj, hshape, hops⟩
      . exact absurd heq hne
      . cases hmem
      . rw [if_neg (Classical.not_not.mpr hty)]
        split
        . rfl
        . next hmem =>
          have hcard := card_openPairs_cons hi hj (by simpa using hmem)
          dsimp only
          rw [hi, hj]
          dsimp only
          rw [Bool.and_eq_true, List.all_eq_true]
          refine ⟨hshape, ?_⟩
          rintro ⟨x, y⟩ hxy
          obtain ⟨k, hk⟩ := List.mem_iff_getElem?.mp hxy
          rw [List.getElem?_zip_eq_some] at hk
          apply identical_of_related _ (hops k x y hk.1 hk.2)
          intro c d hcd
          exact ih hcd (by omega)

theorem identicalValues_iff : r.identicalValues a b = true ↔ r.Alike [] a b := by
  constructor
  . exact alike_of_identicalWithin
  . intro h
    exact identicalWithin_of_alike h (card_openPairs_lt r [])

theorem identical_iff {x y : Operand} : r.identical x y = true ↔ x.Related (r.Alike []) y := by
  constructor
  . exact related_of_identical fun a b => identicalValues_iff.mp
  . exact identical_of_related fun a b => identicalValues_iff.mpr

end Routine

end MachineIR
