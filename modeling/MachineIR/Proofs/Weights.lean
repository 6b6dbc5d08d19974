import Mathlib.Algebra.BigOperators.Group.Finset.Piecewise
import Mathlib.Algebra.BigOperators.Ring.Finset
import Mathlib.Algebra.Order.BigOperators.Group.Finset
import MachineIR.Proofs.Integrity
import MachineIR.Proofs.PassReductions

/-!
This module contains sums of weights over the instructions of a routine, and what the changes of the
passes do to them. A new instruction takes the place of a register read, and no read is ever added.
-/

namespace MachineIR

namespace Routine

variable {r r' : Routine} {b : BlockId} {id j : InsnId} {gone gone' : List InsnId}
  {w : Instruction → Nat}

section Weight

instance : Finite InsnId :=
  Finite.of_injective (fun id : InsnId => Fin.mk id.toNat id.index.toNat_lt)
    fun _ _ h => InsnId.toNat_inj.mp (Fin.mk.inj h)

/-- All handles of instructions. There are too many to list them, so this set is not computed. -/
noncomputable def handles : Finset InsnId := (Set.toFinite Set.univ).toFinset

theorem mem_handles (id : InsnId) : id ∈ handles :=
  (Set.toFinite Set.univ).mem_toFinset.mpr (Set.mem_univ id)

theorem sum_handles_add_le {f g : InsnId → Nat} {a c : InsnId} {m n : Nat}
    (h : ∀ id, f id + (if id = a then m else 0) ≤ g id + if id = c then n else 0)
    : (∑ id ∈ handles, f id) + m ≤ (∑ id ∈ handles, g id) + n := by
  have hsum := Finset.sum_le_sum fun id (_ : id ∈ handles) => h id
  rw [Finset.sum_add_distrib, Finset.sum_add_distrib, Finset.sum_ite_eq', Finset.sum_ite_eq',
    if_pos (mem_handles a), if_pos (mem_handles c)] at hsum
  exact hsum

def weightAt (w : Instruction → Nat) (gone : List InsnId) (r : Routine) (id : InsnId) : Nat :=
  if id ∈ gone then 0 else ((r.code? id).map w).getD 0

noncomputable def weight (w : Instruction → Nat) (gone : List InsnId) (r : Routine) : Nat :=
  ∑ id ∈ handles, r.weightAt w gone id

theorem weightAt_of_code {i : Instruction} (hid : id ∉ gone) (hi : r.code? id = some i)
    : r.weightAt w gone id = w i := by
  simp [weightAt, hid, hi]

theorem weightAt_of_mem (h : id ∈ gone) : r.weightAt w gone id = 0 := if_pos h

theorem weightAt_of_none (h : r.code? id = none) : r.weightAt w gone id = 0 := by
  simp [weightAt, h]

theorem weightAt_cons_of_ne (h : j ≠ id) : r.weightAt w (id :: gone) j = r.weightAt w gone j := by
  simp [weightAt, h]

theorem weightAt_congr (h : (r'.code? id).map w = (r.code? id).map w)
    : r'.weightAt w gone id = r.weightAt w gone id := by
  unfold weightAt
  rw [h]

theorem weightAt_le_weight (id : InsnId) : r.weightAt w gone id ≤ r.weight w gone := by
  unfold weight
  exact Finset.single_le_sum (fun _ _ => Nat.zero_le _) (mem_handles id)

theorem weight_le (h : ∀ id, r'.weightAt w gone' id ≤ r.weightAt w gone id)
    : r'.weight w gone' ≤ r.weight w gone := by
  unfold weight
  exact Finset.sum_le_sum fun id _ => h id

theorem weight_eq (h : ∀ id, r'.weightAt w gone' id = r.weightAt w gone id)
    : r'.weight w gone' = r.weight w gone := by
  unfold weight
  exact Finset.sum_congr rfl fun id _ => h id

theorem weight_congr (h : ∀ id, (r'.code? id).map w = (r.code? id).map w)
    : r'.weight w gone = r.weight w gone := weight_eq fun id => weightAt_congr (h id)

theorem weight_lt (id : InsnId) (hid : r'.weightAt w gone' id < r.weightAt w gone id)
    (hother : ∀ j, j ≠ id → r'.weightAt w gone' j ≤ r.weightAt w gone j)
    : r'.weight w gone' < r.weight w gone := by
  have := sum_handles_add_le (f := r'.weightAt w gone') (g := r.weightAt w gone) (a := id) (c := id)
    (m := 1) (n := 0) (by
      intro j
      split
      . next hj =>
        rw [hj]
        omega
      . next hj =>
        have := hother j hj
        omega)
  unfold weight
  omega

theorem weight_cons_le : r.weight w (id :: gone) ≤ r.weight w gone := by
  apply weight_le
  intro j
  by_cases hj : j = id
  . rw [weightAt_of_mem (hj ▸ List.mem_cons_self)]
    exact Nat.zero_le _
  . rw [weightAt_cons_of_ne hj]

theorem weight_bare : r.bare.weight w gone = r.weight w gone :=
  weight_congr fun id => by rw [code?_bare]

theorem weight_of_bare_eq (h : r'.bare = r.bare) : r'.weight w gone = r.weight w gone := by
  rw [← weight_bare, h, weight_bare]

theorem weight_replaced {v : ValueId} {x : Operand}
    (hw : ∀ i : Instruction, w (i.substitute v x) = w i) (h : Edit.Replaced r r' v x)
    : r'.weight w gone = r.weight w gone := by
  apply weight_congr
  intro id
  rw [h.code, Option.map_map]
  congr 1
  exact funext hw

theorem weight_erased (h : Edit.Erased r r' id) : r'.weight w gone ≤ r.weight w gone := by
  apply weight_le
  intro j
  by_cases hj : j = id
  . rw [weightAt_of_none (by rw [h.code, if_pos hj])]
    exact Nat.zero_le _
  . exact Nat.le_of_eq (weightAt_congr (by rw [h.code, if_neg hj]))

theorem weightAt_inserted {k : Instruction} {c : InsnId} (hw : ∀ ip, w { k with ip } = w k)
    (h : Edit.Inserted r r' id k c) (j : InsnId)
    : r'.weightAt w gone j ≤ r.weightAt w gone j + if j = c then w k else 0 := by
  obtain ⟨ip, hcode⟩ := h.code
  split
  . next hj =>
    unfold weightAt
    rw [hcode, if_pos hj, Option.map_some, hw]
    split
    . exact Nat.zero_le _
    . exact Nat.le_add_left _ _
  . next hj => exact Nat.le_of_eq (weightAt_congr (by rw [hcode, if_neg hj]))

theorem weight_inserted {k : Instruction} {c : InsnId} (hw : ∀ ip, w { k with ip } = w k)
    (h : Edit.Inserted r r' id k c) : r'.weight w gone ≤ r.weight w gone + w k := by
  have hsum := sum_handles_add_le (f := r'.weightAt w gone) (g := r.weightAt w gone) (a := c) (c := c)
    (m := 0) (n := w k) (by
      intro j
      rw [ite_self, Nat.add_zero]
      exact weightAt_inserted hw h j)
  unfold weight
  rwa [Nat.add_zero] at hsum

theorem weight_recast {i k : Instruction} {c : InsnId} (hw : ∀ ip, w { k with ip } = w k)
    (hid : id ∉ gone) (hi : r.code? id = some i) (h : Edit.Inserted r r' id k c)
    : r'.weight w (id :: gone) + w i ≤ r.weight w gone + w k := by
  unfold weight
  apply sum_handles_add_le (a := id) (c := c)
  intro j
  by_cases hj : j = id
  . rw [hj, weightAt_of_mem List.mem_cons_self, weightAt_of_code hid hi, if_pos rfl, Nat.zero_add]
    exact Nat.le_add_right _ _
  . rw [weightAt_cons_of_ne hj, if_neg hj]
    exact weightAt_inserted hw h j

theorem weight_modifyInsn {f : Insn → Insn} (hf : ∀ i, r.insn? id = some i → w (f i).code = w i.code)
    : (r.modifyInsn id f).weight w gone = r.weight w gone := by
  apply weight_congr
  intro j
  rw [code?_modifyInsn]
  split
  . next hj =>
    rw [hj]
    cases hi : r.insn? id with
    | none => simp [code?, hi]
    | some i => simp [code?_of_insn? hi, hf i hi]
  . rfl

theorem Cleans.weight_le (h : r.Cleans b r') (hgone : ∀ id ∈ gone, r.Spent b id)
    : r'.weight w [] ≤ r.weight w gone := by
  -- When the replaced instructions have gone, it does not matter any more that they do not count.
  apply Routine.weight_le
  intro id
  rcases code?_of_discards h.discards id with hnone | hsame
  . rw [weightAt_of_none hnone]
    exact Nat.zero_le _
  . by_cases hid : id ∈ gone
    . rw [weightAt_of_none (h.thorough id (hgone id hid))]
      exact Nat.zero_le _
    . unfold weightAt
      rw [if_neg hid, if_neg List.not_mem_nil, hsame]

end Weight

section Total

def total (w : Instruction → Nat) (r : Routine) : Nat :=
  (r.insns.entries.map fun (_, i) => w i.code).sum

theorem nodup_ids (hsmall : r.Small) : (r.insns.entries.map fun p => InsnId.ofNat p.1).Nodup := by
  unfold List.Nodup
  rw [List.pairwise_map]
  apply r.insns.pairwise_entries.imp_of_mem
  intro p q hp hq hne heq
  have hp := Store.lt_size_of_get? (Store.mem_entries.mp hp)
  have hq := Store.lt_size_of_get? (Store.mem_entries.mp hq)
  have hsize := hsmall.insns
  have heq := congrArg InsnId.toNat heq
  rw [InsnId.toNat_ofNat (by omega), InsnId.toNat_ofNat (by omega)] at heq
  exact hne heq

theorem mem_ids {c : Instruction} (h : r.code? id = some c)
    : id ∈ r.insns.entries.map fun p => InsnId.ofNat p.1 := by
  obtain ⟨i, hi, -⟩ := exists_insn?_of_code? h
  exact List.mem_map.mpr ⟨(id.toNat, i), Store.mem_entries.mpr hi, InsnId.ofNat_toNat id⟩

theorem total_eq_sum (hsmall : r.Small)
    : r.total w =
        ((r.insns.entries.map fun p => InsnId.ofNat p.1).map (r.weightAt w [])).sum := by
  unfold total
  rw [List.map_map]
  congr 1
  apply List.map_congr_left
  intro p hp
  have hi : r.insn? (.ofNat p.1) = some p.2 := insn?_ofNat hsmall (Store.mem_entries.mp hp)
  exact (weightAt_of_code List.not_mem_nil (code?_of_insn? hi)).symm

theorem weight_nil (hsmall : r.Small) : r.weight w [] = r.total w := by
  rw [total_eq_sum hsmall, ← List.sum_toFinset _ (nodup_ids hsmall), weight]
  symm
  -- A handle that is not listed here has no instruction, and so no weight.
  apply Finset.sum_subset (fun id _ => mem_handles id)
  intro id _ hid
  apply weightAt_of_none
  apply Option.eq_none_iff_forall_ne_some.mpr
  intro c hc
  exact hid (List.mem_toFinset.mpr (mem_ids hc))

end Total

end Routine

end MachineIR
