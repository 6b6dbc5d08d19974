import Mathlib.Algebra.BigOperators.Ring.Finset
import Mathlib.Algebra.Order.BigOperators.Group.Finset
import Mathlib.Data.List.Perm.Subperm
import MachineIR.Proofs.Destruction

/-!
This module contains what the check of a routine finds out about its uses if the routine may be in any
state at all. The check goes through the records from the side of the slots and from the side of the
lists, but it compares the two sides with each other by a single number. A slot whose record is on no list
escapes it, and so does a wrong list of free cells. Two totals tell exactly when that is the case.
-/

namespace MachineIR

theorem Store.count_eq_length_entries {α : Type} (s : Store α) : s.count = s.entries.length := by
  have hfst : s.cells.toList = s.cells.toList.zipIdx.map Prod.fst := by rw [List.zipIdx_map_fst]
  unfold count entries
  rw [List.length_filterMap_eq_countP, ← Array.countP_toList]
  nth_rewrite 1 [hfst]
  rw [List.countP_map]
  apply List.countP_congr
  rintro ⟨cell, n⟩ -
  simp

namespace Routine

variable {r : Routine} {v : ValueId} {l : UseList} {room fuel : Nat} {next : Option UseId}
  {use : UseId} {u : Use} {id : InsnId} {k : Nat}

section Lists

inductive Threads (r : Routine) : Option UseId → List (UseId × Use) → Prop
  | nil {next : Option UseId} (hnone : next.bind r.uses.get? = none) : Threads r next []
  | cons {use : UseId} {u : Use} {rest : List (UseId × Use)} (hu : r.uses.get? use = some u)
    (hrest : Threads r u.next rest) : Threads r (some use) ((use, u) :: rest)

namespace Threads

variable {records records' front back : List (UseId × Use)}

theorem unique (h : r.Threads next records) (h' : r.Threads next records') : records = records' := by
  induction h generalizing records' with
  | nil hnone =>
    cases h' with
    | nil _ => rfl
    | cons hu _ =>
      rw [Option.bind_some, hu] at hnone
      cases hnone
  | cons hu _ ih =>
    cases h' with
    | nil hnone =>
      rw [Option.bind_some, hu] at hnone
      cases hnone
    | cons hu' hrest' =>
      rw [hu] at hu'
      cases hu'
      rw [ih hrest']

theorem get? (h : r.Threads next records) (hmem : (use, u) ∈ records) : r.uses.get? use = some u := by
  induction h with
  | nil _ => cases hmem
  | cons hu _ ih =>
    rcases List.mem_cons.mp hmem with heq | hmem
    . cases heq
      exact hu
    . exact ih hmem

theorem suffix (h : r.Threads next (front ++ (use, u) :: back))
    : r.Threads (some use) ((use, u) :: back) := by
  induction front generalizing next with
  | nil =>
    cases h with
    | cons hu hrest => exact .cons hu hrest
  | cons first front ih =>
    cases h with
    | cons _ hrest => exact ih hrest

theorem nodup (h : r.Threads next records) : (records.map Prod.fst).Nodup := by
  -- A record that came back would be as far from the end as before.
  induction h with
  | nil _ => exact List.nodup_nil
  | @cons use u rest hu hrest ih =>
    rw [List.map_cons, List.nodup_cons]
    refine ⟨?_, ih⟩
    intro hagain
    obtain ⟨⟨use', u'⟩, hmem, heq⟩ := List.mem_map.mp hagain
    cases heq
    obtain ⟨front, back, rfl⟩ := List.append_of_mem hmem
    have hlength := congrArg List.length ((Threads.cons hu hrest).unique hrest.suffix)
    rw [List.length_cons, List.length_append, List.length_cons] at hlength
    omega

theorem length_le (h : r.Threads next records) : records.length ≤ r.uses.records.size := by
  -- As the records differ, there are no more of them than the table has cells.
  have hnodup : ((records.map Prod.fst).map UseId.toNat).Nodup :=
    h.nodup.map fun a b hab => UseId.toNat_inj.mp hab
  have hsub : (records.map Prod.fst).map UseId.toNat ⊆ List.range r.uses.records.size := by
    intro n hn
    rw [List.map_map] at hn
    obtain ⟨⟨use, u⟩, hmem, rfl⟩ := List.mem_map.mp hn
    exact List.mem_range.mpr (UseTable.lt_size_of_get? (h.get? hmem))
  have hle := (List.subperm_of_subset hnodup hsub).length_le
  rwa [List.length_map, List.length_map, List.length_range] at hle

theorem walk_eq (h : r.Threads next records) (hfuel : records.length ≤ fuel)
    : walk (fun id => (r.uses.get? id).map fun u => ((id, u), u.next)) fuel next = records := by
  induction h generalizing fuel with
  | @nil next hnone =>
    cases fuel with
    | zero => rfl
    | succ fuel =>
      cases next with
      | none => rfl
      | some use =>
        rw [Option.bind_some] at hnone
        simp only [walk, hnone, Option.map_none]
  | cons hu _ ih =>
    cases fuel with
    | zero => cases hfuel
    | succ fuel =>
      simp only [walk, hu, Option.map_some]
      rw [ih (Nat.le_of_succ_le_succ hfuel)]

end Threads

theorem threads_of_check (h : r.checkUsesFrom v l room next = .ok ())
    : ∃ records, r.Threads next records ∧ records.length = room ∧
        ∀ use u, (use, u) ∈ records → r.checkUse v use u = .ok () := by
  -- A list passes the check only if it ends when no more records are to come.
  induction room generalizing next with
  | zero =>
    cases hnext : next.bind r.uses.get? with
    | none => exact ⟨[], .nil hnext, rfl, by simp⟩
    | some u =>
      obtain ⟨use, rfl, hu⟩ := Option.bind_eq_some_iff.mp hnext
      unfold checkUsesFrom at h
      simp only [Option.bind_some, hu, Option.map_some] at h
      exact absurd (Check.seq_eq_ok.mp h).2 Check.throw_ne_ok
  | succ room ih =>
    cases hnext : next.bind fun id => (r.uses.get? id).map (id, ·) with
    | none =>
      unfold checkUsesFrom at h
      simp only [hnext] at h
      exact absurd h Check.throw_ne_ok
    | some p =>
      obtain ⟨use, rfl, hp⟩ := Option.bind_eq_some_iff.mp hnext
      obtain ⟨u, hu, rfl⟩ := Option.map_eq_some_iff.mp hp
      unfold checkUsesFrom at h
      simp only [hnext] at h
      obtain ⟨huse, hrest⟩ := Check.seq_eq_ok.mp h
      obtain ⟨records, hthreads, hlength, hchecked⟩ := ih hrest
      refine ⟨(use, u) :: records, .cons hu hthreads, by rw [List.length_cons, hlength], ?_⟩
      intro use' u' hmem
      rcases List.mem_cons.mp hmem with heq | hmem
      . cases heq
        exact huse
      . exact hchecked use' u' hmem

structure Listed (r : Routine) (v : ValueId) (l : UseList) : Prop where
  once : ((r.uses.listed l).map Prod.fst).Nodup
  length : (r.uses.listed l).length = l.len
  owned : ∀ use u, (use, u) ∈ r.uses.listed l →
    r.uses.get? use = some u ∧ r.slot? u.user u.slot = some ⟨.value v, some use⟩

theorem listed_of_check (h : r.checkUses v l = .ok ()) : r.Listed v l := by
  obtain ⟨records, hthreads, hlength, hchecked⟩ := threads_of_check h
  have hlisted : r.uses.listed l = records := hthreads.walk_eq hthreads.length_le
  rw [← hlisted] at hthreads hlength hchecked
  refine ⟨hthreads.nodup, hlength, ?_⟩
  intro use u hmem
  exact ⟨hthreads.get? hmem, (checkUse_eq_ok.mp (hchecked use u hmem)).2⟩

end Lists

section Values

/-- The slots that hold a value have their records on its list, and the list counts just these slots. -/
structure SoundAt (r : Routine) (v : ValueId) : Prop where
  reached : ∀ id k use, r.slot? id k = some ⟨.value v, use⟩ →
    ∃ own l u, use = some own ∧ r.useList? v = some l ∧ (own, u) ∈ r.uses.listed l
  count : r.useCount v = (r.references v).length

theorem mem_references_iff_slot? (hsmall : r.Small)
    : (id, k) ∈ r.references v ↔ ∃ use, r.slot? id k = some ⟨.value v, use⟩ := by
  rw [mem_references hsmall, code?_operand_iff_slot?]

namespace Listed

theorem nodup_usesOf (h : r.Listed v l) (hl : r.useList? v = some l) : (r.usesOf v).Nodup := by
  simp only [usesOf, hl]
  refine h.once.of_map.map_on ?_
  rintro ⟨use, u⟩ hmem ⟨use', u'⟩ hmem' hsame
  obtain ⟨hu, hs⟩ := h.owned use u hmem
  obtain ⟨hu', hs'⟩ := h.owned use' u' hmem'
  obtain ⟨huser, hslot⟩ := Prod.mk.inj hsame
  -- both records belong to one slot, which has only one
  rw [huser, hslot, hs'] at hs
  cases hs
  rw [hu] at hu'
  cases hu'
  rfl

theorem subset_references (h : r.Listed v l) (hl : r.useList? v = some l) (hsmall : r.Small)
    : r.usesOf v ⊆ r.references v := by
  rintro ⟨id, k⟩ hmem
  simp only [usesOf, hl, List.mem_map] at hmem
  obtain ⟨⟨use, u⟩, hmem, heq⟩ := hmem
  cases heq
  exact (mem_references_iff_slot? hsmall).mpr ⟨some use, (h.owned use u hmem).2⟩

theorem length_usesOf (h : r.Listed v l) (hl : r.useList? v = some l)
    : (r.usesOf v).length = r.useCount v := by
  simp only [usesOf, useCount, hl, List.length_map, h.length, Option.map_some, Option.getD_some]

theorem useCount_le (h : r.Listed v l) (hl : r.useList? v = some l) (hsmall : r.Small)
    : r.useCount v ≤ (r.references v).length := by
  rw [← h.length_usesOf hl]
  exact (List.subperm_of_subset (h.nodup_usesOf hl) (h.subset_references hl hsmall)).length_le

theorem soundAt_iff (h : r.Listed v l) (hl : r.useList? v = some l) (hsmall : r.Small)
    : r.SoundAt v ↔ r.useCount v = (r.references v).length := by
  refine ⟨SoundAt.count, fun hcount => ⟨?_, hcount⟩⟩
  intro id k use hs
  have hperm : (r.usesOf v).Perm (r.references v) := by
    apply (List.subperm_of_subset (h.nodup_usesOf hl) (h.subset_references hl hsmall)).perm_of_length_le
    rw [h.length_usesOf hl, hcount]
  have hmem := hperm.mem_iff.mpr ((mem_references_iff_slot? hsmall).mpr ⟨use, hs⟩)
  simp only [usesOf, hl, List.mem_map] at hmem
  obtain ⟨⟨own, u⟩, hmem, heq⟩ := hmem
  cases heq
  have howned := (h.owned own u hmem).2
  rw [hs] at howned
  cases howned
  exact ⟨own, l, u, rfl, hl, hmem⟩

end Listed

end Values

section Totals

def values (r : Routine) : List ValueId :=
  (r.insns.entries.map fun p => .insn (.ofNat p.1)) ++
    r.blocks.entries.map fun p => .block (.ofNat p.1)

theorem mem_values (hsmall : r.Small) : v ∈ r.values ↔ r.contains v = true := by
  unfold values
  rw [List.mem_append, List.mem_map, List.mem_map]
  cases v with
  | insn id =>
    simp only [contains, Option.isSome_iff_exists]
    constructor
    . rintro (⟨⟨n, i⟩, hi, heq⟩ | ⟨_, -, heq⟩)
      . cases heq
        exact ⟨i, insn?_ofNat hsmall (Store.mem_entries.mp hi)⟩
      . cases heq
    . rintro ⟨i, hi⟩
      exact Or.inl ⟨(id.toNat, i), Store.mem_entries.mpr hi, by rw [InsnId.ofNat_toNat]⟩
  | block b =>
    simp only [contains, Option.isSome_iff_exists]
    constructor
    . rintro (⟨_, -, heq⟩ | ⟨⟨n, found⟩, hfound, heq⟩)
      . cases heq
      . cases heq
        have hn := Store.mem_entries.mp hfound
        refine ⟨found, ?_⟩
        rw [block?, BlockId.toNat_ofNat ((Store.lt_size_of_get? hn).trans_le hsmall.blocks), hn]
    . rintro ⟨found, hfound⟩
      exact Or.inr ⟨(b.toNat, found), Store.mem_entries.mpr hfound, by rw [BlockId.ofNat_toNat]⟩

theorem nodup_map_entries {α β : Type} (s : Store α) (f : Nat → β)
    (hf : ∀ m n, m < s.size → n < s.size → f m = f n → m = n)
    : (s.entries.map fun p => f p.1).Nodup := by
  unfold List.Nodup
  rw [List.pairwise_map]
  apply s.pairwise_entries.imp_of_mem
  rintro ⟨m, a⟩ ⟨n, b⟩ hm hn hne heq
  exact hne (hf m n (Store.lt_size_of_get? (Store.mem_entries.mp hm))
    (Store.lt_size_of_get? (Store.mem_entries.mp hn)) heq)

theorem nodup_values (hsmall : r.Small) : r.values.Nodup := by
  have hinsns := hsmall.insns
  have hblocks := hsmall.blocks
  unfold values
  rw [List.nodup_append]
  refine ⟨?_, ?_, ?_⟩
  . apply nodup_map_entries r.insns fun n => ValueId.insn (.ofNat n)
    intro m n hm hn heq
    have := congrArg InsnId.toNat (ValueId.insn.inj heq)
    rwa [InsnId.toNat_ofNat (by omega), InsnId.toNat_ofNat (by omega)] at this
  . apply nodup_map_entries r.blocks fun n => ValueId.block (.ofNat n)
    intro m n hm hn heq
    have := congrArg BlockId.toNat (ValueId.block.inj heq)
    rwa [BlockId.toNat_ofNat (by omega), BlockId.toNat_ofNat (by omega)] at this
  . intro v hv w hw heq
    obtain ⟨_, -, rfl⟩ := List.mem_map.mp hv
    obtain ⟨_, -, rfl⟩ := List.mem_map.mp hw
    cases heq

def heldValues (r : Routine) : List ValueId :=
  r.insns.entries.flatMap fun (_, i) => i.operands.filterMap Operand.value?

theorem length_heldValues (r : Routine) : r.heldValues.length = r.referenceCount := by
  unfold heldValues referenceCount
  rw [List.length_flatMap, List.length_flatMap]
  congr 1
  apply List.map_congr_left
  rintro ⟨n, i⟩ -
  rw [List.length_filterMap_eq_countP, List.countP_eq_length_filter]

theorem count_heldValues (r : Routine) (v : ValueId)
    : r.heldValues.count v = (r.references v).length := by
  unfold heldValues references
  rw [List.count_flatMap, List.length_flatMap]
  congr 1
  apply List.map_congr_left
  rintro ⟨n, i⟩ -
  have hfst : i.operands = i.operands.zipIdx.map Prod.fst := by rw [List.zipIdx_map_fst]
  rw [Function.comp_apply, List.count_filterMap, List.length_map, ← List.countP_eq_length_filter]
  nth_rewrite 1 [hfst]
  rw [List.countP_map]
  apply List.countP_congr
  rintro ⟨x, k⟩ -
  cases x with
  | _ => simp [Operand.value?]

theorem mem_heldValues (hsmall : r.Small)
    : v ∈ r.heldValues ↔ ∃ id k use, r.slot? id k = some ⟨.value v, use⟩ := by
  rw [← List.count_pos_iff, count_heldValues, List.length_pos_iff_exists_mem, Prod.exists]
  simp only [mem_references_iff_slot? hsmall]

theorem Owns.contains (h : r.Owns) {use : Option UseId} (hs : r.slot? id k = some ⟨.value v, use⟩)
    : r.contains v = true := by
  have howned := h id k _ hs
  cases use with
  | none => exact howned.elim
  | some use =>
    rw [contains_eq, Option.isSome_iff_exists]
    exact howned.2

theorem Owns.sum_references (h : r.Owns) (hsmall : r.Small)
    : (r.values.map fun v => (r.references v).length).sum = r.referenceCount := by
  have hheld : ∀ v ∈ (r.heldValues : Multiset ValueId), v ∈ r.values.toFinset := by
    intro v hv
    obtain ⟨id, k, use, hs⟩ := (mem_heldValues hsmall).mp (Multiset.mem_coe.mp hv)
    rw [List.mem_toFinset, mem_values hsmall]
    exact h.contains hs
  rw [← List.sum_toFinset _ (nodup_values hsmall), ← length_heldValues, ← Multiset.coe_card,
    ← Multiset.sum_count_eq_card hheld]
  simp only [Multiset.coe_count, count_heldValues]

end Totals

section Records

def liveRecords (r : Routine) : List UseId := r.uses.records.entries.map fun p => .ofNat p.1

theorem mem_liveRecords (hsmall : r.Small) : use ∈ r.liveRecords ↔ ∃ u, r.uses.get? use = some u := by
  unfold liveRecords
  rw [List.mem_map]
  constructor
  . rintro ⟨⟨n, u⟩, hu, rfl⟩
    have hn := Store.mem_entries.mp hu
    refine ⟨u, ?_⟩
    rw [UseTable.get?, UseId.toNat_ofNat ((Store.lt_size_of_get? hn).trans_le hsmall.uses), hn]
  . rintro ⟨u, hu⟩
    exact ⟨(use.toNat, u), Store.mem_entries.mpr hu, by rw [UseId.ofNat_toNat]⟩

theorem nodup_liveRecords (hsmall : r.Small) : r.liveRecords.Nodup := by
  have hsize := hsmall.uses
  apply nodup_map_entries r.uses.records UseId.ofNat
  intro m n hm hn heq
  have := congrArg UseId.toNat heq
  rwa [UseId.toNat_ofNat (by omega), UseId.toNat_ofNat (by omega)] at this

theorem Owns.subset_liveRecords (h : r.Owns) (hsmall : r.Small) : r.slotRecords ⊆ r.liveRecords := by
  intro use huse
  obtain ⟨id, k, x, hs⟩ := (mem_slotRecords hsmall).mp huse
  obtain ⟨v, l, -, href, -⟩ := (h id k _ hs).record rfl
  obtain ⟨u, hu, -⟩ := UseTable.reference?_eq_some.mp href
  exact (mem_liveRecords hsmall).mpr ⟨u, hu⟩

def OneOwner (r : Routine) : Prop :=
  ∀ use u, r.uses.get? use = some u →
    ∃! p : InsnId × Nat, ∃ v, r.slot? p.1 p.2 = some ⟨.value v, some use⟩

theorem Owns.oneOwner_iff (h : r.Owns) (hsmall : r.Small)
    : r.OneOwner ↔ r.uses.records.count = r.referenceCount := by
  -- As the slots have records of their own, all records belong to slots if there are not more of
  -- them.
  have hsubperm := List.subperm_of_subset (h.nodup_slotRecords hsmall) (h.subset_liveRecords hsmall)
  have hcount : r.uses.records.count = r.liveRecords.length := by
    rw [liveRecords, List.length_map, Store.count_eq_length_entries]
  rw [hcount, ← h.length_slotRecords hsmall]
  constructor
  . intro howner
    apply Nat.le_antisymm _ hsubperm.length_le
    refine (List.subperm_of_subset (nodup_liveRecords hsmall) ?_).length_le
    intro use huse
    obtain ⟨u, hu⟩ := (mem_liveRecords hsmall).mp huse
    obtain ⟨⟨id, k⟩, ⟨v, hs⟩, -⟩ := howner use u hu
    exact (mem_slotRecords hsmall).mpr ⟨id, k, .value v, hs⟩
  . intro hlength use u hu
    have hmem := (hsubperm.perm_of_length_le hlength.le).mem_iff.mpr
      ((mem_liveRecords hsmall).mpr ⟨u, hu⟩)
    obtain ⟨id, k, x, hs⟩ := (mem_slotRecords hsmall).mp hmem
    obtain ⟨v, l, hx, -⟩ := (h id k _ hs).record rfl
    dsimp only at hx
    subst hx
    refine ⟨(id, k), ⟨v, hs⟩, ?_⟩
    rintro ⟨id', k'⟩ ⟨v', hs'⟩
    obtain ⟨rfl, rfl⟩ := h.slot_inj hs' hs
    rfl

end Records

section Check

structure SoundUses (r : Routine) : Prop where
  lists : ∀ v, r.SoundAt v
  records : r.OneOwner

def Inspects (r : Routine) : ValueId → Prop
  | .insn id => r.insn? id ≠ none
  | .block b => b ∈ r.order

theorem listed_of_inspects (h : r.check = .ok ()) (hv : r.Inspects v)
    : ∃ l, r.useList? v = some l ∧ r.Listed v l := by
  cases v with
  | insn id =>
    obtain ⟨i, hi⟩ := Option.ne_none_iff_exists'.mp hv
    exact ⟨i.uses, by rw [useList?, hi, Option.map_some], listed_of_check (passes_of_check h hi).uses⟩
  | block b =>
    obtain ⟨-, found, hfound, huses⟩ := (check_eq_ok.mp h).2.1 b hv
    exact ⟨found.uses, by rw [useList?, hfound, Option.map_some], listed_of_check huses⟩

theorem Owns.soundAt_of_gone (h : r.Owns) (hsmall : r.Small) (hv : r.contains v = false)
    : r.SoundAt v := by
  -- No slot refers to a value that is gone, and nothing is counted for it.
  have hnone : ∀ id k use, r.slot? id k ≠ some ⟨.value v, use⟩ := by
    intro id k use hs
    rw [h.contains hs] at hv
    cases hv
  have hreferences : r.references v = [] := by
    rw [List.eq_nil_iff_forall_not_mem]
    rintro ⟨id, k⟩ hmem
    obtain ⟨use, hs⟩ := (mem_references_iff_slot? hsmall).mp hmem
    exact hnone id k use hs
  have hlist : r.useList? v = none := by
    rw [contains_eq] at hv
    simpa using hv
  constructor
  . intro id k use hs
    exact (hnone id k use hs).elim
  . rw [hreferences, useCount, hlist]
    rfl

theorem Owns.useCount_eq_of_sum (h : r.Owns) (hsmall : r.Small)
    (hle : ∀ v ∈ r.values, r.useCount v ≤ (r.references v).length)
    (hsum : (r.values.map r.useCount).sum = r.referenceCount)
    : ∀ v ∈ r.values, r.useCount v = (r.references v).length := by
  -- If nothing is counted too often and the sum is right, then everything is counted right.
  have hnodup := nodup_values hsmall
  rw [← h.sum_references hsmall, ← List.sum_toFinset _ hnodup, ← List.sum_toFinset _ hnodup,
    Finset.sum_eq_sum_iff_of_le fun v hv => hle v (List.mem_toFinset.mp hv)] at hsum
  intro v hv
  exact hsum v (List.mem_toFinset.mpr hv)

theorem SoundUses.sum_useCount (h : r.SoundUses) (howns : r.Owns) (hsmall : r.Small)
    : (r.values.map r.useCount).sum = r.referenceCount := by
  rw [← howns.sum_references hsmall]
  congr 1
  apply List.map_congr_left
  intro v _
  exact (h.lists v).count

theorem useCount_le_of_inspects (hcheck : r.check = .ok ()) (hsmall : r.Small) (hv : r.Inspects v)
    : r.useCount v ≤ (r.references v).length := by
  obtain ⟨l, hl, hlisted⟩ := listed_of_inspects hcheck hv
  exact hlisted.useCount_le hl hsmall

theorem inspects_or_outside (hv : r.contains v = true)
    : r.Inspects v ∨ ∃ b, v = .block b ∧ r.block? b ≠ none ∧ b ∉ r.order := by
  cases v with
  | insn id => exact Or.inl (Option.isSome_iff_ne_none.mp hv)
  | block b =>
    by_cases hb : b ∈ r.order
    . exact Or.inl hb
    . exact Or.inr ⟨b, rfl, Option.isSome_iff_ne_none.mp hv, hb⟩

theorem soundAt_of_sum (hcheck : r.check = .ok ()) (hsmall : r.Small)
    (hsum : (r.values.map r.useCount).sum = r.referenceCount)
    (houtside : ∀ b, r.block? b ≠ none → b ∉ r.order → r.SoundAt (.block b)) (v : ValueId)
    : r.SoundAt v := by
  have howns := owns_of_check hcheck
  have hcases : ∀ v, r.contains v = true → r.Inspects v ∨ r.SoundAt v := by
    intro v hv
    rcases inspects_or_outside hv with hinspects | ⟨b, rfl, hb, hlaid⟩
    . exact Or.inl hinspects
    . exact Or.inr (houtside b hb hlaid)
  have hcount := howns.useCount_eq_of_sum hsmall (fun v hv =>
    (hcases v ((mem_values hsmall).mp hv)).elim (useCount_le_of_inspects hcheck hsmall)
      fun hsound => hsound.count.le) hsum
  cases hv : r.contains v with
  | false => exact howns.soundAt_of_gone hsmall hv
  | true =>
    rcases hcases v hv with hinspects | hsound
    . obtain ⟨l, hl, hlisted⟩ := listed_of_inspects hcheck hinspects
      exact (hlisted.soundAt_iff hl hsmall).mpr (hcount v ((mem_values hsmall).mpr hv))
    . exact hsound

theorem Tracks.soundUses (h : r.Tracked) (hsmall : r.Small) : r.SoundUses := by
  constructor
  . intro v
    refine ⟨?_, h.useCount_eq hsmall v⟩
    intro id k use hs
    cases use with
    | none => exact (h.closed id k v hs).elim
    | some own =>
      obtain ⟨l, hl⟩ := h.live id k v (some own) hs
      obtain ⟨u, hu, -, rfl, rfl⟩ := UseTable.reference?_eq_some.mp ((h.owner id k v own).mp hs)
      exact ⟨own, l, u, rfl, hl, ((h.listsUses hl).records own u).mpr ⟨hu, hs⟩⟩
  . intro use u hu
    have hs : r.slot? u.user u.slot = some ⟨.value u.value, some use⟩ :=
      (h.owner _ _ _ use).mpr (UseTable.reference?_eq_some.mpr ⟨u, hu, rfl, rfl, rfl⟩)
    refine ⟨(u.user, u.slot), ⟨u.value, hs⟩, ?_⟩
    rintro ⟨id, k⟩ ⟨v, hs'⟩
    obtain ⟨rfl, rfl⟩ := h.owns.slot_inj hs' hs
    rfl

theorem check_sound_iff (r : Routine) (hsmall : r.Small) (hcheck : r.check = .ok ())
    : (∀ id k v use, r.slot? id k = some ⟨.value v, use⟩ →
          r.contains v = true ∧ ∃ own u, use = some own ∧ r.uses.get? own = some u ∧
            u.value = v ∧ u.user = id ∧ u.slot = k) ∧
        (∀ v, r.Inspects v → r.useCount v ≤ (r.references v).length) ∧
        (r.SoundUses ↔
          r.uses.records.count = r.uses.live ∧
            (r.values.map r.useCount).sum = r.referenceCount ∧
            ∀ b, r.block? b ≠ none → b ∉ r.order → r.SoundAt (.block b)) ∧
        ∀ actions, r = after actions → r.SoundUses := by
  have howns := owns_of_check hcheck
  have hlive := (check_eq_ok.mp hcheck).2.2
  refine ⟨?_, fun v => useCount_le_of_inspects hcheck hsmall, ?_, ?_⟩
  . intro id k v use hs
    refine ⟨howns.contains hs, ?_⟩
    cases use with
    | none => exact (howns id k _ hs).elim
    | some own =>
      obtain ⟨u, hu, hrecord⟩ := UseTable.reference?_eq_some.mp (howns id k _ hs).1
      exact ⟨own, u, rfl, hu, hrecord⟩
  . -- No list that the check inspects counts too much, so every count is right if their sum is.
    rw [← hlive, ← howns.oneOwner_iff hsmall]
    constructor
    . intro hsound
      exact ⟨hsound.records, hsound.sum_useCount howns hsmall, fun b _ _ => hsound.lists (.block b)⟩
    . rintro ⟨hrecords, hsum, houtside⟩
      exact ⟨soundAt_of_sum hcheck hsmall hsum houtside, hrecords⟩
  . rintro actions rfl
    exact (tracked_after actions hsmall).soundUses hsmall

def writtenBack : List Action :=
  [.addBlock,
    .pushBack (.ofNat 0) (.readReg .i64 (.ofNat 1 1)),
    .pushBack (.ofNat 0) (.writeReg (.ofNat 1 1) (.insn (.ofNat 0)) .i64)]

theorem check_sound_iff_writtenBack
    : (after writtenBack).check = .ok () ∧ (after writtenBack).SoundUses := by
  have hsmall : (after writtenBack).Small := by decide +kernel
  have hcheck : (after writtenBack).check = .ok () := by decide +kernel
  obtain ⟨-, -, hiff, -⟩ := check_sound_iff (after writtenBack) hsmall hcheck
  refine ⟨hcheck, hiff.mpr ⟨by decide +kernel, by decide +kernel, ?_⟩⟩
  intro b hb houtside
  exact (houtside (((wired_after writtenBack hsmall).laid b).mpr hb)).elim

def unlinkedUse : Routine := (after writtenBack).setUseList (.insn (.ofNat 0)) {}

theorem check_unlinkedUse
    : unlinkedUse.Small ∧ unlinkedUse.check = .ok () ∧
        unlinkedUse.slot? (.ofNat 1) 1 = some ⟨.value (.insn (.ofNat 0)), some (.ofNat 0)⟩ ∧
        unlinkedUse.usesOf (.insn (.ofNat 0)) = [] ∧
        unlinkedUse.references (.insn (.ofNat 0)) = [(.ofNat 1, 1)] ∧
        ¬ unlinkedUse.SoundUses := by
  have huses : unlinkedUse.useCount (.insn (.ofNat 0)) = 0 := by decide +kernel
  have hreferences : unlinkedUse.references (.insn (.ofNat 0)) = [(.ofNat 1, 1)] := by decide +kernel
  refine ⟨by decide +kernel, by decide +kernel, by decide +kernel, by decide +kernel, hreferences, ?_⟩
  intro hsound
  have hcount := (hsound.lists (.insn (.ofNat 0))).count
  rw [huses, hreferences] at hcount
  cases hcount

end Check

end Routine

end MachineIR
