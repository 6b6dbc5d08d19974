import Mathlib.Data.List.Nodup
import MachineIR.Proofs.BlockLists
import MachineIR.Proofs.Tracking

/-!
This module contains what the check of a whole routine comes down to if its uses are tracked: every
instruction is in a block and its operands fit its opcode, and the instructions of every block form
a list.
-/

namespace MachineIR

theorem Store.pairwise_entries {α : Type} (s : Store α)
    : s.entries.Pairwise fun p q => p.1 ≠ q.1 := by
  unfold entries
  rw [List.pairwise_filterMap, List.pairwise_iff_getElem]
  intro n m hn hm hlt p hp q hq
  rw [List.getElem_zipIdx] at hp hq
  obtain ⟨a, -, rfl⟩ := Option.map_eq_some_iff.mp hp
  obtain ⟨b, -, rfl⟩ := Option.map_eq_some_iff.mp hq
  dsimp only
  omega

theorem UseId.length_of_mem_iff {ids : List UseId} {n : Nat} (hn : n ≤ UInt32.size) (hnodup : ids.Nodup)
    (hmem : ∀ use, use ∈ ids ↔ use.toNat < n) : ids.length = n := by
  have hperm : (ids.map toNat).Perm (List.range n) := by
    rw [List.perm_ext_iff_of_nodup _ List.nodup_range]
    . intro k
      rw [List.mem_map, List.mem_range]
      constructor
      . rintro ⟨use, huse, rfl⟩
        exact (hmem use).mp huse
      . intro hk
        refine ⟨ofNat k, ?_, toNat_ofNat (by omega)⟩
        rw [hmem, toNat_ofNat (by omega)]
        exact hk
    . apply hnodup.map
      intro a b hab
      exact toNat_inj.mp hab
  have := hperm.length_eq
  rwa [List.length_map, List.length_range] at this

namespace Routine

variable {r : Routine}

theorem Tracks.owns (h : r.Tracked) : r.Owns := by
  rintro id k ⟨x, use⟩ hs
  cases x with
  | value v =>
    cases use with
    | none => exact h.closed id k v hs
    | some use => exact ⟨(h.owner id k v use).mp hs, h.live id k v (some use) hs⟩
  | _ =>
    cases use with
    | none => exact rfl
    | some use =>
      obtain ⟨v, hv⟩ := h.plain id k _ use hs
      cases hv

section Lists

variable {v : ValueId} {l : UseList} {prev : Option UseId} {ids : List UseId}

theorem Tracks.checkUsesFrom (h : r.Tracked) (hchain : r.uses.Chain v prev ids none)
    : r.checkUsesFrom v l ids.length ids.head? = .ok () := by
  induction ids generalizing prev with
  | nil =>
    unfold Routine.checkUsesFrom
    rfl
  | cons use rest ih =>
    obtain ⟨⟨u, hu, hvalue, -, hnext⟩, hrest⟩ := hchain
    rw [Option.or_none] at hnext
    unfold Routine.checkUsesFrom
    simp only [List.head?_cons, Option.bind_some, hu, Option.map_some, List.length_cons]
    rw [Check.seq_eq_ok, checkUse_eq_ok, h.owner, hnext]
    exact ⟨⟨hvalue, UseTable.reference?_eq_some.mpr ⟨u, hu, hvalue, rfl, rfl⟩⟩, ih hrest⟩

theorem Tracks.checkUses (h : r.Tracked) (hl : r.useList? v = some l)
    : r.checkUses v l = .ok () := by
  obtain ⟨ids, hids, -⟩ := h.listed v l hl
  unfold Routine.checkUses
  rw [hids.len, hids.head]
  exact h.checkUsesFrom hids.chain

end Lists

section Count

def slotRecords (r : Routine) : List UseId :=
  r.insns.entries.flatMap fun (_, i) => i.slots.filterMap Slot.use

variable {use : UseId}

theorem insn?_ofNat (hsmall : r.Small) {n : Nat} {i : Insn} (hi : r.insns.get? n = some i)
    : r.insn? (.ofNat n) = some i := by
  have := Store.lt_size_of_get? hi
  have := hsmall.insns
  unfold insn?
  rw [InsnId.toNat_ofNat (by omega), hi]

theorem mem_slotRecords (hsmall : r.Small)
    : use ∈ r.slotRecords ↔ ∃ id k x, r.slot? id k = some ⟨x, some use⟩ := by
  unfold slotRecords
  rw [List.mem_flatMap]
  constructor
  . rintro ⟨⟨n, i⟩, hi, huse⟩
    obtain ⟨⟨x, own⟩, hs, rfl⟩ := List.mem_filterMap.mp huse
    obtain ⟨k, hk⟩ := List.getElem?_of_mem hs
    refine ⟨.ofNat n, k, x, ?_⟩
    rw [slot?_eq (insn?_ofNat hsmall (Store.mem_entries.mp hi)), hk]
  . rintro ⟨id, k, x, hs⟩
    obtain ⟨i, hi, hk⟩ := Option.bind_eq_some_iff.mp hs
    exact ⟨(id.toNat, i), Store.mem_entries.mpr hi,
      List.mem_filterMap.mpr ⟨_, List.mem_of_getElem? hk, rfl⟩⟩

theorem Owns.slot_inj (h : r.Owns) {id id' : InsnId} {k k' : Nat} {x x' : Operand}
    (hs : r.slot? id k = some ⟨x, some use⟩) (hs' : r.slot? id' k' = some ⟨x', some use⟩)
    : id = id' ∧ k = k' := by
  obtain ⟨v, l, -, href, -⟩ := (h id k _ hs).record rfl
  obtain ⟨v', l', -, href', -⟩ := (h id' k' _ hs').record rfl
  rw [href] at href'
  cases href'
  exact ⟨rfl, rfl⟩

theorem Owns.nodup_slotRecords (h : r.Owns) (hsmall : r.Small) : r.slotRecords.Nodup := by
  unfold slotRecords
  rw [List.nodup_flatMap]
  constructor
  . rintro ⟨index, i⟩ hi
    have hi := insn?_ofNat hsmall (Store.mem_entries.mp hi)
    unfold List.Nodup
    rw [List.pairwise_filterMap, List.pairwise_iff_getElem]
    intro k m hk hm hlt use huse use' huse' heq
    subst heq
    have hs : ∀ n (hn : n < i.slots.length), i.slots[n].use = some use →
        r.slot? (.ofNat index) n = some ⟨i.slots[n].operand, some use⟩ := by
      intro n hn huse
      rw [slot?_eq hi, List.getElem?_eq_getElem hn, ← huse]
    have := (h.slot_inj (hs k hk huse) (hs m hm huse')).2
    omega
  . apply r.insns.pairwise_entries.imp_of_mem
    rintro ⟨n, i⟩ ⟨m, j⟩ hi hj hne use huse huse'
    rw [Store.mem_entries] at hi hj
    obtain ⟨⟨x, own⟩, hs, rfl⟩ := List.mem_filterMap.mp huse
    obtain ⟨⟨x', own'⟩, hs', rfl⟩ := List.mem_filterMap.mp huse'
    obtain ⟨k, hk⟩ := List.getElem?_of_mem hs
    obtain ⟨k', hk'⟩ := List.getElem?_of_mem hs'
    rw [← slot?_eq (insn?_ofNat hsmall hi)] at hk
    rw [← slot?_eq (insn?_ofNat hsmall hj)] at hk'
    have heq := congrArg InsnId.toNat (h.slot_inj hk hk').1
    have hn := Store.lt_size_of_get? hi
    have hm := Store.lt_size_of_get? hj
    have hsize := hsmall.insns
    rw [InsnId.toNat_ofNat (by omega), InsnId.toNat_ofNat (by omega)] at heq
    exact hne heq

theorem Owns.isSome_use (h : r.Owns) {id : InsnId} {k : Nat} {s : Slot}
    (hs : r.slot? id k = some s) : s.use.isSome = s.operand.value?.isSome := by
  have howned := h id k s hs
  obtain ⟨x, use⟩ := s
  cases x with
  | value v =>
    cases use with
    | none => exact howned.elim
    | some use => rfl
  | _ =>
    cases howned
    rfl

theorem Owns.length_slotRecords (h : r.Owns) (hsmall : r.Small)
    : r.slotRecords.length = r.referenceCount := by
  unfold slotRecords referenceCount
  rw [List.length_flatMap, List.length_flatMap]
  congr 1
  apply List.map_congr_left
  rintro ⟨n, i⟩ hi
  have hi := insn?_ofNat hsmall (Store.mem_entries.mp hi)
  dsimp only [Insn.operands]
  rw [List.length_filterMap_eq_countP, ← List.countP_eq_length_filter, List.countP_map]
  apply List.countP_congr
  intro s hs
  obtain ⟨k, hk⟩ := List.getElem?_of_mem hs
  rw [← slot?_eq hi] at hk
  rw [h.isSome_use hk]
  rfl

theorem Tracks.referenceCount_eq (h : r.Tracked) (hsmall : r.Small)
    : r.referenceCount = r.uses.live := by
  have hrecord : ∀ use, use ∈ r.slotRecords ↔ ∃ u, r.uses.get? use = some u := by
    intro use
    rw [mem_slotRecords hsmall]
    constructor
    . rintro ⟨id, k, x, hs⟩
      obtain ⟨v, rfl⟩ := h.plain id k x use hs
      obtain ⟨u, hu, -⟩ := UseTable.reference?_eq_some.mp ((h.owner id k v use).mp hs)
      exact ⟨u, hu⟩
    . rintro ⟨u, hu⟩
      exact ⟨u.user, u.slot, _,
        (h.owner _ _ u.value use).mpr (UseTable.reference?_eq_some.mpr ⟨u, hu, rfl, rfl, rfl⟩)⟩
  -- Every cell of the table is free or belongs to a slot.
  have hlength : (r.slotRecords ++ r.uses.free).length = r.uses.records.size := by
    apply UseId.length_of_mem_iff hsmall.uses
    . rw [List.nodup_append]
      refine ⟨h.owns.nodup_slotRecords hsmall, h.free.nodup, ?_⟩
      intro use huse use' huse' heq
      subst heq
      obtain ⟨u, hu⟩ := (hrecord use).mp huse
      rw [((h.free.mem_iff use).mp huse').2] at hu
      cases hu
    . intro use
      rw [List.mem_append, hrecord, h.free.mem_iff]
      constructor
      . rintro (⟨u, hu⟩ | ⟨hlt, -⟩)
        . exact UseTable.lt_size_of_get? hu
        . exact hlt
      . intro hlt
        cases hu : r.uses.get? use with
        | none => exact Or.inr ⟨hlt, rfl⟩
        | some u => exact Or.inl ⟨u, rfl⟩
  rw [← h.owns.length_slotRecords hsmall]
  unfold UseTable.live
  rw [List.length_append] at hlength
  omega

end Count

structure WellFormed (R : Ty → Ty → Prop) (r : Routine) : Prop where
  placed : ∀ id i, r.insn? id = some i → r.block? i.block ≠ none
  fits : ∀ id i, r.insn? id = some i → FitsUpTo R r i
  lists : ∀ b ∈ r.order, ∃ ids, r.Lists b ids

def Expects (r : Routine) (id : InsnId) (k : Nat) (x : Operand) (t : Ty) : Prop :=
  ∃ i, r.insn? id = some i ∧ i.operand? k = some x ∧ i.code.slotType? k = some t

theorem WellFormed.checkBlock_eq_error {R : Ty → Ty → Prop} {b : BlockId} {e : Error}
    (h : r.WellFormed R) (hb : b ∈ r.order) (he : r.checkBlock b = .error e)
    : ∃ id k x t, r.Expects id k x t ∧ r.operandType x ≠ t ∧
        e = .typeMismatch k t (r.operandType x) (r.renderInsn id) := by
  obtain ⟨ids, hids⟩ := h.lists b hb
  rcases Check.seq_eq_error.mp he with hlinks | ⟨-, hinsns⟩
  . rw [checkLinks_eq_ok.mpr ⟨ids, hids⟩] at hlinks
    cases hlinks
  . obtain ⟨id, hid, hinsn⟩ := Check.forM_eq_error hinsns
    obtain ⟨n, hn⟩ := hids.chain.isSome_of_mem (hids.mem_of_mem_insnsOf hid)
    obtain ⟨i, hi, -⟩ := neighbours?_eq_some.mp hn
    obtain ⟨k, x, t, hx, ht, hne, heq⟩ := (h.fits id i hi).checkInsn_eq_error hi hinsn
    exact ⟨id, k, x, t, ⟨i, hi, hx, ht⟩, hne, heq⟩

theorem Tracks.check_eq_ok (h : r.Tracked) (hsmall : r.Small)
    : r.check = .ok () ↔ r.WellFormed Eq := by
  rw [Routine.check_eq_ok]
  constructor
  . rintro ⟨hinsns, hblocks, -⟩
    have hpasses : ∀ id i, r.insn? id = some i → r.Passes id i := by
      intro id i hi
      have := hinsns id.toNat i hi
      rwa [InsnId.ofNat_toNat] at this
    constructor
    . intro id i hi
      exact (hpasses id i hi).placed
    . intro id i hi
      exact (checkInsn_eq_ok hi).mp (hpasses id i hi).code
    . intro b hb
      exact checkLinks_eq_ok.mp (hblocks b hb).1
  . intro hformed
    refine ⟨?_, ?_, h.referenceCount_eq hsmall⟩
    . intro n i hn
      have hi := insn?_ofNat hsmall hn
      constructor
      . exact hformed.placed _ i hi
      . exact (checkInsn_eq_ok hi).mpr (hformed.fits _ i hi)
      . intro k s hs
        exact h.owns _ k s (by rw [slot?_eq hi, hs])
      . apply h.checkUses
        simp [useList?, hi]
    . intro b hb
      obtain ⟨ids, hids⟩ := hformed.lists b hb
      obtain ⟨found, hfound, -⟩ := Option.map_eq_some_iff.mp hids.extent
      refine ⟨checkLinks_eq_ok.mpr ⟨ids, hids⟩, found, hfound, ?_⟩
      apply h.checkUses
      simp [useList?, hfound]

end Routine

end MachineIR
