import MachineIR.Proofs.Tracking

/-!
This module contains what the edits of operands do to a routine that tracks its uses: whether they
succeed, which slots they change, and that they keep track.
-/

namespace MachineIR

namespace Routine

def Admits (r : Routine) (x : Operand) : Prop := ∀ v, x = .value v → ∃ l, r.useList? v = some l

theorem isSome_useList?_of_bare_eq {r r' : Routine} (h : r'.bare = r.bare) {v : ValueId}
    (hv : ∃ l, r.useList? v = some l) : ∃ l, r'.useList? v = some l := by
  rw [← Option.isSome_iff_exists, ← contains_eq, ← contains_bare] at hv ⊢
  rw [h]
  exact hv

def Releasable (r : Routine) (s : Slot) : Prop :=
  ∀ use, s.use = some use →
    ∃ v l, s.operand = .value v ∧ r.useList? v = some l ∧ r.uses.reference? use ≠ none

theorem Tracks.releasable {r : Routine} {pending : InsnId → Nat → Prop} (h : r.Tracks pending)
    {id : InsnId} {k : Nat} {s : Slot} (hs : r.slot? id k = some s) : r.Releasable s := by
  obtain ⟨x, own⟩ := s
  intro use huse
  cases huse
  obtain ⟨v, rfl⟩ := h.plain id k x use hs
  obtain ⟨l, hl⟩ := h.live id k v (some use) hs
  have href := (h.owner id k v use).mp hs
  exact ⟨v, l, rfl, hl, by rw [href]; simp⟩

end Routine

namespace Edit

open Routine

variable {r r' : Routine} {id : InsnId} {k : Nat} {s : Slot} {x : Operand} {v : ValueId}
  {pending : InsnId → Nat → Prop}

section Access

theorem insn_run_some {i : Insn} (h : r.insn? id = some i) : insn id r = .ok i r := by
  simp [insn, h]

theorem insn_run_none (h : r.insn? id = none)
    : insn id r = .error (.invalidHandle (.insn id)) r := by
  simp [insn, h]

theorem requireLive_run_ok (h : r.Admits x) : requireLive x r = .ok () r := by
  cases x with
  | value v =>
    have hv : r.contains v = true := by
      rw [contains_eq, Option.isSome_iff_exists]
      exact h v rfl
    simp [requireLive, hv]
  | _ => rfl

theorem requireLive_run (x : Operand) (r : Routine)
    : (requireLive x r = .ok () r ∧ r.Admits x) ∨ ∃ e, requireLive x r = .error e r := by
  cases x with
  | value v =>
    by_cases hv : r.contains v = true
    . left
      simp only [requireLive, get_bind_run, hv, ↓reduceIte, pure_run, true_and]
      intro w heq
      cases heq
      rw [← Option.isSome_iff_exists, ← contains_eq]
      exact hv
    . right
      exact ⟨.invalidHandle v, by simp [requireLive, hv]⟩
  | _ =>
    left
    refine ⟨rfl, ?_⟩
    intro v heq
    cases heq

end Access

section Relist

def relist (v : ValueId) (t : UseTable) (l : UseList) (id : InsnId) (k : Nat) (f : Slot → Slot)
    (r : Routine) : Routine :=
  ({ r with uses := t }.setUseList v l).modifySlot id k f

variable {t : UseTable} {l l₀ : UseList} {f : Slot → Slot}

theorem uses_relist : (relist v t l id k f r).uses = t := by
  simp [relist, modifySlot, modifyInsn]

theorem slot?_relist (hs : r.slot? id k = some s) (j : InsnId) (n : Nat)
    : (relist v t l id k f r).slot? j n =
        if j = id ∧ n = k then some (f s) else r.slot? j n := by
  unfold relist
  rw [slot?_modifySlot, slot?_setUseList]
  split
  . next hjn =>
    change (r.slot? j n).map _ = _
    rw [hjn.1, hjn.2, hs, Option.map_some]
  . rfl

theorem useList?_relist (hl : r.useList? v = some l₀) (w : ValueId)
    : (relist v t l id k f r).useList? w = if w = v then some l else r.useList? w := by
  unfold relist
  rw [useList?_modifySlot, useList?_setUseList]
  split
  . next hw =>
    change (r.useList? w).map _ = _
    rw [hw, hl, Option.map_some]
  . rfl

end Relist

section Release

theorem unlinkUse_run {l l' : UseList} {use : UseId} {t : UseTable} (hl : r.useList? v = some l)
    (hunlink : r.uses.unlink? l use = some (t, l'))
    : unlinkUse v use r = .ok () ({ r with uses := t }.setUseList v l') := by
  simp [unlinkUse, hl, hunlink]

theorem releaseOperand_run_none (h : r.slot? id k = none) : ∃ e, releaseOperand id k r = .error e r := by
  unfold releaseOperand
  cases hi : r.insn? id with
  | none => exact ⟨_, bind_of_error (insn_run_none hi)⟩
  | some i =>
    rw [slot?_eq hi] at h
    rw [bind_of_ok (insn_run_some hi), h]
    exact ⟨_, rfl⟩

structure Released (r r' : Routine) (id : InsnId) (k : Nat) (s : Slot) : Prop where
  slot : ∀ j n, r'.slot? j n = if j = id ∧ n = k then some s.bare else r.slot? j n
  bare : r'.bare = r.bare
  size : r'.uses.records.size = r.uses.records.size
  live : r'.uses.live ≤ r.uses.live
  free : s.use ≠ none → r'.uses.free ≠ []
  records : ∀ use, s.use ≠ some use → r'.uses.reference? use = r.uses.reference? use
  cell : ∀ use, s.use = some use → r'.uses.nextCell = use
  closed : ∀ held reached, r.uses.Closed held reached →
    (∀ use, s.use = some use → reached use) → r'.uses.Closed held reached
  list : ∀ v use l, s = ⟨.value v, some use⟩ → r.useList? v = some l →
    ∃ l', r.uses.unlink? l use = some (r'.uses, l') ∧
      ∀ w, r'.useList? w = if w = v then some l' else r.useList? w

theorem released_of_no_use (hs : r.slot? id k = some ⟨x, none⟩) : Released r r id k ⟨x, none⟩ := by
  refine ⟨?_, rfl, rfl, Nat.le_refl _, fun h => absurd rfl h, fun use h => rfl, nofun,
    fun held reached h _ => h, ?_⟩
  . intro j n
    split
    . next hjn => rw [hjn.1, hjn.2, hs, Slot.bare]
    . rfl
  . intro v use l heq
    cases heq

theorem released_of_unlink {use : UseId} {l l' : UseList} {t : UseTable}
    (hs : r.slot? id k = some ⟨.value v, some use⟩) (hl : r.useList? v = some l)
    (hunlink : r.uses.unlink? l use = some (t, l'))
    : Released r (relist v t l' id k ({ · with use := none }) r) id k ⟨.value v, some use⟩ := by
  constructor
  . exact slot?_relist hs
  . unfold relist
    rw [bare_modifySlot_of_eq, bare_setUseList, bare_setUses]
    intro s
    rfl
  . rw [uses_relist]
    exact UseTable.size_unlink hunlink
  . rw [uses_relist]
    exact UseTable.live_unlink_le hunlink
  . intro huse
    simp [uses_relist, UseTable.free_unlink hunlink]
  . intro use' hne
    have : use' ≠ use := fun heq => hne (by rw [heq])
    simp [uses_relist, UseTable.reference?_unlink hunlink, this]
  . intro use' heq
    cases heq
    simp [uses_relist, UseTable.nextCell, UseTable.free_unlink hunlink]
  . intro held reached hclosed hreached
    rw [uses_relist]
    exact hclosed.unlink (hreached use rfl) hunlink
  . intro w use' l₂ heq hl₂
    cases heq
    rw [hl] at hl₂
    cases hl₂
    refine ⟨l', ?_, useList?_relist hl⟩
    rw [uses_relist]
    exact hunlink

theorem releaseOperand_run (hs : r.slot? id k = some s) (hrel : r.Releasable s)
    : ∃ r', releaseOperand id k r = .ok () r' ∧ Released r r' id k s ∧
        ∀ pending, r.Tracks pending → r'.Tracks fun j n => pending j n ∨ j = id ∧ n = k := by
  obtain ⟨i, hi, hk⟩ := Option.bind_eq_some_iff.mp hs
  unfold releaseOperand
  rw [bind_of_ok (insn_run_some hi), hk]
  obtain ⟨x, use⟩ := s
  cases use with
  | none =>
    refine ⟨r, by cases x <;> rfl, released_of_no_use hs, ?_⟩
    intro pending h
    exact h.mono fun j n v hslot hp => Or.inl hp
  | some use =>
    obtain ⟨v, l, heq, hl, href⟩ := hrel use rfl
    cases heq
    obtain ⟨w, href⟩ := Option.ne_none_iff_exists'.mp href
    obtain ⟨u, hu, -⟩ := UseTable.reference?_eq_some.mp href
    obtain ⟨t, l', hunlink⟩ := UseTable.unlink?_isSome hu l
    dsimp only
    rw [bind_of_ok (unlinkUse_run hl hunlink)]
    refine ⟨relist v t l' id k ({ · with use := none }) r, rfl, released_of_unlink hs hl hunlink, ?_⟩
    intro pending h
    apply h.unlink hs hl _ (slot?_relist hs) (useList?_relist hl)
    rw [uses_relist]
    exact hunlink

end Release

section Link

theorem linkUse_run {l : UseList} (hl : r.useList? v = some l) (user : InsnId) (slot : Nat)
    : linkUse v user slot r =
        .ok r.uses.nextCell ({ r with uses := (r.uses.link l v user slot).1 }.setUseList v
          (r.uses.link l v user slot).2.1) := by
  simp only [linkUse, get_bind_run, hl, UseTable.link_eq, set_bind_run, pure_run]

/--
The slot `k` of `id` refers to `v` and has a record of its own now. Apart from records, it is changed
by `g`.
-/
structure Linked (r r' : Routine) (id : InsnId) (k : Nat) (v : ValueId) (g : Slot → Slot) :
    Prop where
  slot : ∀ j n, r'.slot? j n =
    if j = id ∧ n = k then some ⟨.value v, some r.uses.nextCell⟩ else r.slot? j n
  bare : r'.bare = r.bare.modifySlot id k g
  size : r.uses.records.size ≤ r'.uses.records.size
  size_le : r'.uses.records.size ≤ max r.uses.records.size (r.uses.live + 1)
  live : r'.uses.live ≤ r.uses.live + 1
  reuse : r.uses.free ≠ [] → r'.uses.records.size = r.uses.records.size
  records : ∀ use, r.uses.reference? use ≠ none → r'.uses.reference? use ≠ none
  closed : ∀ held reached, r.uses.Closed held reached → held id k → reached r.uses.nextCell →
    r'.uses.Closed held reached
  list : ∀ l, r.useList? v = some l →
    r'.uses = (r.uses.link l v id k).1 ∧
      ∀ w, r'.useList? w = if w = v then some (r.uses.link l v id k).2.1 else r.useList? w

theorem linkSlot_run (hs : r.slot? id k = some ⟨x, none⟩)
    (hv : ∃ l, r.useList? v = some l) {f : UseId → Slot → Slot} {g : Slot → Slot}
    (hf : ∀ use, f use ⟨x, none⟩ = ⟨.value v, some use⟩)
    (hg : ∀ use s, (f use s).bare = g s.bare)
    : ∃ r', (linkUse v id k >>= fun use => modify (·.modifySlot id k (f use))) r = .ok () r' ∧
        Linked r r' id k v g ∧
        ∀ pending, r.Tracks pending → r'.uses.records.size ≤ UInt32.size →
          r'.Tracks fun j n => pending j n ∧ ¬ (j = id ∧ n = k) := by
  obtain ⟨l, hl⟩ := hv
  rw [bind_of_ok (linkUse_run hl id k)]
  refine ⟨relist v (r.uses.link l v id k).1 (r.uses.link l v id k).2.1 id k (f r.uses.nextCell) r, rfl,
    ?_⟩
  have hslot : ∀ j n, (relist v (r.uses.link l v id k).1 (r.uses.link l v id k).2.1 id k
      (f r.uses.nextCell) r).slot? j n =
        if j = id ∧ n = k then some ⟨.value v, some r.uses.nextCell⟩ else r.slot? j n := by
    intro j n
    rw [slot?_relist hs, hf]
  constructor
  . refine ⟨hslot, ?_, ?_, ?_, ?_, ?_, ?_, ?_, ?_⟩
    . unfold relist
      rw [bare_modifySlot (hg _), bare_setUseList, bare_setUses]
    . rw [uses_relist]
      apply UseTable.size_le_link
    . rw [uses_relist]
      exact UseTable.size_link_le
    . rw [uses_relist]
      exact UseTable.live_link_le
    . intro hfree
      rw [uses_relist]
      exact UseTable.size_link_of_free hfree
    . intro use huse
      rw [uses_relist]
      exact UseTable.reference?_link_ne_none huse
    . intro held reached hclosed hheld hcell
      rw [uses_relist]
      exact hclosed.link hheld hcell l v
    . intro l₂ hl₂
      rw [hl] at hl₂
      cases hl₂
      exact ⟨uses_relist, useList?_relist hl⟩
  . intro pending h hsize
    exact h.link hs hl uses_relist hslot (useList?_relist hl) hsize

end Link

section Set

structure OperandSet (r r' : Routine) (id : InsnId) (k : Nat) (s : Slot) (x : Operand) : Prop where
  slot : ∀ j n, ¬ (j = id ∧ n = k) → r'.slot? j n = r.slot? j n
  own : ∃ use, r'.slot? id k = some ⟨x, use⟩ ∧ (x.value? = none → use = none) ∧
    (x.value? ≠ none → s.use ≠ none → use = s.use)
  closed : ∀ held reached, r.uses.Closed held reached → held id k →
    (∀ use, s.use = some use → reached use) → (x.value? ≠ none → s.use ≠ none) →
    r'.uses.Closed held reached
  bare : r'.bare = r.bare.modifySlot id k fun _ => ⟨x, none⟩
  size : r.uses.records.size ≤ r'.uses.records.size
  size_le : r'.uses.records.size ≤ max r.uses.records.size (r.uses.live + 1)
  reuse : s.use ≠ none → r'.uses.records.size = r.uses.records.size
  records : ∀ use, s.use ≠ some use → r.uses.reference? use ≠ none → r'.uses.reference? use ≠ none
  list : ∀ v use l, s = ⟨.value v, some use⟩ → x ≠ .value v → r.useList? v = some l →
    ∃ t l', r.uses.unlink? l use = some (t, l') ∧ r'.useList? v = some l'

namespace Released

variable {r₁ r₂ : Routine}

theorem slot_of_ne (h : Released r r₁ id k s) {j : InsnId} {n : Nat} (hjn : ¬ (j = id ∧ n = k))
    : r₁.slot? j n = r.slot? j n := by
  rw [h.slot, if_neg hjn]

theorem slot_self (h : Released r r₁ id k s) : r₁.slot? id k = some ⟨s.operand, none⟩ := by
  rw [h.slot]
  simp [Slot.bare]

theorem admits (h : Released r r₁ id k s) (hx : r.Admits x) : r₁.Admits x := by
  intro v heq
  exact isSome_useList?_of_bare_eq h.bare (hx v heq)

theorem operandSet_of_linked (h : Released r r₁ id k s) (hv : ∃ l, r₁.useList? v = some l)
    (hlinked : Linked r₁ r₂ id k v fun _ => ⟨.value v, none⟩) : OperandSet r r₂ id k s (.value v) := by
  -- The slot has given up its use and got one of `v`, for which the cell of the old record serves.
  constructor
  . intro j n hjn
    rw [hlinked.slot, if_neg hjn, h.slot_of_ne hjn]
  . refine ⟨some r₁.uses.nextCell, by rw [hlinked.slot, if_pos ⟨rfl, rfl⟩], nofun, ?_⟩
    intro hvalue huse
    obtain ⟨use, huse⟩ := Option.ne_none_iff_exists'.mp huse
    rw [h.cell use huse, huse]
  . intro held reached hclosed hheld hreached huse
    obtain ⟨use, huse⟩ := Option.ne_none_iff_exists'.mp (huse (by simp [Operand.value?]))
    apply hlinked.closed held reached (h.closed held reached hclosed hreached) hheld
    rw [h.cell use huse]
    exact hreached use huse
  . rw [hlinked.bare, h.bare]
  . rw [← h.size]
    exact hlinked.size
  . have hsize := hlinked.size_le
    have hlive := h.live
    rw [h.size] at hsize
    omega
  . intro huse
    rw [hlinked.reuse (h.free huse), h.size]
  . intro use hne href
    apply hlinked.records
    rw [h.records use hne]
    exact href
  . intro w use l hslot hne hl
    obtain ⟨l', hunlink, hlist⟩ := h.list w use l hslot hl
    obtain ⟨l₂, hl₂⟩ := hv
    have hw : w ≠ v := fun heq => hne (by rw [heq])
    refine ⟨_, l', hunlink, ?_⟩
    rw [(hlinked.list l₂ hl₂).2, if_neg hw, hlist, if_pos rfl]

theorem slot_modifySlot (h : Released r r₁ id k s) (j : InsnId) (n : Nat)
    : (r₁.modifySlot id k fun _ => ⟨x, none⟩).slot? j n =
        if j = id ∧ n = k then some ⟨x, none⟩ else r₁.slot? j n := by
  rw [slot?_modifySlot]
  split
  . next hjn => rw [hjn.1, hjn.2, h.slot_self, Option.map_some]
  . rfl

theorem operandSet_of_plain (h : Released r r₁ id k s) (hx : ∀ v, x ≠ .value v)
    : OperandSet r (r₁.modifySlot id k fun _ => ⟨x, none⟩) id k s x := by
  constructor
  . intro j n hjn
    rw [h.slot_modifySlot, if_neg hjn, h.slot_of_ne hjn]
  . refine ⟨none, by rw [h.slot_modifySlot, if_pos ⟨rfl, rfl⟩], fun h => rfl, ?_⟩
    intro hvalue
    cases x with
    | value v => exact absurd rfl (hx v)
    | _ => exact absurd rfl hvalue
  . intro held reached hclosed hheld hreached huse
    exact h.closed held reached hclosed hreached
  . rw [bare_modifySlot, h.bare]
    intro s
    rfl
  . exact Nat.le_of_eq h.size.symm
  . exact Nat.le_trans (Nat.le_of_eq h.size) (Nat.le_max_left _ _)
  . intro huse
    exact h.size
  . intro use hne href
    change r₁.uses.reference? use ≠ none
    rw [h.records use hne]
    exact href
  . intro w use l hslot hne hl
    obtain ⟨l', hunlink, hlist⟩ := h.list w use l hslot hl
    refine ⟨_, l', hunlink, ?_⟩
    rw [useList?_modifySlot, hlist, if_pos rfl]

end Released

theorem setOperand_run (hs : r.slot? id k = some s) (hown : r.Releasable s) (hx : r.Admits x)
    : ∃ r', setOperand id k x r = .ok () r' ∧ OperandSet r r' id k s x ∧
        (r.Tracked → r'.uses.records.size ≤ UInt32.size → r'.Tracked) := by
  obtain ⟨r₁, hrun, hrel, htracks⟩ := releaseOperand_run hs hown
  unfold setOperand
  rw [bind_of_ok (requireLive_run_ok hx), bind_of_ok hrun]
  -- The slot is pending between the two halves of the edit, and no slot is afterwards.
  have hdone : ∀ {j n}, ((False ∨ j = id ∧ n = k) ∧ ¬ (j = id ∧ n = k)) → False := by
    rintro j n ⟨h | h, hnot⟩
    . exact h
    . exact hnot h
  split
  . next v =>
    rw [bind_map_left]
    have hv := hrel.admits hx v rfl
    obtain ⟨r₂, hrun₂, hlinked, htracks₂⟩ :=
      linkSlot_run hrel.slot_self hv (f := fun use _ => ⟨.value v, some use⟩)
        (g := fun _ => ⟨.value v, none⟩) (by intro use; rfl) (by intro use s; rfl)
    refine ⟨r₂, hrun₂, hrel.operandSet_of_linked hv hlinked, ?_⟩
    intro h hsize
    apply (htracks₂ _ (htracks _ h) hsize).mono
    intro j n v hslot hp
    exact hdone hp
  . next hx =>
    rw [pure_bind]
    refine ⟨r₁.modifySlot id k fun _ => ⟨x, none⟩, rfl, hrel.operandSet_of_plain hx, ?_⟩
    intro h hsize
    have huses : (r₁.modifySlot id k fun _ => ⟨x, none⟩).uses = r₁.uses := rfl
    have htracks₂ := (htracks _ h).setPlain hrel.slot_self hx huses hrel.slot_modifySlot
      (useList?_modifySlot id k _)
    apply htracks₂.mono
    intro j n v hslot hp
    exact hdone hp

theorem setOperand_run_unreleasable {use : UseId} (hs : r.slot? id k = some ⟨.value v, some use⟩)
    (h : ¬ r.Releasable ⟨.value v, some use⟩) : ∃ e, setOperand id k x r = .error e r := by
  obtain ⟨i, hi, hk⟩ := Option.bind_eq_some_iff.mp hs
  have hunlink : ∃ e, unlinkUse v use r = .error e r := by
    cases hl : r.useList? v with
    | none => exact ⟨_, by simp only [unlinkUse, get_bind_run, hl]; rfl⟩
    | some l =>
      have hnone : r.uses.unlink? l use = none := by
        cases hget : r.uses.get? use with
        | none => simp [UseTable.unlink?, hget]
        | some u =>
          refine absurd ?_ h
          intro use' heq
          cases heq
          exact ⟨v, l, rfl, hl, by simp [UseTable.reference?, hget]⟩
      exact ⟨_, by simp only [unlinkUse, get_bind_run, hl, hnone]; rfl⟩
  obtain ⟨e, he⟩ := hunlink
  have hrelease : releaseOperand id k r = .error e r := by
    unfold releaseOperand
    rw [bind_of_ok (insn_run_some hi), hk]
    exact bind_of_error he
  unfold setOperand
  rcases requireLive_run x r with ⟨hlive, -⟩ | ⟨e', he'⟩
  . rw [bind_of_ok hlive]
    exact ⟨e, bind_of_error hrelease⟩
  . exact ⟨e', bind_of_error he'⟩

theorem setOperand_run_error (h : r.slot? id k = none ∨ ¬ r.Admits x)
    : ∃ e, setOperand id k x r = .error e r := by
  unfold setOperand
  cases requireLive_run x r with
  | inl hlive =>
    have hnone : r.slot? id k = none := by
      cases h with
      | inl h => exact h
      | inr h => exact absurd hlive.2 h
    obtain ⟨e, he⟩ := releaseOperand_run_none hnone
    rw [bind_of_ok hlive.1, bind_of_error he]
    exact ⟨e, rfl⟩
  | inr herror =>
    obtain ⟨e, he⟩ := herror
    rw [bind_of_error he]
    exact ⟨e, rfl⟩

end Set

section Renumber

variable {slots : List Slot} {index : Nat} {t : UseTable}

theorem size_renumberUses (slots : List Slot) (index : Nat) (t : UseTable)
    : (renumberUses slots index t).records.size = t.records.size := by
  induction slots generalizing index t with
  | nil => rfl
  | cons s rest ih =>
    unfold renumberUses
    rw [ih]
    split
    . simp [UseTable.setSlot, UseTable.modify]
    . rfl

theorem freeSound_renumberUses (h : t.FreeSound) : (renumberUses slots index t).FreeSound := by
  induction slots generalizing index t with
  | nil => exact h
  | cons s rest ih =>
    unfold renumberUses
    apply ih
    split
    . apply h.modify
    . exact h

theorem isList_renumberUses {l : UseList} {ids : List UseId} (h : t.IsList v l ids)
    : (renumberUses slots index t).IsList v l ids := by
  induction slots generalizing index t with
  | nil => exact h
  | cons s rest ih =>
    unfold renumberUses
    apply ih
    split
    . apply h.setSlot
    . exact h

theorem reference?_renumberUses (id : InsnId)
    (h : ∀ n s use, slots[n]? = some s → s.use = some use →
      ∃ v, t.reference? use = some (v, id, index + 1 + n)) (use : UseId)
    : (renumberUses slots index t).reference? use =
        if ∃ s ∈ slots, s.use = some use then
          (t.reference? use).map fun (v, user, n) => (v, user, n - 1)
        else
          t.reference? use := by
  induction slots generalizing index t with
  | nil => simp [renumberUses]
  | cons s rest ih =>
    unfold renumberUses
    cases hs : s.use with
    | none =>
      dsimp only
      rw [ih]
      . simp [hs]
      . intro n s' use' hn hs'
        obtain ⟨v, hv⟩ := h (n + 1) s' use' (by simpa using hn) hs'
        refine ⟨v, ?_⟩
        rw [hv]
        congr 3
        omega
    | some first =>
      dsimp only
      obtain ⟨v, hv⟩ := h 0 s first rfl hs
      -- The records behind the first one are others, because they name other slots.
      have hrest : ∀ n s' use', rest[n]? = some s' → s'.use = some use' →
          use' ≠ first ∧ ∃ v, t.reference? use' = some (v, id, index + 1 + 1 + n) := by
        intro n s' use' hn hs'
        obtain ⟨w, hw⟩ := h (n + 1) s' use' (by simpa using hn) hs'
        constructor
        . intro heq
          rw [heq, hv] at hw
          simp only [Option.some.injEq, Prod.mk.injEq] at hw
          omega
        . refine ⟨w, ?_⟩
          rw [hw]
          congr 3
          omega
      have hfirst : ¬ ∃ s' ∈ rest, s'.use = some first := by
        rintro ⟨s', hmem, hs'⟩
        obtain ⟨n, hn⟩ := List.mem_iff_getElem?.mp hmem
        exact (hrest n s' first hn hs').1 rfl
      rw [ih]
      . rw [UseTable.reference?_setSlot]
        by_cases huse : use = first
        . subst huse
          simp [hfirst, hs, hv]
        . have hne : ¬ first = use := fun heq => huse heq.symm
          simp [huse, hne, hs]
      . intro n s' use' hn hs'
        obtain ⟨hne, w, hw⟩ := hrest n s' use' hn hs'
        refine ⟨w, ?_⟩
        rw [UseTable.reference?_setSlot, if_neg hne, hw]

def dropSlot (id : InsnId) (k : Nat) (behind : List Slot) (r : Routine) : Routine :=
  { r.modifyInsn id (fun i => { i with slots := i.slots.eraseIdx k }) with
    uses := renumberUses behind k r.uses }

theorem slot?_dropSlot {i : Insn} (hi : r.insn? id = some i) (behind : List Slot) (j : InsnId) (n : Nat)
    : (dropSlot id k behind r).slot? j n = r.slot? j (if j = id ∧ k ≤ n then n + 1 else n) := by
  change (r.modifyInsn id fun i => { i with slots := i.slots.eraseIdx k }).slot? j n = _
  unfold slot?
  rw [insn?_modifyInsn]
  by_cases hj : j = id
  . subst hj
    rw [hi]
    simp only [↓reduceIte, Option.map_some, Option.bind_some, true_and, List.getElem?_eraseIdx]
    by_cases hn : k ≤ n
    . have : ¬ n < k := by omega
      simp [hn, this]
    . have : n < k := by omega
      simp [hn, this]
  . simp [hj]

theorem useList?_dropSlot (behind : List Slot) (w : ValueId)
    : (dropSlot id k behind r).useList? w = r.useList? w :=
  useList?_modifyInsn (r := r) (by intro i; rfl) id w

theorem mem_behind_iff {i : Insn} {use : UseId} {j : InsnId} {n : Nat} (h : r.Tracks pending)
    (hi : r.insn? id = some i) (href : r.uses.reference? use = some (v, j, n))
    : (∃ s ∈ i.slots.drop (k + 1), s.use = some use) ↔ j = id ∧ k < n := by
  rw [← h.owner] at href
  constructor
  . rintro ⟨s, hmem, hs⟩
    obtain ⟨m, hm⟩ := List.mem_iff_getElem?.mp hmem
    rw [List.getElem?_drop, ← slot?_eq hi] at hm
    obtain ⟨y, use'⟩ := s
    cases hs
    obtain ⟨w, rfl⟩ := h.plain _ _ _ _ hm
    rw [h.owner] at hm href
    rw [hm] at href
    simp only [Option.some.injEq, Prod.mk.injEq] at href
    obtain ⟨-, rfl, rfl⟩ := href
    exact ⟨rfl, by omega⟩
  . rintro ⟨rfl, hn⟩
    rw [slot?_eq hi] at href
    refine ⟨⟨.value v, some use⟩, ?_, rfl⟩
    rw [List.mem_iff_getElem?]
    refine ⟨n - (k + 1), ?_⟩
    rw [List.getElem?_drop, ← href]
    congr 1
    omega

theorem reference?_dropSlot {i : Insn} (h : r.Tracks pending) (hi : r.insn? id = some i) (use : UseId)
    : (dropSlot id k (i.slots.drop (k + 1)) r).uses.reference? use =
        (r.uses.reference? use).map fun (v, j, n) =>
          (v, j, if j = id ∧ k < n then n - 1 else n) := by
  change (renumberUses (i.slots.drop (k + 1)) k r.uses).reference? use = _
  rw [reference?_renumberUses id]
  . cases hr : r.uses.reference? use with
    | none => simp
    | some p =>
      obtain ⟨v, j, n⟩ := p
      simp only [mem_behind_iff h hi hr, Option.map_some]
      split
      . rfl
      . rfl
  . intro n s use' hn hs
    rw [List.getElem?_drop, ← slot?_eq hi] at hn
    obtain ⟨y, u⟩ := s
    cases hs
    obtain ⟨w, rfl⟩ := h.plain _ _ _ _ hn
    exact ⟨w, (h.owner _ _ _ _).mp hn⟩

theorem tracks_dropSlot {i : Insn} (h : r.Tracks fun j n => j = id ∧ n = k)
    (hi : r.insn? id = some i) (hk : r.slot? id k = some ⟨x, none⟩)
    : (dropSlot id k (i.slots.drop (k + 1)) r).Tracked := by
  have hslot := slot?_dropSlot (k := k) hi (i.slots.drop (k + 1))
  have href := reference?_dropSlot (k := k) h hi
  -- No record belongs to the slot that is dropped.
  have hdropped : ∀ use v j n, r.uses.reference? use = some (v, j, n) → ¬ (j = id ∧ n = k) := by
    rintro use v j n hr ⟨rfl, rfl⟩
    rw [← h.owner, hk] at hr
    cases hr
  constructor
  . intro j n w use
    rw [hslot, h.owner, href]
    cases hr : r.uses.reference? use with
    | none => simp
    | some p =>
      obtain ⟨v, j', n'⟩ := p
      have hne := hdropped use v j' n' hr
      simp only [Option.map_some, Option.some.injEq, Prod.mk.injEq]
      by_cases hj : j' = j
      . subst hj
        by_cases hid : j' = id
        . simp only [hid, true_and] at hne ⊢
          apply and_congr_right
          intro hv
          split <;> split <;> omega
        . simp [hid]
      . simp [hj]
  . intro j n y use heq
    rw [hslot] at heq
    exact h.plain _ _ _ _ heq
  . intro j n w heq
    rw [hslot] at heq
    have hp := h.closed _ _ _ heq
    split at hp
    . omega
    . next hjn => exact hjn ⟨hp.1, by omega⟩
  . intro j n w use heq
    rw [hslot] at heq
    rw [useList?_dropSlot]
    exact h.live _ _ _ _ heq
  . intro w l hl
    rw [useList?_dropSlot] at hl
    obtain ⟨ids, hids, hmem⟩ := h.listed w l hl
    refine ⟨ids, isList_renumberUses hids, ?_⟩
    intro use
    rw [hmem]
    simp only [href]
    cases r.uses.reference? use with
    | none => simp
    | some p =>
      obtain ⟨v, j, n⟩ := p
      simp
  . exact freeSound_renumberUses h.free

end Renumber

section Grows

theorem grows_linkUse (v : ValueId) (user : InsnId) (slot : Nat)
    : Within Grows (linkUse v user slot) := by
  intro r
  cases hl : r.useList? v with
  | none =>
    have hrun : linkUse v user slot r = .error (.invalidHandle v) r := by
      simp [linkUse, hl]
    rw [left_of_error hrun]
    apply Grows.refl
  | some l =>
    rw [left_of_ok (linkUse_run hl user slot)]
    cases v with
    | insn id =>
      refine ⟨?_, ?_, ?_⟩
      . simp [setUseList, modifyInsn]
      . simp [setUseList, modifyInsn]
      . simpa using UseTable.size_le_link _ _ _ _ _
    | block b =>
      refine ⟨?_, ?_, ?_⟩
      . simp [setUseList, modifyBlock]
      . simp [setUseList, modifyBlock]
      . simpa using UseTable.size_le_link _ _ _ _ _

theorem grows_unlinkUse (v : ValueId) (use : UseId) : Within Grows (unlinkUse v use) := by
  intro r
  cases hl : r.useList? v with
  | none =>
    have hrun : unlinkUse v use r = .error (.integrity (.destroyedValue v)) r := by
      simp [unlinkUse, hl]
    rw [left_of_error hrun]
    apply Grows.refl
  | some l =>
    cases hunlink : r.uses.unlink? l use with
    | none =>
      have hrun : unlinkUse v use r = .error (.integrity (.notLinked use v)) r := by
        simp [unlinkUse, hl, hunlink]
      rw [left_of_error hrun]
      apply Grows.refl
    | some p =>
      obtain ⟨t, l'⟩ := p
      rw [left_of_ok (unlinkUse_run hl hunlink)]
      have hsize := UseTable.size_unlink hunlink
      cases v with
      | insn id =>
        refine ⟨?_, ?_, ?_⟩
        . simp [setUseList, modifyInsn]
        . simp [setUseList, modifyInsn]
        . simp [hsize]
      | block b =>
        refine ⟨?_, ?_, ?_⟩
        . simp [setUseList, modifyBlock]
        . simp [setUseList, modifyBlock]
        . simp [hsize]

theorem grows_modifyInsn (r : Routine) (id : InsnId) (f : Insn → Insn)
    : r.Grows (r.modifyInsn id f) := by
  refine ⟨?_, ?_, ?_⟩
  . simp [modifyInsn]
  . apply Nat.le_refl
  . apply Nat.le_refl

theorem grows_releaseOperand (id : InsnId) (k : Nat) : Within Grows (releaseOperand id k) := by
  unfold releaseOperand
  apply Within.bind
  . exact Within.insn id
  . intro i
    split
    . exact Within.throw _
    . apply Within.bind
      . apply grows_unlinkUse
      . intro u
        apply Within.modify
        intro r
        apply grows_modifyInsn
    . exact Within.pure _

theorem grows_setOperand (id : InsnId) (k : Nat) (x : Operand)
    : Within Grows (setOperand id k x) := by
  unfold setOperand
  apply Within.bind
  . exact Within.requireLive x
  . intro u
    apply Within.bind
    . apply grows_releaseOperand
    . intro u
      split
      . apply Within.bind
        . apply Within.map
          apply grows_linkUse
        . intro use
          apply Within.modify
          intro r
          apply grows_modifyInsn
      . apply Within.bind
        . exact Within.pure _
        . intro use
          apply Within.modify
          intro r
          apply grows_modifyInsn

end Grows

section Keeps

theorem keeps_modifyInsn {f : Insn → Insn} (hslots : ∀ i, (f i).slots = i.slots)
    (huses : ∀ i, (f i).uses = i.uses) (id : InsnId)
    : Within Keeps (modify (·.modifyInsn id f) : Edit PUnit) := by
  apply Within.modify
  intro r
  exact (SameUses.modifyInsn hslots huses r id).keeps

theorem keeps_modifyBlock {f : Block → Block} (huses : ∀ b, (f b).uses = b.uses) (b : BlockId)
    : Within Keeps (modify (·.modifyBlock b f) : Edit PUnit) := by
  apply Within.modify
  intro r
  exact (SameUses.modifyBlock huses r b).keeps

theorem keeps_setOperand (id : InsnId) (k : Nat) (x : Operand)
    : Within Keeps (setOperand id k x) := by
  intro r
  refine ⟨grows_setOperand id k x r, ?_⟩
  intro hsmall htracked
  by_cases hs : r.slot? id k = none ∨ ¬ r.Admits x
  . obtain ⟨e, he⟩ := setOperand_run_error hs
    rw [left_of_error he]
    exact htracked
  . obtain ⟨hslot, hx⟩ := not_or.mp hs
    obtain ⟨s, hs⟩ := Option.ne_none_iff_exists'.mp hslot
    obtain ⟨r', hrun, -, hkeep⟩ :=
      setOperand_run hs (htracked.releasable hs) (Classical.not_not.mp hx)
    rw [left_of_ok hrun] at hsmall ⊢
    exact hkeep htracked hsmall.uses

theorem slot?_appendSlot {i : Insn} (hi : r.insn? id = some i) (s : Slot) (j : InsnId) (n : Nat)
    : (r.modifyInsn id fun i => { i with slots := i.slots ++ [s] }).slot? j n =
        if j = id ∧ n = i.slots.length then some s else r.slot? j n := by
  unfold slot?
  rw [insn?_modifyInsn]
  by_cases hj : j = id
  . subst hj
    rw [hi]
    simp only [↓reduceIte, Option.map_some, Option.bind_some, true_and, List.getElem?_append]
    split
    . next hlt =>
      have : n ≠ i.slots.length := by omega
      simp [this]
    . next hge =>
      by_cases hn : n = i.slots.length
      . simp [hn]
      . have : 1 ≤ n - i.slots.length := by omega
        rw [if_neg hn, List.getElem?_eq_none (by simpa using this),
          List.getElem?_eq_none (by omega)]
  . simp [hj]

theorem keeps_appendSlot (r : Routine) (id : InsnId)
    : r.Keeps (r.modifyInsn id fun i => { i with slots := i.slots ++ [⟨.const .void, none⟩] }) := by
  refine ⟨grows_modifyInsn _ _ _, ?_⟩
  intro hsmall htracked
  have hlist := useList?_modifyInsn (r := r)
    (f := fun i => { i with slots := i.slots ++ [⟨.const .void, none⟩] }) (by intro i; rfl) id
  cases hi : r.insn? id with
  | none =>
    apply htracked.congr _ hlist rfl
    intro j n
    unfold slot?
    rw [insn?_modifyInsn]
    split
    . next hj => simp [hj, hi]
    . rfl
  | some i =>
    have hslot := slot?_appendSlot hi ⟨.const .void, none⟩
    have huses : (r.modifyInsn id fun i =>
        { i with slots := i.slots ++ [⟨.const .void, none⟩] }).uses = r.uses := rfl
    generalize (r.modifyInsn id fun i =>
      { i with slots := i.slots ++ [⟨.const .void, none⟩] }) = r' at hslot hlist huses ⊢
    have hnew : r'.Tracks fun j n => False ∨ j = id ∧ n = i.slots.length := by
      apply htracked.extend (fun j n => j = id ∧ n = i.slots.length) (fun _ => False)
      . rintro j n ⟨rfl, rfl⟩
        simp [slot?_eq hi]
      . intro v hv
        exact hv.elim
      . exact huses
      . intro j n hjn
        rw [hslot, if_neg hjn]
      . intro j n s hjn hs
        rw [hslot, if_pos hjn] at hs
        cases hs
        refine ⟨rfl, ?_⟩
        intro v heq
        cases heq
      . intro v hv
        exact hlist v
      . intro v hv
        exact hv.elim
    apply hnew.mono
    intro j n v hs hp
    -- The new slot refers to no value.
    rw [hslot] at hs
    split at hs
    . cases hs
    . next hjn =>
      cases hp with
      | inl hp => exact hp
      | inr hp => exact hjn hp

theorem keeps_pushOperand (id : InsnId) (x : Operand) : Within Keeps (pushOperand id x) := by
  unfold pushOperand
  apply Within.bind
  . exact Within.requireLive x
  . intro u
    apply Within.bind
    . exact Within.insn id
    . intro i
      apply Within.bind
      . apply Within.modify
        intro r
        apply keeps_appendSlot
      . intro u
        apply Within.bind
        . apply keeps_setOperand
        . intro u
          exact Within.pure _

theorem removeOperand_run (h : r.Tracked) (hs : r.slot? id k = some s)
    : ∃ y r', removeOperand id k r = .ok y r' ∧ r'.Tracked ∧
        ∀ j, r'.insn? j = none ↔ r.insn? j = none := by
  obtain ⟨r₁, hrun, hrel, htracks⟩ := releaseOperand_run hs (h.releasable hs)
  have hs₁ : r₁.slot? id k = some s.bare := by
    rw [hrel.slot, if_pos ⟨rfl, rfl⟩]
  obtain ⟨i, hi, hk⟩ := Option.bind_eq_some_iff.mp hs₁
  unfold removeOperand
  rw [bind_of_ok hrun, bind_of_ok (insn_run_some hi), hk]
  refine ⟨_, _, rfl, ?_, ?_⟩
  . apply tracks_dropSlot _ hi hs₁
    apply (htracks _ h).mono
    intro j n v hslot hp
    cases hp with
    | inl hp => exact hp.elim
    | inr hp => exact hp
  . intro j
    have hsame : r₁.insn? j = none ↔ r.insn? j = none := by
      have := congrArg (Routine.insn? · j) hrel.bare
      simp only [insn?_bare] at this
      rw [← Option.map_eq_none_iff (f := Insn.bare), this, Option.map_eq_none_iff]
    rw [← hsame]
    change (r₁.modifyInsn id _).insn? j = none ↔ _
    rw [insn?_modifyInsn]
    split
    . exact Option.map_eq_none_iff
    . rfl

theorem keeps_removeOperand (id : InsnId) (k : Nat) : Within Keeps (removeOperand id k) := by
  intro r
  constructor
  . revert r
    change Within Grows (removeOperand id k)
    unfold removeOperand
    apply Within.bind
    . apply grows_releaseOperand
    . intro u
      apply Within.bind
      . exact Within.insn id
      . intro i
        split
        . exact Within.throw _
        . apply Within.bind
          . apply Within.modify
            intro r
            refine ⟨?_, Nat.le_refl _, ?_⟩
            . simp [modifyInsn]
            . simp [size_renumberUses]
          . intro u
            exact Within.pure _
  . intro hsmall htracked
    cases hs : r.slot? id k with
    | none =>
      obtain ⟨e, he⟩ := releaseOperand_run_none hs
      unfold removeOperand
      rw [left_bind_of_error he]
      exact htracked
    | some s =>
      obtain ⟨y, r', hrun, htracked', -⟩ := removeOperand_run htracked hs
      rw [left_of_ok hrun]
      exact htracked'

theorem keeps_setOpcode (id : InsnId) (opcode : Opcode) : Within Keeps (setOpcode id opcode) := by
  unfold setOpcode
  apply Within.bind
  . exact Within.insn id
  . intro i
    exact keeps_modifyInsn (by intro i; rfl) (by intro i; rfl) id

theorem keeps_setTemplate (id : InsnId) (index : Nat) (t : Ty)
    : Within Keeps (setTemplate id index t) := by
  unfold setTemplate
  apply Within.bind
  . exact Within.insn id
  . intro i
    split
    . exact keeps_modifyInsn (by intro i; rfl) (by intro i; rfl) id
    . exact keeps_modifyInsn (by intro i; rfl) (by intro i; rfl) id
    . exact Within.throw _

theorem Within.replaceFrom {R : Routine → Routine → Prop} [Std.Refl R] [Trans R R R]
    (h : ∀ id k x, Within R (setOperand id k x)) (v : ValueId) (x : Operand) (fuel : Nat)
    (use : Option UseId) : Within R (replaceFrom v x fuel use) := by
  induction fuel generalizing use with
  | zero => exact Within.pure _
  | succ fuel ih =>
    cases use with
    | none => exact Within.pure _
    | some use =>
      unfold Edit.replaceFrom
      refine Within.bind Within.get fun r => ?_
      split
      . exact Within.throw _
      . refine Within.bind (h _ _ _) fun _ => ?_
        refine Within.bind (ih _) fun n => ?_
        exact Within.pure _

theorem Within.replaceUses {R : Routine → Routine → Prop} [Std.Refl R] [Trans R R R]
    (h : ∀ id k x, Within R (setOperand id k x)) (v : ValueId) (x : Operand)
    : Within R (replaceUses v x) := by
  unfold Edit.replaceUses
  split
  . exact Within.pure _
  . refine Within.bind (Within.requireLive x) fun _ => ?_
    refine Within.bind Within.get fun r => ?_
    split
    . exact Within.throw _
    . exact Within.replaceFrom h _ _ _ _

theorem keeps_replaceUses (v : ValueId) (x : Operand) : Within Keeps (replaceUses v x) :=
  Within.replaceUses keeps_setOperand v x

end Keeps

end Edit

end MachineIR
