import MachineIR.Proofs.Destruction

/-!
This module contains the order of the uses of a value. A slot that is given another operand leaves the
list of the one value and comes last on that of the other, so a replacement moves a whole list behind
another one, although the cells of the records change hands in between.
-/

namespace MachineIR

namespace Routine

open Edit

variable {r r' : Routine} {pending : InsnId → Nat → Prop} {id : InsnId} {k : Nat} {v w : ValueId}
  {use : UseId} {x : Operand}

theorem Tracks.usesOf_congr (h : r.Tracks pending) (hlist : r'.useList? w = r.useList? w)
    (hids : ∀ l ids, r.uses.IsList w l ids → r'.uses.IsList w l ids)
    (href : ∀ use id k, r.uses.reference? use = some (w, id, k) →
      r'.uses.reference? use = r.uses.reference? use)
    : r'.usesOf w = r.usesOf w := by
  cases hl : r.useList? w with
  | none => simp [usesOf, hlist, hl]
  | some l =>
    obtain ⟨ids, hold, hmem⟩ := h.listed w l hl
    rw [usesOf_of_isList (hlist.trans hl) (hids l ids hold), usesOf_of_isList hl hold]
    apply List.filterMap_congr
    intro use huse
    obtain ⟨id, k, hid⟩ := (hmem use).mp huse
    rw [href use id k hid]

theorem usesOf_modifySlot {f : Slot → Slot} : (r.modifySlot id k f).usesOf w = r.usesOf w := by
  unfold usesOf
  rw [useList?_modifySlot]
  rfl

theorem Tracks.usesOf_released (h : r.Tracked) (hs : r.slot? id k = some ⟨.value v, some use⟩)
    (hrel : Released r r' id k ⟨.value v, some use⟩)
    : r'.usesOf v = (r.usesOf v).erase (id, k) ∧ ∀ w, w ≠ v → r'.usesOf w = r.usesOf w := by
  obtain ⟨l, hl⟩ := h.live id k v (some use) hs
  obtain ⟨l', hunlink, hlist⟩ := hrel.list v use l rfl hl
  obtain ⟨ids, hids, hmem⟩ := h.listed v l hl
  have href := (h.owner id k v use).mp hs
  have huse : use ∈ ids := (hmem use).mpr ⟨id, k, href⟩
  have href' := UseTable.reference?_unlink hunlink
  constructor
  . have hids' := hids.unlink huse hunlink
    have hnodup := h.nodup_usesOf v
    rw [usesOf_of_isList (by rw [hlist, if_pos rfl]) hids']
    rw [usesOf_of_isList hl hids] at hnodup ⊢
    -- On both sides of the record that goes, the other ones name the slots that they did.
    obtain ⟨front, back, rfl⟩ := List.append_of_mem huse
    obtain ⟨-, hback, hfront⟩ := List.nodup_append.mp hids.nodup
    have hfront : use ∉ front := fun hmem => hfront use hmem use List.mem_cons_self rfl
    have hback : use ∉ back := (List.nodup_cons.mp hback).1
    have hsame : ∀ ids : List UseId, use ∉ ids →
        ids.filterMap (fun j => (r'.uses.reference? j).map Prod.snd) =
          ids.filterMap fun j => (r.uses.reference? j).map Prod.snd := by
      intro ids hids
      apply List.filterMap_congr
      intro j hj
      rw [href', if_neg]
      rintro rfl
      exact hids hj
    have hown : (r.uses.reference? use).map Prod.snd = some (id, k) := by
      rw [href]
      rfl
    rw [List.filterMap_append,
      List.filterMap_cons_some (f := fun j => (r.uses.reference? j).map Prod.snd) hown] at hnodup ⊢
    have hother := fun hmem => (List.nodup_append.mp hnodup).2.2 (id, k) hmem _ List.mem_cons_self rfl
    rw [List.erase_append_right _ hfront, List.erase_cons_head, List.filterMap_append,
      hsame front hfront, hsame back hback, List.erase_append_right _ hother, List.erase_cons_head]
  . intro w hw
    apply h.usesOf_congr
    . rw [hlist, if_neg hw]
    . intro l₂ ids₂ hids₂
      exact hids.unlink_of_ne huse hunlink hids₂ hw
    . intro use' id' k' hid'
      rw [href', if_neg]
      rintro rfl
      rw [href] at hid'
      cases hid'
      exact hw rfl

theorem Tracks.usesOf_linked {g : Slot → Slot} (h : r.Tracks pending)
    (hv : ∃ l, r.useList? v = some l) (hlinked : Linked r r' id k v g)
    (hsize : r'.uses.records.size ≤ UInt32.size)
    : r'.usesOf v = r.usesOf v ++ [(id, k)] ∧ ∀ w, w ≠ v → r'.usesOf w = r.usesOf w := by
  obtain ⟨l, hl⟩ := hv
  obtain ⟨huses, hlist⟩ := hlinked.list l hl
  obtain ⟨ids, hids, hmem⟩ := h.listed v l hl
  rw [huses] at hsize
  have href := h.free.reference?_link hsize
  have hcell : r.uses.reference? r.uses.nextCell = none := by
    unfold UseTable.reference?
    rw [h.free.get?_nextCell_of_link hsize]
    rfl
  -- The new record takes a cell that was free, so those that were there are as they were.
  have hold : ∀ use p, r.uses.reference? use = some p →
      r'.uses.reference? use = r.uses.reference? use := by
    intro use p hp
    rw [huses, href, if_neg]
    rintro rfl
    rw [hcell] at hp
    cases hp
  constructor
  . have hids' := hids.link h.free hsize
    rw [← huses] at hids'
    rw [usesOf_of_isList (by rw [hlist, if_pos rfl]) hids', usesOf_of_isList hl hids,
      List.filterMap_append]
    congr 1
    . apply List.filterMap_congr
      intro use huse
      obtain ⟨j, n, hj⟩ := (hmem use).mp huse
      rw [hold use _ hj]
    . rw [huses]
      simp [href]
  . intro w hw
    apply h.usesOf_congr
    . rw [hlist, if_neg hw]
    . intro l₂ ids₂ hids₂
      rw [huses]
      exact hids.link_of_ne h.free hsize hids₂ hw
    . intro use id k hid
      exact hold use _ hid

structure UsesMoved (r r' : Routine) (v : ValueId) (x : Operand) : Prop where
  source : r'.usesOf v = []
  target : ∀ w, x = .value w → r'.usesOf w = r.usesOf w ++ r.usesOf v
  others : ∀ w, w ≠ v → x ≠ .value w → r'.usesOf w = r.usesOf w

theorem UsesMoved.of_unused (h : r.usesOf v = []) : UsesMoved r r v x := by
  refine ⟨h, ?_, fun w _ _ => rfl⟩
  intro w _
  rw [h, List.append_nil]

end Routine

namespace Edit

open Routine

variable {r r' : Routine} {id : InsnId} {k : Nat} {v : ValueId} {use : UseId} {x : Operand}

theorem setOperand_usesOf (h : r.Tracked) (hs : r.slot? id k = some ⟨.value v, some use⟩)
    (hx : r.Admits x) (hne : x ≠ .value v) (hrun : setOperand id k x r = .ok () r')
    (hsize : r'.uses.records.size ≤ UInt32.size)
    : r'.usesOf v = (r.usesOf v).erase (id, k) ∧
        (∀ w, x = .value w → r'.usesOf w = r.usesOf w ++ [(id, k)]) ∧
        ∀ w, w ≠ v → x ≠ .value w → r'.usesOf w = r.usesOf w := by
  obtain ⟨r₁, hrelease, hrel, htracks⟩ := releaseOperand_run hs (h.releasable hs)
  obtain ⟨hsource, hothers⟩ := h.usesOf_released hs hrel
  unfold setOperand at hrun
  rw [bind_of_ok (requireLive_run_ok hx), bind_of_ok hrelease] at hrun
  cases x with
  | value u =>
    have hu₁ := isSome_useList?_of_bare_eq hrel.bare (hx u rfl)
    have hs₁ : r₁.slot? id k = some ⟨.value v, none⟩ := by
      rw [hrel.slot, if_pos ⟨rfl, rfl⟩]
      rfl
    obtain ⟨r₂, hlink, hlinked, -⟩ :=
      linkSlot_run hs₁ hu₁ (f := fun use _ => ⟨.value u, some use⟩)
        (g := fun _ => ⟨.value u, none⟩) (fun _ => rfl) (fun _ _ => rfl)
    dsimp only at hrun
    rw [bind_map_left, hlink] at hrun
    cases hrun
    obtain ⟨htarget, hothers₁⟩ := (htracks _ h).usesOf_linked hu₁ hlinked hsize
    have hvu : v ≠ u := fun heq => hne (by rw [heq])
    refine ⟨?_, ?_, ?_⟩
    . rw [hothers₁ v hvu, hsource]
    . intro w hw
      cases hw
      rw [htarget, hothers u hvu.symm]
    . intro w hwv hwu
      rw [hothers₁ w (fun heq => hwu (by rw [heq])), hothers w hwv]
  | _ =>
    cases hrun
    refine ⟨?_, nofun, ?_⟩
    . rw [usesOf_modifySlot, hsource]
    . intro w hw _
      rw [usesOf_modifySlot, hothers w hw]

theorem usesMoved_of_replaceFrom {fuel n : Nat} {l : UseList} (h : r.Tracked) (hsmall : r.Small)
    (hx : r.Admits x) (hne : x ≠ .value v) (hl : r.useList? v = some l) (hfuel : l.len ≤ fuel)
    (hrun : replaceFrom v x fuel l.head r = .ok n r') : UsesMoved r r' v x := by
  -- The uses that are left are moved behind those that have been moved.
  induction fuel generalizing r l n with
  | zero =>
    obtain ⟨ids, hids, -⟩ := h.listed v l hl
    have hnil : ids = [] := by
      rw [← List.length_eq_zero_iff, ← hids.len]
      omega
    subst hnil
    cases hrun
    exact .of_unused (usesOf_of_isList hl hids)
  | succ fuel ih =>
    obtain ⟨ids, hids, -⟩ := h.listed v l hl
    cases ids with
    | nil =>
      have hhead : l.head = none := hids.head
      rw [hhead] at hrun
      cases hrun
      exact .of_unused (usesOf_of_isList hl hids)
    | cons use rest =>
      obtain ⟨id, k, r₁, l', hs, hset, hspec, htracked, hsmall₁, hl', hlen, hstep⟩ :=
        replaceFrom_step h hsmall hx hne hl hids
      obtain ⟨hsource, htarget, hothers⟩ := setOperand_usesOf h hs hx hne hset hsmall₁.uses
      have hlen' : l.len = rest.length + 1 := hids.len
      rw [hstep] at hrun
      obtain ⟨m, r₂, hrun₂, hend⟩ := of_bind_ok hrun
      cases hend
      have hmoved := ih htracked hsmall₁ (admits_of_bare_eq hspec.bare hx) hl' (by omega) hrun₂
      have hfirst : r.usesOf v = (id, k) :: r₁.usesOf v := by
        have hown : (r.uses.reference? use).map Prod.snd = some (id, k) := by
          rw [(h.owner id k v use).mp hs]
          rfl
        rw [hsource, usesOf_of_isList hl hids,
          List.filterMap_cons_some (f := fun j => (r.uses.reference? j).map Prod.snd) hown,
          List.erase_cons_head]
      refine ⟨hmoved.source, ?_, ?_⟩
      . intro w hw
        rw [hmoved.target w hw, htarget w hw, hfirst, List.append_assoc, List.singleton_append]
      . intro w hwv hwx
        rw [hmoved.others w hwv hwx, hothers w hwv hwx]

theorem usesMoved_of_replaceUses {n : Nat} (h : r.Tracked) (hsmall : r.Small) (hx : r.Admits x)
    (hne : x ≠ .value v) (hrun : replaceUses v x r = .ok n r') : UsesMoved r r' v x := by
  unfold replaceUses at hrun
  rw [if_neg hne, bind_of_ok (requireLive_run_ok hx), get_bind_run] at hrun
  cases hl : r.useList? v with
  | none =>
    rw [hl] at hrun
    cases hrun
  | some l =>
    rw [hl] at hrun
    obtain ⟨ids, hids, -⟩ := h.listed v l hl
    refine usesMoved_of_replaceFrom h hsmall hx hne hl ?_ hrun
    rw [hids.len]
    exact hids.length_le

theorem replaceUses_substitutes (actions : List Action) (hsmall : (after actions).Small)
    {v : ValueId} (hv : (after actions).contains v = true) {x : Operand}
    (hx : ∀ w, x = .value w → (after actions).contains w = true) (hne : x ≠ .value v)
    : ∃ r', replaceUses v x (after actions) = .ok ((after actions).useCount v) r' ∧
        (∀ id k, (after actions).operand? id k = some (.value v) → r'.operand? id k = some x) ∧
        (∀ id k, (after actions).operand? id k ≠ some (.value v) →
          r'.operand? id k = (after actions).operand? id k) ∧
        r'.useCount v = 0 ∧ r'.usesOf v = [] ∧
        (∀ w, x = .value w →
          r'.usesOf w = (after actions).usesOf w ++ (after actions).usesOf v) ∧
        (∀ w, w ≠ v → x ≠ .value w → r'.usesOf w = (after actions).usesOf w) ∧
        r'.bare = (after actions).bare.substitute v x := by
  have htracked := tracked_after actions hsmall
  have hadmits : (after actions).Admits x := by
    intro w hw
    rw [← Option.isSome_iff_exists, ← contains_eq]
    exact hx w hw
  obtain ⟨r', hrun, hreplaced⟩ := replaceUses_run htracked hsmall hv hadmits hne
  have hmoved := usesMoved_of_replaceUses htracked hsmall hadmits hne hrun
  refine ⟨r', hrun, ?_, ?_, ?_, hmoved.source, hmoved.target, hmoved.others, hreplaced.bare⟩
  . intro id k hk
    rw [hreplaced.operand?, hk, Option.map_some, if_pos rfl]
  . intro id k hk
    rw [hreplaced.operand?]
    cases hy : (after actions).operand? id k with
    | none => rfl
    | some y =>
      rw [Option.map_some, if_neg]
      rintro rfl
      exact hk hy
  . rw [← hreplaced.tracked.length_usesOf, hmoved.source, List.length_nil]

def entangledSums : List Action :=
  [.addBlock,
    .pushBack (.ofNat 0) (.readReg .i64 (.ofNat 0 1)),
    .pushBack (.ofNat 0) (.binop .i64 .add (.insn (.ofNat 0)) (.insn (.ofNat 0))),
    .pushBack (.ofNat 0) (.binop .i64 .add (.insn (.ofNat 1)) (.insn (.ofNat 0))),
    .pushBack (.ofNat 0) (.binop .i64 .mul (.insn (.ofNat 1)) (.insn (.ofNat 2))),
    .setOperand (.ofNat 1) 1 (.insn (.ofNat 1))]

theorem replaceUses_substitutes_entangledSums
    : (after entangledSums).Small ∧ (after entangledSums).contains (.insn (.ofNat 1)) = true ∧
        (after entangledSums).contains (.insn (.ofNat 2)) = true ∧
        (after entangledSums).usesOf (.insn (.ofNat 1)) =
          [(.ofNat 2, 1), (.ofNat 3, 1), (.ofNat 1, 1)] ∧
        (after entangledSums).usesOf (.insn (.ofNat 2)) = [(.ofNat 3, 2)] ∧
        ∃ r', replaceUses (.insn (.ofNat 1)) (.insn (.ofNat 2)) (after entangledSums) = .ok 3 r' ∧
          r'.operand? (.ofNat 1) 1 = some (.insn (.ofNat 2)) ∧
          r'.operand? (.ofNat 2) 1 = some (.insn (.ofNat 2)) ∧
          r'.operand? (.ofNat 2) 2 = some (.insn (.ofNat 0)) ∧
          r'.usesOf (.insn (.ofNat 2)) =
            [(.ofNat 3, 2), (.ofNat 2, 1), (.ofNat 3, 1), (.ofNat 1, 1)] := by
  have hsmall : (after entangledSums).Small := by decide +kernel
  have hv : (after entangledSums).contains (.insn (.ofNat 1)) = true := by decide +kernel
  have hx : (after entangledSums).contains (.insn (.ofNat 2)) = true := by decide +kernel
  have hsource : (after entangledSums).usesOf (.insn (.ofNat 1)) =
      [(.ofNat 2, 1), (.ofNat 3, 1), (.ofNat 1, 1)] := by
    decide +kernel
  have htarget : (after entangledSums).usesOf (.insn (.ofNat 2)) = [(.ofNat 3, 2)] := by
    decide +kernel
  have hcount : (after entangledSums).useCount (.insn (.ofNat 1)) = 3 := by decide +kernel
  refine ⟨hsmall, hv, hx, hsource, htarget, ?_⟩
  obtain ⟨r', hrun, hslots, hothers, -, -, huses, -⟩ :=
    replaceUses_substitutes entangledSums hsmall hv (x := .insn (.ofNat 2))
      (by rintro w ⟨⟩; exact hx) (by decide)
  rw [hcount] at hrun
  refine ⟨r', hrun, ?_, ?_, ?_, ?_⟩
  . exact hslots _ _ (by decide +kernel)
  . exact hslots _ _ (by decide +kernel)
  . rw [hothers _ _ (by decide +kernel)]
    decide +kernel
  . rw [huses _ rfl, hsource, htarget]
    rfl

end Edit

end MachineIR
