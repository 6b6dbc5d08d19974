import MachineIR.Proofs.Bisimilarity
import MachineIR.Proofs.Destruction
import MachineIR.Proofs.Idle
import MachineIR.Proofs.PassFailures

/-!
This module contains why deduplication is done after one run. To replace a value by an identical one
changes nothing about which values are identical, nor does the removal of dead code, and what has
been visited never gains a use again.
-/

namespace MachineIR

namespace Routine

open Edit

variable {r r' : Routine} {b : BlockId} {id j earlier : InsnId} {i : Insn} {constant : Bool}
  {candidates : List InsnId}

section Search

def endsSearch (r : Routine) (id : InsnId) : Bool := (r.insn? id).any (·.opcode.hasSideEffect)

theorem endsSearch_eq (r : Routine) (id : InsnId)
    : r.endsSearch id = (r.code? id).any (·.opcode.hasSideEffect) := by
  unfold endsSearch code?
  rw [Option.any_map]
  rfl

theorem duplicateAmong?_filter {keep : InsnId → Bool}
    (h : r.duplicateAmong? id constant candidates = none)
    (hsame : ∀ c ∈ candidates, keep c = true →
      r'.identicalValues (.insn id) (.insn c) = r.identicalValues (.insn id) (.insn c))
    (hends : ∀ c ∈ candidates, keep c = true → r'.endsSearch c = r.endsSearch c)
    (hgone : ∀ c ∈ candidates, keep c = false → r.endsSearch c = false)
    : r'.duplicateAmong? id constant (candidates.filter keep) = none := by
  induction candidates with
  | nil => rfl
  | cons c rest ih =>
    rw [List.forall_mem_cons] at hsame hends hgone
    unfold duplicateAmong? at h
    split at h
    . cases h
    . next hdiffers =>
      cases hkeep : keep c with
      | false =>
        have hstop := hgone.1 hkeep
        unfold endsSearch at hstop
        rw [List.filter_cons_of_neg (by simp [hkeep])]
        rw [hstop, Bool.false_and, if_neg Bool.false_ne_true] at h
        exact ih h hsame.2 hends.2 hgone.2
      | true =>
        have hstop := hends.1 hkeep
        unfold endsSearch at hstop
        rw [List.filter_cons_of_pos hkeep]
        unfold duplicateAmong?
        rw [hsame.1 hkeep, if_neg hdiffers, hstop]
        split at h
        . next hends => rw [if_pos hends]
        . next hends' =>
          rw [if_neg hends']
          exact ih h hsame.2 hends.2 hgone.2

end Search

def Merged (r : Routine) (id : InsnId) : Prop := ¬ r.Used id ∨ r.duplicate? id = none

section Replacement

theorem redirected_of_replaced (h : Replaced r r' (.insn id) (.insn earlier))
    (hsame : r.Bisimilar (.insn id) (.insn earlier)) : r.Redirected r' := by
  intro j
  rw [h.code]
  cases r.code? j with
  | none => exact .none
  | some c =>
    refine .some ⟨rfl, rfl, ?_⟩
    unfold Instruction.substitute
    dsimp only
    rw [List.forall₂_map_right_iff, List.forall₂_same]
    intro x hx
    split
    . next hvalue =>
      subst hvalue
      exact hsame
    . exact .refl (.refl r) x

theorem Merged.replaced (h : r.Merged j) (hr : r.Arranged) (hj : r.insn? j = some i)
    (hreplaced : Replaced r r' (.insn id) (.insn earlier))
    (hsame : r.Bisimilar (.insn id) (.insn earlier)) (hne : j ≠ earlier) : r'.Merged j := by
  rcases h with hunused | hnone
  . left
    rintro ⟨c, hc⟩
    rcases hreplaced.refers_iff.mp hc with ⟨-, hc⟩ | ⟨heq, -⟩
    . exact hunused ⟨c, hc⟩
    . cases heq
      exact hne rfl
  . right
    have hcode := hreplaced.code
    obtain ⟨front, back, hholds, -⟩ := hr.holds_block hj
    rw [duplicate?_eq hholds.lists, code?_of_insn? hj, Option.bind_some] at hnone
    rw [duplicate?_eq (hreplaced.samePlaces.lists hholds.lists), hcode, code?_of_insn? hj,
      ← List.filter_true front.reverse]
    apply duplicateAmong?_filter hnone
    . intro c hc _
      rw [Bool.eq_iff_iff, identicalValues_iff_bisimilar, identicalValues_iff_bisimilar,
        (redirected_of_replaced hreplaced hsame).bisimilar_iff]
    . intro c hc _
      rw [endsSearch_eq, endsSearch_eq, hcode, Option.any_map]
      rfl
    . nofun

end Replacement

section Removal

theorem bisimilar_iff_of_erased {u v : ValueId} (h : Erased r r' id) (hfree : ¬ r.Used id)
    (hu : u ≠ .insn id) (hv : v ≠ .insn id) : r'.Bisimilar u v ↔ r.Bisimilar u v := by
  have hcode : ∀ j, ValueId.insn j ≠ .insn id → r'.code? j = r.code? j := by
    intro j hj
    rw [h.code, if_neg]
    rintro rfl
    exact hj rfl
  have hclosed : ∀ j w, r.Refers j w → w ≠ .insn id := by
    rintro j w hrefers rfl
    exact hfree ⟨j, hrefers⟩
  constructor
  . intro huv
    refine huv.restrict (P := (· ≠ .insn id)) hu hv (fun j hj => (hcode j hj).symm) ?_
    intro j w _ hrefers
    exact hclosed j w (h.refers_iff.mp hrefers).2
  . intro huv
    exact huv.restrict (P := (· ≠ .insn id)) hu hv hcode fun j w _ => hclosed j w

theorem Merged.erased (h : r.Merged j) (hr : r.Arranged) (hj : r.insn? j = some i)
    (hspent : r.Spent b id) (herased : Erased r r' id) (hne : j ≠ id) : r'.Merged j := by
  rcases h with hunused | hnone
  . left
    rintro ⟨c, hc⟩
    exact hunused ⟨c, (herased.refers_iff.mp hc).2⟩
  . right
    obtain ⟨front, back, hholds, -⟩ := hr.holds_block hj
    have hlists' := ((herased.arranged hr).holds_insnsOf
      (herased.block?_ne_none.mpr hholds.lists.block?_ne_none)).lists
    rw [herased.insnsOf hr, hholds.lists.insnsOf_eq, List.filter_append,
      List.filter_cons_of_pos (by simpa using hne)] at hlists'
    rw [duplicate?_eq hholds.lists, code?_of_insn? hj, Option.bind_some] at hnone
    rw [duplicate?_eq hlists', herased.code, if_neg hne, code?_of_insn? hj, Option.bind_some,
      ← List.filter_reverse]
    apply duplicateAmong?_filter hnone
    . intro c hc hkeep
      rw [Bool.eq_iff_iff, identicalValues_iff_bisimilar, identicalValues_iff_bisimilar]
      apply bisimilar_iff_of_erased herased hspent.free
      . simpa using hne
      . simpa using hkeep
    . intro c hc hkeep
      rw [endsSearch_eq, endsSearch_eq, herased.code, if_neg (by simpa using hkeep)]
    . intro c hc hkeep
      obtain ⟨k, hk, heffect⟩ := hspent.code
      have hc : c = id := by simpa using hkeep
      rw [hc, endsSearch_eq, hk, Option.any_some, heffect]

theorem merged_of_discards (h : Relation.ReflTransGen (Discards b) r r')
    (hmerged : ∀ id ∈ r.insnsOf b, r.Merged id) : ∀ id ∈ r'.insnsOf b, r'.Merged id := by
  induction h with
  | refl => exact hmerged
  | tail _ hlast ih =>
    obtain ⟨gone, hr, hspent, herased⟩ := hlast
    intro id hid
    rw [herased.insnsOf hr.arranged, List.mem_filter, decide_eq_true_eq] at hid
    obtain ⟨i, hi, -⟩ := hr.arranged.mem_insnsOf.mp hid.1
    exact (ih id hid.1).erased hr.arranged hi hspent herased hid.2

end Removal

end Routine

namespace Edit

open Routine

variable {r r' : Routine} {b : BlockId} {debug : Bool} {id : InsnId} {i : Insn} {todo : List InsnId}
  {n : Nat}

section Sweep

theorem mergeInsn_cases (hr : r.Intact) (hi : r.insn? id = some i) (hrun : mergeInsn id r = .ok n r')
    : (r' = r ∧ r.Merged id) ∨
        ∃ earlier, r.duplicate? id = some earlier ∧ Replaced r r' (.insn id) (.insn earlier) := by
  obtain ⟨m, r₁, hrun₁, hcases⟩ := mergeInsn_run hr hi
  rw [hrun₁] at hrun
  cases hrun
  apply hcases.imp_left
  rintro ⟨rfl, hidle⟩
  exact ⟨rfl, hidle.imp_left (hr.tracked.len_eq_zero_iff hi).mp⟩

structure Merging (b : BlockId) (todo : List InsnId) (r : Routine) : Prop where
  intact : r.Intact
  live : r.block? b ≠ none
  rest : ∃ done, r.insnsOf b = Direction.backward.joined done todo ∧ ∀ id ∈ done, r.Merged id

theorem Merging.all (h : Merging b [] r) : ∀ id ∈ r.insnsOf b, r.Merged id := by
  obtain ⟨done, hlist, hdone⟩ := h.rest
  rwa [hlist]

theorem Merging.step (h : Merging b (id :: todo) r) (hrun : mergeInsn id r = .ok n r')
    : Merging b todo r' := by
  obtain ⟨done, hlist, hdone⟩ := h.rest
  have hr := h.intact
  rw [Direction.joined_cons] at hlist
  have hlive : ∀ j ∈ id :: done, ∃ i, r.insn? j = some i := by
    intro j hj
    obtain ⟨i, hi, -⟩ := hr.arranged.mem_insnsOf.mp
      (hlist ▸ Direction.mem_joined.mpr (Or.inl hj))
    exact ⟨i, hi⟩
  obtain ⟨i, hi⟩ := hlive id List.mem_cons_self
  rcases mergeInsn_cases hr hi hrun with ⟨rfl, hmerged⟩ | ⟨earlier, hduplicate, hreplaced⟩
  . exact ⟨hr, h.live, id :: done, hlist, List.forall_mem_cons.mpr ⟨hmerged, hdone⟩⟩
  . have hplaces := hreplaced.samePlaces
    have hlists := (hr.arranged.holds_insnsOf h.live).lists
    rw [hlist] at hlists
    have hnodup := List.nodup_append.mp hlists.chain.nodup
    obtain ⟨hmem, hne, -⟩ := duplicate?_eq_some hlists hi hduplicate
    have hsame := identicalValues_iff_bisimilar.mp (identicalValues_of_duplicate? hduplicate)
    refine ⟨⟨hreplaced.tracked, hplaces.arranged hr.arranged, hreplaced.small hr.small⟩,
      hplaces.block?_ne_none.mpr h.live, id :: done, ?_, ?_⟩
    . rw [hplaces.insnsOf hr.arranged, hlist]
    . rw [List.forall_mem_cons]
      constructor
      . left
        rintro ⟨c, hc⟩
        exact hreplaced.not_refers (by simpa using hne) c hc
      . intro j hj
        obtain ⟨k, hk⟩ := hlive j (List.mem_cons_of_mem id hj)
        apply (hdone j hj).replaced hr.arranged hk hreplaced hsame
        -- The duplicate stands in front of the instruction and has not been met yet.
        rintro rfl
        exact hnodup.2.2 j hmem j (List.mem_cons_of_mem id hj) rfl

theorem merging_of_sweep (hr : r.Intact) (hrun : sweep b .backward mergeInsn r = .ok n r')
    : Merging b [] r' := by
  have hb := block?_of_sweepWith hrun
  rw [sweep_eq_foldlM coversInPlace_samePlaces.mergeInsn (hr.arranged.holds_insnsOf hb).lists] at hrun
  have hends : Ends (counting mergeInsn) (fun todo _ r => Merging b todo r)
      ((Direction.backward.along (r.insnsOf b)).foldlM (counting mergeInsn) 0 r) := by
    apply foldlM_ends (J := fun _ => True)
    . intro total id r _
      trivial
    . intro id todo total r total' r' h hrun _
      obtain ⟨n, hvisit, -⟩ := of_counting_ok hrun
      exact h.step hvisit
    . exact ⟨hr, hb, [], Direction.joined_nil_along.symm, nofun⟩
    . trivial
  rw [hrun] at hends
  cases hends with
  | done h => exact h

end Sweep

section Removal

theorem Visits.forward {σ : Type} {visit : σ → InsnId → Edit σ} {d : Direction}
    {I : List InsnId → σ → Routine → Prop} {J : Routine → Prop} (h : Visits visit b d I J)
    (hJ : ∀ {id todo s r s' r'}, I (id :: todo) s r → visit s id r = .ok s' r' → J r')
    : Visits visit b d I fun _ => True := by
  constructor
  . intro s id r _
    trivial
  . exact h.path
  . intro id todo s r s' r' hI hrun _
    exact h.step hI hrun (hJ hI hrun)
  . intro id todo s r s' r' hI hrun _
    exact h.leads hI hrun (hJ hI hrun)

theorem small_of_eraseWhen {p : Routine → InsnId → Bool} (hr : r.Intact)
    (hrun : eraseWhen p id r = .ok n r') : r'.Small := by
  unfold eraseWhen at hrun
  rw [get_bind_run] at hrun
  split at hrun
  . obtain ⟨u, r₁, herase, hend⟩ := of_bind_ok hrun
    cases hend
    exact (erased_of_ok hr.tracked herase).small hr.small
  . cases hrun
    exact hr.small

theorem removeDeadCode_succeeds (hr : r.Intact) (hb : r.block? b ≠ none)
    : ∃ n r', removeDeadCode b r = .ok n r' ∧ Cleaning b r [] n r' := by
  have hvisits := (cleaning_visits b r).forward (by
    intro id todo total r total' r' h hrun
    obtain ⟨n, hvisit, -⟩ := of_counting_ok hrun
    exact small_of_eraseWhen h.intact hvisit)
  have hends := hvisits.ends (hr.arranged.holds_insnsOf hb).lists (Cleaning.start hr hb) trivial
  change ∃ n r', sweepWith b .backward 0 (counting (eraseWhen isDead)) r = .ok n r' ∧ _
  generalize sweepWith b .backward 0 (counting (eraseWhen isDead)) r = result at hends ⊢
  cases hends with
  | done h => exact ⟨_, _, rfl, h⟩
  | failed h hrun =>
    obtain ⟨kept, hlist, -⟩ := h.rest
    obtain ⟨m, r₁, hok⟩ := eraseWhen_succeeds h.intact
      (hlist ▸ Direction.mem_joined.mpr (Or.inr List.mem_cons_self))
    rw [counting_of_ok hok] at hrun
    cases hrun

theorem cleaning_of_removeDeadCode (hr : r.Intact) (hrun : removeDeadCode b r = .ok n r')
    : Cleaning b r [] n r' := by
  obtain ⟨m, r₁, hok, h⟩ := removeDeadCode_succeeds hr (block?_of_sweepWith hrun)
  rw [hok] at hrun
  cases hrun
  exact h

theorem Merging.complete {m : Nat} (h : Merging b [] r) (hrun : complete b m debug r = .ok n r')
    : Merging b [] r' := by
  rcases complete_eq_ok hrun with ⟨-, -, rfl⟩ | ⟨-, -, k, -, hremove⟩
  . exact h
  . have hcleaning := cleaning_of_removeDeadCode h.intact hremove
    exact ⟨hcleaning.intact, hcleaning.live, r'.insnsOf b, rfl,
      merged_of_discards hcleaning.discards h.all⟩

end Removal

theorem Merging.idle (h : Merging b [] r) : deduplicate b debug r = .ok 0 r := by
  rw [deduplicate_eq, bind_complete_eq_zero_iff,
    sweep_eq_zero_iff (fun h => (mergeInsn_eq_zero_iff.mp h).1) h.intact.arranged]
  refine ⟨rfl, h.live, ?_⟩
  intro id hid
  obtain ⟨i, hi, -⟩ := h.intact.arranged.mem_insnsOf.mp hid
  rw [mergeInsn_eq_zero_iff]
  exact ⟨rfl, i, hi, (h.all id hid).imp_left (h.intact.tracked.len_eq_zero_iff hi).mpr⟩

theorem deduplicate_idempotent (actions : List Action) (hsmall : (after actions).Small) (b : BlockId)
    (debug : Bool) {n : Nat} {r' : Routine} (hrun : deduplicate b debug (after actions) = .ok n r')
    : deduplicate b debug r' = .ok 0 r' ∧
        ∀ id ∈ r'.insnsOf b, r'.Used id → r'.duplicate? id = none := by
  rw [deduplicate_eq] at hrun
  obtain ⟨m, r₁, hsweep, hcomplete⟩ := of_bind_ok hrun
  have hswept := merging_of_sweep (intact_after actions hsmall) hsweep
  have hmerged := hswept.complete hcomplete
  refine ⟨hmerged.idle, ?_⟩
  intro id hid hused
  exact (hmerged.all id hid).resolve_left (not_not_intro hused)

def complementOfEachRead : List Action :=
  [.addBlock,
    .pushBack (.ofNat 0) (.readReg .i64 (.ofNat 0 1)),
    .pushBack (.ofNat 0) (.unop .i64 .not (.insn (.ofNat 0))),
    .pushBack (.ofNat 0) (.readReg .i64 (.ofNat 0 1)),
    .pushBack (.ofNat 0) (.unop .i64 .not (.insn (.ofNat 2))),
    .pushBack (.ofNat 0) (.writeReg (.ofNat 1 1) (.insn (.ofNat 1)) .i64),
    .pushBack (.ofNat 0) (.writeReg (.ofNat 2 1) (.insn (.ofNat 3)) .i64)]

theorem deduplicate_idempotent_complementOfEachRead
    : (after complementOfEachRead).Small ∧
        EStateM.run' (deduplicate (.ofNat 0) true) (after complementOfEachRead) = some 6 ∧
        deduplicate (.ofNat 0) true (left (deduplicate (.ofNat 0) true) (after complementOfEachRead)) =
          .ok 0 (left (deduplicate (.ofNat 0) true) (after complementOfEachRead)) := by
  have hsmall : (after complementOfEachRead).Small := by decide +kernel
  have hrun : EStateM.run' (deduplicate (.ofNat 0) true) (after complementOfEachRead) = some 6 := by
    decide +kernel
  exact ⟨hsmall, hrun, (deduplicate_idempotent complementOfEachRead hsmall _ true (run_of_run' hrun)).1⟩

end Edit

end MachineIR
