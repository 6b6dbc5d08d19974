import MachineIR.Proofs.ConstantMemory
import MachineIR.Proofs.Execution
import MachineIR.Proofs.Reductions

/-!
This module contains what the passes do: either there is nothing to do and they leave the routine as
it is, or they reduce a block and clean it up.
-/

namespace MachineIR

open Routine Edit

namespace Routine

variable {α : Type} {r r' : Routine} {b : BlockId} {id : InsnId} {i : Insn}

theorem Intact.of_ok {e : Edit α} {a : α} (h : r.Intact) (hkeeps : Within Keeps e)
    (harranges : Within Arranges e) (hrun : e r = .ok a r') (hsmall : r'.Small) : r'.Intact := by
  have hk := hkeeps r
  have ha := harranges r
  rw [left_of_ok hrun] at hk ha
  exact ⟨hk.tracked hsmall h.tracked, ha.arranged hsmall.roomy h.arranged, hsmall⟩

theorem Tracks.len_eq_zero_iff (h : r.Tracked) (hi : r.insn? id = some i)
    : i.uses.len = 0 ↔ ¬ r.Used id := by
  have hcount : r.useCount (.insn id) = i.uses.len := by
    simp [useCount, useList?, hi]
  rw [← hcount, h.useCount_eq_zero_iff (by simp [contains, hi])]
  unfold Used
  rw [not_exists]

def isDead (r : Routine) (id : InsnId) : Bool := (r.insn? id).any Insn.isDead

def Discards (b : BlockId) (r r' : Routine) : Prop :=
  ∃ id, r.Intact ∧ r.Spent b id ∧ Erased r r' id

/-- Unused instructions of a block are taken out, among them all that were unused at the start. -/
structure Cleans (b : BlockId) (r r' : Routine) : Prop where
  discards : Relation.ReflTransGen (Discards b) r r'
  thorough : ∀ id, r.Spent b id → r'.code? id = none

def Reduced (b : BlockId) (r r' : Routine) : Prop :=
  ∃ gone r₁, Relation.TransGen (Reduces b) ([], r) (gone, r₁) ∧
    (∀ id ∈ gone, r₁.Spent b id) ∧ r₁.Cleans b r'

theorem code?_of_discards (h : Relation.ReflTransGen (Discards b) r r') (id : InsnId)
    : r'.code? id = none ∨ r'.code? id = r.code? id := by
  induction h with
  | refl => exact Or.inr rfl
  | tail hinit hlast ih =>
    obtain ⟨j, -, -, herased⟩ := hlast
    rw [herased.code]
    split
    . exact Or.inl rfl
    . exact ih

theorem Spent.of_discards (h : r.Spent b id) (hdiscards : Relation.ReflTransGen (Discards b) r r')
    (hlive : r'.code? id ≠ none) : r'.Spent b id := by
  induction hdiscards with
  | refl => exact h
  | tail hinit hlast ih =>
    obtain ⟨j, hr, hspent, herased⟩ := hlast
    have hne : id ≠ j := by
      rintro rfl
      rw [herased.code, if_pos rfl] at hlive
      exact hlive rfl
    rw [herased.code, if_neg hne] at hlive
    exact (ih hlive).erased hr.arranged hne herased

end Routine

namespace Edit

variable {r r' : Routine} {b : BlockId} {debug : Bool} {id : InsnId} {n : Nat}

section DeadCode

theorem isDead_iff (hr : r.Intact) (hid : id ∈ r.insnsOf b) : r.isDead id = true ↔ r.Spent b id := by
  obtain ⟨i, hi, -⟩ := hr.arranged.mem_insnsOf.mp hid
  unfold isDead
  rw [hi, Option.any_some]
  simp only [Insn.isDead, Bool.and_eq_true, beq_iff_eq, Bool.not_eq_true',
    hr.tracked.len_eq_zero_iff hi]
  constructor
  . rintro ⟨hfree, hpure⟩
    exact ⟨hid, hfree, i.code, code?_of_insn? hi, hpure⟩
  . rintro ⟨-, hfree, c, hc, hpure⟩
    rw [code?_of_insn? hi] at hc
    cases hc
    exact ⟨hfree, hpure⟩

theorem eraseWhen_cases (hr : r.Intact) (hid : id ∈ r.insnsOf b)
    (hrun : eraseWhen isDead id r = .ok n r')
    : (n = 1 ∧ r.Spent b id ∧ Erased r r' id) ∨ (n = 0 ∧ r' = r ∧ ¬ r.Spent b id) := by
  unfold eraseWhen at hrun
  rw [get_bind_run] at hrun
  split at hrun
  . next hdead =>
    obtain ⟨u, r₁, herase, hrun⟩ := of_bind_ok hrun
    cases hrun
    exact Or.inl ⟨rfl, (isDead_iff hr hid).mp hdead, erased_of_ok hr.tracked herase⟩
  . next hdead =>
    cases hrun
    exact Or.inr ⟨rfl, rfl, fun hspent => hdead ((isDead_iff hr hid).mpr hspent)⟩

theorem block?_of_sweepWith {σ : Type} {visit : σ → InsnId → Edit σ} {d : Direction} {s s' : σ}
    (hrun : sweepWith b d s visit r = .ok s' r') : r.block? b ≠ none := by
  intro hb
  unfold sweepWith cursor at hrun
  rw [bind_assoc, bind_of_error (block_run_none hb)] at hrun
  cases hrun

theorem arranges_eraseWhen (p : Routine → InsnId → Bool) (id : InsnId)
    : Within Arranges (eraseWhen p id) := Within.eraseWhen covers_arranges.erase p id

structure Cleaning (b : BlockId) (start : Routine) (todo : List InsnId) (total : Nat) (r : Routine)
    : Prop where
  intact : r.Intact
  live : r.block? b ≠ none
  steps : (total = 0 ∧ r = start) ∨ (total ≠ 0 ∧ Relation.TransGen (Discards b) start r)
  rest : ∃ kept, r.insnsOf b = Direction.backward.joined kept todo ∧ ∀ id ∈ kept, ¬ start.Spent b id

theorem Cleaning.discards {start : Routine} {todo : List InsnId} {total : Nat}
    (h : Cleaning b start todo total r) : Relation.ReflTransGen (Discards b) start r := by
  rcases h.steps with ⟨-, rfl⟩ | ⟨-, hsteps⟩
  . exact .refl
  . exact hsteps.to_reflTransGen

theorem Cleaning.step {start : Routine} {todo : List InsnId} {total : Nat}
    (h : Cleaning b start (id :: todo) total r) (hrun : eraseWhen isDead id r = .ok n r')
    (hsmall : r'.Small)
    : Cleaning b start todo (total + n) r' ∧
        ∀ n, r'.neighbours? b id = some n → Direction.backward.pick n = todo.head? := by
  obtain ⟨kept, hlist, hkept⟩ := h.rest
  have hid : id ∈ r.insnsOf b := by
    rw [hlist, Direction.mem_joined]
    exact Or.inr List.mem_cons_self
  have hholds := h.intact.arranged.holds_insnsOf h.live
  have hr' := h.intact.of_ok (keeps_eraseWhen isDead id) (arranges_eraseWhen isDead id) hrun hsmall
  -- An instruction that is kept has a use or an effect, and so it had one at the start.
  rcases eraseWhen_cases h.intact hid hrun with ⟨rfl, hspent, herased⟩ | ⟨rfl, rfl, hspent⟩
  . constructor
    . refine ⟨hr', herased.block?_ne_none.mpr h.live, Or.inr ⟨by omega, ?_⟩, kept, ?_, hkept⟩
      . exact .tail' h.discards ⟨id, h.intact, hspent, herased⟩
      . rw [hlist] at hholds
        simp only [Direction.joined, List.reverse_cons, List.append_assoc,
          List.singleton_append] at hholds
        exact (herased.holds hholds).lists.insnsOf_eq
    . intro n hn
      obtain ⟨i, hi, -⟩ := neighbours?_eq_some.mp hn
      have := herased.code id
      rw [if_pos rfl, code?_of_insn? hi] at this
      cases this
  . constructor
    . refine ⟨hr', h.live, h.steps, id :: kept, ?_, ?_⟩
      . rw [hlist, Direction.joined_cons]
      . intro j hj hstart
        rcases List.mem_cons.mp hj with rfl | hj
        . obtain ⟨i, hi, -⟩ := h.intact.arranged.mem_insnsOf.mp hid
          apply hspent (hstart.of_discards h.discards _)
          rw [code?_of_insn? hi]
          exact Option.some_ne_none _
        . exact hkept j hj hstart
    . intro n hn
      rw [hlist] at hholds
      exact hholds.lists.pick_eq hn

theorem cleaning_visits (b : BlockId) (start : Routine)
    : Visits (counting (eraseWhen isDead)) b .backward (Cleaning b start) Small := by
  constructor
  . intro total id r hsmall
    exact (Within.counting (fun id => keeps_eraseWhen isDead id) total id r).grows.small hsmall
  . intro todo total r h
    obtain ⟨kept, hlist, -⟩ := h.rest
    have := (h.intact.arranged.holds_insnsOf h.live).lists
    rw [hlist] at this
    exact this.path
  . intro id todo total r total' r' h hrun hsmall
    obtain ⟨n, hvisit, rfl⟩ := of_counting_ok hrun
    exact (h.step hvisit hsmall).1
  . intro id todo total r total' r' h hrun hsmall
    obtain ⟨n, hrun, -⟩ := of_counting_ok hrun
    exact (h.step hrun hsmall).2

theorem Cleaning.start (hr : r.Intact) (hb : r.block? b ≠ none)
    : Cleaning b r (Direction.backward.along (r.insnsOf b)) 0 r := by
  refine ⟨hr, hb, Or.inl ⟨rfl, rfl⟩, [], ?_, ?_⟩
  . rw [Direction.joined_nil_along]
  . intro id hid
    cases hid

theorem removeDeadCode_cleans (hr : r.Intact) (hrun : removeDeadCode b r = .ok n r')
    (hsmall : r'.Small)
    : r.Cleans b r' ∧ ((n = 0 ∧ r' = r) ∨ (n ≠ 0 ∧ Relation.TransGen (Discards b) r r')) := by
  have hb := block?_of_sweepWith hrun
  have hholds := hr.arranged.holds_insnsOf hb
  have heq : sweepWith b .backward 0 (counting (eraseWhen isDead)) r = .ok n r' := hrun
  have hends := (cleaning_visits b r).ends hholds.lists (Cleaning.start hr hb)
    (by rwa [left_of_ok heq])
  rw [heq] at hends
  cases hends with
  | done h =>
    refine ⟨⟨h.discards, ?_⟩, h.steps⟩
    intro id hspent
    obtain ⟨kept, hlist, hkept⟩ := h.rest
    apply Classical.byContradiction
    intro hlive
    have hmem := (hspent.of_discards h.discards hlive).mem
    rw [hlist, Direction.mem_joined] at hmem
    rcases hmem with hmem | hmem
    . exact hkept id hmem hspent
    . cases hmem

theorem complete_cases {m : Nat} (hr : r.Intact) (hrun : complete b n debug r = .ok m r')
    (hsmall : r'.Small) : (n = 0 ∧ m = 0 ∧ r' = r) ∨ (n ≠ 0 ∧ m ≠ 0 ∧ r.Cleans b r') := by
  apply (complete_eq_ok hrun).imp_right
  rintro ⟨hn, -, k, rfl, hremove⟩
  exact ⟨hn, by omega, (removeDeadCode_cleans hr hremove hsmall).1⟩

end DeadCode

section Sweeps

variable {visit : InsnId → Edit Nat} {d : Direction}

def Visits.Reducing (visit : InsnId → Edit Nat) (b : BlockId) (d : Direction) : Prop :=
  ∀ {gone done todo : List InsnId} {id : InsnId} {r r' : Routine} {n : Nat}, r.Intact →
    r.insnsOf b = d.joined done (id :: todo) → (∀ j ∈ gone, r.Spent b j ∧ j ∈ done) →
    visit id r = .ok n r' → r'.Small →
      (n = 0 ∧ r' = r) ∨ (n ≠ 0 ∧ ∃ gone', Reduces b (gone, r) (gone', r') ∧ gone' ⊆ id :: gone)

structure Reducing (b : BlockId) (d : Direction) (start : Routine) (todo : List InsnId) (total : Nat)
    (r : Routine) : Prop where
  intact : r.Intact
  rest : ∃ done gone, r.insnsOf b = d.joined done todo ∧ (∀ j ∈ gone, r.Spent b j ∧ j ∈ done) ∧
    ((total = 0 ∧ gone = [] ∧ r = start) ∨
      (total ≠ 0 ∧ Relation.TransGen (Reduces b) ([], start) (gone, r)))

theorem Reducing.step {start : Routine} {todo : List InsnId} {total : Nat}
    (hvisit : Visits.Reducing visit b d) (hplaces : ∀ id, Within SamePlaces (visit id))
    (hkeeps : ∀ id, Within Keeps (visit id)) (h : Reducing b d start (id :: todo) total r)
    (hrun : visit id r = .ok n r') (hsmall : r'.Small)
    : Reducing b d start todo (total + n) r' := by
  obtain ⟨done, gone, hlist, hgone, hprogress⟩ := h.rest
  have hsame : r.SamePlaces r' := by
    have := hplaces id r
    rwa [left_of_ok hrun] at this
  have hkept : r.Keeps r' := by
    have := hkeeps id r
    rwa [left_of_ok hrun] at this
  refine ⟨⟨hkept.tracked hsmall h.intact.tracked, hsame.arranged h.intact.arranged, hsmall⟩,
    id :: done, ?_⟩
  have hlist' : r'.insnsOf b = d.joined (id :: done) todo := by
    rw [hsame.insnsOf h.intact.arranged, hlist, Direction.joined_cons]
  rcases hvisit h.intact hlist hgone hrun hsmall with ⟨rfl, rfl⟩ | ⟨hn, gone', hreduces, hsub⟩
  . refine ⟨gone, hlist', ?_, hprogress⟩
    intro j hj
    exact ⟨(hgone j hj).1, List.mem_cons_of_mem id (hgone j hj).2⟩
  . refine ⟨gone', hlist', ?_, Or.inr ⟨by omega, ?_⟩⟩
    . intro j hj
      refine ⟨hreduces.spent (fun j hj => (hgone j hj).1) j hj, ?_⟩
      rcases List.mem_cons.mp (hsub hj) with rfl | hj
      . exact List.mem_cons_self
      . exact List.mem_cons_of_mem id (hgone j hj).2
    . rcases hprogress with ⟨-, rfl, rfl⟩ | ⟨-, hchain⟩
      . exact .single hreduces
      . exact .tail hchain hreduces

theorem sweep_reduced (hvisit : Visits.Reducing visit b d)
    (hplaces : ∀ id, Within SamePlaces (visit id)) (hkeeps : ∀ id, Within Keeps (visit id))
    (hr : r.Intact) (hrun : (sweep b d visit >>= (complete b · debug)) r = .ok n r') (hsmall : r'.Small)
    : (n = 0 ∧ r' = r) ∨ (n ≠ 0 ∧ r.Reduced b r') := by
  obtain ⟨m, r₁, hsweep, hcomplete⟩ := of_bind_ok hrun
  have hsmall₁ : r₁.Small := by
    have := keeps_complete b m debug r₁
    rw [left_of_ok hcomplete] at this
    exact this.grows.small hsmall
  have hb := block?_of_sweepWith hsweep
  rw [sweep_eq_foldlM hplaces (hr.arranged.holds_insnsOf hb).lists] at hsweep
  have hends : Ends (counting visit) (Reducing b d r)
      ((d.along (r.insnsOf b)).foldlM (counting visit) 0 r) := by
    apply foldlM_ends (J := Small)
    . intro total id r hsmall
      exact (Within.counting hkeeps total id r).grows.small hsmall
    . intro id todo total r total' r' h hrun hsmall
      obtain ⟨n, hrun', rfl⟩ := of_counting_ok hrun
      exact h.step hvisit hplaces hkeeps hrun' hsmall
    . exact ⟨hr, [], [], by rw [Direction.joined_nil_along], by simp, Or.inl ⟨rfl, rfl, rfl⟩⟩
    . rwa [left_of_ok hsweep]
  rw [hsweep] at hends
  cases hends with
  | done h =>
    obtain ⟨done, gone, -, hgone, hprogress⟩ := h.rest
    rcases complete_cases h.intact hcomplete hsmall with ⟨hm, rfl, rfl⟩ | ⟨hm, hn, hcleans⟩
    . rcases hprogress with ⟨-, -, rfl⟩ | ⟨hm', -⟩
      . exact Or.inl ⟨rfl, rfl⟩
      . exact absurd hm hm'
    . rcases hprogress with ⟨hm', -, -⟩ | ⟨-, hchain⟩
      . exact absurd hm' hm
      . exact Or.inr ⟨hn, gone, r₁, hchain, fun j hj => (hgone j hj).1, hcleans⟩

theorem offers_of_reaches {gone : List InsnId} {i : Insn} {x : Operand} (hi : r.insn? id = some i)
    (hphi : i.opcode ≠ .phi) (hgone : ∀ j ∈ gone, r.Spent b j)
    (hx : x.isConst = true ∨ r.Reaches i x) : r.Offers b id x ∧ ∀ j ∈ gone, x ≠ .insn j := by
  have hreaches : ∀ j, x = .insn j → r.Precedes j id ∧ r.Used j := by
    rintro j rfl
    rcases hx with hx | hx
    . cases hx
    . exact hx.precedes hi hphi
  constructor
  . intro j hj
    exact ⟨(hreaches j hj).1, Or.inl (hreaches j hj).2⟩
  . intro j hj hxj
    exact (hgone j hj).free (hreaches j hxj).2

theorem reduces_of_replaceUses {gone : List InsnId} {i : Insn} {x : Operand} (hr : r.Intact)
    (hid : id ∈ r.insnsOf b) (hnew : id ∉ gone) (hi : r.insn? id = some i)
    (hpure : i.opcode.hasSideEffect = false)
    (hx : r.Offers b id x ∧ ∀ j ∈ gone, x ≠ .insn j) (hself : x ≠ .insn id)
    (hrun : replaceUses (.insn id) x r = .ok n r') : Reduces b (gone, r) (id :: gone, r') := by
  rcases replaced_of_ok hr.tracked hr.small hrun with ⟨heq, -⟩ | ⟨-, -, -, hreplaced⟩
  . exact absurd heq hself
  . exact .replace hr hid hnew (code?_of_insn? hi) hpure hx.1 hx.2 hself hreplaced

theorem visited {gone done todo : List InsnId} (hr : r.Intact)
    (hlist : r.insnsOf b = d.joined done (id :: todo)) (hgone : ∀ j ∈ gone, r.Spent b j ∧ j ∈ done)
    : id ∈ r.insnsOf b ∧ id ∉ gone ∧ ∃ i, r.insn? id = some i ∧ knownInsn id r = .ok i r := by
  have hid : id ∈ r.insnsOf b := by
    rw [hlist, Direction.mem_joined]
    exact Or.inr List.mem_cons_self
  refine ⟨hid, ?_, ?_⟩
  . intro hmem
    have hnodup := hr.arranged.nodup_insnsOf b
    rw [hlist] at hnodup
    exact Direction.not_mem_of_nodup_joined hnodup (hgone id hmem).2
  . obtain ⟨i, hi, -⟩ := hr.arranged.mem_insnsOf.mp hid
    exact ⟨i, hi, by simp [knownInsn, hi]⟩

end Sweeps

section ConstantFolding

theorem fold?_eq_some {i : Insn} {x : Operand} (h : i.fold? id = some x)
    : x ≠ .insn id ∧ i.opcode ≠ .phi ∧ i.opcode.hasSideEffect = false ∧
        (x.isConst = true ∨ x ∈ i.operands) := by
  unfold Insn.fold? at h
  split at h
  . next hopcode =>
    rw [Option.filter_eq_some_iff] at h
    obtain ⟨harm, hne⟩ := h
    unfold Insn.chosenArm? at harm
    simp only [Option.bind_eq_bind, Option.bind_eq_some_iff] at harm
    obtain ⟨c, -, arm, -, harm⟩ := harm
    exact ⟨by simpa using hne, hopcode ▸ by decide, hopcode ▸ rfl, Or.inr (Insn.mem_operands harm)⟩
  . obtain ⟨c, hc, rfl⟩ := Option.map_eq_some_iff.mp h
    have hevaluate := (Option.filter_eq_some_iff.mp hc).1
    refine ⟨nofun, ?_, ?_, Or.inl rfl⟩
    . intro hopcode
      simp [Insn.evaluate?, hopcode] at hevaluate
    . unfold Insn.evaluate? at hevaluate
      split at hevaluate
      all_goals first | next hopcode => exact hopcode ▸ rfl | cases hevaluate

theorem foldInsn_reducing : Visits.Reducing foldInsn b d := by
  intro gone done todo id r r' n hr hlist hgone hrun hsmall
  obtain ⟨hid, hnew, i, hi, hknown⟩ := visited hr hlist hgone
  unfold foldInsn at hrun
  rw [bind_of_ok hknown] at hrun
  cases hfold : i.fold? id with
  | none =>
    rw [hfold] at hrun
    cases hrun
    exact Or.inl ⟨rfl, rfl⟩
  | some x =>
    rw [hfold] at hrun
    obtain ⟨m, r₁, hreplace, hend⟩ := of_bind_ok hrun
    cases hend
    obtain ⟨hself, hphi, hpure, hx⟩ := fold?_eq_some hfold
    have hoffers := offers_of_reaches hi hphi (fun j hj => (hgone j hj).1) (hx.imp_right Or.inl)
    refine Or.inr ⟨by omega, id :: gone, ?_, List.Subset.refl _⟩
    exact reduces_of_replaceUses hr hid hnew hi hpure hoffers hself hreplace

end ConstantFolding

section Deduplication

theorem mem_of_duplicateAmong? {earlier : InsnId} {constant : Bool} {candidates : List InsnId}
    (h : r.duplicateAmong? id constant candidates = some earlier) : earlier ∈ candidates := by
  induction candidates with
  | nil => cases h
  | cons candidate rest ih =>
    unfold duplicateAmong? at h
    split at h
    . cases h
      exact List.mem_cons_self
    . split at h
      . cases h
      . exact List.mem_cons_of_mem candidate (ih h)

theorem duplicate?_eq {front back : List InsnId} (hlists : r.Lists b (front ++ id :: back))
    : r.duplicate? id =
        (r.code? id).bind fun i => r.duplicateAmong? id i.opcode.isConstant front.reverse := by
  unfold duplicate? code?
  rw [Cursor.insnsBefore_eq hlists, Option.bind_map]
  rfl

theorem duplicate?_eq_some {earlier : InsnId} {i : Insn} {front back : List InsnId}
    (hlists : r.Lists b (front ++ id :: back)) (hi : r.insn? id = some i)
    (h : r.duplicate? id = some earlier)
    : earlier ∈ front ∧ earlier ≠ id ∧ i.opcode.hasSideEffect = false := by
  have hmem : earlier ∈ front := by
    rw [duplicate?_eq hlists, Option.bind_eq_some_iff] at h
    obtain ⟨found, -, hamong⟩ := h
    exact List.mem_reverse.mp (mem_of_duplicateAmong? hamong)
  have hne : earlier ≠ id := by
    rintro rfl
    have hnodup := List.nodup_append.mp hlists.chain.nodup
    exact hnodup.2.2 earlier hmem earlier List.mem_cons_self rfl
  refine ⟨hmem, hne, ?_⟩
  have halike := identicalValues_iff.mp (identicalValues_of_duplicate? h)
  rcases halike.cases with heq | hpair | ⟨-, p, q, found, j, hp, -, hfound, -, hshape, -⟩
  . cases heq
    exact absurd rfl hne
  . cases hpair
  . cases hp
    rw [hi] at hfound
    cases hfound
    simp only [Insn.sameShape, Bool.and_eq_true, Bool.not_eq_true'] at hshape
    exact hshape.1.2

theorem mergeInsn_reducing : Visits.Reducing mergeInsn b .backward := by
  intro gone done todo id r r' n hr hlist hgone hrun hsmall
  obtain ⟨hid, hnew, i, hi, hknown⟩ := visited hr hlist hgone
  unfold mergeInsn at hrun
  rw [bind_of_ok hknown] at hrun
  split at hrun
  . cases hrun
    exact Or.inl ⟨rfl, rfl⟩
  . rw [get_bind_run] at hrun
    cases hduplicate : r.duplicate? id with
    | none =>
      rw [hduplicate] at hrun
      cases hrun
      exact Or.inl ⟨rfl, rfl⟩
    | some earlier =>
      rw [hduplicate] at hrun
      obtain ⟨m, r₁, hreplace, hend⟩ := of_bind_ok hrun
      cases hend
      have hsplit : r.insnsOf b = todo.reverse ++ id :: done := by
        rw [hlist, Direction.joined_cons]
        rfl
      have hlists : r.Lists b (r.insnsOf b) := by
        obtain ⟨found, hfound, hblock⟩ := hr.arranged.mem_insnsOf.mp hid
        exact (hr.arranged.holds_insnsOf (block?_ne_none_iff.mp
          (hr.arranged.home b id _ (neighbours?_of_insn? hfound hblock)))).lists
      rw [hsplit] at hlists
      obtain ⟨hmem, hne, hpure⟩ := duplicate?_eq_some hlists hi hduplicate
      obtain ⟨front, mid, hfront⟩ := List.append_of_mem hmem
      have hearlier : r.insnsOf b = front ++ earlier :: (mid ++ id :: done) := by
        rw [hsplit, hfront, List.append_assoc]
        rfl
      refine Or.inr ⟨by omega, id :: gone, ?_, List.Subset.refl _⟩
      refine reduces_of_replaceUses hr hid hnew hi hpure ⟨?_, ?_⟩ ?_ hreplace
      . rintro j heq
        cases heq
        exact ⟨.single (.listed hearlier), Or.inr (by simp [hearlier])⟩
      . rintro j hj heq
        cases heq
        -- What has been replaced stands behind the instruction.
        have hnodup := hr.arranged.nodup_insnsOf b
        rw [hsplit] at hnodup
        exact (List.nodup_append.mp hnodup).2.2 _ hmem _
          (List.mem_cons_of_mem id (hgone _ hj).2) rfl
      . intro heq
        cases heq
        exact hne rfl

end Deduplication

section Peephole

theorem combineInsn_reducing : Visits.Reducing combineInsn b d := by
  intro gone done todo id r r' n hr hlist hgone hrun hsmall
  obtain ⟨hid, hnew, i, hi, hknown⟩ := visited hr hlist hgone
  unfold combineInsn at hrun
  rw [get_bind_run, bind_of_ok hknown] at hrun
  cases hcombine : r.combine? i with
  | none =>
    rw [hcombine] at hrun
    cases hrun
    exact Or.inl ⟨rfl, rfl⟩
  | some s =>
    rw [hcombine] at hrun
    change simplify id s r = .ok n r' at hrun
    have hrule := Rule.of_combine? hcombine
    obtain ⟨hphi, hpure⟩ := hrule.opcode
    have hadmissible := hrule.admissible hr.tracked.owns hi
    -- A rule either replaces the instruction or rewires it. Only in the first case does it go.
    cases s with
    | replace x =>
      simp only [simplify] at hrun
      split at hrun
      . cases hrun
        exact Or.inl ⟨rfl, rfl⟩
      . next hself =>
        obtain ⟨m, r₁, hreplace, hend⟩ := of_bind_ok hrun
        cases hend
        have hoffers := offers_of_reaches hi hphi (fun j hj => (hgone j hj).1)
          (hrule.reaches (List.mem_singleton.mpr rfl))
        refine Or.inr ⟨by omega, id :: gone, ?_, List.Subset.refl _⟩
        exact reduces_of_replaceUses hr hid hnew hi hpure hoffers hself hreplace
    | operands k x m y =>
      obtain ⟨hne, hk, hm, hx, hy⟩ := hadmissible
      obtain ⟨r₁, hrun₁, hbare⟩ := simplify_operands_run hr.tracked.owns hi hne hk hm hx hy
      rw [hrun₁] at hrun
      cases hrun
      refine Or.inr ⟨by omega, gone, .rewire hr hid hi hrule (by simp) ?_, List.subset_cons_self _ _⟩
      rw [hbare]
      exact (bare_modifyInsn (Simplification.bare_applied _) id).symm
    | source t x =>
      obtain ⟨h0, hx⟩ := hadmissible
      obtain ⟨r₁, hrun₁, hbare⟩ := simplify_source_run hr.tracked.owns hi h0 hx t
      rw [hrun₁] at hrun
      cases hrun
      refine Or.inr ⟨by omega, gone, .rewire hr hid hi hrule (by simp) ?_, List.subset_cons_self _ _⟩
      rw [hbare]
      exact (bare_modifyInsn (Simplification.bare_applied _) id).symm

end Peephole

section LoadResolution

theorem replaceFrom_eq_zero {v : ValueId} {x : Operand} {fuel : Nat} {use : Option UseId}
    (h : replaceFrom v x fuel use r = .ok 0 r') : r' = r := by
  unfold replaceFrom at h
  split at h
  . next fuel use =>
    rw [get_bind_run] at h
    cases hu : r.uses.get? use with
    | none =>
      rw [hu] at h
      cases h
    | some u =>
      rw [hu] at h
      obtain ⟨-, r₁, -, hrest⟩ := of_bind_ok h
      obtain ⟨m, r₂, -, hend⟩ := of_bind_ok hrest
      cases hend
  . cases h
    rfl

theorem replaceUses_eq_zero {v : ValueId} {x : Operand} (h : replaceUses v x r = .ok 0 r')
    : r' = r := by
  unfold replaceUses at h
  split at h
  . cases h
    rfl
  . obtain ⟨u, r₁, hlive, hrest⟩ := of_bind_ok h
    have hr₁ : r₁ = r := by rw [← left_of_ok hlive, left_requireLive]
    subst hr₁
    rw [get_bind_run] at hrest
    cases hl : r₁.useList? v with
    | none =>
      rw [hl] at hrest
      cases hrest
    | some l =>
      rw [hl] at hrest
      exact replaceFrom_eq_zero hrest

theorem resolveLoad_reducing (image : Image) : Visits.Reducing (resolveLoad image) b d := by
  intro gone done todo id r r' n hr hlist hgone hrun hsmall
  obtain ⟨hid, hnew, i, hi, hknown⟩ := visited hr hlist hgone
  unfold resolveLoad at hrun
  rw [bind_of_ok hknown, get_bind_run] at hrun
  cases hread : i.loadAddress?.bind (r.readConstant? image i.ty) with
  | none =>
    rw [hread] at hrun
    cases hrun
    exact Or.inl ⟨rfl, rfl⟩
  | some c =>
    rw [hread] at hrun
    change replaceUses (.insn id) (.const c) r = .ok n r' at hrun
    by_cases hn : n = 0
    . subst hn
      exact Or.inl ⟨rfl, replaceUses_eq_zero hrun⟩
    . obtain ⟨address, haddress, -⟩ := Option.bind_eq_some_iff.mp hread
      have hopcode := opcode_of_loadAddress? haddress
      refine Or.inr ⟨hn, id :: gone, ?_, List.Subset.refl _⟩
      refine reduces_of_replaceUses hr hid hnew hi (hopcode ▸ rfl) ⟨?_, ?_⟩ ?_ hrun
      . exact nofun
      . exact nofun
      . exact nofun

end LoadResolution

section Passes

theorem foldConstants_reduced (hr : r.Intact) (hrun : foldConstants b debug r = .ok n r')
    (hsmall : r'.Small) : (n = 0 ∧ r' = r) ∨ (n ≠ 0 ∧ r.Reduced b r') :=
  sweep_reduced foldInsn_reducing coversInPlace_samePlaces.foldInsn covers_keeps.foldInsn hr hrun
    hsmall

theorem deduplicate_reduced (hr : r.Intact) (hrun : deduplicate b debug r = .ok n r')
    (hsmall : r'.Small) : (n = 0 ∧ r' = r) ∨ (n ≠ 0 ∧ r.Reduced b r') :=
  sweep_reduced mergeInsn_reducing coversInPlace_samePlaces.mergeInsn covers_keeps.mergeInsn hr hrun
    hsmall

theorem combine_reduced (hr : r.Intact) (hrun : combine b debug r = .ok n r')
    (hsmall : r'.Small) : (n = 0 ∧ r' = r) ∨ (n ≠ 0 ∧ r.Reduced b r') :=
  sweep_reduced combineInsn_reducing coversInPlace_samePlaces.combineInsn covers_keeps.combineInsn
    hr hrun hsmall

theorem resolveLoads_reduced (hr : r.Intact) (hrun : resolveLoads b debug r = .ok n r')
    (hsmall : r'.Small) : (n = 0 ∧ r' = r) ∨ (n ≠ 0 ∧ r.Reduced b r') := by
  cases himage : r.image with
  | none =>
    rw [resolveLoads_of_no_image himage] at hrun
    cases hrun
    exact Or.inl ⟨rfl, rfl⟩
  | some image =>
    rw [resolveLoads_of_image himage] at hrun
    exact sweep_reduced (resolveLoad_reducing image) (coversInPlace_samePlaces.resolveLoad image)
      (covers_keeps.resolveLoad image) hr hrun hsmall

end Passes

end Edit

end MachineIR
