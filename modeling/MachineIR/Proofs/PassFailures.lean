import MachineIR.Proofs.Destruction
import MachineIR.Proofs.Loops

/-!
This module contains how passes can fail. Whatever a visit looks at is live, the loops it starts come
to their end and its edits succeed, because the uses of the routine are tracked and its instructions
are in their places; so a pass fails only if the check at its end does. The one exception is an
overwritten write that something refers to: it cannot be erased.
-/

namespace MachineIR

namespace Routine

variable {r : Routine} {id : InsnId} {i : Insn} {x : Operand} {b : BlockId} {e : Error}

theorem Tracks.admits_operand (h : r.Tracked) (hi : r.insn? id = some i) (hx : x ∈ i.operands)
    : r.Admits x := by
  rintro v rfl
  have hv := h.contains_of_refers ⟨i.code, code?_of_insn? hi, hx⟩
  rwa [contains_eq, Option.isSome_iff_exists] at hv

theorem admits_insn (hi : r.insn? id = some i) : r.Admits (.insn id) := by
  rintro v heq
  cases heq
  exact ⟨i.uses, by simp [useList?, hi]⟩

theorem Arranged.checkBlock_eq_error (h : r.Arranged) (hb : r.block? b ≠ none)
    (he : r.checkBlock b = .error e) : ∃ id ∈ r.insnsOf b, r.checkInsn id = .error e := by
  rcases Check.seq_eq_error.mp he with hlinks | ⟨-, hinsns⟩
  . rw [checkLinks_eq_ok.mpr ⟨_, (h.holds_insnsOf hb).lists⟩] at hlinks
    cases hlinks
  . exact Check.forM_eq_error hinsns

theorem checkConstants_ne_stale (ks : List Nat) (v : ValueId)
    : r.checkConstants id i ks ≠ .error (.stale v) := by
  induction ks with
  | nil =>
    intro h
    cases h
  | cons k rest ih =>
    unfold checkConstants
    split
    . intro h
      cases h
    . exact ih

theorem checkInsn_ne_stale (v : ValueId) : r.checkInsn id ≠ .error (.stale v) := by
  unfold checkInsn
  split
  . nofun
  . next i hi =>
    intro h
    dsimp only at h
    split at h
    . cases h
    . rcases Check.seq_eq_error.mp h with htypes | ⟨-, hconstants⟩
      . obtain ⟨k, x, t, -, -, -, heq⟩ := checkTypes_eq_error htypes
        cases heq
      . exact checkConstants_ne_stale _ v hconstants

end Routine

namespace Edit

open Routine

variable {r r' : Routine} {b : BlockId} {debug : Bool} {id : InsnId} {i : Insn}

section Visits

theorem replaceInsn_run {x : Operand} (hr : r.Intact) (hi : r.insn? id = some i) (hx : r.Admits x)
    (hne : x ≠ .insn id) : ∃ n r', replaceUses (.insn id) x r = .ok n r' ∧ Replaced r r' (.insn id) x := by
  have hlive : r.contains (.insn id) = true := by simp [contains, hi]
  obtain ⟨r', hrun, hreplaced⟩ := replaceUses_run hr.tracked hr.small hlive hx hne
  exact ⟨_, r', hrun, hreplaced⟩

theorem foldInsn_run (hr : r.Intact) (hi : r.insn? id = some i)
    : ∃ n r', foldInsn id r = .ok n r' ∧
        (r' = r ∨ ∃ x, i.fold? id = some x ∧ Replaced r r' (.insn id) x) := by
  unfold foldInsn
  rw [bind_of_ok (knownInsn_run hi)]
  cases hfold : i.fold? id with
  | none => exact ⟨0, r, rfl, Or.inl rfl⟩
  | some x =>
    obtain ⟨hne, -, -, hx⟩ := fold?_eq_some hfold
    have hadmits : r.Admits x := by
      rcases hx with hconst | hx
      . rintro v rfl
        cases hconst
      . exact hr.tracked.admits_operand hi hx
    obtain ⟨n, r', hrun, hreplaced⟩ := replaceInsn_run hr hi hadmits hne
    refine ⟨1 + n, r', ?_, Or.inr ⟨x, rfl, hreplaced⟩⟩
    dsimp only
    rw [bind_of_ok hrun, pure_run]

theorem mergeInsn_run (hr : r.Intact) (hi : r.insn? id = some i)
    : ∃ n r', mergeInsn id r = .ok n r' ∧
        ((r' = r ∧ (i.uses.len = 0 ∨ r.duplicate? id = none)) ∨
          ∃ earlier, r.duplicate? id = some earlier ∧ Replaced r r' (.insn id) (.insn earlier)) := by
  unfold mergeInsn
  rw [bind_of_ok (knownInsn_run hi)]
  split
  . next hlen => exact ⟨0, r, rfl, Or.inl ⟨rfl, Or.inl hlen⟩⟩
  . rw [get_bind_run]
    cases hduplicate : r.duplicate? id with
    | none => exact ⟨0, r, rfl, Or.inl ⟨rfl, Or.inr rfl⟩⟩
    | some earlier =>
      obtain ⟨front, back, hholds, -⟩ := hr.arranged.holds_block hi
      obtain ⟨hmem, hne, -⟩ := duplicate?_eq_some hholds.lists hi hduplicate
      obtain ⟨k, hk, -⟩ := hholds.mem_iff.mp (List.mem_append_left (id :: back) hmem)
      have hself : Operand.insn earlier ≠ .insn id := by
        intro heq
        cases heq
        exact hne rfl
      obtain ⟨n, r', hrun, hreplaced⟩ := replaceInsn_run hr hi (admits_insn hk) hself
      refine ⟨1 + n, r', ?_, Or.inr ⟨earlier, rfl, hreplaced⟩⟩
      dsimp only
      rw [bind_of_ok hrun, pure_run]

theorem resolveLoad_run (image : Image) (hr : r.Intact) (hi : r.insn? id = some i)
    : ∃ n r', resolveLoad image id r = .ok n r' ∧ (r' = r ∨
        ∃ a c, i.loadAddress? = some a ∧ r.readConstant? image i.ty a = some c ∧
          Replaced r r' (.insn id) (.const c)) := by
  unfold resolveLoad
  rw [bind_of_ok (knownInsn_run hi), get_bind_run]
  cases hread : i.loadAddress?.bind (r.readConstant? image i.ty) with
  | none => exact ⟨0, r, rfl, Or.inl rfl⟩
  | some c =>
    obtain ⟨a, ha, hc⟩ := Option.bind_eq_some_iff.mp hread
    obtain ⟨n, r', hrun, hreplaced⟩ := replaceInsn_run hr hi (admits_const r c) nofun
    exact ⟨n, r', hrun, Or.inr ⟨a, c, ha, hc, hreplaced⟩⟩

theorem combineInsn_succeeds (hr : r.Intact) (hi : r.insn? id = some i)
    : ∃ n r', combineInsn id r = .ok n r' := by
  unfold combineInsn
  rw [get_bind_run, bind_of_ok (knownInsn_run hi)]
  cases hs : r.combine? i with
  | none => exact ⟨0, r, rfl⟩
  | some s =>
    have hrule := Rule.of_combine? hs
    obtain ⟨n, r', hrun, -⟩ :=
      simplify_run (hrule.admissible hr.tracked.owns hi) hr.tracked hr.small hi
    exact ⟨n, r', hrun⟩

theorem eraseWhen_succeeds (hr : r.Intact) (hid : id ∈ r.insnsOf b)
    : ∃ n r', eraseWhen isDead id r = .ok n r' := by
  unfold eraseWhen
  rw [get_bind_run]
  split
  . next hdead =>
    have hspent := (isDead_iff hr hid).mp hdead
    rcases settles_erase hr.tracked id with ⟨-, u, r', hrun⟩ | ⟨hnot, -⟩
    . exact ⟨1, r', bind_of_ok hrun⟩
    . obtain ⟨i, hi, -⟩ := hr.arranged.mem_insnsOf.mp hid
      exact (hnot ⟨by simp [hi], fun j hj => (hspent.free ⟨j, hj⟩).elim⟩).elim
  . exact ⟨0, r, rfl⟩

end Visits

section Registers

variable {known : Producers} {n : Nat} {todo : List InsnId} {x : Register} {p : Producer}
  {y : Operand} {t t' : Ty}

theorem retireRead_succeeds (hr : r.Intact) (hi : r.insn? id = some i) (hy : r.Admits y)
    : ∃ n r', (do
        let n ← replaceUses (.insn id) y
        setOpcode id .nop
        return 1 + n : Edit Nat) r = .ok n r' := by
  have hreplace : ∃ m r₁, replaceUses (.insn id) y r = .ok m r₁ ∧ r₁.insn? id ≠ none := by
    by_cases hself : y = .insn id
    . refine ⟨0, r, ?_, by simp [hi]⟩
      unfold replaceUses
      rw [if_pos hself]
      rfl
    . obtain ⟨m, r₁, hrun, hreplaced⟩ := replaceInsn_run hr hi hy hself
      refine ⟨m, r₁, hrun, ?_⟩
      rw [ne_eq, ← code?_eq_none_iff, hreplaced.code, code?_of_insn? hi]
      nofun
  obtain ⟨m, r₁, hrun, hlive⟩ := hreplace
  rcases settles_setOpcode id .nop r₁ with ⟨-, u, r₂, hset⟩ | ⟨hnot, -⟩
  . exact ⟨1 + m, r₂, by rw [bind_of_ok hrun, bind_of_ok hset, pure_run]⟩
  . exact (hnot hlive).elim

theorem castRead_succeeds (hr : r.Intact) (hi : r.insn? id = some i) (hy : r.Admits y)
    (hsmall : (left (do
      let c ← insertBefore id (.bitcast t t' y)
      return 1 + (← replaceUses (.insn id) (.insn c)) : Edit Nat) r).Small)
    : ∃ n r', (do
        let c ← insertBefore id (.bitcast t t' y)
        return 1 + (← replaceUses (.insn id) (.insn c)) : Edit Nat) r = .ok n r' := by
  have hinsert : ∃ c r₁, insertBefore id (.bitcast t t' y) r = .ok c r₁ := by
    rcases settles_insertBefore id (.bitcast t t' y) r with ⟨-, c, r₁, hrun⟩ | ⟨hnot, -⟩
    . exact ⟨c, r₁, hrun⟩
    . refine (hnot ⟨by simp [hi], ?_⟩).elim
      intro z hz
      rw [List.mem_singleton.mp hz]
      exact hy
  obtain ⟨c, r₁, hrun⟩ := hinsert
  have hgrows : ∀ c, Within Grows (do
      return 1 + (← replaceUses (.insn id) (.insn c)) : Edit Nat) := fun c =>
    Within.bind ((keeps_replaceUses _ _).mono fun _ _ h => h.grows) fun _ => Within.pure _
  have hsmall₁ := (Within.left_bind hgrows (insertBefore id (.bitcast t t' y)) r).small hsmall
  rw [left_of_ok hrun] at hsmall₁
  have hr₁ := hr.of_ok (keeps_insertBefore _ _) (arranges_insertBefore _ _) hrun hsmall₁
  have hinserted := inserted_of_ok hsmall₁ hrun
  obtain ⟨ip, hcode⟩ := hinserted.code
  have hid : r₁.code? id = some i.code := by
    rw [hcode, if_neg (hinserted.ne (code?_of_insn? hi)), code?_of_insn? hi]
  obtain ⟨k, hk, -⟩ := exists_insn?_of_code? hid
  obtain ⟨k', hk', -⟩ := exists_insn?_of_code? ((hcode c).trans (if_pos rfl))
  have hself : Operand.insn c ≠ .insn id := by
    intro heq
    cases heq
    exact hinserted.ne (code?_of_insn? hi) rfl
  obtain ⟨n, r₂, hreplace, -⟩ := replaceInsn_run hr₁ hk (admits_insn hk') hself
  exact ⟨1 + n, r₂, by rw [bind_of_ok hrun, bind_of_ok hreplace, pure_run]⟩

theorem forwardRead_succeeds (hr : r.Intact) (hi : r.insn? id = some i)
    (hp : r.insn? p.insn ≠ none) (hsmall : (left (forwardRead id p) r).Small)
    : ∃ n r', forwardRead id p r = .ok n r' := by
  obtain ⟨k, hk⟩ := Option.ne_none_iff_exists'.mp hp
  have hcontent : content? p r = .ok (r.content? p) r :=
    content?_of_live (by simp [code?_of_insn? hk])
  unfold forwardRead at hsmall ⊢
  rw [left_bind_of_ok hcontent] at hsmall
  rw [bind_of_ok hcontent]
  cases hc : r.content? p with
  | none => exact ⟨0, r, rfl⟩
  | some content =>
    obtain ⟨y, t⟩ := content
    have hy : r.Admits y := by
      obtain ⟨c, hcode, ⟨-, hy, -⟩ | ⟨-, rfl, -⟩⟩ := content?_eq_some.mp hc
      . rw [code?_of_insn? hk] at hcode
        cases hcode
        exact hr.tracked.admits_operand hk (List.mem_of_getElem? hy)
      . exact admits_insn hk
    rw [hc] at hsmall
    dsimp only at hsmall ⊢
    rw [left_bind_of_ok (knownInsn_run hi)] at hsmall
    rw [bind_of_ok (knownInsn_run hi)]
    by_cases hty : t = i.ty
    . rw [if_pos hty]
      exact retireRead_succeeds hr hi hy
    . rw [if_neg hty] at hsmall ⊢
      exact castRead_succeeds hr hi hy hsmall

theorem visitRead_succeeds (hr : r.Intact) (hi : r.insn? id = some i)
    (hp : ∀ p, known.lookup x = some p → r.insn? p.insn ≠ none)
    (hsmall : (left (visitRead known n id x) r).Small)
    : ∃ s r', visitRead known n id x r = .ok s r' := by
  unfold visitRead at hsmall ⊢
  cases hknown : known.lookup x with
  | none => exact ⟨_, r, rfl⟩
  | some p =>
    simp only [hknown, left_bind_pure] at hsmall
    obtain ⟨m, r', hrun⟩ := forwardRead_succeeds hr hi (hp p hknown) hsmall
    exact ⟨_, r', bind_of_ok hrun⟩

theorem visitWrite_ends (hr : r.Intact) (hp : ∀ p, known.lookup x = some p → r.insn? p.insn ≠ none)
    : (∃ s r', visitWrite known n id x r = .ok s r') ∨
        ∃ p, known.lookup x = some ⟨p, true⟩ ∧ (∃ j, r.Refers j (.insn p) ∧ j ≠ p) ∧
          visitWrite known n id x r =
            .error (.lingeringUses (.insn p) (obstacles r p).length) r := by
  unfold visitWrite
  cases hknown : known.lookup x with
  | none => exact Or.inl ⟨_, r, rfl⟩
  | some p =>
    obtain ⟨i, hi⟩ := Option.ne_none_iff_exists'.mp (hp p hknown)
    obtain ⟨p, isWrite⟩ := p
    cases isWrite with
    | false => exact Or.inl ⟨_, r, rfl⟩
    | true =>
      by_cases hnone : obstacles r p = []
      . have hfree := (obstacles_eq_nil_iff hr.small).mp hnone
        rcases settles_erase hr.tracked p with ⟨-, u, r', hrun⟩ | ⟨hnot, -⟩
        . exact Or.inl ⟨_, r', bind_of_ok hrun⟩
        . exact (hnot ⟨by simp [hi], hfree⟩).elim
      . have hrefers : ∃ j, r.Refers j (.insn p) ∧ j ≠ p := by
          rw [obstacles_eq_nil_iff hr.small] at hnone
          simpa using hnone
        exact Or.inr ⟨p, rfl, hrefers,
          bind_of_error (erase_of_obstacles hr.tracked hr.small hi hnone)⟩

theorem visitRegister_cases (hi : r.insn? id = some i)
    : (∃ x, visitRegister (known, n) id r = visitWrite known n id x r) ∨
        (∃ x, visitRegister (known, n) id r = visitRead known n id x r) ∨
        ∃ known', visitRegister (known, n) id r = .ok (known', n) r := by
  unfold visitRegister
  rw [bind_of_ok (knownInsn_run hi)]
  cases (i.operand? 0).bind Operand.reg? with
  | none => cases i.opcode <;> exact Or.inr (Or.inr ⟨_, rfl⟩)
  | some x =>
    cases i.opcode with
    | writeReg => exact Or.inl ⟨x, rfl⟩
    | readReg => exact Or.inr (Or.inl ⟨x, rfl⟩)
    | _ => exact Or.inr (Or.inr ⟨_, rfl⟩)

theorem visitRegister_run (h : Scanned b known (id :: todo) r)
    (hsmall : (left (visitRegister (known, n) id) r).Small)
    : (∃ s r', visitRegister (known, n) id r = .ok s r') ∨
        ∃ p x, r.Writes p x ∧ (∃ j, r.Refers j (.insn p) ∧ j ≠ p) ∧
          visitRegister (known, n) id r =
            .error (.lingeringUses (.insn p) (obstacles r p).length) r := by
  obtain ⟨front, hlist, hknown⟩ := h.rest
  obtain ⟨i, hi⟩ := h.visited
  unfold left at hsmall
  rcases visitRegister_cases hi with ⟨x, heq⟩ | ⟨x, heq⟩ | ⟨known', heq⟩
  . rw [heq]
    rcases visitWrite_ends h.intact (fun p => h.producer) with hok | ⟨p, hlookup, hrefers, herror⟩
    . exact Or.inl hok
    . exact Or.inr ⟨p, x, (hknown x _ hlookup).2, hrefers, herror⟩
  . rw [heq] at hsmall ⊢
    exact Or.inl (visitRead_succeeds h.intact hi (fun p => h.producer) hsmall)
  . exact Or.inl ⟨_, r, heq⟩

end Registers

section Completion

variable {σ : Type} {visit : σ → InsnId → Edit σ} {P : σ → InsnId → Routine → Prop}
  {d : Direction} {s s' : σ}

def Present {σ : Type} (_ : σ) (id : InsnId) (r : Routine) : Prop := r.insn? id ≠ none

theorem removeDeadCode_loop (hr : r.Intact) (hb : r.block? b ≠ none)
    (hsmall : (left (removeDeadCode b) r).Small)
    : ∃ n r', removeDeadCode b r = .ok n r' ∧
        Loop (counting (eraseWhen isDead)) Present { block := b, direction := .backward } 0 r
          (.ok n r') := by
  have hlists := (hr.arranged.holds_insnsOf hb).lists
  have hmem : ∀ {id todo total r'}, Cleaning b r (id :: todo) total r' → id ∈ r'.insnsOf b := by
    intro id todo total r' h
    obtain ⟨kept, hlist, -⟩ := h.rest
    rw [hlist, Direction.mem_joined]
    exact Or.inr List.mem_cons_self
  have hends := (cleaning_visits b r).ends hlists (Cleaning.start hr hb) hsmall
  have hloop := (cleaning_visits b r).loop_sweepWith (P := Present)
    (fun {id todo total r'} h => by
      obtain ⟨i, hi, -⟩ := h.intact.arranged.mem_insnsOf.mp (hmem h)
      simp [Present, hi])
    hlists (Cleaning.start hr hb) hsmall
  change ∃ n r', sweepWith b .backward 0 (counting (eraseWhen isDead)) r = .ok n r' ∧ _
  generalize sweepWith b .backward 0 (counting (eraseWhen isDead)) r = result at hends hloop ⊢
  cases hends with
  | done h => exact ⟨_, _, rfl, hloop⟩
  | failed h hrun =>
    obtain ⟨m, r₁, hok⟩ := eraseWhen_succeeds h.intact (hmem h)
    rw [counting_of_ok hok] at hrun
    cases hrun

/--
How a pass goes if nothing bounds its loops: it visits the instructions of a block, and if it has
counted changes, it checks the block in a debug build and removes dead code.
-/
inductive Runs (visit : σ → InsnId → Edit σ) (P : σ → InsnId → Routine → Prop) (count : σ → Nat)
    (b : BlockId) (debug : Bool) (d : Direction) (s : σ) (r : Routine)
    : EStateM.Result Error Routine Nat → Prop
  | failed {e : Error} {r' : Routine}
    (h : Loop visit P { block := b, direction := d } s r (.error e r'))
    : Runs visit P count b debug d s r (.error e r')
  | idle {s' : σ} {r' : Routine} (h : Loop visit P { block := b, direction := d } s r (.ok s' r'))
    (hcount : count s' = 0) : Runs visit P count b debug d s r (.ok 0 r')
  | refused {s' : σ} {r' : Routine} {e : Error}
    (h : Loop visit P { block := b, direction := d } s r (.ok s' r')) (hcount : count s' ≠ 0)
    (hdebug : debug = true) (hcheck : r'.checkBlock b = .error e)
    : Runs visit P count b debug d s r (.error e r')
  | cleaned {s' : σ} {r₁ r' : Routine} {n : Nat}
    (h : Loop visit P { block := b, direction := d } s r (.ok s' r₁)) (hcount : count s' ≠ 0)
    (hcheck : debug = true → r₁.checkBlock b = .ok ())
    (hclean : Loop (counting (eraseWhen isDead)) Present { block := b, direction := .backward } 0 r₁
      (.ok n r')) : Runs visit P count b debug d s r (.ok (count s' + n) r')

def FailsAtCheck (b : BlockId) (debug : Bool) (result : EStateM.Result Error Routine Nat) : Prop :=
  ∀ e r, result = .error e r →
    debug = true ∧ (∃ id ∈ r.insnsOf b, r.checkInsn id = .error e) ∧ ∀ v, e ≠ .stale v

theorem failsAtCheck_ok (b : BlockId) (debug : Bool) (n : Nat) (r : Routine)
    : FailsAtCheck b debug (.ok n r) := by
  intro e r' heq
  cases heq

theorem complete_ends (count : σ → Nat) {r₁ : Routine}
    (h : Loop visit P { block := b, direction := d } s r (.ok s' r₁)) (hr₁ : r₁.Intact)
    (hb : r₁.block? b ≠ none) (hsmall : (left (complete b (count s') debug) r₁).Small)
    : Runs visit P count b debug d s r (complete b (count s') debug r₁) ∧
        FailsAtCheck b debug (complete b (count s') debug r₁) := by
  by_cases hcount : count s' = 0
  . rw [hcount, complete_zero]
    exact ⟨.idle h hcount, failsAtCheck_ok b debug 0 r₁⟩
  . rcases complete_cases_check hcount b debug r₁ with ⟨e, hdebug, hcheck, hrun⟩ | ⟨hcheck, hrun⟩
    . rw [hrun]
      refine ⟨.refused h hcount hdebug hcheck, ?_⟩
      intro e' r' heq
      cases heq
      obtain ⟨id, hid, hinsn⟩ := hr₁.arranged.checkBlock_eq_error hb hcheck
      refine ⟨hdebug, ⟨id, hid, hinsn⟩, ?_⟩
      rintro v rfl
      exact checkInsn_ne_stale v hinsn
    . rw [left_eq_of_run_eq hrun, left_bind_pure] at hsmall
      obtain ⟨n, r', hremove, hclean⟩ := removeDeadCode_loop hr₁ hb hsmall
      rw [hrun, bind_of_ok hremove, pure_run]
      exact ⟨.cleaned h hcount hcheck hclean, failsAtCheck_ok b debug _ r'⟩

end Completion

section InPlace

variable {visit : InsnId → Edit Nat} {d : Direction} {todo : List InsnId}

structure Ready (r : Routine) (id : InsnId) : Prop where
  live : r.insn? id ≠ none
  operands : ∀ p, r.Refers id (.insn p) → r.insn? p ≠ none
  search : ∀ c, r.cursorBefore? id = some c →
    Loop note Present c [] r (.ok (r.insnsBefore id) r)
  compare : ∀ v w, r.Compares [] v w (r.identicalValues v w)
  replace : ∀ x, r.Admits x → x ≠ .insn id → ∃ l r', r.useList? (.insn id) = some l ∧
    replaceUses (.insn id) x r = .ok l.len r' ∧ Refills x l.head r l.len r'

theorem ready_of_live (hr : r.Intact) (hi : r.insn? id = some i) : Ready r id := by
  constructor
  . simp [hi]
  . intro p hp
    have := hr.tracked.contains_of_refers hp
    rw [contains, Option.isSome_iff_ne_none] at this
    exact this
  . intro c hc
    exact loop_insnsBefore hr.arranged hc
  . intro v w
    exact compares_identicalValues
  . intro x hx hne
    exact replaceUses_refills hr.tracked hr.small (by simp [contains, hi]) hx hne

structure Sweeping (b : BlockId) (d : Direction) (todo : List InsnId) (r : Routine) : Prop where
  intact : r.Intact
  live : r.block? b ≠ none
  rest : ∃ done, r.insnsOf b = d.joined done todo

theorem Sweeping.start (hr : r.Intact) (hb : r.block? b ≠ none)
    : Sweeping b d (d.along (r.insnsOf b)) r :=
  ⟨hr, hb, [], Direction.joined_nil_along.symm⟩

theorem Sweeping.visited (h : Sweeping b d (id :: todo) r) : ∃ i, r.insn? id = some i := by
  obtain ⟨done, hlist⟩ := h.rest
  have hid : id ∈ r.insnsOf b := by
    rw [hlist, Direction.mem_joined]
    exact Or.inr List.mem_cons_self
  obtain ⟨i, hi, -⟩ := h.intact.arranged.mem_insnsOf.mp hid
  exact ⟨i, hi⟩

theorem Sweeping.step (h : Sweeping b d (id :: todo) r) (hplaces : r.SamePlaces r')
    (hr' : r'.Intact) : Sweeping b d todo r' := by
  obtain ⟨done, hlist⟩ := h.rest
  refine ⟨hr', hplaces.block?_ne_none.mpr h.live, id :: done, ?_⟩
  rw [hplaces.insnsOf h.intact.arranged, hlist, Direction.joined_cons]

theorem sweeping_visits {Q : Routine → Prop} (hkeeps : ∀ id, Within Keeps (visit id))
    (hplaces : ∀ id, Within SamePlaces (visit id))
    (hQ : ∀ {r id i n r'}, r.Intact → Q r → r.insn? id = some i → visit id r = .ok n r' → Q r')
    : Visits (counting visit) b d (fun todo _ r => Sweeping b d todo r ∧ Q r) Small := by
  have hsteps : ∀ {id todo n r n' r'}, Sweeping b d (id :: todo) r ∧ Q r →
      counting visit n id r = .ok n' r' → r'.Small →
      (Sweeping b d todo r' ∧ Q r') ∧ r.SamePlaces r' := by
    rintro id todo n r n' r' ⟨h, hq⟩ hrun hsmall
    obtain ⟨m, hrun, -⟩ := of_counting_ok hrun
    have hsame := hplaces id r
    have hkept := hkeeps id r
    rw [left_of_ok hrun] at hsame hkept
    have hr' : r'.Intact :=
      ⟨hkept.tracked hsmall h.intact.tracked, hsame.arranged h.intact.arranged, hsmall⟩
    obtain ⟨i, hi⟩ := h.visited
    exact ⟨⟨h.step hsame hr', hQ h.intact hq hi hrun⟩, hsame⟩
  have hlists : ∀ {todo r}, Sweeping b d todo r → ∃ done, r.Lists b (d.joined done todo) := by
    intro todo r h
    obtain ⟨done, hlist⟩ := h.rest
    exact ⟨done, hlist ▸ (h.intact.arranged.holds_insnsOf h.live).lists⟩
  constructor
  . intro n id r hsmall
    exact (Within.counting hkeeps n id r).grows.small hsmall
  . rintro todo n r ⟨h, -⟩
    obtain ⟨done, hlist⟩ := hlists h
    exact hlist.path
  . intro id todo n r n' r' h hrun hsmall
    exact (hsteps h hrun hsmall).1
  . intro id todo n r n' r' h hrun hsmall m hm
    obtain ⟨done, hlist⟩ := hlists h.1
    exact ((hsteps h hrun hsmall).2.lists hlist).pick_eq hm

theorem small_of_completed {σ : Type} {e : Edit σ} (count : σ → Nat)
    (hsmall : (left (e >>= fun s => complete b (count s) debug) r).Small) : (left e r).Small :=
  (Within.left_bind (fun s => (keeps_complete b (count s) debug).mono fun _ _ h => h.grows) e r).small
    hsmall

theorem sweep_succeeds {Q : Routine → Prop} (hkeeps : ∀ id, Within Keeps (visit id))
    (hplaces : ∀ id, Within SamePlaces (visit id))
    (hvisit : ∀ {r id i}, r.Intact → Q r → r.insn? id = some i →
      ∃ n r', visit id r = .ok n r' ∧ Q r')
    (hr : r.Intact) (hq : Q r) (hb : r.block? b ≠ none)
    (hsmall : (left (sweep b d visit) r).Small)
    : ∃ n r', sweep b d visit r = .ok n r' ∧ r'.Intact ∧ r'.block? b ≠ none ∧ Q r' ∧
        Loop (counting visit) (fun _ id r => Ready r id) { block := b, direction := d } 0 r
          (.ok n r') := by
  have hQ : ∀ {r id i n r'}, r.Intact → Q r → r.insn? id = some i → visit id r = .ok n r' → Q r' := by
    intro r id i n r' hr hq hi hrun
    obtain ⟨m, r₁, hrun₁, hq₁⟩ := hvisit hr hq hi
    rw [hrun₁] at hrun
    cases hrun
    exact hq₁
  have hv := sweeping_visits (b := b) (d := d) hkeeps hplaces hQ
  have hlists := (hr.arranged.holds_insnsOf hb).lists
  have hstart : Sweeping b d (d.along (r.insnsOf b)) r ∧ Q r := ⟨Sweeping.start hr hb, hq⟩
  have hends := hv.ends (s := 0) hlists hstart hsmall
  have hloop := hv.loop_sweepWith (P := fun _ id r => Ready r id) (s := 0)
    (fun h => by
      obtain ⟨i, hi⟩ := h.1.visited
      exact ready_of_live h.1.intact hi)
    hlists hstart hsmall
  change ∃ n r', sweepWith b d 0 (counting visit) r = .ok n r' ∧ _
  generalize sweepWith b d 0 (counting visit) r = result at hends hloop ⊢
  cases hends with
  | done h => exact ⟨_, _, rfl, h.1.intact, h.1.live, h.2, hloop⟩
  | failed h hrun =>
    obtain ⟨i, hi⟩ := h.1.visited
    -- A visit that fails would be one of something live, which succeeds.
    obtain ⟨m, r₁, hok, -⟩ := hvisit h.1.intact h.2 hi
    rw [counting_of_ok hok] at hrun
    cases hrun

theorem inPlace_ends (hkeeps : ∀ id, Within Keeps (visit id))
    (hplaces : ∀ id, Within SamePlaces (visit id))
    (hvisit : ∀ {r id i}, r.Intact → r.insn? id = some i → ∃ n r', visit id r = .ok n r')
    (hr : r.Intact) (hb : r.block? b ≠ none)
    (hsmall : (left (sweep b d visit >>= (complete b · debug)) r).Small)
    : Runs (counting visit) (fun _ id r => Ready r id) (fun n => n) b debug d 0 r
          ((sweep b d visit >>= (complete b · debug)) r) ∧
        FailsAtCheck b debug ((sweep b d visit >>= (complete b · debug)) r) := by
  obtain ⟨n, r₁, hrun, hr₁, hb₁, -, hloop⟩ := sweep_succeeds (Q := fun _ => True) hkeeps hplaces
    (fun hr _ hi => by
      obtain ⟨n, r', hrun⟩ := hvisit hr hi
      exact ⟨n, r', hrun, trivial⟩)
    hr trivial hb (small_of_completed (fun n => n) hsmall)
  rw [left_bind_of_ok hrun] at hsmall
  rw [bind_of_ok hrun]
  exact complete_ends (fun n => n) hloop hr₁ hb₁ hsmall

theorem foldConstants_ends (hr : r.Intact) (hb : r.block? b ≠ none)
    (hsmall : (left (foldConstants b debug) r).Small)
    : Runs (counting foldInsn) (fun _ id r => Ready r id) (fun n => n) b debug .forward 0 r
          (foldConstants b debug r) ∧
        FailsAtCheck b debug (foldConstants b debug r) := by
  rw [foldConstants_eq] at hsmall ⊢
  refine inPlace_ends covers_keeps.foldInsn coversInPlace_samePlaces.foldInsn ?_ hr hb hsmall
  intro r id i hr hi
  obtain ⟨n, r', hrun, -⟩ := foldInsn_run hr hi
  exact ⟨n, r', hrun⟩

theorem deduplicate_ends (hr : r.Intact) (hb : r.block? b ≠ none)
    (hsmall : (left (deduplicate b debug) r).Small)
    : Runs (counting mergeInsn) (fun _ id r => Ready r id) (fun n => n) b debug .backward 0 r
          (deduplicate b debug r) ∧
        FailsAtCheck b debug (deduplicate b debug r) := by
  rw [deduplicate_eq] at hsmall ⊢
  refine inPlace_ends covers_keeps.mergeInsn coversInPlace_samePlaces.mergeInsn ?_ hr hb hsmall
  intro r id i hr hi
  obtain ⟨n, r', hrun, -⟩ := mergeInsn_run hr hi
  exact ⟨n, r', hrun⟩

theorem combine_ends (hr : r.Intact) (hb : r.block? b ≠ none) (hsmall : (left (combine b debug) r).Small)
    : Runs (counting combineInsn) (fun _ id r => Ready r id) (fun n => n) b debug .forward 0 r
          (combine b debug r) ∧
        FailsAtCheck b debug (combine b debug r) :=
  inPlace_ends covers_keeps.combineInsn coversInPlace_samePlaces.combineInsn combineInsn_succeeds
    hr hb hsmall

theorem resolveLoads_ends (hr : r.Intact) (hb : r.block? b ≠ none)
    (hsmall : (left (resolveLoads b debug) r).Small)
    : (r.image = none → resolveLoads b debug r = .ok 0 r) ∧
        (∀ image, r.image = some image →
          Runs (counting (resolveLoad image)) (fun _ id r => Ready r id) (fun n => n) b debug .forward 0 r
            (resolveLoads b debug r)) ∧
        FailsAtCheck b debug (resolveLoads b debug r) := by
  cases himage : r.image with
  | none =>
    rw [resolveLoads_of_no_image himage]
    exact ⟨fun _ => rfl, nofun, failsAtCheck_ok b debug 0 r⟩
  | some image =>
    unfold left at hsmall
    rw [resolveLoads_of_image himage] at hsmall ⊢
    have hends := inPlace_ends (covers_keeps.resolveLoad image)
      (coversInPlace_samePlaces.resolveLoad image)
      (fun hr hi => by
        obtain ⟨n, r', hrun, -⟩ := resolveLoad_run image hr hi
        exact ⟨n, r', hrun⟩)
      hr hb hsmall
    refine ⟨nofun, ?_, hends.2⟩
    rintro image' heq
    cases heq
    exact hends.1

end InPlace

section Forwarding

def Producing (s : Producers × Nat) (id : InsnId) (r : Routine) : Prop :=
  Present s id r ∧ ∀ x p, s.1.lookup x = some p → r.insn? p.insn ≠ none

theorem producing_of_scanned {known : Producers} {n : Nat} {todo : List InsnId}
    (h : Scanned b known (id :: todo) r) : Producing (known, n) id r := by
  obtain ⟨i, hi⟩ := h.visited
  exact ⟨by simp [Present, hi], fun x p => h.producer⟩

def FailsAtWrite (e : Error) (r : Routine) : Prop :=
  ∃ p x, r.Writes p x ∧ (∃ j, r.Refers j (.insn p) ∧ j ≠ p) ∧
    e = .lingeringUses (.insn p) (obstacles r p).length

theorem forwardRegisters_ends (hr : r.Intact) (hb : r.block? b ≠ none)
    (hsmall : (left (forwardRegisters b debug) r).Small)
    : Runs visitRegister Producing Prod.snd b debug .forward ([], 0) r (forwardRegisters b debug r) ∧
        ((∃ e r', forwardRegisters b debug r = .error e r' ∧ FailsAtWrite e r') ∨
          FailsAtCheck b debug (forwardRegisters b debug r)) := by
  rw [forwardRegisters_eq] at hsmall ⊢
  have hsweep := small_of_completed Prod.snd hsmall
  have hv := visitRegister_visits (b := b) (I := fun _ _ _ => True) fun _ _ _ _ => trivial
  have hlists := (hr.arranged.holds_insnsOf hb).lists
  have hends := hv.ends (d := .forward) hlists ⟨Scanned.start hr hb, trivial⟩ hsweep
  have hloop := hv.loop_sweepWith (P := Producing) (d := .forward)
    (fun h => producing_of_scanned h.1) hlists ⟨Scanned.start hr hb, trivial⟩ hsweep
  generalize hresult : sweepWith b .forward ([], 0) visitRegister r = result at hends hloop
  cases hends with
  | done h =>
    rw [left_bind_of_ok hresult] at hsmall
    rw [bind_of_ok hresult]
    obtain ⟨hruns, hfails⟩ := complete_ends Prod.snd hloop h.1.intact h.1.live hsmall
    exact ⟨hruns, Or.inr hfails⟩
  | failed h hrun =>
    rw [left_of_error hresult, ← left_of_error hrun] at hsweep
    rw [bind_of_error hresult]
    refine ⟨.failed hloop, Or.inl ⟨_, _, rfl, ?_⟩⟩
    rcases visitRegister_run h.1 hsweep with ⟨s, r₁, hok⟩ | ⟨p, x, hwrites, hrefers, herror⟩
    . rw [hok] at hrun
      cases hrun
    . rw [herror] at hrun
      cases hrun
      exact ⟨p, x, hwrites, hrefers, rfl⟩

end Forwarding

end Edit

namespace Routine

open Edit

theorem passes_fail_only_at_checks (actions : List Action) (b : BlockId) (debug : Bool)
    (hb : (after actions).block? b ≠ none)
    : (∀ pass visit d, (pass, visit, d) ∈ [(foldConstants, foldInsn, Direction.forward),
          (deduplicate, mergeInsn, .backward), (combine, combineInsn, .forward)] →
        (left (pass b debug) (after actions)).Small →
          Runs (counting visit) (fun _ id r => Ready r id) (fun n => n) b debug d 0 (after actions)
            (pass b debug (after actions)) ∧
          FailsAtCheck b debug (pass b debug (after actions))) ∧
        ((left (resolveLoads b debug) (after actions)).Small →
          ((after actions).image = none → resolveLoads b debug (after actions) = .ok 0 (after actions)) ∧
          (∀ image, (after actions).image = some image →
            Runs (counting (resolveLoad image)) (fun _ id r => Ready r id) (fun n => n) b debug .forward 0
              (after actions) (resolveLoads b debug (after actions))) ∧
          FailsAtCheck b debug (resolveLoads b debug (after actions))) ∧
        ((left (removeDeadCode b) (after actions)).Small →
          ∃ n r', removeDeadCode b (after actions) = .ok n r' ∧
            Loop (counting (eraseWhen isDead)) Present { block := b, direction := .backward } 0
              (after actions) (.ok n r')) ∧
        ((left (forwardRegisters b debug) (after actions)).Small →
          Runs visitRegister Producing Prod.snd b debug .forward ([], 0) (after actions)
            (forwardRegisters b debug (after actions)) ∧
          ((∃ e r', forwardRegisters b debug (after actions) = .error e r' ∧ FailsAtWrite e r') ∨
            FailsAtCheck b debug (forwardRegisters b debug (after actions)))) := by
  have hintact : ∀ {α : Type} {e : Edit α}, Within Keeps e → (left e (after actions)).Small →
      (after actions).Intact := by
    intro α e hkeeps hsmall
    exact intact_after actions ((hkeeps _).grows.small hsmall)
  refine ⟨?_, ?_, ?_, ?_⟩
  . intro pass visit d hpass hsmall
    simp only [List.mem_cons, Prod.mk.injEq, List.not_mem_nil, or_false] at hpass
    rcases hpass with ⟨rfl, rfl, rfl⟩ | ⟨rfl, rfl, rfl⟩ | ⟨rfl, rfl, rfl⟩
    . exact foldConstants_ends (hintact (covers_keeps.foldConstants b debug) hsmall) hb hsmall
    . exact deduplicate_ends (hintact (covers_keeps.deduplicate b debug) hsmall) hb hsmall
    . exact combine_ends (hintact (covers_keeps.combine b debug) hsmall) hb hsmall
  . intro hsmall
    exact resolveLoads_ends (hintact (covers_keeps.resolveLoads b debug) hsmall) hb hsmall
  . intro hsmall
    exact removeDeadCode_loop (hintact (covers_keeps.removeDeadCode b) hsmall) hb hsmall
  . intro hsmall
    exact forwardRegisters_ends (hintact (covers_keeps.forwardRegisters b debug) hsmall) hb hsmall

def unsound : List Action :=
  [.addBlock,
    .pushBack (.ofNat 0) (.binop .i64 .add (.const (.i64 2)) (.const (.i64 3))),
    .pushBack (.ofNat 0) (.unop .i64 .neg (.insn (.ofNat 0))),
    .setOperand (.ofNat 1) 1 (.insn (.ofNat 1)),
    .pushBack (.ofNat 0) (.writeReg (.ofNat 1 1) (.insn (.ofNat 1)) .i64),
    .pushBack (.ofNat 0) (.unop .i64 .neg (.insn (.ofNat 2))),
    .pushBack (.ofNat 0) (.writeReg (.ofNat 1 1) (.insn (.ofNat 3)) .i64),
    .pushBack (.ofNat 0) (.xret (.insn (.ofNat 0)))]

theorem passes_fail_only_at_checks_unsound
    : (after unsound).block? (.ofNat 0) ≠ none ∧
        (left (foldConstants (.ofNat 0) true) (after unsound)).Small ∧
        (left (removeDeadCode (.ofNat 0)) (after unsound)).Small ∧
        (left (forwardRegisters (.ofNat 0) true) (after unsound)).Small ∧
        (∃ e r' id, foldConstants (.ofNat 0) true (after unsound) = .error e r' ∧
          id ∈ r'.insnsOf (.ofNat 0) ∧ r'.checkInsn id = .error e) ∧
        (∃ n r', removeDeadCode (.ofNat 0) (after unsound) = .ok n r') ∧
        Runs visitRegister Producing Prod.snd (.ofNat 0) true .forward ([], 0) (after unsound)
          (forwardRegisters (.ofNat 0) true (after unsound)) := by
  have hb : (after unsound).block? (.ofNat 0) ≠ none := by decide +kernel
  have hfold : (left (foldConstants (.ofNat 0) true) (after unsound)).Small := by decide +kernel
  have hremove : (left (removeDeadCode (.ofNat 0)) (after unsound)).Small := by decide +kernel
  have hforward : (left (forwardRegisters (.ofNat 0) true) (after unsound)).Small := by decide +kernel
  obtain ⟨hpasses, -, hdead, hregisters⟩ := passes_fail_only_at_checks unsound (.ofNat 0) true hb
  obtain ⟨n, r', hrun, -⟩ := hdead hremove
  refine ⟨hb, hfold, hremove, hforward, ?_, ⟨n, r', hrun⟩, (hregisters hforward).1⟩
  have hfails := (hpasses foldConstants foldInsn .forward (by simp) hfold).2
  cases hresult : foldConstants (.ofNat 0) true (after unsound) with
  | ok n r' =>
    have hnone : EStateM.run' (foldConstants (.ofNat 0) true) (after unsound) = none := by decide +kernel
    unfold EStateM.run' EStateM.run at hnone
    rw [hresult] at hnone
    cases hnone
  | error e r' =>
    obtain ⟨-, ⟨id, hid, hinsn⟩, -⟩ := hfails e r' hresult
    exact ⟨e, r', id, rfl, hid, hinsn⟩

end Routine

end MachineIR
