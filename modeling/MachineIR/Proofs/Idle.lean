import MachineIR.Proofs.RegisterSweep

/-!
This module contains what it means that a pass has nothing to do in a block: no visit of its sweep
would change anything.
-/

namespace MachineIR.Edit

open Routine

variable {σ : Type} {visit : σ → InsnId → Edit σ} {count : σ → Nat} {r r' : Routine} {b : BlockId}
  {debug : Bool} {d : Direction} {id : InsnId} {todo ids : List InsnId} {s s' : σ} {c : Cursor} {fuel n : Nat}

section Sweeps

inductive Rests (visit : σ → InsnId → Edit σ) (r : Routine) : σ → List InsnId → σ → Prop
  | nil {s : σ} : Rests visit r s [] s
  | cons {id : InsnId} {todo : List InsnId} {s s₁ s' : σ} (h : visit s id r = .ok s₁ r)
    (hrest : Rests visit r s₁ todo s') : Rests visit r s (id :: todo) s'

theorem Rests.le (count : σ → Nat)
    (hle : ∀ {s id r s' r'}, visit s id r = .ok s' r' → count s ≤ count s')
    (h : Rests visit r s todo s') : count s ≤ count s' := by
  induction h with
  | nil => exact Nat.le_refl _
  | cons hvisit _ ih => exact Nat.le_trans (hle hvisit) ih

structure Counts (visit : σ → InsnId → Edit σ) (count : σ → Nat) : Prop where
  le : ∀ {s id r s' r'}, visit s id r = .ok s' r' → count s ≤ count s'
  same : ∀ {s id r s' r'}, visit s id r = .ok s' r' → count s' = count s → r' = r

theorem Counts.visitAll_le (h : Counts visit count) (hrun : visitAll visit fuel c s r = .ok s' r')
    : count s ≤ count s' := by
  induction fuel generalizing c s r with
  | zero =>
    cases hrun
    exact Nat.le_refl _
  | succ fuel ih =>
    unfold visitAll at hrun
    rw [get_bind_run] at hrun
    generalize c.next r = next at hrun
    obtain ⟨target, c'⟩ := next
    cases target with
    | none =>
      cases hrun
      exact Nat.le_refl _
    | some id =>
      obtain ⟨s₁, r₁, hvisit, hrest⟩ := of_bind_ok hrun
      exact Nat.le_trans (h.le hvisit) (ih hrest)

theorem Counts.rests_of_visitAll (h : Counts visit count) (hpath : r.Path c.block c.direction todo)
    (htarget : c.target? r = todo.head?) (hfuel : todo.length ≤ fuel)
    (hrun : visitAll visit fuel c s r = .ok s' r') (hcount : count s' = count s)
    : r' = r ∧ Rests visit r s todo s' := by
  induction fuel generalizing c todo s with
  | zero =>
    cases List.eq_nil_of_length_eq_zero (Nat.le_zero.mp hfuel)
    cases hrun
    exact ⟨rfl, .nil⟩
  | succ fuel ih =>
    unfold visitAll at hrun
    rw [get_bind_run] at hrun
    have hnext : (c.next r).1 = todo.head? := htarget
    generalize hc : c.next r = next at hrun hnext
    obtain ⟨target, c'⟩ := next
    dsimp only at hnext
    subst hnext
    cases todo with
    | nil =>
      cases hrun
      exact ⟨rfl, .nil⟩
    | cons id rest =>
      obtain ⟨s₁, r₁, hvisit, hrest⟩ := of_bind_ok hrun
      have hle := h.le hvisit
      have hle' := h.visitAll_le hrest
      cases h.same hvisit (by omega)
      have hc' : c' = (c.next r).2 := by rw [hc]
      have hnext' := Cursor.target?_next_of_same htarget hpath
      rw [← hc'] at hnext'
      obtain ⟨hsame, hrests⟩ := ih (hc' ▸ hpath.2) hnext' (by simpa using hfuel) hrest (by omega)
      exact ⟨hsame, .cons hvisit hrests⟩

theorem visitAll_of_rests (h : Rests visit r s todo s') (hpath : r.Path c.block c.direction todo)
    (htarget : c.target? r = todo.head?) (hfuel : todo.length ≤ fuel)
    : visitAll visit fuel c s r = .ok s' r := by
  induction fuel generalizing c todo s with
  | zero =>
    cases List.eq_nil_of_length_eq_zero (Nat.le_zero.mp hfuel)
    cases h
    rfl
  | succ fuel ih =>
    unfold visitAll
    rw [get_bind_run]
    have hnext : (c.next r).1 = todo.head? := htarget
    generalize hc : c.next r = next at hnext ⊢
    obtain ⟨target, c'⟩ := next
    dsimp only at hnext
    subst hnext
    cases h with
    | nil => rfl
    | cons hvisit hrests =>
      have hc' : c' = (c.next r).2 := by rw [hc]
      have hnext' := Cursor.target?_next_of_same htarget hpath
      rw [← hc'] at hnext'
      dsimp only [List.head?_cons]
      rw [bind_of_ok hvisit]
      exact ih hrests (hc' ▸ hpath.2) hnext' (by simpa using hfuel)

theorem sweepWith_of_rests (hlists : r.Lists b ids) (h : Rests visit r s (d.along ids) s')
    : sweepWith b d s visit r = .ok s' r := by
  rw [sweepWith_run hlists]
  exact visitAll_of_rests h hlists.path_along (Cursor.target?_start hlists) hlists.length_along_le

theorem Counts.rests_of_sweepWith (h : Counts visit count) (hlists : r.Lists b ids)
    (hrun : sweepWith b d s visit r = .ok s' r') (hcount : count s' = count s)
    : r' = r ∧ Rests visit r s (d.along ids) s' := by
  rw [sweepWith_run hlists] at hrun
  exact h.rests_of_visitAll hlists.path_along (Cursor.target?_start hlists) hlists.length_along_le hrun
    hcount

section Counting

variable {visit : InsnId → Edit Nat}

theorem le_counting {total total' : Nat} (h : counting visit total id r = .ok total' r')
    : total ≤ total' := by
  obtain ⟨n, -, rfl⟩ := of_counting_ok h
  omega

theorem counts_counting (h : ∀ {id r r'}, visit id r = .ok 0 r' → r' = r)
    : Counts (counting visit) fun total => total := by
  refine ⟨le_counting, ?_⟩
  intro total id r total' r' hrun hcount
  obtain ⟨n, hvisit, rfl⟩ := of_counting_ok hrun
  have hn : n = 0 := by omega
  exact h (hn ▸ hvisit)

theorem rests_counting_iff {total : Nat}
    : Rests (counting visit) r total todo total ↔ ∀ id ∈ todo, visit id r = .ok 0 r := by
  constructor
  . intro h
    induction todo with
    | nil => exact nofun
    | cons id rest ih =>
      cases h with
      | cons hvisit hrest =>
        obtain ⟨n, hrun, rfl⟩ := of_counting_ok hvisit
        have := hrest.le (fun total => total) le_counting
        have hn : n = 0 := by omega
        subst hn
        exact List.forall_mem_cons.mpr ⟨hrun, ih hrest⟩
  . intro h
    induction todo with
    | nil => exact .nil
    | cons id rest ih =>
      rw [List.forall_mem_cons] at h
      exact .cons (counting_of_ok h.1) (ih h.2)

theorem sweep_eq_zero_iff (hzero : ∀ {id r r'}, visit id r = .ok 0 r' → r' = r) (hr : r.Arranged)
    : sweep b d visit r = .ok 0 r' ↔
        r' = r ∧ r.block? b ≠ none ∧ ∀ id ∈ r.insnsOf b, visit id r = .ok 0 r := by
  constructor
  . intro hrun
    have hb := block?_of_sweepWith hrun
    obtain ⟨hsame, hrests⟩ :=
      (counts_counting hzero).rests_of_sweepWith (hr.holds_insnsOf hb).lists hrun rfl
    refine ⟨hsame, hb, ?_⟩
    intro id hid
    exact rests_counting_iff.mp hrests id (Direction.mem_along.mpr hid)
  . rintro ⟨rfl, hb, hvisits⟩
    apply sweepWith_of_rests (hr.holds_insnsOf hb).lists
    apply rests_counting_iff.mpr
    intro id hid
    exact hvisits id (Direction.mem_along.mp hid)

end Counting

theorem complete_eq_zero (h : complete b n debug r = .ok 0 r') : n = 0 ∧ r' = r := by
  rcases complete_eq_ok h with ⟨hn, -, heq⟩ | ⟨hn, -, k, hsum, -⟩
  . exact ⟨hn, heq⟩
  . omega

theorem bind_complete_eq_zero_iff {e : Edit Nat} {b : BlockId}
    : (e >>= (complete b · debug)) r = .ok 0 r' ↔ e r = .ok 0 r' := by
  constructor
  . intro h
    obtain ⟨n, r₁, hrun, hcomplete⟩ := of_bind_ok h
    obtain ⟨rfl, rfl⟩ := complete_eq_zero hcomplete
    exact hrun
  . intro h
    rw [bind_of_ok h]
    rfl

end Sweeps

section Visits

theorem foldInsn_eq_zero_iff
    : foldInsn id r = .ok 0 r' ↔ r' = r ∧ ∃ i, r.insn? id = some i ∧ i.fold? id = none := by
  unfold foldInsn
  constructor
  . intro hrun
    obtain ⟨i, r₁, hknown, hmatch⟩ := of_bind_ok hrun
    obtain ⟨hi, rfl⟩ := knownInsn_of_ok hknown
    cases hfold : i.fold? id with
    | none =>
      rw [hfold] at hmatch
      cases hmatch
      exact ⟨rfl, i, hi, hfold⟩
    | some x =>
      rw [hfold] at hmatch
      obtain ⟨n, r₂, -, hend⟩ := of_bind_ok hmatch
      have hsum : 1 + n = 0 := by injection hend
      omega
  . rintro ⟨rfl, i, hi, hfold⟩
    rw [bind_of_ok (knownInsn_run hi), hfold]
    rfl

theorem mergeInsn_eq_zero_iff
    : mergeInsn id r = .ok 0 r' ↔
        r' = r ∧ ∃ i, r.insn? id = some i ∧ (i.uses.len = 0 ∨ r.duplicate? id = none) := by
  unfold mergeInsn
  constructor
  . intro hrun
    obtain ⟨i, r₁, hknown, hif⟩ := of_bind_ok hrun
    obtain ⟨hi, rfl⟩ := knownInsn_of_ok hknown
    by_cases hlen : i.uses.len = 0
    . rw [if_pos hlen] at hif
      cases hif
      exact ⟨rfl, i, hi, Or.inl hlen⟩
    . rw [if_neg hlen, get_bind_run] at hif
      cases hduplicate : r₁.duplicate? id with
      | none =>
        rw [hduplicate] at hif
        cases hif
        exact ⟨rfl, i, hi, Or.inr rfl⟩
      | some earlier =>
        rw [hduplicate] at hif
        obtain ⟨n, r₂, -, hend⟩ := of_bind_ok hif
        have hsum : 1 + n = 0 := by injection hend
        omega
  . rintro ⟨rfl, i, hi, hrest⟩
    rw [bind_of_ok (knownInsn_run hi)]
    by_cases hlen : i.uses.len = 0
    . rw [if_pos hlen]
      rfl
    . rw [if_neg hlen, get_bind_run, hrest.resolve_left hlen]
      rfl

theorem simplify_eq_zero_iff {s : Simplification}
    : simplify id s r = .ok 0 r' ↔ r' = r ∧ s = .replace (.insn id) := by
  constructor
  . intro hrun
    cases s with
    | replace x =>
      simp only [simplify] at hrun
      split at hrun
      . next hx =>
        cases hrun
        exact ⟨rfl, by rw [hx]⟩
      . obtain ⟨n, r₁, -, hend⟩ := of_bind_ok hrun
        have hsum : 1 + n = 0 := by injection hend
        omega
    | operands k x m y =>
      obtain ⟨u, r₁, -, hrest⟩ := of_bind_ok hrun
      obtain ⟨u', r₂, -, hend⟩ := of_bind_ok hrest
      cases hend
    | source t x =>
      obtain ⟨u, r₁, -, hrest⟩ := of_bind_ok hrun
      obtain ⟨u', r₂, -, hend⟩ := of_bind_ok hrest
      cases hend
  . rintro ⟨rfl, rfl⟩
    simp [simplify]

theorem combineInsn_eq_zero_iff
    : combineInsn id r = .ok 0 r' ↔
        r' = r ∧ ∃ i, r.insn? id = some i ∧ ∀ s, r.combine? i = some s → s = .replace (.insn id) := by
  unfold combineInsn
  rw [get_bind_run]
  constructor
  . intro hrun
    obtain ⟨i, r₁, hknown, hmatch⟩ := of_bind_ok hrun
    obtain ⟨hi, rfl⟩ := knownInsn_of_ok hknown
    cases hcombine : r₁.combine? i with
    | none =>
      rw [hcombine] at hmatch
      cases hmatch
      exact ⟨rfl, i, hi, by simp [hcombine]⟩
    | some s =>
      rw [hcombine] at hmatch
      obtain ⟨hsame, hs⟩ := simplify_eq_zero_iff.mp hmatch
      refine ⟨hsame, i, hi, ?_⟩
      rintro s' heq
      rw [hcombine] at heq
      cases heq
      exact hs
  . rintro ⟨rfl, i, hi, hcombine⟩
    rw [bind_of_ok (knownInsn_run hi)]
    cases hs : r'.combine? i with
    | none => rfl
    | some s => exact simplify_eq_zero_iff.mpr ⟨rfl, hcombine s hs⟩

theorem resolveLoad_eq_zero {image : Image} (hrun : resolveLoad image id r = .ok 0 r') : r' = r := by
  unfold resolveLoad at hrun
  obtain ⟨i, r₁, hknown, hmatch⟩ := of_bind_ok hrun
  obtain ⟨hi, rfl⟩ := knownInsn_of_ok hknown
  rw [get_bind_run] at hmatch
  cases hread : i.loadAddress?.bind (r₁.readConstant? image i.ty) with
  | none =>
    rw [hread] at hmatch
    cases hmatch
    rfl
  | some c =>
    rw [hread] at hmatch
    exact replaceUses_eq_zero hmatch

theorem resolveLoad_eq_zero_iff {image : Image} (hr : r.Intact)
    : resolveLoad image id r = .ok 0 r ↔ ∃ i, r.insn? id = some i ∧
        (¬ r.Used id ∨ i.loadAddress?.bind (r.readConstant? image i.ty) = none) := by
  have huses : ∀ {c}, r.contains (.insn id) = true →
      (replaceUses (.insn id) (.const c) r = .ok 0 r ↔ ¬ r.Used id) := by
    intro c hlive
    have hcount := hr.tracked.useCount_eq_zero_iff hlive
    obtain ⟨r₁, hrun, -⟩ := replaceUses_run hr.tracked hr.small hlive
      (admits_const r c) (by simp)
    unfold Used
    rw [not_exists, ← hcount]
    constructor
    . intro hzero
      rw [hrun] at hzero
      injection hzero
    . intro hzero
      rw [hzero] at hrun
      rwa [replaceUses_eq_zero hrun] at hrun
  have hlive : ∀ {i}, r.insn? id = some i → r.contains (.insn id) = true := by
    intro i hi
    simp [contains, hi]
  unfold resolveLoad
  constructor
  . intro hrun
    obtain ⟨i, r₁, hknown, hmatch⟩ := of_bind_ok hrun
    obtain ⟨hi, rfl⟩ := knownInsn_of_ok hknown
    rw [get_bind_run] at hmatch
    refine ⟨i, hi, ?_⟩
    cases hread : i.loadAddress?.bind (r₁.readConstant? image i.ty) with
    | none => exact Or.inr rfl
    | some c =>
      rw [hread] at hmatch
      exact Or.inl ((huses (hlive hi)).mp hmatch)
  . rintro ⟨i, hi, hrest⟩
    rw [bind_of_ok (knownInsn_run hi), get_bind_run]
    cases hread : i.loadAddress?.bind (r.readConstant? image i.ty) with
    | none => rfl
    | some c =>
      rw [hread] at hrest
      exact (huses (hlive hi)).mpr (hrest.resolve_right (by simp))

theorem eraseWhen_eq_zero_iff {p : Routine → InsnId → Bool}
    : eraseWhen p id r = .ok 0 r' ↔ r' = r ∧ p r id = false := by
  unfold eraseWhen
  rw [get_bind_run]
  cases hp : p r id with
  | true =>
    constructor
    . intro hrun
      obtain ⟨u, r₁, -, hend⟩ := of_bind_ok hrun
      cases hend
    . rintro ⟨-, hfalse⟩
      cases hfalse
  | false =>
    constructor
    . intro hrun
      cases hrun
      exact ⟨rfl, rfl⟩
    . rintro ⟨rfl, -⟩
      rfl

end Visits

section Registers

variable {known known' : Producers} {n' : Nat}

theorem forwardRead_eq_zero {p : Producer} (h : forwardRead id p r = .ok 0 r') : r' = r := by
  unfold forwardRead at h
  obtain ⟨content, r₁, hcontent, hmatch⟩ := of_bind_ok h
  obtain ⟨rfl, rfl⟩ := content?_run hcontent
  obtain ⟨e, he, hmatched⟩ := exists_run hmatch
  split at he
  . subst he
    cases hmatched
    rfl
  . subst he
    obtain ⟨i, r₂, hi, hif⟩ := of_bind_ok hmatched
    dsimp only at hif
    split at hif
    . obtain ⟨m, r₃, -, hset⟩ := of_bind_ok hif
      obtain ⟨u, r₄, -, hend⟩ := of_bind_ok hset
      have hsum : 1 + m = 0 := by injection hend
      omega
    . obtain ⟨c, r₃, -, hreplace⟩ := of_bind_ok hif
      obtain ⟨m, r₄, -, hend⟩ := of_bind_ok hreplace
      have hsum : 1 + m = 0 := by injection hend
      omega

theorem counts_visitRegister : Counts visitRegister Prod.snd := by
  have hcases : ∀ {s id r s' r'}, visitRegister s id r = .ok s' r' →
      s.2 ≤ s'.2 ∧ (s'.2 = s.2 → r' = r) := by
    intro s id r s' r' hrun
    unfold visitRegister at hrun
    obtain ⟨i, r₁, hknown, hvisit⟩ := of_bind_ok hrun
    obtain ⟨hi, rfl⟩ := knownInsn_of_ok hknown
    obtain ⟨e, he, hvisit⟩ := exists_run hvisit
    split at he
    . subst he
      unfold visitWrite at hvisit
      obtain ⟨e, he, hvisit⟩ := exists_run hvisit
      split at he
      . subst he
        obtain ⟨u, r₂, -, hend⟩ := of_bind_ok hvisit
        cases hend
        exact ⟨by simp, by simp⟩
      . subst he
        cases hvisit
        exact ⟨Nat.le_refl _, fun _ => rfl⟩
    . subst he
      unfold visitRead at hvisit
      obtain ⟨e, he, hvisit⟩ := exists_run hvisit
      split at he
      . subst he
        obtain ⟨m, r₂, hforward, hend⟩ := of_bind_ok hvisit
        cases hend
        refine ⟨by simp, fun hcount => ?_⟩
        have hm : m = 0 := by simpa using hcount
        exact forwardRead_eq_zero (hm ▸ hforward)
      . subst he
        cases hvisit
        exact ⟨Nat.le_refl _, fun _ => rfl⟩
    . subst he
      cases hvisit
      exact ⟨Nat.le_refl _, fun _ => rfl⟩
  exact ⟨fun hrun => (hcases hrun).1, fun hrun => (hcases hrun).2⟩

theorem visitRegister_of_forwards (h : Forwards r known id known' 0 r)
    (hlive : ∀ x p, known.lookup x = some p → r.code? p.insn ≠ none)
    : visitRegister (known, n) id r = .ok (known', n) r := by
  have hvisit : ∀ {o x}, r.Accesses o id x → ∃ i, r.insn? id = some i ∧ i.opcode = o ∧
      (i.operand? 0).bind Operand.reg? = some x := by
    intro o x haccess
    have hlive : r.code? id ≠ none := by
      obtain ⟨c, hc, -⟩ := haccess
      rw [hc]
      exact Option.some_ne_none c
    rw [ne_eq, code?_eq_none_iff, ← ne_eq, Option.ne_none_iff_exists'] at hlive
    obtain ⟨i, hi⟩ := hlive
    exact ⟨i, hi, (accesses_iff hi).mp haccess⟩
  unfold visitRegister
  -- The kinds of visits that are missing here count at least one change.
  cases h with
  | @skip c hc hother =>
    obtain ⟨i, hi, rfl⟩ := exists_insn?_of_code? hc
    rw [bind_of_ok (knownInsn_run hi)]
    simp only [Writes, Reads, accesses_iff hi] at hother
    apply run_of_eq
    intro e he
    split at he
    . next x hopcode hx => exact absurd ⟨hopcode, hx⟩ (hother x).1
    . next x hopcode hx => exact absurd ⟨hopcode, hx⟩ (hother x).2
    . rw [he]
      rfl
  | learn hread hnone =>
    obtain ⟨i, hi, hopcode, hx⟩ := hvisit hread
    rw [bind_of_ok (knownInsn_run hi), hopcode, hx]
    simp [visitRead, hnone]
  | write hwrite hnone =>
    obtain ⟨i, hi, hopcode, hx⟩ := hvisit hwrite
    rw [bind_of_ok (knownInsn_run hi), hopcode, hx]
    apply run_of_eq
    intro e he
    dsimp only [visitWrite] at he
    split at he
    . next p hp => exact absurd hp (hnone p)
    . rw [he]
      rfl
  | @blank x p hread hlookup hnone =>
    obtain ⟨i, hi, hopcode, hx⟩ := hvisit hread
    rw [bind_of_ok (knownInsn_run hi), hopcode, hx]
    have hforward : forwardRead id p r = .ok 0 r := by
      unfold forwardRead
      rw [bind_of_ok (content?_of_live (hlive _ _ hlookup)), hnone]
      rfl
    dsimp only [visitRead]
    rw [hlookup]
    dsimp only
    rw [bind_of_ok hforward]
    rfl

theorem forwardRegisters_eq_zero_iff (hr : r.Arranged)
    : forwardRegisters b debug r = .ok 0 r ↔
        r.block? b ≠ none ∧ ∃ known, Rests visitRegister r ([], 0) (r.insnsOf b) (known, 0) := by
  rw [forwardRegisters_eq]
  constructor
  . intro hrun
    obtain ⟨⟨known, n⟩, r₁, hsweep, hcomplete⟩ := of_bind_ok hrun
    obtain ⟨hn, -⟩ := complete_eq_zero hcomplete
    dsimp only at hn
    subst hn
    have hb := block?_of_sweepWith hsweep
    have hrests := counts_visitRegister.rests_of_sweepWith (hr.holds_insnsOf hb).lists hsweep rfl
    exact ⟨hb, known, hrests.2⟩
  . rintro ⟨hb, known, hrests⟩
    rw [bind_of_ok (sweepWith_of_rests (hr.holds_insnsOf hb).lists hrests)]
    rfl

end Registers

end MachineIR.Edit
