import MachineIR.Pass.Pipeline
import MachineIR.Proofs.RegisterSweep

/-!
This module contains what runs of pipelines come down to: a round in which no pass of the pipeline
has anything to do, or changes to a block, one pass after the other.
-/

namespace MachineIR

open Routine

def Routine.Reworked (b : BlockId) (r r' : Routine) : Prop :=
  r.Reduced b r' ∨ Relation.TransGen (Discards b) r r'

namespace Edit

variable {R : Routine → Routine → Prop} [Std.Refl R] [Trans R R R] {r r' : Routine} {b : BlockId}
  {n : Nat} {debug : Bool} {e : BlockId → Edit Nat}

def ofPasses (debug : Bool) : List (BlockId → Edit Nat) :=
  [(foldConstants · debug), (deduplicate · debug), (combine · debug), (resolveLoads · debug),
    (forwardRegisters · debug), removeDeadCode]

theorem Covers.ofPasses (h : Covers R) (he : e ∈ ofPasses debug) (b : BlockId) : Within R (e b) := by
  simp only [Edit.ofPasses, List.mem_cons, List.not_mem_nil, or_false] at he
  rcases he with rfl | rfl | rfl | rfl | rfl | rfl
  . exact h.foldConstants b debug
  . exact h.deduplicate b debug
  . exact h.combine b debug
  . exact h.resolveLoads b debug
  . exact h.forwardRegisters b debug
  . exact h.removeDeadCode b

theorem ofPasses_cases (he : e ∈ ofPasses debug) (hr : r.Intact) (hrun : e b r = .ok n r')
    (hsmall : r'.Small)
    : r'.Intact ∧ ((n = 0 ∧ r' = r) ∨ (n ≠ 0 ∧ r.Reworked b r')) := by
  refine ⟨hr.of_ok (covers_keeps.ofPasses he b) (covers_arranges.ofPasses he b) hrun hsmall, ?_⟩
  have hreduced : (n = 0 ∧ r' = r) ∨ (n ≠ 0 ∧ r.Reduced b r') →
      (n = 0 ∧ r' = r) ∨ (n ≠ 0 ∧ r.Reworked b r') :=
    Or.imp_right (And.imp_right Or.inl)
  simp only [ofPasses, List.mem_cons, List.not_mem_nil, or_false] at he
  rcases he with rfl | rfl | rfl | rfl | rfl | rfl
  . exact hreduced (foldConstants_reduced hr hrun hsmall)
  . exact hreduced (deduplicate_reduced hr hrun hsmall)
  . exact hreduced (combine_reduced hr hrun hsmall)
  . exact hreduced (resolveLoads_reduced hr hrun hsmall)
  . exact hreduced (forwardRegisters_reduced hr hrun hsmall)
  . exact (removeDeadCode_cleans hr hrun hsmall).2.imp_right (And.imp_right Or.inr)

end Edit

namespace Pass

variable {σ : Type} {p : Pass σ} {b : BlockId} {debug : Bool} {r : Routine} {e : BlockId → Edit Nat}

def Idle (p : Pass σ) (b : BlockId) (r : Routine) : Prop :=
  ∀ memory, p.run b memory r = .ok (0, memory) r

/-- The pass is an edit that does not use the memory, and it does not pass for a warning. -/
structure Performs (p : Pass σ) (e : BlockId → Edit Nat) : Prop where
  run : ∀ b memory, p.run b memory = (do return (← e b, memory))
  kind : p.kind ≠ .warning

theorem performs_ofEdit {name description : String} {kind : EventKind} (h : kind ≠ .warning)
    : (ofEdit name kind description e : Pass σ).Performs e := ⟨fun _ _ => rfl, h⟩

theorem exists_performs (h : p ∈ builtIn debug) : ∃ e ∈ Edit.ofPasses debug, p.Performs e := by
  simp only [builtIn, List.mem_cons, List.not_mem_nil, or_false] at h
  rcases h with rfl | rfl | rfl | rfl | rfl | rfl
  . exact ⟨(Edit.foldConstants · debug), by simp [Edit.ofPasses], performs_ofEdit (by decide)⟩
  . exact ⟨(Edit.deduplicate · debug), by simp [Edit.ofPasses], performs_ofEdit (by decide)⟩
  . exact ⟨(Edit.combine · debug), by simp [Edit.ofPasses], performs_ofEdit (by decide)⟩
  . exact ⟨(Edit.resolveLoads · debug), by simp [Edit.ofPasses], performs_ofEdit (by decide)⟩
  . exact ⟨(Edit.forwardRegisters · debug), by simp [Edit.ofPasses], performs_ofEdit (by decide)⟩
  . exact ⟨Edit.removeDeadCode, by simp [Edit.ofPasses], performs_ofEdit (by decide)⟩

namespace Performs

theorem run_of_ok {n : Nat} {r' : Routine} {memory : σ} (h : p.Performs e) (hrun : e b r = .ok n r')
    : p.run b memory r = .ok (n, memory) r' := by
  rw [h.run, Edit.bind_of_ok hrun, Edit.pure_run]

theorem run_of_error {err : Error} {r' : Routine} {memory : σ} (h : p.Performs e)
    (hrun : e b r = .error err r') : p.run b memory r = .error err r' := by
  rw [h.run, Edit.bind_of_error hrun]

theorem idle_of_run (h : p.Performs e) (hrun : e b r = .ok 0 r) : p.Idle b r :=
  fun _ => h.run_of_ok hrun

end Performs

end Pass

namespace Run

variable {σ α β : Type} {x : Run σ α} {f : α → Run σ β} {s s' : Session σ}

theorem bind_of_ok {a : α} (h : x s = .ok a s') : (x >>= f) s = f a s' := by
  change EStateM.bind x f s = _
  unfold EStateM.bind
  rw [h]

theorem bind_of_error {err : Error} (h : x s = .error err s') : (x >>= f) s = .error err s' := by
  change EStateM.bind x f s = _
  unfold EStateM.bind
  rw [h]

theorem of_bind_ok {b : β} (h : (x >>= f) s = .ok b s')
    : ∃ a s₁, x s = .ok a s₁ ∧ f a s₁ = .ok b s' := by
  cases hx : x s with
  | ok a s₁ =>
    rw [bind_of_ok hx] at h
    exact ⟨a, s₁, rfl, h⟩
  | error err s₁ =>
    rw [bind_of_error hx] at h
    cases h

theorem tryCatch_of_ok {handler : Error → Run σ α} {a : α} (h : x s = .ok a s')
    : tryCatch x handler s = .ok a s' := by
  change EStateM.tryCatch x handler s = _
  unfold EStateM.tryCatch
  rw [h]

theorem tryCatch_of_error {handler : Error → Run σ α} {err : Error} (h : x s = .error err s')
    : tryCatch x handler s = handler err s' := by
  change EStateM.tryCatch x handler s = _
  unfold EStateM.tryCatch
  rw [h]
  rfl

theorem get_bind_run (g : Session σ → Run σ β) : (get >>= g) s = g s s := rfl

def left (x : Run σ α) (s : Session σ) : Session σ :=
  match x s with
  | .ok _ s' => s'
  | .error _ s' => s'

theorem left_of_ok {a : α} (h : x s = .ok a s') : x.left s = s' := by
  unfold left
  rw [h]

theorem left_of_error {err : Error} (h : x s = .error err s') : x.left s = s' := by
  unfold left
  rw [h]

theorem run_of_run' {a : α} (h : EStateM.run' x s = some a) : x s = .ok a (x.left s) := by
  unfold EStateM.run' EStateM.run at h
  cases hrun : x s with
  | ok a' s' =>
    rw [hrun] at h
    cases h
    rw [left_of_ok hrun]
  | error err s' =>
    rw [hrun] at h
    cases h

end Run

theorem EventLog.ofKind_record_of_ne {l : EventLog} {e : Event} {k : EventKind} (h : e.kind ≠ k)
    : (l.record e).ofKind k = l.ofKind k := by
  simp [record, ofKind, h]

theorem EventLog.ofKind_record_self {l : EventLog} {e : Event}
    : (l.record e).ofKind e.kind = l.ofKind e.kind ++ [e] := by
  simp [record, ofKind]

def Session.warnings {σ : Type} (s : Session σ) : List Event := s.record.log.ofKind .warning

namespace Pipeline

section Passes

variable {σ : Type} {p : Pass σ} {passes : List (Pass σ)} {b : BlockId} {s s' : Session σ}
  {debug : Bool} {e : BlockId → Edit Nat} {n : Nat} {r' : Routine}

theorem runPass_of_ok (hp : p.Performs e) (h : e b s.routine = .ok n r')
    : ∃ record, runPass p b s = .ok n ⟨r', record⟩ ∧
        record.log.ofKind .warning = s.warnings ∧ (n = 0 → record = s.record) := by
  have hpass : Run.pass p b s = .ok n ⟨r', s.record⟩ := by
    unfold Run.pass
    rw [hp.run_of_ok h]
  unfold runPass
  rw [Run.bind_of_ok (Run.tryCatch_of_ok hpass)]
  by_cases hn : n > 0
  . simp only [hn, if_true]
    exact ⟨_, rfl, EventLog.ofKind_record_of_ne hp.kind, by omega⟩
  . simp only [hn, if_false]
    exact ⟨_, rfl, rfl, fun _ => rfl⟩

theorem runPass_of_error {err : Error} (hp : p.Performs e) (h : e b s.routine = .error err r')
    : ∃ record, runPass p b s = .error err ⟨r', record⟩ := by
  have hpass : Run.pass p b s = .error err ⟨r', s.record⟩ := by
    unfold Run.pass
    rw [hp.run_of_error h]
  have hlogged : ∃ record, (do
      Run.log { kind := .error, message := s!"{p.name} failed on {b.render}: {err.message}" }
      throw err : Run σ Nat) ⟨r', s.record⟩ = .error err ⟨r', record⟩ := ⟨_, rfl⟩
  obtain ⟨record, hlogged⟩ := hlogged
  exact ⟨record, Run.bind_of_error ((Run.tryCatch_of_error hpass).trans hlogged)⟩

theorem of_runPass_ok (hp : p.Performs e) (h : runPass p b s = .ok n s')
    : e b s.routine = .ok n s'.routine ∧ s'.warnings = s.warnings ∧ (n = 0 → s'.record = s.record) := by
  cases he : e b s.routine with
  | ok m r' =>
    obtain ⟨record, hrun, hrecord⟩ := runPass_of_ok hp he
    rw [h] at hrun
    cases hrun
    exact ⟨rfl, hrecord⟩
  | error err r' =>
    obtain ⟨record, hrun⟩ := runPass_of_error hp he
    rw [h] at hrun
    cases hrun

theorem grows_runPasses (hpasses : ∀ p ∈ passes, p ∈ Pass.builtIn debug)
    (h : runPasses passes b s = .ok n s') : s.routine.Grows s'.routine := by
  induction passes generalizing s n with
  | nil =>
    cases h
    exact Grows.refl _
  | cons p rest ih =>
    obtain ⟨m, s₁, hfirst, hrest⟩ := Run.of_bind_ok h
    obtain ⟨k, s₂, hrest, hend⟩ := Run.of_bind_ok hrest
    cases hend
    obtain ⟨e, he, hp⟩ := Pass.exists_performs (hpasses p List.mem_cons_self)
    have hgrows := (Edit.covers_keeps.ofPasses he b s.routine).grows
    rw [Edit.left_of_ok (of_runPass_ok hp hfirst).1] at hgrows
    exact hgrows.trans (ih (fun q hq => hpasses q (List.mem_cons_of_mem p hq)) hrest)

theorem runPasses_cases (hpasses : ∀ p ∈ passes, p ∈ Pass.builtIn debug) (hs : s.routine.Intact)
    (h : runPasses passes b s = .ok n s') (hsmall : s'.routine.Small)
    : s'.routine.Intact ∧ s'.warnings = s.warnings ∧
        ((n = 0 ∧ s' = s ∧ ∀ p ∈ passes, p.Idle b s.routine) ∨
          (n ≠ 0 ∧ Relation.TransGen (Reworked b) s.routine s'.routine)) := by
  induction passes generalizing s n with
  | nil =>
    cases h
    exact ⟨hs, rfl, Or.inl ⟨rfl, rfl, by simp⟩⟩
  | cons p rest ih =>
    obtain ⟨m, s₁, hfirst, hrest⟩ := Run.of_bind_ok h
    obtain ⟨k, s₂, hrest, hend⟩ := Run.of_bind_ok hrest
    cases hend
    obtain ⟨e, he, hp⟩ := Pass.exists_performs (hpasses p List.mem_cons_self)
    obtain ⟨hrun, hwarnings, hrecord⟩ := of_runPass_ok hp hfirst
    have hpasses' := fun q hq => hpasses q (List.mem_cons_of_mem p hq)
    have hsmall₁ := (grows_runPasses hpasses' hrest).small hsmall
    obtain ⟨hs₁, hcases⟩ := Edit.ofPasses_cases he hs hrun hsmall₁
    obtain ⟨hs', hwarnings', hcases'⟩ := ih hpasses' hs₁ hrest
    refine ⟨hs', hwarnings'.trans hwarnings, ?_⟩
    rcases hcases with ⟨rfl, hsame⟩ | ⟨hm, hreworked⟩
    . have hs₁s : s₁ = s := by
        cases s
        cases s₁
        cases hsame
        cases hrecord rfl
        rfl
      subst hs₁s
      rcases hcases' with ⟨rfl, rfl, hidle⟩ | ⟨hk, hsteps⟩
      . exact Or.inl ⟨rfl, rfl, List.forall_mem_cons.mpr ⟨hp.idle_of_run hrun, hidle⟩⟩
      . exact Or.inr ⟨by omega, hsteps⟩
    . right
      refine ⟨by omega, ?_⟩
      rcases hcases' with ⟨-, rfl, -⟩ | ⟨-, hsteps⟩
      . exact .single hreworked
      . exact .head hreworked hsteps

end Passes

section Rounds

variable {σ : Type} {p : Pipeline σ} {b : BlockId} {s s₁ : Session σ} {n k : Nat}

theorem runRounds_of_error {err : Error} (h : p.runRound b s = .error err s₁)
    : p.runRounds b (k + 1) s = .error err s₁ := by
  unfold runRounds
  rw [Run.bind_of_error h]

theorem runRounds_of_zero (h : p.runRound b s = .ok 0 s₁)
    : p.runRounds b (k + 1) s = .ok (0, true) s₁ := by
  unfold runRounds
  rw [Run.bind_of_ok h]
  rfl

theorem runRounds_of_changes (h : p.runRound b s = .ok n s₁) (hn : n ≠ 0)
    : p.runRounds b (k + 1) s =
        match p.runRounds b k s₁ with
        | .ok (m, converged) s' => .ok (n + m, converged) s'
        | .error err s' => .error err s' := by
  rw [runRounds, Run.bind_of_ok h]
  simp only [hn, if_false]
  cases hrest : p.runRounds b k s₁ with
  | ok m s' => rw [Run.bind_of_ok hrest]; rfl
  | error err s' => rw [Run.bind_of_error hrest]

end Rounds

end Pipeline

end MachineIR
