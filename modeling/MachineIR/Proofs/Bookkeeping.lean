import MachineIR.Proofs.PipelineRuns

/-!
This module contains the bookkeeping of pipelines. Which passes are run over which blocks, and in
which rounds, is listed apart from the log; what is logged agrees with that list, no matter how many
blocks, rounds and passes there are and where a failure ends the run.
-/

namespace MachineIR

theorem Pass.isTransformation_of_builtIn {σ : Type} {debug : Bool} {q : Pass σ} (h : q ∈ builtIn debug)
    : q.kind.isTransformation = true := by
  simp only [builtIn, List.mem_cons, List.not_mem_nil, or_false] at h
  rcases h with rfl | rfl | rfl | rfl | rfl | rfl <;> rfl

structure Invocation (σ : Type) where
  pass : Pass σ
  block : BlockId
  before : Session σ

namespace Invocation

variable {σ : Type}

def result (i : Invocation σ) : EStateM.Result Error Routine (Nat × σ) :=
  i.pass.run i.block i.before.record.memory i.before.routine

def count (i : Invocation σ) : Nat :=
  match i.result with
  | .ok (n, _) _ => n
  | .error _ _ => 0

def failure? (i : Invocation σ) : Option Error :=
  match i.result with
  | .ok _ _ => none
  | .error e _ => some e

def failureEvent (i : Invocation σ) (e : Error) : Event where
  kind := .error
  message := s!"{i.pass.name} failed on {i.block.render}: {e.message}"

def changes (calls : List (Invocation σ)) : Nat := calls.foldr (fun i n => i.count + n) 0

abbrev Smooth (calls : List (Invocation σ)) : Prop := ∀ i ∈ calls, i.failure? = none

theorem changes_append (calls calls' : List (Invocation σ))
    : changes (calls ++ calls') = changes calls + changes calls' := by
  induction calls with
  | nil => simp [changes]
  | cons i rest ih =>
    have hcons : ∀ calls, changes (i :: calls) = i.count + changes calls := fun _ => rfl
    rw [List.cons_append, hcons, hcons, ih, Nat.add_assoc]

end Invocation

namespace EventLog

theorem mutationCount_append (l l' : EventLog)
    : (l.append l').mutationCount = l.mutationCount + l'.mutationCount := by
  unfold mutationCount transformations append
  rw [List.filter_append, List.foldr_append]
  induction l.events.filter (·.kind.isTransformation) with
  | nil => simp
  | cons e rest ih => rw [List.foldr_cons, List.foldr_cons, ih, Nat.add_assoc]

theorem ofKind_append (l l' : EventLog) (k : EventKind)
    : (l.append l').ofKind k = l.ofKind k ++ l'.ofKind k := List.filter_append ..

theorem append_assoc (l l₁ l₂ : EventLog) : (l.append l₁).append l₂ = l.append (l₁.append l₂) := by
  simp [append]

theorem append_record (l l' : EventLog) (e : Event)
    : (l.append l').record e = l.append (l'.record e) := by
  simp [append, record]

end EventLog

namespace Pipeline

open Invocation

variable {σ : Type}

section Schedule

def roundOf : List (Pass σ) → BlockId → Session σ → List (Invocation σ)
  | [], _, _ => []
  | q :: rest, b, s =>
    ⟨q, b, s⟩ ::
      if Smooth [⟨q, b, s⟩] then roundOf rest b ((runPass q b).left s) else []

abbrev ReportsChanges (round : List (Invocation σ)) : Prop := Smooth round ∧ changes round ≠ 0

def roundsOf (p : Pipeline σ) (b : BlockId) : Nat → Session σ → List (List (Invocation σ))
  | 0, _ => []
  | k + 1, s =>
    roundOf p.passes b s ::
      if ReportsChanges (roundOf p.passes b s) then roundsOf p b k ((p.runRound b).left s) else []

abbrev Exhausted (k : Nat) (rounds : List (List (Invocation σ))) : Prop :=
  rounds.length = k ∧ ∀ round ∈ rounds, ReportsChanges round

theorem exhausted_cons {k : Nat} {round : List (Invocation σ)} {rounds : List (List (Invocation σ))}
    : Exhausted (k + 1) (round :: rounds) ↔ ReportsChanges round ∧ Exhausted k rounds := by
  simp only [Exhausted, List.length_cons, Nat.add_right_cancel_iff, List.forall_mem_cons]
  exact and_left_comm

def visitsOf (p : Pipeline σ) : List BlockId → Session σ → List (BlockId × List (List (Invocation σ)))
  | [], _ => []
  | b :: rest, s =>
    (b, p.roundsOf b p.maxRounds s) ::
      if Smooth (p.roundsOf b p.maxRounds s).flatten then
        visitsOf p rest ((p.runOnBlock b).left s)
      else
        []

theorem visitsOf_blocks {p : Pipeline σ} {blocks : List BlockId} {s : Session σ}
    (h : Smooth ((p.visitsOf blocks s).flatMap (·.2.flatten)))
    : (p.visitsOf blocks s).map (·.1) = blocks := by
  induction blocks generalizing s with
  | nil => rfl
  | cons b rest ih =>
    unfold visitsOf at h ⊢
    rw [List.flatMap_cons, Smooth, List.forall_mem_append] at h
    rw [if_pos h.1] at h ⊢
    rw [List.map_cons, ih h.2]

def unsettled (p : Pipeline σ) (visits : List (BlockId × List (List (Invocation σ))))
    : List BlockId :=
  (visits.filter fun v => Exhausted p.maxRounds v.2).map (·.1)

theorem unsettled_cons (p : Pipeline σ) (b : BlockId) (rounds : List (List (Invocation σ)))
    (visits : List (BlockId × List (List (Invocation σ))))
    : p.unsettled ((b, rounds) :: visits) =
        (if Exhausted p.maxRounds rounds then [b] else []) ++ p.unsettled visits := by
  unfold unsettled
  by_cases h : Exhausted p.maxRounds rounds
  . rw [List.filter_cons_of_pos (by simpa only [decide_eq_true_eq] using h), if_pos h]
    rfl
  . rw [List.filter_cons_of_neg (by simpa only [decide_eq_true_eq] using h), if_neg h]
    rfl

def visits (p : Pipeline σ) (s : Session σ) : List (BlockId × List (List (Invocation σ))) :=
  p.visitsOf s.routine.order s

def invocations (p : Pipeline σ) (s : Session σ) : List (Invocation σ) :=
  (p.visits s).flatMap (·.2.flatten)

end Schedule

section Log

variable {p : Pipeline σ} {l l' : EventLog} {n n' : Nat} {warned warned' : List BlockId}

def warning (p : Pipeline σ) (b : BlockId) : Event where
  kind := .warning
  message := s!"{b.render} did not converge within {p.maxRounds} rounds"

/-- The events stand for `n` changes and for warnings about some blocks, and for nothing else. -/
structure Books (p : Pipeline σ) (l : EventLog) (n : Nat) (warned : List BlockId) : Prop where
  mutationCount : l.mutationCount = n
  warnings : l.ofKind .warning = warned.map p.warning
  kinds : ∀ e ∈ l.events, e.kind.isTransformation = true ∨ e.kind = .warning

namespace Books

theorem empty : p.Books {} 0 [] := ⟨rfl, rfl, nofun⟩

theorem append (h : p.Books l n warned) (h' : p.Books l' n' warned')
    : p.Books (l.append l') (n + n') (warned ++ warned') where
  mutationCount := by rw [EventLog.mutationCount_append, h.mutationCount, h'.mutationCount]
  warnings := by rw [EventLog.ofKind_append, h.warnings, h'.warnings, List.map_append]
  kinds := by
    intro e he
    rcases List.mem_append.mp he with he | he
    . exact h.kinds e he
    . exact h'.kinds e he

theorem transformation {e : Event} (h : e.kind.isTransformation = true) : p.Books ⟨[e]⟩ e.count [] where
  mutationCount := by simp [EventLog.mutationCount, EventLog.transformations, h]
  warnings := by
    have hkind : e.kind ≠ .warning := by
      intro hkind
      rw [hkind] at h
      cases h
    simp [EventLog.ofKind, hkind]
  kinds := by
    rintro e' he'
    cases List.mem_singleton.mp he'
    exact Or.inl h

theorem warning (b : BlockId) : p.Books ⟨[p.warning b]⟩ 0 [b] where
  mutationCount := rfl
  warnings := rfl
  kinds := by
    intro e he
    cases List.mem_singleton.mp he
    exact Or.inr rfl

theorem not_routineOptimized (h : p.Books l n warned) {e : Event} (he : e ∈ l.events)
    : e.kind ≠ .routineOptimized := by
  intro hkind
  rcases h.kinds e he with htransformation | hwarning
  . rw [hkind] at htransformation
    cases htransformation
  . rw [hkind] at hwarning
    cases hwarning

end Books

end Log

section Runs

variable {p : Pipeline σ} {x : Run σ Nat} {y : Nat → Run σ Nat} {s s' : Session σ}
  {calls calls' : List (Invocation σ)} {warned warned' : List BlockId} {q : Pass σ} {b : BlockId}

/--
A run that makes these invocations. If all of them succeed, its result is what they report together,
and its log adds up to that. Otherwise the last one fails, which is the last thing to be logged.
-/
inductive Follows (p : Pipeline σ) (x : Run σ Nat) (s : Session σ) (calls : List (Invocation σ))
    (warned : List BlockId) : Prop where
  | finished {s' : Session σ} (new : EventLog) (hrun : x s = .ok (changes calls) s')
      (hcalls : Smooth calls) (hlog : s'.record.log = s.record.log.append new)
      (hnew : p.Books new (changes calls) warned)
  | failed {s' : Session σ} {i : Invocation σ} {e : Error} {n : Nat} {warned' : List BlockId}
      (new : EventLog) (front : List (Invocation σ)) (hrun : x s = .error e s')
      (hcalls : calls = front ++ [i]) (hfront : Smooth front) (hfailure : i.failure? = some e)
      (hlog : s'.record.log = s.record.log.append (new.record (i.failureEvent e)))
      (hnew : p.Books new n warned')

namespace Follows

theorem bind_of_failure {f : Nat → Run σ Nat} (h : p.Follows x s calls warned)
    (hcalls : ¬Smooth calls) : p.Follows (x >>= f) s calls warned' := by
  cases h with
  | finished _ _ hcalls' => exact absurd hcalls' hcalls
  | failed new front hrun hcalls hfront hfailure hlog hnew =>
    exact .failed new front (Run.bind_of_error hrun) hcalls hfront hfailure hlog hnew

theorem add (h : p.Follows x s calls warned) (hcalls : Smooth calls)
    (hy : p.Follows (y (changes calls)) (x.left s) calls' warned')
    : p.Follows (do let n ← x; return n + (← y n)) s (calls ++ calls') (warned ++ warned') := by
  cases h with
  | failed _ _ _ heq _ hfailure =>
    have hnone := hcalls _ (heq ▸ List.mem_append_right _ (List.mem_singleton.mpr rfl))
    rw [hfailure] at hnone
    cases hnone
  | finished new hrun _ hlog hnew =>
    rw [Run.left_of_ok hrun] at hy
    cases hy with
    | @finished s₂ new' hrun' hcalls' hlog' hnew' =>
      have hsum : (do let n ← x; return n + (← y n)) s = .ok (changes (calls ++ calls')) s₂ := by
        rw [Run.bind_of_ok hrun, Run.bind_of_ok hrun', changes_append]
        rfl
      refine finished (new.append new') hsum (List.forall_mem_append.mpr ⟨hcalls, hcalls'⟩) ?_ ?_
      . rw [hlog', hlog, EventLog.append_assoc]
      . rw [changes_append]
        exact hnew.append hnew'
    | @failed s₂ i e n warned₂ new' front hrun' heq hfront hfailure hlog' hnew' =>
      have herror : (do let n ← x; return n + (← y n)) s = .error e s₂ := by
        rw [Run.bind_of_ok hrun, Run.bind_of_error hrun']
      refine failed (new.append new') (calls ++ front) herror ?_
        (List.forall_mem_append.mpr ⟨hcalls, hfront⟩) hfailure ?_ (hnew.append hnew')
      . rw [heq, List.append_assoc]
      . rw [hlog', hlog, EventLog.append_assoc, EventLog.append_record]

end Follows

theorem follows_nothing : p.Follows (return 0) s [] [] :=
  .finished {} rfl nofun (by simp [EventLog.append]) .empty

theorem follows_runPass (hq : q.kind.isTransformation = true)
    : p.Follows (runPass q b) s [⟨q, b, s⟩] [] := by
  cases hresult : q.run b s.record.memory s.routine with
  | error e r' =>
    have hpass : Run.pass q b s = .error e { s with routine := r' } := by
      unfold Run.pass
      rw [hresult]
    have hfailure : (⟨q, b, s⟩ : Invocation σ).failure? = some e := by
      unfold failure? result
      rw [hresult]
    exact .failed {} [] (Run.bind_of_error (Run.tryCatch_of_error hpass)) rfl nofun hfailure rfl .empty
  | ok a r' =>
    obtain ⟨n, memory⟩ := a
    have hpass : Run.pass q b s = .ok n ⟨r', { s.record with memory }⟩ := by
      unfold Run.pass
      rw [hresult]
    have hsmooth : Smooth [(⟨q, b, s⟩ : Invocation σ)] := by
      intro i hi
      cases List.mem_singleton.mp hi
      unfold failure? result
      rw [hresult]
    have hcount : changes [(⟨q, b, s⟩ : Invocation σ)] = n := by
      simp only [changes, count, result, hresult, List.foldr_cons, List.foldr_nil, Nat.add_zero]
    -- A pass that reports no changes is not logged.
    by_cases hn : n > 0
    . have hrun : runPass q b s = .ok n ⟨r', s.record.log.record
          { kind := q.kind, routine := r'.ip, block := some b, count := n, pass := some q.name },
          memory⟩ := by
        unfold runPass
        rw [Run.bind_of_ok (Run.tryCatch_of_ok hpass)]
        simp only [hn, if_true]
        rfl
      rw [← hcount] at hrun
      exact .finished ⟨[_]⟩ hrun hsmooth rfl (hcount ▸ .transformation hq)
    . have hrun : runPass q b s = .ok n ⟨r', s.record.log, memory⟩ := by
        unfold runPass
        rw [Run.bind_of_ok (Run.tryCatch_of_ok hpass)]
        simp only [hn, if_false]
        rfl
      have hzero : changes [(⟨q, b, s⟩ : Invocation σ)] = 0 := by omega
      rw [← hcount] at hrun
      refine .finished {} hrun hsmooth (by simp [EventLog.append]) ?_
      rw [hzero]
      exact .empty

theorem follows_runPasses {passes : List (Pass σ)}
    (hpasses : ∀ q ∈ passes, q.kind.isTransformation = true)
    : p.Follows (runPasses passes b) s (roundOf passes b s) [] := by
  induction passes generalizing s with
  | nil => exact follows_nothing
  | cons q rest ih =>
    rw [List.forall_mem_cons] at hpasses
    have hfirst : p.Follows (runPass q b) s [⟨q, b, s⟩] [] := follows_runPass hpasses.1
    unfold roundOf
    split
    . next hsmooth => exact hfirst.add hsmooth (ih hpasses.2)
    . next hfailure => exact hfirst.bind_of_failure hfailure

def attempts (p : Pipeline σ) (b : BlockId) (k : Nat) : Run σ Nat := do
  let (n, converged) ← p.runRounds b k
  if !converged then
    Run.log (p.warning b)
  return n

theorem attempts_of_error {k : Nat} {e : Error} (h : p.runRounds b k s = .error e s')
    : p.attempts b k s = .error e s' := Run.bind_of_error h

theorem attempts_of_ok {k n : Nat} {converged : Bool}
    (h : p.runRounds b k s = .ok (n, converged) s')
    : p.attempts b k s =
        .ok n (if converged then s' else Run.left (Run.log (p.warning b)) s') := by
  unfold attempts
  rw [Run.bind_of_ok h]
  cases converged with
  | true => rfl
  | false => rfl

def attemptsAfter (p : Pipeline σ) (b : BlockId) (k n : Nat) : Run σ Nat :=
  if n = 0 then pure 0 else p.attempts b k

theorem attempts_succ (k : Nat)
    : p.attempts b (k + 1) = do
        let n ← p.runRound b
        return n + (← p.attemptsAfter b k n) := by
  funext s
  cases hround : p.runRound b s with
  | error e s₁ => rw [attempts_of_error (runRounds_of_error hround), Run.bind_of_error hround]
  | ok n s₁ =>
    rw [Run.bind_of_ok hround]
    unfold attemptsAfter
    by_cases hn : n = 0
    . subst hn
      rw [attempts_of_ok (runRounds_of_zero hround)]
      rfl
    . have hrounds := runRounds_of_changes (k := k) hround hn
      rw [if_neg hn]
      cases hrest : p.runRounds b k s₁ with
      | error e s₂ =>
        rw [hrest] at hrounds
        rw [attempts_of_error hrounds, Run.bind_of_error (attempts_of_error hrest)]
      | ok m s₂ =>
        rw [hrest] at hrounds
        rw [attempts_of_ok hrounds, Run.bind_of_ok (attempts_of_ok hrest)]
        rfl

theorem follows_attempts (hp : ∀ q ∈ p.passes, q.kind.isTransformation = true) (k : Nat)
    : p.Follows (p.attempts b k) s (p.roundsOf b k s).flatten
        (if Exhausted k (p.roundsOf b k s) then [b] else []) := by
  induction k generalizing s with
  | zero => exact .finished ⟨[p.warning b]⟩ rfl nofun rfl (.warning b)
  | succ k ih =>
    have hround : p.Follows (p.runRound b) s (roundOf p.passes b s) [] := follows_runPasses hp
    unfold roundsOf
    rw [attempts_succ, List.flatten_cons]
    by_cases hsmooth : Smooth (roundOf p.passes b s)
    . by_cases hchanges : changes (roundOf p.passes b s) = 0
      . have hidle : ¬ReportsChanges (roundOf p.passes b s) := fun h => h.2 hchanges
        rw [if_neg hidle, if_neg fun h => hidle (exhausted_cons.mp h).1]
        refine hround.add hsmooth ?_
        rw [attemptsAfter, if_pos hchanges]
        exact follows_nothing
      . have hbusy : ReportsChanges (roundOf p.passes b s) := ⟨hsmooth, hchanges⟩
        simp only [if_pos hbusy, exhausted_cons, and_iff_right hbusy]
        refine hround.add hsmooth ?_
        rw [attemptsAfter, if_neg hchanges]
        exact ih
    . have hfailed : ¬ReportsChanges (roundOf p.passes b s) := fun h => hsmooth h.1
      rw [if_neg hfailed, List.flatten_nil, List.append_nil]
      exact hround.bind_of_failure hsmooth

theorem follows_runOnBlocks (hp : ∀ q ∈ p.passes, q.kind.isTransformation = true)
    (blocks : List BlockId)
    : p.Follows (p.runOnBlocks blocks) s ((p.visitsOf blocks s).flatMap (·.2.flatten))
        (p.unsettled (p.visitsOf blocks s)) := by
  induction blocks generalizing s with
  | nil => exact follows_nothing
  | cons b rest ih =>
    have hfirst : p.Follows (p.runOnBlock b) s _ _ := follows_attempts hp p.maxRounds
    unfold visitsOf
    by_cases hsmooth : Smooth (p.roundsOf b p.maxRounds s).flatten
    . rw [if_pos hsmooth, List.flatMap_cons, unsettled_cons]
      exact hfirst.add hsmooth ih
    . rw [if_neg hsmooth, List.flatMap_cons, List.flatMap_nil, List.append_nil]
      exact hfirst.bind_of_failure hsmooth

end Runs

section Routines

variable {p : Pipeline σ} {debug : Bool} {s s' : Session σ}

def completion (s : Session σ) (total : Nat) : Event where
  kind := .routineOptimized
  routine := s.routine.ip
  count := total

theorem runOnRoutine_of_failure {e : Error} (h : p.runOnBlocks s.routine.order s = .error e s')
    : p.runOnRoutine s = .error e s' := by
  unfold runOnRoutine
  rw [Run.get_bind_run, Run.bind_of_error h]

theorem runOnRoutine_cases {n : Nat} (h : p.runOnBlocks s.routine.order s = .ok n s')
    : p.runOnRoutine s = .ok n (Run.left (Run.log (completion s' n)) s') ∨
        ∃ e, p.validate = true ∧ s'.routine.check = .error e ∧ p.runOnRoutine s = .error e s' := by
  -- After the work on the blocks, only the check can fail.
  unfold runOnRoutine
  rw [Run.get_bind_run, Run.bind_of_ok h, Run.get_bind_run]
  cases p.validate with
  | false => exact Or.inl rfl
  | true =>
    cases hcheck : s'.routine.check with
    | ok u => exact Or.inl rfl
    | error e => exact Or.inr ⟨e, rfl, rfl, rfl⟩

structure Accounted (p : Pipeline σ) (s : Session σ) (total : Nat) (s' : Session σ) : Prop where
  visited : (p.visits s).map (·.1) = s.routine.order
  total_eq : total = changes (p.invocations s)
  mutationCount : s'.record.log.mutationCount = s.record.log.mutationCount + total
  -- One event says that the work is done, and it is the last one.
  completed : ∃ new : List Event,
    s'.record.log.events = s.record.log.events ++ new ++ [completion s' total] ∧
      ∀ e ∈ new, e.kind ≠ .routineOptimized
  warnings : s'.warnings = s.warnings ++ (p.unsettled (p.visits s)).map p.warning

theorem accounted_of_books {new : EventLog} (hsmooth : Smooth (p.invocations s))
    (hlog : s'.record.log = s.record.log.append new)
    (hnew : p.Books new (changes (p.invocations s)) (p.unsettled (p.visits s)))
    : p.Accounted s (changes (p.invocations s))
        (Run.left (Run.log (completion s' (changes (p.invocations s)))) s') := by
  have hlogged : (Run.left (Run.log (completion s' (changes (p.invocations s)))) s').record.log =
      (s.record.log.append new).append ⟨[completion s' (changes (p.invocations s))]⟩ := by
    rw [← hlog]
    rfl
  refine ⟨visitsOf_blocks hsmooth, rfl, ?_, ⟨new.events, ?_, ?_⟩, ?_⟩
  . rw [hlogged, EventLog.mutationCount_append, EventLog.mutationCount_append, hnew.mutationCount]
    rfl
  . rw [hlogged]
    rfl
  . intro e he
    exact hnew.not_routineOptimized he
  . unfold Session.warnings
    rw [hlogged, EventLog.ofKind_append, EventLog.ofKind_append, hnew.warnings]
    exact List.append_nil _

theorem runOnRoutine_keeps_books (hp : ∀ q ∈ p.passes, q ∈ Pass.builtIn debug) (s : Session σ)
    : s.record.log.events <+: (p.runOnRoutine.left s).record.log.events ∧
        (∀ total s', p.runOnRoutine s = .ok total s' → p.Accounted s total s') ∧
        (∀ i ∈ p.invocations s, ∀ e, i.failure? = some e →
          ∃ s' new, p.runOnRoutine s = .error e s' ∧
            s'.record.log.events = s.record.log.events ++ new ++ [i.failureEvent e] ∧
            ∀ e ∈ new, e.kind ≠ .routineOptimized) ∧
        ∀ e s', p.runOnRoutine s = .error e s' →
          (∃ i ∈ p.invocations s, i.failure? = some e) ∨
            (p.validate = true ∧ s'.routine.check = .error e ∧
              ∃ new, s'.record.log.events = s.record.log.events ++ new ∧
                ∀ e ∈ new, e.kind ≠ .routineOptimized) := by
  have hkinds : ∀ q ∈ p.passes, q.kind.isTransformation = true :=
    fun q hq => Pass.isTransformation_of_builtIn (hp q hq)
  have hfollows : p.Follows (p.runOnBlocks s.routine.order) s (p.invocations s)
      (p.unsettled (p.visits s)) := follows_runOnBlocks hkinds _
  cases hfollows with
  | @failed s' i e n warned new front hrun hcalls hfront hfailure hlog hnew =>
    -- The invocations end with the one that fails, so no other one can be meant.
    have hroutine := runOnRoutine_of_failure hrun
    have hevents : s'.record.log.events =
        s.record.log.events ++ new.events ++ [i.failureEvent e] := by
      rw [hlog, List.append_assoc]
      rfl
    refine ⟨?_, ?_, ?_, ?_⟩
    . rw [Run.left_of_error hroutine, hevents, List.append_assoc]
      exact List.prefix_append _ _
    . intro total s₁ hdone
      rw [hroutine] at hdone
      cases hdone
    . intro j hj e' he'
      rw [hcalls] at hj
      rcases List.mem_append.mp hj with hj | hj
      . rw [hfront j hj] at he'
        cases he'
      . cases List.mem_singleton.mp hj
        rw [hfailure] at he'
        cases he'
        exact ⟨s', new.events, hroutine, hevents, fun e he => hnew.not_routineOptimized he⟩
    . intro e' s₁ herror
      rw [hroutine] at herror
      cases herror
      exact Or.inl ⟨i, by simp [hcalls], hfailure⟩
  | @finished s' new hrun hcalls hlog hnew =>
    have hsmooth : ∀ i ∈ p.invocations s, ∀ e, i.failure? ≠ some e := by
      intro i hi e he
      rw [hcalls i hi] at he
      cases he
    have hevents : s'.record.log.events = s.record.log.events ++ new.events := by
      rw [hlog]
      rfl
    -- No pass fails, so it is up to the check whether the work gets done.
    rcases runOnRoutine_cases hrun with hroutine | ⟨e, hvalidate, hcheck, hroutine⟩
    . have haccounted := accounted_of_books hcalls hlog hnew
      refine ⟨?_, ?_, fun i hi e he => absurd he (hsmooth i hi e), ?_⟩
      . obtain ⟨new', hnew', -⟩ := haccounted.completed
        rw [Run.left_of_ok hroutine, hnew', List.append_assoc]
        exact List.prefix_append _ _
      . intro total s₁ hdone
        rw [hroutine] at hdone
        cases hdone
        exact haccounted
      . intro e s₁ herror
        rw [hroutine] at herror
        cases herror
    . refine ⟨?_, ?_, fun i hi e he => absurd he (hsmooth i hi e), ?_⟩
      . rw [Run.left_of_error hroutine, hevents]
        exact List.prefix_append _ _
      . intro total s₁ hdone
        rw [hroutine] at hdone
        cases hdone
      . intro e' s₁ herror
        rw [hroutine] at herror
        cases herror
        exact Or.inr ⟨hvalidate, hcheck, new.events, hevents, fun e he => hnew.not_routineOptimized he⟩

def hasty : Pipeline Unit where
  passes := [.peephole true, .constantFolding true, .deadCode]
  maxRounds := 1

def unequal : Routine :=
  Routine.after [.addBlock, .addBlock,
    .pushBack (.ofNat 0) (.readReg .i64 (.ofNat 0 1)),
    .pushBack (.ofNat 0) (.binop .i64 .mul (.const (.i64 2)) (.const (.i64 3))),
    .pushBack (.ofNat 0) (.unop .i64 .neg (.insn (.ofNat 1))),
    .pushBack (.ofNat 0) (.writeReg (.ofNat 1 1) (.insn (.ofNat 2)) .i64)]

def begun (r : Routine) : Session Unit := ⟨r, ⟨⟨[{ kind := .info }]⟩, ()⟩⟩

theorem runOnRoutine_keeps_books_hasty
    : (EStateM.run' hasty.runOnRoutine (begun unequal) = some 7 ∧
          hasty.unsettled (hasty.visits (begun unequal)) = [.ofNat 0] ∧
          hasty.Accounted (begun unequal) 7 (hasty.runOnRoutine.left (begun unequal))) ∧
        ∃ i ∈ hasty.invocations (begun { unequal with order := [.ofNat 0, .ofNat 7] }),
          i.block = .ofNat 7 ∧ i.failure? = some (.invalidHandle (.block (.ofNat 7))) ∧
          ∃ s' new, hasty.runOnRoutine (begun { unequal with order := [.ofNat 0, .ofNat 7] }) =
              .error (.invalidHandle (.block (.ofNat 7))) s' ∧
            s'.record.log.events = [{ kind := .info }] ++ new ++
              [i.failureEvent (.invalidHandle (.block (.ofNat 7)))] := by
  have hp : ∀ q ∈ hasty.passes, q ∈ Pass.builtIn true := by simp [hasty, Pass.builtIn]
  have hrun : EStateM.run' hasty.runOnRoutine (begun unequal) = some 7 := by decide +kernel
  have hfails : ∃ i ∈ hasty.invocations (begun { unequal with order := [.ofNat 0, .ofNat 7] }),
      i.block = .ofNat 7 ∧ i.failure? = some (.invalidHandle (.block (.ofNat 7))) := by
    decide +kernel
  refine ⟨⟨hrun, by decide +kernel, ?_⟩, ?_⟩
  . exact (runOnRoutine_keeps_books hp (begun unequal)).2.1 _ _ (Run.run_of_run' hrun)
  . obtain ⟨i, hi, hblock, hfailure⟩ := hfails
    obtain ⟨s', new, herror, hevents, -⟩ :=
      (runOnRoutine_keeps_books hp (begun _)).2.2.1 i hi _ hfailure
    exact ⟨i, hi, hblock, hfailure, s', new, herror, hevents⟩

end Routines

end Pipeline

end MachineIR
