import MachineIR.Proofs.Fixpoint

/-!
This module contains rounds that change nothing. A pass that counts no changes has made none, whatever
the routine looks like; so a block over which a pipeline has come to an end without a warning is a
fixpoint of every pass alone and of all of them together.
-/

namespace MachineIR

namespace Edit

open Routine

section Sweeps

variable {σ : Type} {visit : σ → InsnId → Edit σ} {count : σ → Nat} {r r' : Routine} {b : BlockId}
  {d : Direction} {s s' : σ} {c : Cursor} {fuel : Nat}

theorem Counts.eq_of_visitAll (h : Counts visit count) (hrun : visitAll visit fuel c s r = .ok s' r')
    (hcount : count s' = count s) : r' = r := by
  -- The count never gets smaller, so visits that have counted nothing together did so one by one.
  induction fuel generalizing c s r with
  | zero =>
    cases hrun
    rfl
  | succ fuel ih =>
    unfold visitAll at hrun
    rw [get_bind_run] at hrun
    generalize c.next r = next at hrun
    obtain ⟨target, c'⟩ := next
    cases target with
    | none =>
      cases hrun
      rfl
    | some id =>
      obtain ⟨s₁, r₁, hvisit, hrest⟩ := of_bind_ok hrun
      have hle := h.le hvisit
      have hle' := h.visitAll_le hrest
      cases h.same hvisit (by omega)
      exact ih hrest (by omega)

theorem sweepWith_of_live (hb : r.block? b ≠ none)
    : sweepWith b d s visit r = visitAll visit r.insns.size { block := b, direction := d } s r := by
  obtain ⟨found, hfound⟩ := Option.ne_none_iff_exists'.mp hb
  unfold sweepWith cursor
  rw [bind_assoc, bind_of_ok (block_run_some hfound)]
  rfl

theorem Counts.eq_of_sweepWith (h : Counts visit count)
    (hrun : sweepWith b d s visit r = .ok s' r') (hcount : count s' = count s) : r' = r := by
  rw [sweepWith_of_live (block?_of_sweepWith hrun)] at hrun
  exact h.eq_of_visitAll hrun hcount

end Sweeps

section Passes

variable {visit : InsnId → Edit Nat} {r r' : Routine} {b : BlockId} {d : Direction}
  {debug : Bool} {e : BlockId → Edit Nat}

theorem eq_of_sweep (hzero : ∀ {id r r'}, visit id r = .ok 0 r' → r' = r)
    (hrun : sweep b d visit r = .ok 0 r') : r' = r :=
  (counts_counting hzero).eq_of_sweepWith hrun rfl

theorem eq_of_pass (he : e ∈ ofPasses debug) (hrun : e b r = .ok 0 r') : r' = r := by
  -- A pass that counts nothing does not get to its end, and its sweep has changed nothing.
  simp only [ofPasses, List.mem_cons, List.not_mem_nil, or_false] at he
  rcases he with rfl | rfl | rfl | rfl | rfl | rfl <;> beta_reduce at hrun
  . rw [foldConstants_eq, bind_complete_eq_zero_iff] at hrun
    exact eq_of_sweep (fun h => (foldInsn_eq_zero_iff.mp h).1) hrun
  . rw [deduplicate_eq, bind_complete_eq_zero_iff] at hrun
    exact eq_of_sweep (fun h => (mergeInsn_eq_zero_iff.mp h).1) hrun
  . have hsweep : (sweep b .forward combineInsn >>= (complete b · debug)) r = .ok 0 r' := hrun
    rw [bind_complete_eq_zero_iff] at hsweep
    exact eq_of_sweep (fun h => (combineInsn_eq_zero_iff.mp h).1) hsweep
  . cases himage : r.image with
    | none =>
      rw [resolveLoads_of_no_image himage] at hrun
      cases hrun
      rfl
    | some image =>
      rw [resolveLoads_of_image himage, bind_complete_eq_zero_iff] at hrun
      exact eq_of_sweep resolveLoad_eq_zero hrun
  . rw [forwardRegisters_eq] at hrun
    obtain ⟨⟨known, n⟩, r₁, hsweep, hcomplete⟩ := of_bind_ok hrun
    obtain ⟨hn, rfl⟩ := complete_eq_zero hcomplete
    exact counts_visitRegister.eq_of_sweepWith hsweep hn
  . exact eq_of_sweep (fun h => (eraseWhen_eq_zero_iff.mp h).1) hrun

end Passes

end Edit

namespace Pass

variable {σ : Type} {q : Pass σ} {b : BlockId} {debug : Bool} {memory memory' : σ} {r r' : Routine}

theorem eq_of_run (hq : q ∈ builtIn debug) (hrun : q.run b memory r = .ok (0, memory') r')
    : memory' = memory ∧ r' = r := by
  obtain ⟨e, he, hperforms⟩ := exists_performs hq
  rw [hperforms.run] at hrun
  obtain ⟨n, r₁, hedit, hend⟩ := Edit.of_bind_ok hrun
  cases hend
  exact ⟨rfl, Edit.eq_of_pass he hedit⟩

end Pass

namespace Pipeline

open Routine

variable {σ : Type} {p : Pipeline σ} {passes : List (Pass σ)} {b : BlockId} {s s' : Session σ}
  {debug : Bool} {n k : Nat}

theorem warnings_runPasses (hpasses : ∀ q ∈ passes, q ∈ Pass.builtIn debug)
    (h : runPasses passes b s = .ok n s') : s'.warnings = s.warnings := by
  induction passes generalizing s n with
  | nil =>
    cases h
    rfl
  | cons q rest ih =>
    obtain ⟨m, s₁, hfirst, hrest⟩ := Run.of_bind_ok h
    obtain ⟨k, s₂, hrest, hend⟩ := Run.of_bind_ok hrest
    cases hend
    rw [List.forall_mem_cons] at hpasses
    obtain ⟨e, -, hperforms⟩ := Pass.exists_performs hpasses.1
    exact (ih hpasses.2 hrest).trans (of_runPass_ok hperforms hfirst).2.1

theorem idle_of_runPasses (hpasses : ∀ q ∈ passes, q ∈ Pass.builtIn debug)
    (h : runPasses passes b s = .ok 0 s') : s' = s ∧ ∀ q ∈ passes, q.Idle b s.routine := by
  induction passes generalizing s with
  | nil =>
    cases h
    exact ⟨rfl, by simp⟩
  | cons q rest ih =>
    obtain ⟨m, s₁, hfirst, hrest⟩ := Run.of_bind_ok h
    obtain ⟨k, s₂, hrest, hend⟩ := Run.of_bind_ok hrest
    have hsum : m + k = 0 := by injection hend
    obtain ⟨rfl, rfl⟩ : m = 0 ∧ k = 0 := by omega
    cases hend
    rw [List.forall_mem_cons] at hpasses
    obtain ⟨e, he, hperforms⟩ := Pass.exists_performs hpasses.1
    obtain ⟨hrun, -, hrecord⟩ := of_runPass_ok hperforms hfirst
    have hs₁ : s₁ = s := by
      cases s
      cases s₁
      cases Edit.eq_of_pass he hrun
      cases hrecord rfl
      rfl
    subst hs₁
    obtain ⟨hsame, hidle⟩ := ih hpasses.2 hrest
    exact ⟨hsame, List.forall_mem_cons.mpr ⟨hperforms.idle_of_run hrun, hidle⟩⟩

theorem settled_of_runRounds {converged : Bool} (hp : ∀ q ∈ p.passes, q ∈ Pass.builtIn debug)
    (h : p.runRounds b k s = .ok (n, converged) s')
    : s'.warnings = s.warnings ∧ (converged = true → p.Settled b s'.routine) := by
  induction k generalizing s n with
  | zero =>
    cases h
    exact ⟨rfl, nofun⟩
  | succ k ih =>
    obtain ⟨c, s₁, hround, hrest⟩ := Run.of_bind_ok h
    have hwarnings : s₁.warnings = s.warnings := warnings_runPasses hp hround
    by_cases hc : c = 0
    . simp only [hc, if_true] at hrest
      cases hrest
      subst hc
      obtain ⟨rfl, hidle⟩ := idle_of_runPasses hp hround
      exact ⟨hwarnings, fun _ => hidle⟩
    . simp only [hc, if_false] at hrest
      obtain ⟨⟨m, converged'⟩, s₂, hrounds, hend⟩ := Run.of_bind_ok hrest
      cases hend
      obtain ⟨hwarnings', hsettled⟩ := ih hrounds
      exact ⟨hwarnings'.trans hwarnings, hsettled⟩

theorem settled_of_runOnBlock (hp : ∀ q ∈ p.passes, q ∈ Pass.builtIn debug)
    (h : p.runOnBlock b s = .ok n s') (hwarnings : s'.warnings = s.warnings)
    : p.Settled b s'.routine := by
  obtain ⟨⟨m, converged⟩, s₁, hrounds, hrest⟩ := Run.of_bind_ok h
  obtain ⟨hsame, hsettled⟩ := settled_of_runRounds hp hrounds
  cases converged with
  | true =>
    cases hrest
    exact hsettled rfl
  | false =>
    -- The warning that is logged here is one more than there were.
    have hlogged : ∃ event, s'.warnings = s₁.warnings ++ [event] := by
      cases hrest
      exact ⟨_, EventLog.ofKind_record_self⟩
    obtain ⟨event, hlogged⟩ := hlogged
    rw [hwarnings, hsame] at hlogged
    simp at hlogged

theorem runOnBlock_reaches_fixpoint (hp : ∀ q ∈ p.passes, q ∈ Pass.builtIn debug)
    (h : p.runOnBlock b s = .ok n s') (hwarnings : s'.warnings = s.warnings)
    : (∀ q ∈ p.passes, ∀ memory, q.run b memory s'.routine = .ok (0, memory) s'.routine) ∧
        p.runRound b s' = .ok 0 s' ∧
        ∀ q ∈ (Pass.builtIn debug : List (Pass σ)), ∀ c memory memory' r r',
          q.run c memory r = .ok (0, memory') r' → memory' = memory ∧ r' = r := by
  have hsettled := settled_of_runOnBlock hp h hwarnings
  refine ⟨hsettled, runPasses_of_idle hp hsettled, ?_⟩
  intro q hq c memory memory' r r' hrun
  exact Pass.eq_of_run hq hrun

def reordered : Pipeline Unit where
  passes := [.deadCode, .peephole true, .registerForwarding true, .loadResolution true, .deduplication true,
    .constantFolding true, .peephole true]
  maxRounds := 4
  validate := false

def writtenTwice : List Action :=
  [.addBlock,
    .pushBack (.ofNat 0) (.readReg .i64 (.ofNat 0 1)),
    .pushBack (.ofNat 0) (.binop .i64 .mul (.const (.i64 2)) (.const (.i64 3))),
    .pushBack (.ofNat 0) (.unop .i64 .neg (.insn (.ofNat 1))),
    .pushBack (.ofNat 0) (.writeReg (.ofNat 1 1) (.insn (.ofNat 0)) .i64),
    .pushBack (.ofNat 0) (.writeReg (.ofNat 1 1) (.insn (.ofNat 1)) .i64),
    .pushBack (.ofNat 0) (.readReg .f64 (.ofNat 1 1)),
    .pushBack (.ofNat 0) (.writeReg (.ofNat 2 1) (.insn (.ofNat 5)) .f64)]

theorem runOnBlock_reaches_fixpoint_writtenTwice
    : EStateM.run' (reordered.runOnBlock (.ofNat 0)) ⟨after writtenTwice, ⟨{}, ()⟩⟩ = some 13 ∧
        (Run.left (reordered.runOnBlock (.ofNat 0)) ⟨after writtenTwice, ⟨{}, ()⟩⟩).warnings = [] ∧
        (∀ q ∈ reordered.passes, ∀ memory, q.run (.ofNat 0) memory
          (Run.left (reordered.runOnBlock (.ofNat 0)) ⟨after writtenTwice, ⟨{}, ()⟩⟩).routine =
            .ok (0, memory)
              (Run.left (reordered.runOnBlock (.ofNat 0)) ⟨after writtenTwice, ⟨{}, ()⟩⟩).routine) ∧
        reordered.runRound (.ofNat 0)
          (Run.left (reordered.runOnBlock (.ofNat 0)) ⟨after writtenTwice, ⟨{}, ()⟩⟩) =
            .ok 0 (Run.left (reordered.runOnBlock (.ofNat 0)) ⟨after writtenTwice, ⟨{}, ()⟩⟩) := by
  have hrun : EStateM.run' (reordered.runOnBlock (.ofNat 0)) ⟨after writtenTwice, ⟨{}, ()⟩⟩ =
      some 13 := by decide +kernel
  have hwarnings : (Run.left (reordered.runOnBlock (.ofNat 0))
      ⟨after writtenTwice, ⟨{}, ()⟩⟩).warnings = [] := by decide +kernel
  have hp : ∀ q ∈ reordered.passes, q ∈ Pass.builtIn true := by simp [reordered, Pass.builtIn]
  obtain ⟨halone, hround, -⟩ :=
    runOnBlock_reaches_fixpoint hp (Run.run_of_run' hrun) hwarnings
  exact ⟨hrun, hwarnings, halone, hround⟩

end Pipeline

end MachineIR
