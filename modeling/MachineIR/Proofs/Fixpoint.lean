import Mathlib.Data.List.Infix
import MachineIR.Proofs.Agreement

/-!
This module contains when an optimised routine is at its fixpoint: a pipeline that has settled every
block finds nothing more to do, unless a block has changed what an earlier one refers to.
-/

namespace MachineIR

open Routine

namespace Routine

variable {r : Routine} {B : List BlockId} {id j : InsnId}

theorem refers_iff_mem : r.Refers id (.insn j) ↔
    .insn j ∈ ((r.code? id).map Instruction.operands).getD [] := by
  unfold Refers
  cases r.code? id with
  | none => simp
  | some c => simp

instance : Decidable (r.RefersWithin B) :=
  decidable_of_iff
    (∀ b ∈ B, ∀ id ∈ r.insnsOf b, ∀ x ∈ ((r.code? id).map Instruction.operands).getD [],
      ∀ j ∈ x.insn?, ∃ c ∈ B, j ∈ r.insnsOf c) <| by
  constructor
  . rintro h id j ⟨b, hb, hid⟩ hrefers
    exact h b hb id hid _ (refers_iff_mem.mp hrefers) j rfl
  . intro h b hb id hid x hx j hj
    have hxj : x = .insn j := by
      cases x with
      | value v => cases v <;> cases hj; rfl
      | _ => cases hj
    subst hxj
    exact h id j ⟨b, hb, hid⟩ (refers_iff_mem.mpr hx)

def Layered (r : Routine) : Prop := ∀ front, front <+: r.order → r.RefersWithin front

instance : Decidable r.Layered :=
  decidable_of_iff (∀ front ∈ r.order.inits, r.RefersWithin front) <| by
    simp only [List.mem_inits]
    rfl

def Secluded (r : Routine) : Prop := ∀ front, front <+: r.order → r.ReferredWithin front

theorem Agree.used {r' : Routine} (h : r.Agree B r') (hB : r.ReferredWithin B)
    (hid : r.Inhabits B id) (hused : r.Used id) : r'.Used id := by
  obtain ⟨u, hu⟩ := hused
  refine ⟨u, ?_⟩
  unfold Refers
  rw [h.code u (hB u id hid hu)]
  exact hu

end Routine

namespace Pass

variable {σ : Type} {q : Pass σ} {e : BlockId → Edit Nat} {b : BlockId} {debug : Bool} {B : List BlockId}
  {r r' : Routine}

theorem Performs.idle_iff (h : q.Performs e) (memory : σ) : q.Idle b r ↔ e b r = .ok 0 r := by
  constructor
  . intro hidle
    have hrun := hidle memory
    cases he : e b r with
    | ok n r₁ =>
      rw [h.run_of_ok he] at hrun
      cases hrun
      rfl
    | error err r₁ =>
      rw [h.run_of_error he] at hrun
      cases hrun
  . exact h.idle_of_run

theorem Idle.of_agree (memory : σ) (hq : q ∈ builtIn debug) (h : r.Agree B r') (hb : b ∈ B)
    (hunused : ∀ id, r.Inhabits B id → r'.Used id → r.Used id)
    (hused : q = deadCode → r.ReferredWithin B) (hidle : q.Idle b r) : q.Idle b r' := by
  have htransfer : ∀ {e : BlockId → Edit Nat}, q.Performs e →
      (e b r = .ok 0 r → e b r' = .ok 0 r') → q.Idle b r' := by
    intro e hperforms hrun
    exact (hperforms.idle_iff memory).mpr (hrun ((hperforms.idle_iff memory).mp hidle))
  simp only [builtIn, List.mem_cons, List.not_mem_nil, or_false] at hq
  rcases hq with rfl | rfl | rfl | rfl | rfl | rfl
  . exact htransfer (performs_ofEdit (by decide)) (h.foldConstants hb)
  . exact htransfer (performs_ofEdit (by decide)) (h.deduplicate hb hunused)
  . exact htransfer (performs_ofEdit (by decide)) (h.combine hb)
  . exact htransfer (performs_ofEdit (by decide)) (h.resolveLoads hb hunused)
  . exact htransfer (performs_ofEdit (by decide)) (h.forwardRegisters hb)
  . refine htransfer (performs_ofEdit (by decide)) (h.removeDeadCode hb ?_)
    intro id hid
    exact h.used (hused rfl) hid

end Pass

namespace Pipeline

variable {σ : Type} {p : Pipeline σ} {passes : List (Pass σ)} {b : BlockId}
  {blocks rest : List BlockId} {debug : Bool} {s s' s₁ : Session σ} {n k : Nat}

def Settled (p : Pipeline σ) (b : BlockId) (r : Routine) : Prop := ∀ q ∈ p.passes, q.Idle b r

section Settled

theorem runPasses_of_idle (hpasses : ∀ q ∈ passes, q ∈ Pass.builtIn debug)
    (h : ∀ q ∈ passes, q.Idle b s.routine) : runPasses passes b s = .ok 0 s := by
  induction passes with
  | nil => rfl
  | cons q rest ih =>
    rw [List.forall_mem_cons] at hpasses h
    obtain ⟨e, -, hperforms⟩ := Pass.exists_performs hpasses.1
    obtain ⟨record, hrun, -, hrecord⟩ :=
      runPass_of_ok hperforms ((hperforms.idle_iff s.record.memory).mp h.1)
    rw [hrecord rfl] at hrun
    unfold runPasses
    rw [Run.bind_of_ok hrun, Run.bind_of_ok (ih hpasses.2 h.2)]
    rfl

theorem runRounds_of_settled (hp : ∀ q ∈ p.passes, q ∈ Pass.builtIn debug)
    (h : p.Settled b s.routine) : ∃ converged, p.runRounds b k s = .ok (0, converged) s := by
  cases k with
  | zero => exact ⟨false, rfl⟩
  | succ k => exact ⟨true, runRounds_of_zero (runPasses_of_idle hp h)⟩

theorem runOnBlock_of_settled (hp : ∀ q ∈ p.passes, q ∈ Pass.builtIn debug) (h : p.Settled b s.routine)
    : ∃ record, p.runOnBlock b s = .ok 0 ⟨s.routine, record⟩ := by
  obtain ⟨converged, hrun⟩ := runRounds_of_settled (k := p.maxRounds) hp h
  unfold runOnBlock
  rw [Run.bind_of_ok hrun]
  cases converged with
  | true => exact ⟨_, rfl⟩
  | false => exact ⟨_, rfl⟩

theorem runOnBlocks_of_settled (hp : ∀ q ∈ p.passes, q ∈ Pass.builtIn debug)
    (h : ∀ b ∈ blocks, p.Settled b s.routine)
    : ∃ record, p.runOnBlocks blocks s = .ok 0 ⟨s.routine, record⟩ := by
  induction blocks generalizing s with
  | nil => exact ⟨s.record, rfl⟩
  | cons b rest ih =>
    rw [List.forall_mem_cons] at h
    obtain ⟨record, hfirst⟩ := runOnBlock_of_settled hp h.1
    obtain ⟨record', hrest⟩ := ih (s := ⟨s.routine, record⟩) h.2
    refine ⟨record', ?_⟩
    unfold runOnBlocks
    rw [Run.bind_of_ok hfirst, Run.bind_of_ok hrest]
    rfl

end Settled

section Runs

theorem grows_runRounds {result : Nat × Bool} (hp : ∀ q ∈ p.passes, q ∈ Pass.builtIn debug)
    (h : p.runRounds b k s = .ok result s') : s.routine.Grows s'.routine := by
  induction k generalizing s result with
  | zero =>
    cases h
    exact Grows.refl _
  | succ k ih =>
    obtain ⟨n, s₁, hround, hrest⟩ := Run.of_bind_ok h
    have hgrows : s.routine.Grows s₁.routine := grows_runPasses hp hround
    by_cases hn : n = 0
    . simp only [hn, if_true] at hrest
      cases hrest
      exact hgrows
    . simp only [hn, if_false] at hrest
      obtain ⟨m, s₂, hrounds, hend⟩ := Run.of_bind_ok hrest
      cases hend
      exact hgrows.trans (ih hrounds)

theorem runRounds_cases {converged : Bool} (hp : ∀ q ∈ p.passes, q ∈ Pass.builtIn debug)
    (hs : s.routine.Intact) (h : p.runRounds b k s = .ok (n, converged) s')
    (hsmall : s'.routine.Small)
    : s'.routine.Intact ∧ s'.warnings = s.warnings ∧
        Relation.ReflTransGen (Reworked b) s.routine s'.routine ∧
        (converged = true → k ≠ 0 ∧ p.Settled b s'.routine) ∧
        (n = 0 → k ≠ 0 → p.Settled b s.routine) := by
  induction k generalizing s n with
  | zero =>
    cases h
    exact ⟨hs, rfl, .refl, nofun, fun _ hk => absurd rfl hk⟩
  | succ k ih =>
    obtain ⟨c, s₁, hround, hrest⟩ := Run.of_bind_ok h
    by_cases hc : c = 0
    . simp only [hc, if_true] at hrest
      cases hrest
      obtain ⟨hs', hwarnings, hcases⟩ := runPasses_cases hp hs hround hsmall
      obtain ⟨-, rfl, hidle⟩ := hcases.resolve_right fun h => h.1 hc
      exact ⟨hs', hwarnings, .refl, fun _ => ⟨Nat.succ_ne_zero k, hidle⟩, fun _ _ => hidle⟩
    . simp only [hc, if_false] at hrest
      obtain ⟨⟨m, converged'⟩, s₂, hrounds, hend⟩ := Run.of_bind_ok hrest
      cases hend
      have hsmall₁ := (grows_runRounds hp hrounds).small hsmall
      obtain ⟨hs₁, hwarnings, hcases⟩ := runPasses_cases hp hs hround hsmall₁
      have hsteps := (hcases.resolve_left fun h => hc h.1).2
      obtain ⟨hs', hwarnings', hsteps', hsettled, -⟩ := ih hs₁ hrounds
      refine ⟨hs', hwarnings'.trans hwarnings, hsteps.to_reflTransGen.trans hsteps', ?_, ?_⟩
      . intro hconverged
        exact ⟨Nat.succ_ne_zero k, (hsettled hconverged).2⟩
      . intro hzero
        omega

theorem runOnBlock_cases (hp : ∀ q ∈ p.passes, q ∈ Pass.builtIn debug) (hs : s.routine.Intact)
    (h : p.runOnBlock b s = .ok n s') (hsmall : s'.routine.Small)
    : s'.routine.Intact ∧ Relation.ReflTransGen (Reworked b) s.routine s'.routine ∧
        ((s'.warnings = s.warnings ∧ p.maxRounds ≠ 0 ∧ p.Settled b s'.routine) ∨
          s.warnings.length < s'.warnings.length) ∧
        (n = 0 → p.maxRounds ≠ 0 → p.Settled b s.routine) := by
  obtain ⟨⟨m, converged⟩, s₁, hrounds, hrest⟩ := Run.of_bind_ok h
  cases converged with
  | true =>
    cases hrest
    obtain ⟨hs', hwarnings, hsteps, hsettled, hzero⟩ := runRounds_cases hp hs hrounds hsmall
    exact ⟨hs', hsteps, Or.inl ⟨hwarnings, hsettled rfl⟩, hzero⟩
  | false =>
    have hlogged : ∃ event, s'.warnings = s₁.warnings ++ [event] ∧ s' = ⟨s₁.routine, s'.record⟩ := by
      cases hrest
      exact ⟨_, EventLog.ofKind_record_self, rfl⟩
    obtain ⟨event, hlogged, hs'⟩ := hlogged
    rw [hs'] at hsmall
    obtain ⟨hintact, hwarnings, hsteps, -, hzero⟩ := runRounds_cases hp hs hrounds hsmall
    cases hrest
    refine ⟨hintact, hsteps, Or.inr ?_, hzero⟩
    rw [hlogged, hwarnings, List.length_append]
    exact Nat.lt_succ_self _

theorem grows_runOnBlock (hp : ∀ q ∈ p.passes, q ∈ Pass.builtIn debug) (h : p.runOnBlock b s = .ok n s')
    : s.routine.Grows s'.routine := by
  obtain ⟨⟨m, converged⟩, s₁, hrounds, hrest⟩ := Run.of_bind_ok h
  have hgrows := grows_runRounds hp hrounds
  cases converged with
  | true =>
    cases hrest
    exact hgrows
  | false =>
    cases hrest
    exact hgrows

theorem grows_runOnBlocks (hp : ∀ q ∈ p.passes, q ∈ Pass.builtIn debug)
    (h : p.runOnBlocks blocks s = .ok n s') : s.routine.Grows s'.routine := by
  induction blocks generalizing s n with
  | nil =>
    cases h
    exact Grows.refl _
  | cons b rest ih =>
    obtain ⟨m, s₁, hfirst, hrest⟩ := Run.of_bind_ok h
    obtain ⟨k, s₂, hrest, hend⟩ := Run.of_bind_ok hrest
    cases hend
    exact (grows_runOnBlock hp hfirst).trans (ih hrest)

theorem runOnBlocks_cases (hp : ∀ q ∈ p.passes, q ∈ Pass.builtIn debug) (hs : s.routine.Intact)
    (h : p.runOnBlocks blocks s = .ok n s') (hsmall : s'.routine.Small)
    : s'.routine.Intact ∧ s.warnings.length ≤ s'.warnings.length ∧
        s'.routine.setting = s.routine.setting := by
  induction blocks generalizing s n with
  | nil =>
    cases h
    exact ⟨hs, Nat.le_refl _, rfl⟩
  | cons b rest ih =>
    obtain ⟨m, s₁, hfirst, hrest⟩ := Run.of_bind_ok h
    obtain ⟨k, s₂, hrest, hend⟩ := Run.of_bind_ok hrest
    cases hend
    obtain ⟨hs₁, hsteps, hsettled, -⟩ :=
      runOnBlock_cases hp hs hfirst ((grows_runOnBlocks hp hrest).small hsmall)
    obtain ⟨hs', hle, hsetting⟩ := ih hs₁ hrest
    refine ⟨hs', ?_, hsetting.trans (confined_of_reworked hsteps).setting⟩
    rcases hsettled with ⟨hwarnings, -⟩ | hlt
    . rwa [hwarnings] at hle
    . omega

theorem runOnBlocks_cons (hp : ∀ q ∈ p.passes, q ∈ Pass.builtIn debug) (hs : s.routine.Intact)
    (h : p.runOnBlocks (b :: rest) s = .ok n s') (hsmall : s'.routine.Small)
    (hwarnings : s'.warnings = s.warnings)
    : ∃ m k s₁, p.runOnBlock b s = .ok m s₁ ∧ p.runOnBlocks rest s₁ = .ok k s' ∧
        s₁.routine.Intact ∧ s'.warnings = s₁.warnings ∧ s.routine.Confined b s₁.routine ∧
        p.maxRounds ≠ 0 ∧ p.Settled b s₁.routine := by
  obtain ⟨m, s₁, hfirst, hrest⟩ := Run.of_bind_ok h
  obtain ⟨k, s₂, hrest, hend⟩ := Run.of_bind_ok hrest
  cases hend
  obtain ⟨hs₁, hsteps, hsettled, -⟩ :=
    runOnBlock_cases hp hs hfirst ((grows_runOnBlocks hp hrest).small hsmall)
  obtain ⟨-, hle, -⟩ := runOnBlocks_cases hp hs₁ hrest hsmall
  rcases hsettled with ⟨hsame, hsettled⟩ | hlt
  . exact ⟨m, k, s₁, hfirst, hrest, hs₁, by rw [hwarnings, hsame], confined_of_reworked hsteps,
      hsettled⟩
  . rw [hwarnings] at hle
    omega

theorem settled_last (hp : ∀ q ∈ p.passes, q ∈ Pass.builtIn debug) (hs : s.routine.Intact)
    (h : p.runOnBlocks blocks s = .ok n s') (hsmall : s'.routine.Small)
    (hwarnings : s'.warnings = s.warnings) (hb : blocks.getLast? = some b)
    : p.maxRounds ≠ 0 ∧ p.Settled b s'.routine := by
  induction blocks generalizing s n with
  | nil => cases hb
  | cons c rest ih =>
    obtain ⟨m, k, s₁, -, hrest, hs₁, hwarnings₁, -, hsettled⟩ :=
      runOnBlocks_cons hp hs h hsmall hwarnings
    cases rest with
    | nil =>
      cases hb
      cases hrest
      exact hsettled
    | cons d rest =>
      rw [List.getLast?_cons_cons] at hb
      exact ih hs₁ hrest hwarnings₁ hb

theorem settled_runOnBlocks (front : List BlockId) (hp : ∀ q ∈ p.passes, q ∈ Pass.builtIn debug)
    (hs : s.routine.Intact)
    (hlayered : ∀ B, B <+: front ++ rest → s.routine.RefersWithin B)
    (hsecluded : Pass.deadCode ∈ p.passes →
      ∀ B, B <+: front ++ rest → s.routine.ReferredWithin B)
    (hfront : ∀ b ∈ front, p.Settled b s.routine) (h : p.runOnBlocks rest s = .ok n s')
    (hsmall : s'.routine.Small) (hwarnings : s'.warnings = s.warnings)
    : ∀ b ∈ front ++ rest, p.Settled b s'.routine := by
  -- The blocks in `front` are settled and stay so, because what a later block changes does not
  -- reach them.
  induction rest generalizing front s n with
  | nil =>
    cases h
    rwa [List.append_nil]
  | cons b rest ih =>
    obtain ⟨m, k, s₁, hfirst, hrest, hs₁, hwarnings₁, hconfined, -, hsettled⟩ :=
      runOnBlocks_cons hp hs h hsmall hwarnings
    have hlist : front ++ b :: rest = (front ++ [b]) ++ rest := by simp
    rw [hlist] at hlayered hsecluded ⊢
    have hprefix : front <+: (front ++ [b]) ++ rest := by simp [List.append_assoc]
    have hearlier : ∀ c ∈ front, p.Settled c s₁.routine := by
      by_cases hb : b ∈ front
      . -- The block has been settled before, so it is left as it is.
        obtain ⟨record, hidle⟩ := runOnBlock_of_settled hp (hfront b hb)
        rw [hidle] at hfirst
        cases hfirst
        exact hfront
      . intro c hc q hq
        have hagree := hconfined.agree hs hs₁ hb (hlayered front hprefix)
        refine (hfront c hc q hq).of_agree s.record.memory (hp q hq) hagree hc ?_ ?_
        . rintro id ⟨d, hd, hid⟩
          exact hconfined.used d (fun heq => hb (heq ▸ hd)) id hid
        . rintro rfl
          exact hsecluded hq front hprefix
    apply ih (front ++ [b]) hs₁ _ _ _ hrest hwarnings₁
    . intro B hB
      exact hconfined.refersWithin B (hlayered B hB)
    . intro hq B hB
      exact hconfined.referredWithin B (hsecluded hq B hB)
    . intro c hc
      rcases List.mem_append.mp hc with hc | hc
      . exact hearlier c hc
      . cases List.mem_singleton.mp hc
        exact hsettled

theorem settled_of_runOnBlocks (hp : ∀ q ∈ p.passes, q ∈ Pass.builtIn debug) (hs : s.routine.Intact)
    (hrounds : p.maxRounds ≠ 0) (h : p.runOnBlocks blocks s = .ok 0 s')
    (hsmall : s'.routine.Small) : ∀ b ∈ blocks, p.Settled b s.routine := by
  induction blocks generalizing s with
  | nil => exact nofun
  | cons b rest ih =>
    obtain ⟨m, s₁, hfirst, hrest⟩ := Run.of_bind_ok h
    obtain ⟨k, s₂, hrest, hend⟩ := Run.of_bind_ok hrest
    have hsum : m + k = 0 := by injection hend
    obtain ⟨rfl, rfl⟩ : m = 0 ∧ k = 0 := by omega
    cases hend
    obtain ⟨-, -, -, hzero⟩ :=
      runOnBlock_cases hp hs hfirst ((grows_runOnBlocks hp hrest).small hsmall)
    have hsettled := hzero rfl hrounds
    obtain ⟨record, hidle⟩ := runOnBlock_of_settled hp hsettled
    rw [hidle] at hfirst
    cases hfirst
    exact List.forall_mem_cons.mpr ⟨hsettled, ih (s := ⟨s.routine, record⟩) hs hrest⟩

end Runs

section Routines

theorem of_runOnRoutine_ok (h : p.runOnRoutine s = .ok n s')
    : ∃ s₁, p.runOnBlocks s.routine.order s = .ok n s₁ ∧ s'.routine = s₁.routine ∧
        s'.warnings = s₁.warnings ∧ (p.validate = true → s₁.routine.check = .ok ()) := by
  unfold runOnRoutine at h
  rw [Run.get_bind_run] at h
  obtain ⟨m, s₁, hblocks, hend⟩ := Run.of_bind_ok h
  rw [Run.get_bind_run] at hend
  have hlog : ∀ {e : Event}, e.kind = .routineOptimized →
      (Run.log e >>= fun _ => pure m : Run σ Nat) s₁ = .ok n s' →
      n = m ∧ s'.routine = s₁.routine ∧ s'.warnings = s₁.warnings := by
    intro e he hlogged
    cases hlogged
    exact ⟨rfl, rfl, EventLog.ofKind_record_of_ne (by rw [he]; decide)⟩
  cases hvalidate : p.validate with
  | false =>
    rw [hvalidate] at hend
    obtain ⟨rfl, hroutine, hwarnings⟩ := hlog rfl hend
    exact ⟨s₁, hblocks, hroutine, hwarnings, nofun⟩
  | true =>
    rw [hvalidate] at hend
    cases hcheck : s₁.routine.check with
    | error err =>
      simp only [hcheck] at hend
      cases hend
    | ok u =>
      simp only [hcheck] at hend
      obtain ⟨rfl, hroutine, hwarnings⟩ := hlog rfl hend
      exact ⟨s₁, hblocks, hroutine, hwarnings, fun _ => hcheck⟩

theorem runOnRoutine_of_ok (h : p.runOnBlocks s.routine.order s = .ok n s₁)
    (hcheck : p.validate = true → s₁.routine.check = .ok ())
    : ∃ s', p.runOnRoutine s = .ok n s' ∧ s'.routine = s₁.routine := by
  unfold runOnRoutine
  rw [Run.get_bind_run, Run.bind_of_ok h, Run.get_bind_run]
  cases hvalidate : p.validate with
  | false => exact ⟨_, rfl, rfl⟩
  | true =>
    simp only [hcheck hvalidate]
    exact ⟨_, rfl, rfl⟩

end Routines

theorem runOnRoutine_again (hp : ∀ q ∈ p.passes, q ∈ Pass.builtIn debug) (actions : List Action)
    (record : Record σ) (h : p.runOnRoutine ⟨after actions, record⟩ = .ok n s')
    (hwarnings : s'.warnings = record.log.ofKind .warning) (hsmall : s'.routine.Small)
    : ((∃ s'', p.runOnRoutine s' = .ok 0 s'' ∧ s''.routine = s'.routine) ↔
          ∀ b ∈ s'.routine.order, p.Settled b s'.routine) ∧
        (∀ b, s'.routine.order.getLast? = some b → p.Settled b s'.routine) ∧
        ((after actions).Layered → (Pass.deadCode ∈ p.passes → (after actions).Secluded) →
          ∃ s'', p.runOnRoutine s' = .ok 0 s'' ∧ s''.routine = s'.routine) := by
  obtain ⟨s₁, hblocks, hroutine, hlogged, hcheck⟩ := of_runOnRoutine_ok h
  rw [hroutine] at hsmall
  rw [hlogged] at hwarnings
  have hs : (after actions).Intact := intact_after actions ((grows_runOnBlocks hp hblocks).small hsmall)
  obtain ⟨hs₁, -, hsetting⟩ := runOnBlocks_cases hp hs hblocks hsmall
  have horder : s'.routine.order = (after actions).order := by
    rw [hroutine]
    exact congrArg Prod.fst hsetting
  have hsettled : (∀ b ∈ s'.routine.order, p.Settled b s'.routine) →
      ∃ s'', p.runOnRoutine s' = .ok 0 s'' ∧ s''.routine = s'.routine := by
    intro hsettled
    obtain ⟨record', hagain⟩ := runOnBlocks_of_settled hp hsettled
    obtain ⟨s'', hrun, hsame⟩ := runOnRoutine_of_ok hagain (by rwa [hroutine])
    exact ⟨s'', hrun, hsame⟩
  have hlast : ∀ b, s'.routine.order.getLast? = some b →
      p.maxRounds ≠ 0 ∧ p.Settled b s'.routine := by
    intro b hb
    rw [horder] at hb
    rw [hroutine]
    exact settled_last hp hs hblocks hsmall hwarnings hb
  refine ⟨⟨?_, hsettled⟩, fun b hb => (hlast b hb).2, ?_⟩
  . rintro ⟨s'', hagain, hsame⟩ b hb
    obtain ⟨s₂, hblocks', hroutine', -, -⟩ := of_runOnRoutine_ok hagain
    -- That a run reports nothing says something only if there are rounds. The last block has seen
    -- one without changes, so there are.
    have hrounds := (hlast _ (List.getLast?_eq_some_getLast (List.ne_nil_of_mem hb))).1
    refine settled_of_runOnBlocks hp ?_ hrounds hblocks' ?_ b hb
    . rwa [hroutine]
    . rwa [← hroutine', hsame, hroutine]
  . intro hlayered hsecluded
    apply hsettled
    rw [horder, hroutine]
    exact settled_runOnBlocks (s := ⟨after actions, record⟩) [] hp hs hlayered hsecluded nofun hblocks
      hsmall hwarnings

def sharedRead : List Action :=
  [.addBlock,
    .addBlock,
    .pushBack (.ofNat 0) (.readReg .i64 (.ofNat 0 1)),
    .pushBack (.ofNat 0) (.binop .i64 .sub (.insn (.ofNat 0)) (.const (.i64 0))),
    .pushBack (.ofNat 0) (.writeReg (.ofNat 1 1) (.insn (.ofNat 1)) .i64),
    .pushBack (.ofNat 1) (.binop .i64 .mul (.const (.i64 2)) (.const (.i64 3))),
    .pushBack (.ofNat 1) (.binop .i64 .add (.insn (.ofNat 1)) (.insn (.ofNat 3))),
    .pushBack (.ofNat 1) (.writeReg (.ofNat 2 1) (.insn (.ofNat 4)) .i64)]

theorem runOnRoutine_again_sharedRead
    : (after sharedRead).Layered ∧
        EStateM.run' (standard true).runOnRoutine ⟨after sharedRead, ⟨{}, ()⟩⟩ = some 7 ∧
        ∃ s'', (standard true).runOnRoutine
            (Run.left (standard true).runOnRoutine ⟨after sharedRead, ⟨{}, ()⟩⟩) = .ok 0 s'' ∧
          s''.routine = (Run.left (standard true).runOnRoutine ⟨after sharedRead, ⟨{}, ()⟩⟩).routine := by
  have hp : ∀ q ∈ (standard true : Pipeline Unit).passes, q ∈ Pass.builtIn true := by
    simp [standard, Pass.builtIn]
  have hlayered : (after sharedRead).Layered := by decide +kernel
  have hrun : EStateM.run' (standard true).runOnRoutine ⟨after sharedRead, ⟨{}, ()⟩⟩ = some 7 := by
    decide +kernel
  refine ⟨hlayered, hrun, (runOnRoutine_again hp sharedRead ⟨{}, ()⟩ (Run.run_of_run' hrun) ?_ ?_).2.2
    hlayered ?_⟩
  . decide +kernel
  . decide +kernel
  . intro hmem
    have hname : "dce" ∈ (standard true : Pipeline Unit).passes.map Pass.name :=
      List.mem_map.mpr ⟨_, hmem, rfl⟩
    exact absurd hname (by decide)

def readsLaterBlock : List Action :=
  [.addBlock,
    .addBlock,
    .pushBack (.ofNat 1) (.binop .i64 .add (.const (.i64 2)) (.const (.i64 3))),
    .pushBack (.ofNat 0) (.unop .i64 .neg (.insn (.ofNat 0))),
    .pushBack (.ofNat 0) (.writeReg (.ofNat 0 1) (.insn (.ofNat 1)) .i64)]

theorem runOnRoutine_again_readsLaterBlock
    : (after readsLaterBlock).check = .ok () ∧
        EStateM.run' (standard true).runOnRoutine ⟨after readsLaterBlock, ⟨{}, ()⟩⟩ = some 3 ∧
        (Run.left (standard true).runOnRoutine ⟨after readsLaterBlock, ⟨{}, ()⟩⟩).warnings = [] ∧
        EStateM.run' (standard true).runOnRoutine
          (Run.left (standard true).runOnRoutine ⟨after readsLaterBlock, ⟨{}, ()⟩⟩) = some 3 ∧
        ¬ (after readsLaterBlock).Layered := by
  decide +kernel

end Pipeline

end MachineIR
