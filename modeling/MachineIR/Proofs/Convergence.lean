import MachineIR.Proofs.Capacity
import MachineIR.Proofs.Ranks

/-!
This module contains the convergence of pipelines: on a routine whose instructions can be ranked,
rounds over a block come to an end, however many of them are allowed.
-/

namespace MachineIR

open Routine

namespace Routine

variable {r r' : Routine} {b : BlockId}

theorem Reworked.descends (h : r.Reworked b r') : r.Descends r' := by
  rcases h with hreduced | hdiscards
  . exact hreduced.descends
  . exact descends_of_discards hdiscards

theorem descends_of_reworked (h : Relation.TransGen (Reworked b) r r') : r.Descends r' := by
  induction h with
  | single hstep => exact Reworked.descends hstep
  | tail _ hstep ih => exact ih.trans (Reworked.descends hstep)

end Routine

namespace Pipeline

variable {σ : Type} {p : Pipeline σ} {b : BlockId} {debug : Bool} {s : Session σ} {n k : Nat}
  {ρ : InsnId → Nat}

theorem affords_of_runPasses {passes : List (Pass σ)} {s' : Session σ}
    (hpasses : ∀ p ∈ passes, p ∈ Pass.builtIn debug) (hs : s.routine.Intact)
    (haffords : s.routine.Affords (s.routine.reads [])) (h : runPasses passes b s = .ok n s')
    : s'.routine.Intact ∧ s'.routine.Affords (s'.routine.reads []) := by
  induction passes generalizing s n with
  | nil =>
    cases h
    exact ⟨hs, haffords⟩
  | cons p rest ih =>
    obtain ⟨m, s₁, hfirst, hrest⟩ := Run.of_bind_ok h
    obtain ⟨k, s₂, hrest, hend⟩ := Run.of_bind_ok hrest
    cases hend
    obtain ⟨e, he, hp⟩ := Pass.exists_performs (hpasses p List.mem_cons_self)
    obtain ⟨hs₁, haffords₁⟩ := Edit.affords_of_pass he hs haffords (of_runPass_ok hp hfirst).1
    exact ih (fun q hq => hpasses q (List.mem_cons_of_mem p hq)) hs₁ haffords₁ hrest

theorem converges (hp : ∀ q ∈ p.passes, q ∈ Pass.builtIn debug) (hs : s.routine.Intact)
    (hranked : s.routine.Ranked ρ) (haffords : s.routine.Affords (s.routine.reads []))
    : ∃ k, (∃ err s', p.runRounds b k s = .error err s') ∨
        ∃ n s', p.runRounds b k s = .ok (n, true) s' := by
  -- The measure of the routine gets smaller from round to round.
  induction hm : s.routine.measure ρ [] using WellFoundedLT.induction generalizing s ρ with
  | ind m ih =>
    cases hround : p.runRound b s with
    | error err s₁ => exact ⟨1, Or.inl ⟨err, s₁, runRounds_of_error hround⟩⟩
    | ok n s₁ =>
      by_cases hn : n = 0
      . subst hn
        exact ⟨1, Or.inr ⟨0, s₁, runRounds_of_zero hround⟩⟩
      . obtain ⟨hs₁, haffords₁⟩ := affords_of_runPasses hp hs haffords hround
        obtain ⟨-, -, hcases⟩ := runPasses_cases hp hs hround haffords₁.small
        rcases hcases with ⟨hzero, -⟩ | ⟨-, hsteps⟩
        . exact absurd hzero hn
        . obtain ⟨ρ₁, hranked₁, hlt⟩ := descends_of_reworked hsteps ρ hranked
          obtain ⟨k, hk⟩ := ih _ (hm ▸ hlt) hs₁ hranked₁ haffords₁ rfl
          refine ⟨k + 1, ?_⟩
          rw [runRounds_of_changes hround hn]
          rcases hk with ⟨err, s', hrun⟩ | ⟨m, s', hrun⟩
          . exact Or.inl ⟨err, s', by rw [hrun]⟩
          . exact Or.inr ⟨n + m, s', by rw [hrun]⟩

theorem runRounds_of_sequence {f : Nat → Session σ}
    (hf : ∀ k, ∃ n, n ≠ 0 ∧ p.runRound b (f k) = .ok n (f (k + 1))) (k : Nat)
    : ∃ n, p.runRounds b k (f 0) = .ok (n, false) (f k) := by
  induction k generalizing f with
  | zero => exact ⟨0, rfl⟩
  | succ k ih =>
    obtain ⟨n, hn, hround⟩ := hf 0
    obtain ⟨m, hrest⟩ := ih (f := fun k => f (k + 1)) fun k => hf (k + 1)
    refine ⟨n + m, ?_⟩
    rw [runRounds_of_changes hround hn, hrest]

theorem standard_converges (actions : List Action) (record : Record σ) (b : BlockId) (debug : Bool)
    (hordered : (after actions).DefOrdered)
    (haffords : (after actions).Affords (after actions).readCount)
    : (∃ k, (∃ err s', (standard debug).runRounds b k ⟨after actions, record⟩ = .error err s') ∨
        ∃ n s', (standard debug).runRounds b k ⟨after actions, record⟩ = .ok (n, true) s') ∧
        ¬ ∃ f : Nat → Session σ, f 0 = ⟨after actions, record⟩ ∧
          ∀ k, ∃ n, n ≠ 0 ∧ (standard debug).runRound b (f k) = .ok n (f (k + 1)) := by
  obtain ⟨ρ, hranked⟩ := hordered
  have hbuiltIn : ∀ q ∈ (standard debug : Pipeline σ).passes, q ∈ Pass.builtIn debug := by
    simp [standard, Pass.builtIn]
  have hreads : (after actions).reads [] = (after actions).readCount := weight_nil haffords.small
  have hend := converges (b := b) hbuiltIn (s := ⟨after actions, record⟩)
    (intact_after actions haffords.small) hranked (by rwa [hreads])
  refine ⟨hend, ?_⟩
  rintro ⟨f, hf₀, hf⟩
  obtain ⟨k, hk⟩ := hend
  obtain ⟨n, hrun⟩ := runRounds_of_sequence hf k
  rw [hf₀] at hrun
  rcases hk with ⟨err, s', herror⟩ | ⟨m, s', hok⟩
  . rw [hrun] at herror
    cases herror
  . rw [hrun] at hok
    cases hok

def readUnderTwoTypes : List Action :=
  [.addBlock,
    .pushBack (.ofNat 0) (.readReg .i64 (.ofNat 0 1)),
    .pushBack (.ofNat 0) (.binop .i64 .sub (.insn (.ofNat 0)) (.const (.i64 5))),
    .pushBack (.ofNat 0) (.binop .i64 .add (.const (.i64 3)) (.insn (.ofNat 1))),
    .pushBack (.ofNat 0) (.writeReg (.ofNat 1 1) (.insn (.ofNat 2)) .i64),
    .pushBack (.ofNat 0) (.readReg .f64 (.ofNat 1 1)),
    .pushBack (.ofNat 0) (.writeReg (.ofNat 2 1) (.insn (.ofNat 4)) .f64)]

theorem standard_converges_readUnderTwoTypes
    : (after readUnderTwoTypes).DefOrdered ∧ (after readUnderTwoTypes).readCount = 2 ∧
        (after readUnderTwoTypes).Affords 2 ∧
        EStateM.run' ((standard true).runRounds (.ofNat 0) 2) ⟨after readUnderTwoTypes, ⟨{}, ()⟩⟩ =
          some (7, false) ∧
        EStateM.run' ((standard true).runRounds (.ofNat 0) 3) ⟨after readUnderTwoTypes, ⟨{}, ()⟩⟩ =
          some (7, true) ∧
        ¬ ∃ f : Nat → Session Unit, f 0 = ⟨after readUnderTwoTypes, ⟨{}, ()⟩⟩ ∧
          ∀ k, ∃ n, n ≠ 0 ∧ (standard true).runRound (.ofNat 0) (f k) = .ok n (f (k + 1)) := by
  have hordered : (after readUnderTwoTypes).DefOrdered := by
    apply defOrdered_of_handles
    . decide +kernel
    . decide +kernel
  have haffords : (after readUnderTwoTypes).Affords (after readUnderTwoTypes).readCount := by
    decide +kernel
  refine ⟨hordered, by decide +kernel, by decide +kernel, by decide +kernel, by decide +kernel, ?_⟩
  exact (standard_converges readUnderTwoTypes ⟨{}, ()⟩ (.ofNat 0) true hordered haffords).2

end Pipeline

end MachineIR
