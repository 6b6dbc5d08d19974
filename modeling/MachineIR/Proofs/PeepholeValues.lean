import MachineIR.Proofs.PeepholeEdits
import MachineIR.Proofs.Rewiring
import MachineIR.Proofs.UseSoundness

/-!
This module contains the effect of one local simplification on the values of a routine: whatever
could be evaluated before has the same value afterwards, although the simplification changes the
routine in place and others refer to the instruction that is changed.
-/

namespace MachineIR

namespace Insn

variable {i : Insn}

theorem operator?_bare : i.bare.operator? = i.operator? := by
  refine operator?_congr (i := i) rfl ?_
  unfold const?
  rw [operand?_bare]

theorem result?_bare (given : Option Constant) (value : Operand → Option Constant)
    : i.bare.result? given value = i.result? given value := by
  refine result?_congr (i := i) rfl rfl operator?_bare ?_
  intro k
  unfold argument?
  rw [operand?_bare]

end Insn

namespace Routine

variable {r r' : Routine} {given : InsnId → Option Constant} {id : InsnId} {x y : Operand}
  {c : Constant} {n : Nat}

theorem Evaluates.of_step (hstep : ∀ m j i c, r.insn? j = some i →
      i.result? (given j) (r.evaluate? given m) = some c →
      ∃ i', r'.insn? j = some i' ∧ i'.result? (given j) (r.evaluate? given m) = some c)
    (h : r.Evaluates given y c) : r'.Evaluates given y c := by
  obtain ⟨n, hn⟩ := h
  exact ⟨n, evaluate?_of_step hstep hn 0⟩

theorem Evaluates.of_modifyInsn {f : Insn → Insn}
    (hbare : r'.bare = r.bare.modifyInsn id fun i => f i) (hf : ∀ i, (f i).bare = f i.bare)
    (hsound : ∀ i n c, r.insn? id = some i → i.result? (given id) (r.evaluate? given n) = some c →
      (f i).result? (given id) (r.evaluate? given n) = some c)
    (h : r.Evaluates given y c) : r'.Evaluates given y c := by
  refine h.of_step ?_
  intro m j i c hi hc
  have hj := congrArg (fun r => r.insn? j) hbare
  simp only [insn?_bare, insn?_modifyInsn, hi, Option.map_some] at hj
  split at hj
  . next heq =>
    subst heq
    obtain ⟨i', hi', heq⟩ := Option.map_eq_some_iff.mp hj
    refine ⟨i', hi', ?_⟩
    rw [← Insn.result?_bare, heq, ← hf, Insn.result?_bare]
    exact hsound i m c hi hc
  . obtain ⟨i', hi', heq⟩ := Option.map_eq_some_iff.mp hj
    refine ⟨i', hi', ?_⟩
    rw [← Insn.result?_bare, heq, Insn.result?_bare]
    exact hc

theorem operand?_of_insn? {i : Insn} (hi : r.insn? id = some i) (k : Nat)
    : r.operand? id k = i.operand? k := by
  unfold operand?
  rw [slot?_eq hi]
  rfl

theorem Evaluates.of_rewires (hrewires : Rewires (.insn id) x r r')
    (hsound : ∀ n c, r.evaluate? given n (.insn id) = some c → r.evaluate? given n x = some c)
    (h : r.Evaluates given y c) : r'.Evaluates given y c := by
  refine h.of_step ?_
  intro m j i c hi hc
  have hj := hrewires.operation j
  unfold operation? at hj
  rw [hi, Option.map_some] at hj
  obtain ⟨i', hi', heq⟩ := Option.map_eq_some_iff.mp hj
  simp only [Prod.mk.injEq] at heq
  -- A place that has changed held `id` before, and `x` has its value.
  have hoperand : ∀ k, i'.operand? k = i.operand? k ∨
      i.operand? k = some (.insn id) ∧ i'.operand? k = some x := by
    intro k
    rw [← operand?_of_insn? hi, ← operand?_of_insn? hi']
    exact hrewires.operand j k
  refine ⟨i', hi', Insn.result?_mono heq.1 heq.2 ?_ ?_ hc⟩
  . intro o ho
    rcases hoperand 0 with hsame | ⟨hvalue, -⟩
    . rw [← ho]
      apply Insn.operator?_congr heq.1
      unfold Insn.const?
      rw [hsame]
    . have hconst := Insn.const?_of_operator? ho
      rw [Insn.const?, hvalue] at hconst
      cases hconst
  . intro k a ha
    rw [Insn.argument?_eq_some] at ha ⊢
    obtain ⟨z, hz, ha⟩ := ha
    rcases hoperand k with hsame | ⟨hvalue, hx⟩
    . exact ⟨z, by rw [hsame, hz], ha⟩
    . rw [hz] at hvalue
      cases hvalue
      exact ⟨x, hx, hsound m a ha⟩

structure KeepsValues (given : InsnId → Option Constant) (id : InsnId) (r r' : Routine) : Prop where
  insn : ∀ j c, r.Evaluates given (.insn j) c → r'.Evaluates given (.insn j) c
  operand : ∀ j k x c, j ≠ id → r.operand? j k = some x → r.Evaluates given x c →
    ∃ y, r'.operand? j k = some y ∧ r'.Evaluates given y c

theorem KeepsValues.refl (given : InsnId → Option Constant) (id : InsnId) (r : Routine)
    : KeepsValues given id r r :=
  ⟨fun _ _ h => h, fun _ _ x _ _ hx hc => ⟨x, hx, hc⟩⟩

theorem KeepsValues.of_modifyInsn {f : Insn → Insn}
    (hbare : r'.bare = r.bare.modifyInsn id fun i => f i) (hf : ∀ i, (f i).bare = f i.bare)
    (hsound : ∀ i n c, r.insn? id = some i → i.result? (given id) (r.evaluate? given n) = some c →
      (f i).result? (given id) (r.evaluate? given n) = some c)
    : KeepsValues given id r r' := by
  constructor
  . intro j c hc
    exact hc.of_modifyInsn hbare hf hsound
  . intro j k x c hj hx hc
    refine ⟨x, ?_, hc.of_modifyInsn hbare hf hsound⟩
    rw [← operand?_bare, hbare, ← hx, ← operand?_bare (r := r)]
    unfold operand? slot?
    rw [insn?_modifyInsn, if_neg hj]

theorem KeepsValues.of_rewires (hrewires : Rewires (.insn id) x r r')
    (hsound : ∀ n c, r.evaluate? given n (.insn id) = some c → r.evaluate? given n x = some c)
    : KeepsValues given id r r' := by
  constructor
  . intro j c hc
    exact hc.of_rewires hrewires hsound
  . intro j k y c hj hy hc
    rcases hrewires.operand j k with hsame | ⟨hvalue, hx⟩
    . exact ⟨y, by rw [hsame, hy], hc.of_rewires hrewires hsound⟩
    . rw [hy] at hvalue
      cases hvalue
      obtain ⟨n, hn⟩ := hc
      refine ⟨x, hx, Evaluates.of_rewires hrewires hsound ⟨n, hsound n c hn⟩⟩

end Routine

namespace Edit

open Routine

variable {r : Routine} {id : InsnId} {i : Insn} {s : Simplification}

theorem keepsValues_simplify (hcheck : r.check = .ok ()) (hi : r.insn? id = some i)
    (hcast : i.opcode.extension? = none) (ρ : r.Valuation) (h : Rule r i s)
    : KeepsValues ρ.value id r (left (simplify id s) r) := by
  have hsound := h.sound hcheck hi hcast ρ
  have hadmissible := h.admissible (owns_of_check hcheck) hi
  cases s with
  | replace x =>
    unfold simplify
    dsimp only
    split
    . exact KeepsValues.refl _ _ _
    . rw [left_bind_pure]
      apply KeepsValues.of_rewires (rewires_replaceUses hcheck id x)
      intro n c hc
      rcases evaluate?_eq_some hc with heq | ⟨m, j, i', rfl, heq, hj, hresult⟩
      . cases heq
      . cases heq
        rw [hi] at hj
        cases hj
        exact evaluate?_mono (hsound m c hresult) (Nat.le_succ m)
  | operands k x m y =>
    obtain ⟨hne, hk, hm, hx, hy⟩ := hadmissible
    obtain ⟨r', hrun, hbare⟩ :=
      simplify_operands_run (owns_of_check hcheck) hi hne hk hm hx hy
    rw [left_of_ok hrun]
    apply KeepsValues.of_modifyInsn hbare (Simplification.bare_applied _)
    intro i' n c hi' hc
    rw [hi] at hi'
    cases hi'
    exact hsound n c hc
  | source t x =>
    obtain ⟨h0, hx⟩ := hadmissible
    obtain ⟨r', hrun, hbare⟩ := simplify_source_run (owns_of_check hcheck) hi h0 hx t
    rw [left_of_ok hrun]
    apply KeepsValues.of_modifyInsn hbare (Simplification.bare_applied _)
    intro i' n c hi' hc
    rw [hi] at hi'
    cases hi'
    exact hsound n c hc

theorem keepsValues_combineInsn (hcheck : r.check = .ok ()) (id : InsnId)
    (hcast : ∀ i, r.insn? id = some i → i.opcode ≠ .cast ∧ i.opcode ≠ .castSx) (ρ : r.Valuation)
    : KeepsValues ρ.value id r (left (combineInsn id) r) := by
  unfold combineInsn
  rw [left_bind_of_ok (get_run r)]
  cases hi : r.insn? id with
  | none =>
    have hrun : knownInsn id r = .error (.stale (.insn id)) r := by simp [knownInsn, hi]
    rw [left_bind_of_error hrun]
    exact KeepsValues.refl _ _ _
  | some i =>
    have hrun : knownInsn id r = .ok i r := by simp [knownInsn, hi]
    rw [left_bind_of_ok hrun]
    cases hs : r.combine? i with
    | none => exact KeepsValues.refl _ _ _
    | some s =>
      have hextension : i.opcode.extension? = none := by
        obtain ⟨hne, hne'⟩ := hcast i hi
        cases hopcode : i.opcode <;> simp_all [Opcode.extension?]
      exact keepsValues_simplify hcheck hi hextension ρ (Rule.of_combine? hs)

def twoAdditions : Routine :=
  .after [.addBlock,
    .pushBack (.ofNat 0) (.readReg .i64 (.ofNat 1 1)),
    .pushBack (.ofNat 0) (.binop .i64 .add (.insn (.ofNat 0)) (.const (.i64 5))),
    .pushBack (.ofNat 0) (.binop .i64 .add (.insn (.ofNat 1)) (.const (.i64 7))),
    .pushBack (.ofNat 0) (.writeReg (.ofNat 2 1) (.insn (.ofNat 2)) .i64)]

theorem keepsValues_twoAdditions
    : twoAdditions.check = .ok () ∧
        twoAdditions.Evaluates (Valuation.uniform twoAdditions 3).value (.insn (.ofNat 2))
          (.i64 15) ∧
        (left (combineInsn (.ofNat 2)) twoAdditions).operand? (.ofNat 2) 1 =
          some (.insn (.ofNat 0)) ∧
        KeepsValues (Valuation.uniform twoAdditions 3).value (.ofNat 2) twoAdditions
          (left (combineInsn (.ofNat 2)) twoAdditions) := by
  have hcheck : twoAdditions.check = .ok () := by rfl
  have hopcode : (twoAdditions.insn? (.ofNat 2)).map Insn.opcode = some .binop := by
    decide +kernel
  refine ⟨hcheck, ⟨3, by decide +kernel⟩, by decide +kernel, ?_⟩
  apply keepsValues_combineInsn hcheck
  intro i hi
  rw [hi, Option.map_some, Option.some.injEq] at hopcode
  simp [hopcode]

end Edit

end MachineIR
