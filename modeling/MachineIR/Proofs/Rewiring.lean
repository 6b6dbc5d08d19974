import MachineIR.Proofs.Checks
import MachineIR.Proofs.OperandEdits

/-!
This module contains what the replacement of a value can do to a routine of which no more is known
than that it passes its check: the lists of uses may be broken in ways that the check does not see,
so the replacement may stop half-way, but it only ever changes slots that refer to the value.
-/

namespace MachineIR

namespace Routine

def operation? (r : Routine) (id : InsnId) : Option (Opcode × Ty × Ty) :=
  (r.insn? id).map fun i => (i.opcode, i.templates)

def operand? (r : Routine) (id : InsnId) (k : Nat) : Option Operand :=
  (r.slot? id k).map Slot.operand

section Bare

variable {r : Routine} {id j : InsnId} {k n : Nat} {x : Operand}

theorem operation?_bare : r.bare.operation? id = r.operation? id := by
  unfold operation?
  rw [insn?_bare, Option.map_map]
  rfl

theorem operand?_bare : r.bare.operand? id k = r.operand? id k := by
  unfold operand?
  rw [slot?_bare, Option.map_map]
  rfl

theorem operation?_modifySlot (f : Slot → Slot)
    : (r.modifySlot id k f).operation? j = r.operation? j := by
  unfold operation? modifySlot
  rw [insn?_modifyInsn]
  split
  . rw [Option.map_map]
    rfl
  . rfl

theorem operand?_modifySlot
    : (r.modifySlot id k fun _ => ⟨x, none⟩).operand? j n =
        if j = id ∧ n = k then (r.operand? j n).map fun _ => x else r.operand? j n := by
  unfold operand?
  rw [slot?_modifySlot]
  split
  . rw [Option.map_map, Option.map_map]
    rfl
  . rfl

end Bare

structure Rewires (v : ValueId) (x : Operand) (r r' : Routine) : Prop where
  operation : ∀ id, r'.operation? id = r.operation? id
  operand : ∀ id k, r'.operand? id k = r.operand? id k ∨
    r.operand? id k = some (.value v) ∧ r'.operand? id k = some x

variable {r r₁ r₂ : Routine} {v : ValueId} {x : Operand} {id : InsnId} {k : Nat}

theorem Rewires.refl (v : ValueId) (x : Operand) (r : Routine) : Rewires v x r r :=
  ⟨fun _ => rfl, fun _ _ => Or.inl rfl⟩

theorem Rewires.step (h : Rewires v x r r₁) (hheld : r.operand? id k = some (.value v))
    (hbare : r₂.bare = r₁.bare.modifySlot id k fun _ => ⟨x, none⟩) : Rewires v x r r₂ := by
  constructor
  . intro j
    rw [← operation?_bare, hbare, operation?_modifySlot, operation?_bare]
    exact h.operation j
  . intro j n
    rw [← operand?_bare (r := r₂), hbare, operand?_modifySlot, operand?_bare]
    split
    . next hjn =>
      obtain ⟨rfl, rfl⟩ := hjn
      right
      refine ⟨hheld, ?_⟩
      rcases h.operand j n with heq | ⟨-, heq⟩
      . rw [heq, hheld]
        rfl
      . rw [heq]
        rfl
    . exact h.operand j n

structure Replacing (r r₁ : Routine) (v : ValueId) (x : Operand) (held : InsnId → Nat → Prop)
    (reached : UseId → Prop) : Prop where
  refers : ∀ id k, held id k → r.operand? id k = some (.value v)
  rewires : Rewires v x r r₁
  closed : r₁.uses.Closed held reached
  own : ∀ id k s, held id k → r₁.slot? id k = some s →
    (∃ w use, s = ⟨.value w, some use⟩ ∧ reached use) ∨ (s.use = none ∧ x.value? = none)

theorem Replacing.start (hcheck : r.check = .ok ()) {l : UseList} (hl : r.useList? (.insn id) = some l)
    (x : Operand)
    : ∃ held reached, Replacing r r (.insn id) x held reached ∧
        ∀ use, l.head = some use → reached use := by
  refine ⟨fun j k => ∃ use room, r.slot? j k = some ⟨.insn id, some use⟩ ∧
      r.checkUsesFrom (.insn id) l room (some use) = .ok (),
    fun use => ∃ room, r.checkUsesFrom (.insn id) l room (some use) = .ok (),
    ⟨?_, Rewires.refl _ _ _, ?_, ?_⟩, ?_⟩
  . rintro j k ⟨use, room, hs, -⟩
    unfold operand?
    rw [hs]
    rfl
  . rintro use u ⟨room, hroom⟩ hu
    obtain ⟨huse, room', hrest⟩ := checkUsesFrom_cons hroom hu
    refine ⟨⟨use, room, (checkUse_eq_ok.mp huse).2, hroom⟩, ?_⟩
    intro next heq
    rw [heq] at hrest
    exact ⟨room', hrest⟩
  . rintro j k s ⟨use, room, hs, hroom⟩ hs'
    rw [hs] at hs'
    cases hs'
    exact Or.inl ⟨.insn id, use, rfl, room, hroom⟩
  . intro use hhead
    unfold useList? at hl
    obtain ⟨i, hi, rfl⟩ := Option.map_eq_some_iff.mp hl
    have huses := (passes_of_check hcheck hi).uses
    unfold checkUses at huses
    rw [hhead] at huses
    exact ⟨i.uses.len, huses⟩

end Routine

namespace Edit

open Routine

variable {r r₁ : Routine} {v : ValueId} {x : Operand} {id : InsnId} {k : Nat}
  {held : InsnId → Nat → Prop} {reached : UseId → Prop}

theorem replacing_setOperand (h : Replacing r r₁ v x held reached) (hheld : held id k)
    : Replacing r (left (setOperand id k x) r₁) v x held reached := by
  by_cases hfail : r₁.slot? id k = none ∨ ¬ r₁.Admits x
  . obtain ⟨e, he⟩ := setOperand_run_error hfail
    rw [left_of_error he]
    exact h
  . obtain ⟨hslot, hx⟩ := not_or.mp hfail
    obtain ⟨s, hs⟩ := Option.ne_none_iff_exists'.mp hslot
    have hown := h.own id k s hheld hs
    by_cases hrel : r₁.Releasable s
    . obtain ⟨r₂, hrun, hset, -⟩ := setOperand_run hs hrel (Classical.not_not.mp hx)
      rw [left_of_ok hrun]
      have hreached : ∀ use, s.use = some use → reached use := by
        intro use huse
        rcases hown with ⟨w, use', rfl, hreach⟩ | ⟨hnone, -⟩
        . cases huse
          exact hreach
        . rw [hnone] at huse
          cases huse
      -- A value takes over the record of the slot, so no cell comes in that was not reached before.
      have hkept : x.value? ≠ none → s.use ≠ none := by
        intro hvalue
        rcases hown with ⟨w, use', rfl, hreach⟩ | ⟨-, hplain⟩
        . exact Option.some_ne_none use'
        . exact absurd hplain hvalue
      refine ⟨h.refers, h.rewires.step (h.refers id k hheld) hset.bare,
        hset.closed _ _ h.closed hheld hreached hkept, ?_⟩
      intro j n s' hj hs'
      by_cases hjn : j = id ∧ n = k
      . obtain ⟨rfl, rfl⟩ := hjn
        obtain ⟨use, hslot', hplain, hvalue⟩ := hset.own
        rw [hslot'] at hs'
        cases hs'
        cases x with
        | value w =>
          left
          have hne : (Operand.value w).value? ≠ none := Option.some_ne_none w
          obtain ⟨use', huse'⟩ := Option.ne_none_iff_exists'.mp (hkept hne)
          exact ⟨w, use', by rw [hvalue hne (hkept hne), huse'], hreached use' huse'⟩
        | _ => exact Or.inr ⟨hplain rfl, rfl⟩
      . rw [hset.slot j n hjn] at hs'
        exact h.own j n s' hj hs'
    . rcases hown with ⟨w, use, rfl, -⟩ | ⟨hnone, -⟩
      . obtain ⟨e, he⟩ := setOperand_run_unreleasable hs hrel
        rw [left_of_error he]
        exact h
      . refine absurd ?_ hrel
        intro use huse
        rw [hnone] at huse
        cases huse

theorem replacing_replaceFrom {start : Option UseId} (h : Replacing r r₁ v x held reached)
    (hstart : ∀ use, start = some use → reached use) (fuel : Nat)
    : Replacing r (left (replaceFrom v x fuel start) r₁) v x held reached := by
  induction fuel generalizing r₁ start with
  | zero => exact h
  | succ fuel ih =>
    cases start with
    | none => exact h
    | some use =>
      unfold replaceFrom
      rw [left_bind_of_ok (get_run r₁)]
      cases hu : r₁.uses.get? use with
      | none => exact h
      | some u =>
        dsimp only
        obtain ⟨hheld, hnext⟩ := h.closed use u (hstart use rfl) hu
        have hset := replacing_setOperand h hheld
        cases hrun : setOperand u.user u.slot x r₁ with
        | error e r₂ =>
          rw [left_of_error hrun] at hset
          rw [left_bind_of_error hrun]
          exact hset
        | ok a r₂ =>
          rw [left_of_ok hrun] at hset
          rw [left_bind_of_ok hrun, left_bind_pure]
          exact ih hset hnext

theorem rewires_replaceUses (hcheck : r.check = .ok ()) (id : InsnId) (x : Operand)
    : Rewires (.insn id) x r (left (replaceUses (.insn id) x) r) := by
  unfold replaceUses
  split
  . exact Rewires.refl _ _ _
  . rcases requireLive_run x r with ⟨hlive, -⟩ | ⟨e, he⟩
    . rw [left_bind_of_ok hlive, left_bind_of_ok (get_run r)]
      cases hl : r.useList? (.insn id) with
      | none => exact Rewires.refl _ _ _
      | some l =>
        obtain ⟨held, reached, hstart, hhead⟩ := Replacing.start hcheck hl x
        exact (replacing_replaceFrom hstart hhead _).rewires
    . rw [left_bind_of_error he]
      exact Rewires.refl _ _ _

end Edit

end MachineIR
