import MachineIR.Pass.ConstantFolding
import MachineIR.Pass.Deduplication
import MachineIR.Pass.LoadResolution
import MachineIR.Pass.Peephole
import MachineIR.Pass.RegisterForwarding
import MachineIR.Proofs.PlacementEdits

/-!
This module contains what the passes are made of: a relation that a few kinds of edits stay within is
a relation that all passes stay within. In particular, the passes keep track of uses.
-/

namespace MachineIR.Edit

open Routine

theorem require_of_ok {check : Routine → Check} {r : Routine} (h : check r = .ok ())
    : require check r = .ok () r := by
  simp [require, h]

theorem require_of_error {check : Routine → Check} {r : Routine} {e : Error}
    (h : check r = .error e) : require check r = .error e r := by
  simp [require, h]

theorem left_require (check : Routine → Check) (r : Routine) : left (require check) r = r := by
  cases h : check r with
  | ok u => exact left_of_ok (require_of_ok h)
  | error e => exact left_of_error (require_of_error h)

theorem complete_zero (b : BlockId) (debug : Bool) (r : Routine) : complete b 0 debug r = .ok 0 r := rfl

theorem complete_of_error {b : BlockId} {n : Nat} {r : Routine} {e : Error} (hn : n ≠ 0)
    (h : r.checkBlock b = .error e) : complete b n true r = .error e r := by
  unfold complete
  rw [if_neg hn]
  have hrequire : require (·.checkBlock b) r = .error e r := require_of_error h
  exact bind_of_error hrequire

theorem complete_of_ok {b : BlockId} {n : Nat} {debug : Bool} {r : Routine} (hn : n ≠ 0)
    (h : debug = true → r.checkBlock b = .ok ())
    : complete b n debug r = (removeDeadCode b >>= fun k => pure (n + k)) r := by
  unfold complete
  rw [if_neg hn]
  cases debug with
  | true =>
    have hrequire : require (·.checkBlock b) r = .ok () r := require_of_ok (h rfl)
    exact bind_of_ok hrequire
  | false => rfl

theorem complete_cases_check {n : Nat} (hn : n ≠ 0) (b : BlockId) (debug : Bool) (r : Routine)
    : (∃ e, debug = true ∧ r.checkBlock b = .error e ∧ complete b n debug r = .error e r) ∨
        ((debug = true → r.checkBlock b = .ok ()) ∧
          complete b n debug r = (removeDeadCode b >>= fun k => pure (n + k)) r) := by
  cases debug with
  | false =>
    have hcheck : false = true → r.checkBlock b = .ok () := nofun
    exact Or.inr ⟨hcheck, complete_of_ok hn hcheck⟩
  | true =>
    cases h : r.checkBlock b with
    | error e => exact Or.inl ⟨e, rfl, rfl, complete_of_error hn h⟩
    | ok u => exact Or.inr ⟨fun _ => rfl, complete_of_ok hn fun _ => h⟩

theorem complete_eq_ok {b : BlockId} {n m : Nat} {debug : Bool} {r r' : Routine}
    (h : complete b n debug r = .ok m r')
    : (n = 0 ∧ m = 0 ∧ r' = r) ∨
        (n ≠ 0 ∧ (debug = true → r.checkBlock b = .ok ()) ∧
          ∃ k, m = n + k ∧ removeDeadCode b r = .ok k r') := by
  by_cases hn : n = 0
  . subst hn
    cases h
    exact Or.inl ⟨rfl, rfl, rfl⟩
  . rcases complete_cases_check hn b debug r with
      ⟨e, -, -, herror⟩ | ⟨hcheck, hrun⟩
    . rw [herror] at h
      cases h
    . rw [hrun] at h
      obtain ⟨k, r₂, hremove, hend⟩ := of_bind_ok h
      cases hend
      exact Or.inr ⟨hn, hcheck, k, rfl, hremove⟩

section Visits

def foldInsn (id : InsnId) : Edit Nat := do
  match (← knownInsn id).fold? id with
  | some x => return 1 + (← replaceUses (.insn id) x)
  | none => return 0

theorem foldConstants_eq (b : BlockId) (debug : Bool)
    : foldConstants b debug = sweep b .forward foldInsn >>= (complete b · debug) := rfl

def mergeInsn (id : InsnId) : Edit Nat := do
  if (← knownInsn id).uses.len = 0 then
    return 0
  match (← get).duplicate? id with
  | some earlier => return 1 + (← replaceUses (.insn id) (.insn earlier))
  | none => return 0

theorem deduplicate_eq (b : BlockId) (debug : Bool)
    : deduplicate b debug = sweep b .backward mergeInsn >>= (complete b · debug) := rfl

def resolveLoad (image : Image) (id : InsnId) : Edit Nat := do
  let i ← knownInsn id
  match i.loadAddress?.bind ((← get).readConstant? image i.ty) with
  | some c => replaceUses (.insn id) (.const c)
  | none => return 0

theorem resolveLoads_of_image {r : Routine} {image : Image} (h : r.image = some image) (b : BlockId)
    (debug : Bool)
    : resolveLoads b debug r = (sweep b .forward (resolveLoad image) >>= (complete b · debug)) r := by
  unfold resolveLoads
  rw [get_bind_run, h]
  rfl

theorem resolveLoads_of_no_image {r : Routine} (h : r.image = none) (b : BlockId) (debug : Bool)
    : resolveLoads b debug r = .ok 0 r := by
  unfold resolveLoads
  rw [get_bind_run, h]
  rfl

def visitRegister (s : Producers × Nat) (id : InsnId) : Edit (Producers × Nat) := do
  let i ← knownInsn id
  match i.opcode, (i.operand? 0).bind Operand.reg? with
  | .writeReg, some x => visitWrite s.1 s.2 id x
  | .readReg, some x => visitRead s.1 s.2 id x
  | o, _ => return (if o.touchesRegisters then [] else s.1, s.2)

theorem forwardRegisters_eq (b : BlockId) (debug : Bool)
    : forwardRegisters b debug =
        sweepWith b .forward ([], 0) visitRegister >>= fun s => complete b s.2 debug := rfl

end Visits

structure CoversInPlace (R : Routine → Routine → Prop) : Prop where
  setOperand : ∀ id k x, Within R (setOperand id k x)
  setOpcode : ∀ id opcode, Within R (setOpcode id opcode)
  setTemplate : ∀ id index t, Within R (setTemplate id index t)

structure Covers (R : Routine → Routine → Prop) : Prop extends CoversInPlace R where
  insertBefore : ∀ id i, Within R (insertBefore id i)
  erase : ∀ id, Within R (erase id)

section Covers

variable {R : Routine → Routine → Prop} [Std.Refl R] [Trans R R R]

theorem Within.complete {b : BlockId} (h : Within R (removeDeadCode b)) (n : Nat) (debug : Bool)
    : Within R (complete b n debug) := by
  have hremove : Within R (do return n + (← removeDeadCode b)) :=
    Within.bind h fun _ => Within.pure _
  unfold Edit.complete
  split
  . exact Within.pure _
  . split
    . exact Within.bind (Within.of_left_eq (left_require _)) fun _ => hremove
    . exact hremove

namespace CoversInPlace

theorem replaceUses (h : CoversInPlace R) (v : ValueId) (x : Operand) : Within R (replaceUses v x) :=
  Within.replaceUses h.setOperand v x

theorem foldInsn (h : CoversInPlace R) (id : InsnId) : Within R (foldInsn id) := by
  unfold Edit.foldInsn
  refine Within.bind (Within.knownInsn id) fun i => ?_
  split
  . refine Within.bind (h.replaceUses _ _) fun n => ?_
    exact Within.pure _
  . exact Within.pure _

theorem mergeInsn (h : CoversInPlace R) (id : InsnId) : Within R (mergeInsn id) := by
  unfold Edit.mergeInsn
  refine Within.bind (Within.knownInsn id) fun i => ?_
  split
  . exact Within.pure _
  . refine Within.bind Within.get fun r => ?_
    split
    . refine Within.bind (h.replaceUses _ _) fun n => ?_
      exact Within.pure _
    . exact Within.pure _

theorem simplify (h : CoversInPlace R) (id : InsnId) (s : Simplification)
    : Within R (simplify id s) := by
  unfold Edit.simplify
  split
  . split
    . exact Within.pure _
    . refine Within.bind (h.replaceUses _ _) fun n => ?_
      exact Within.pure _
  . refine Within.bind (h.setOperand _ _ _) fun _ => ?_
    refine Within.bind (h.setOperand _ _ _) fun _ => ?_
    exact Within.pure _
  . refine Within.bind (h.setTemplate _ _ _) fun _ => ?_
    refine Within.bind (h.setOperand _ _ _) fun _ => ?_
    exact Within.pure _

theorem combineInsn (h : CoversInPlace R) (id : InsnId) : Within R (combineInsn id) := by
  unfold Edit.combineInsn
  refine Within.bind Within.get fun r => ?_
  refine Within.bind (Within.knownInsn id) fun i => ?_
  split
  . apply h.simplify
  . exact Within.pure _

theorem resolveLoad (h : CoversInPlace R) (image : Image) (id : InsnId)
    : Within R (resolveLoad image id) := by
  unfold Edit.resolveLoad
  refine Within.bind (Within.knownInsn id) fun i => ?_
  refine Within.bind Within.get fun r => ?_
  split
  . apply h.replaceUses
  . exact Within.pure _

theorem forwardRead (h : CoversInPlace R) (hinsert : ∀ id i, Within R (insertBefore id i))
    (read : InsnId) (p : Producer) : Within R (forwardRead read p) := by
  have hcontent : Within R (content? p) := by
    unfold content?
    refine Within.bind (Within.knownInsn _) fun i => ?_
    split
    . exact Within.pure _
    . exact Within.pure _
  unfold Edit.forwardRead
  refine Within.bind hcontent fun content => ?_
  split
  . exact Within.pure _
  . refine Within.bind (Within.knownInsn read) fun i => ?_
    dsimp only
    split
    . refine Within.bind (h.replaceUses _ _) fun n => ?_
      refine Within.bind (h.setOpcode _ _) fun _ => ?_
      exact Within.pure _
    . refine Within.bind (hinsert _ _) fun cast => ?_
      refine Within.bind (h.replaceUses _ _) fun n => ?_
      exact Within.pure _

end CoversInPlace

namespace Covers

theorem removeDeadCode (h : Covers R) (b : BlockId) : Within R (removeDeadCode b) :=
  Within.eraseIf h.erase _ _ _

theorem complete (h : Covers R) (b : BlockId) (n : Nat) (debug : Bool)
    : Within R (complete b n debug) := (h.removeDeadCode b).complete n debug

theorem foldConstants (h : Covers R) (b : BlockId) (debug : Bool) : Within R (foldConstants b debug) := by
  rw [foldConstants_eq]
  exact Within.bind (Within.sweep h.foldInsn b .forward) fun n => h.complete b n debug

theorem deduplicate (h : Covers R) (b : BlockId) (debug : Bool) : Within R (deduplicate b debug) := by
  rw [deduplicate_eq]
  exact Within.bind (Within.sweep h.mergeInsn b .backward) fun n => h.complete b n debug

theorem combine (h : Covers R) (b : BlockId) (debug : Bool) : Within R (combine b debug) :=
  Within.bind (Within.sweep h.combineInsn b .forward) fun n => h.complete b n debug

theorem resolveLoads (h : Covers R) (b : BlockId) (debug : Bool) : Within R (resolveLoads b debug) := by
  unfold Edit.resolveLoads
  refine Within.bind Within.get fun r => ?_
  split
  . exact Within.pure _
  . exact Within.bind (Within.sweep (h.resolveLoad _) b .forward) fun n => h.complete b n debug

theorem visitRegister (h : Covers R) (s : Producers × Nat) (id : InsnId)
    : Within R (visitRegister s id) := by
  have hread : ∀ known n x, Within R (visitRead known n id x) := by
    intro known n x
    unfold visitRead
    split
    . refine Within.bind (h.forwardRead h.insertBefore _ _) fun m => ?_
      exact Within.pure _
    . exact Within.pure _
  have hwrite : ∀ known n x, Within R (visitWrite known n id x) := by
    intro known n x
    unfold visitWrite
    split
    . refine Within.bind (h.erase _) fun _ => ?_
      exact Within.pure _
    . exact Within.pure _
  unfold Edit.visitRegister
  refine Within.bind (Within.knownInsn id) fun i => ?_
  split
  . apply hwrite
  . apply hread
  . exact Within.pure _

theorem forwardRegisters (h : Covers R) (b : BlockId) (debug : Bool)
    : Within R (forwardRegisters b debug) := by
  rw [forwardRegisters_eq]
  exact Within.bind (Within.sweepWith h.visitRegister b .forward _) fun s => h.complete b s.2 debug

end Covers

end Covers

theorem covers_keeps : Covers Keeps where
  setOperand := keeps_setOperand
  setOpcode := keeps_setOpcode
  setTemplate := keeps_setTemplate
  insertBefore := keeps_insertBefore
  erase := keeps_erase

theorem keeps_complete (b : BlockId) (n : Nat) (debug : Bool) : Within Keeps (complete b n debug) :=
  covers_keeps.complete b n debug

theorem keeps_combineInsn (id : InsnId) : Within Keeps (combineInsn id) :=
  covers_keeps.combineInsn id

theorem keeps_combine (b : BlockId) (debug : Bool) : Within Keeps (combine b debug) :=
  covers_keeps.combine b debug

end MachineIR.Edit
