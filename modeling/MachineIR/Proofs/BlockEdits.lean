import MachineIR.Proofs.PlacementEdits
import MachineIR.Routine.Flow
import MachineIR.Routine.Layout

/-!
This module contains what the changes to blocks, to edges and to the layout do to a routine that
tracks its uses.
-/

namespace MachineIR

namespace Edit

open Routine

section Blocks

def pushBlock (r : Routine) : Routine :=
  { r with
    blocks := r.blocks.push { name := r.nextBlockName }
    nextBlockName := r.nextBlockName + 1
    order := r.order ++ [.ofNat r.blocks.size] }

theorem keeps_pushBlock (r : Routine) : r.Keeps (pushBlock r) := by
  refine ⟨⟨Nat.le_refl _, by simp [pushBlock], Nat.le_refl _⟩, ?_⟩
  intro hsmall htracked
  have hsize : r.blocks.size < UInt32.size := by
    have := hsmall.blocks
    simp only [pushBlock, Store.size_push] at this
    omega
  have hblock : ∀ c, (pushBlock r).block? c =
      if c = .ofNat r.blocks.size then some { name := r.nextBlockName } else r.block? c := by
    intro c
    unfold pushBlock block?
    dsimp only
    rw [Store.get?_push]
    simp only [← BlockId.toNat_inj, BlockId.toNat_ofNat hsize]
  have hfresh : r.block? (.ofNat r.blocks.size) = none := by
    unfold block?
    rw [BlockId.toNat_ofNat hsize]
    cases hget : r.blocks.get? r.blocks.size with
    | none => rfl
    | some b =>
      have := Store.lt_size_of_get? hget
      omega
  have hlist : ∀ w, (pushBlock r).useList? w =
      if w = .block (.ofNat r.blocks.size) then some {} else r.useList? w := by
    intro w
    cases w with
    | insn j => simp [useList?, pushBlock, insn?]
    | block c =>
      simp only [useList?, hblock, ValueId.block.injEq]
      split
      . rfl
      . rfl
  have hpending : (pushBlock r).Tracks fun _ _ => False ∨ False := by
    apply htracked.extend (fun _ _ => False) fun w => w = .block (.ofNat r.blocks.size)
    . intro j n hfalse
      exact hfalse.elim
    . rintro w rfl
      simp [useList?, hfresh]
    . rfl
    . intro j n hj
      rfl
    . intro j n s hfalse
      exact hfalse.elim
    . intro w hw
      rw [hlist, if_neg hw]
    . intro w hw
      rw [hlist, if_pos hw]
  apply hpending.mono
  rintro j n w hs (hfalse | hfalse)
  . exact hfalse
  . exact hfalse

theorem keeps_addBlock : Within Keeps addBlock := by
  intro r
  exact keeps_pushBlock r

theorem keeps_setBlockRange (b : BlockId) (ip : UInt64) (endIp : Option UInt64)
    : Within Keeps (setBlockRange b ip endIp) := by
  unfold setBlockRange
  apply Within.bind
  . exact Within.block b
  . intro found
    exact keeps_modifyBlock (by intro b; rfl) _

def dropBlock (b : BlockId) (r : Routine) : Routine :=
  { r with order := r.order.filter (· ≠ b), blocks := r.blocks.erase b.toNat }

theorem tracked_dropBlock {r : Routine} {b : BlockId} (h : r.Tracked)
    (hfree : ∀ j k use, r.slot? j k ≠ some ⟨.value (.block b), use⟩) : (dropBlock b r).Tracked := by
  have hlist : ∀ w, (dropBlock b r).useList? w = if w = .block b then none else r.useList? w := by
    intro w
    cases w with
    | insn j => simp [useList?, dropBlock, insn?]
    | block c =>
      simp only [useList?, dropBlock, block?, ValueId.block.injEq, Store.get?_erase,
        BlockId.toNat_inj]
      by_cases hc : c = b
      . simp [hc]
      . have : ¬ b = c := fun heq => hc heq.symm
        simp [hc, this]
  have hremoved : (dropBlock b r).Tracks fun _ _ => False ∧ ¬ False := by
    apply h.remove (fun _ => False) fun w => w = .block b
    . intro j k use x hfalse
      exact hfalse.elim
    . rintro j k use w - rfl
      exact hfree j k use
    . rfl
    . intro j k hj
      rfl
    . intro j k hfalse
      exact hfalse.elim
    . intro w hw
      rw [hlist, if_neg hw]
    . intro w hw
      rw [hlist, if_pos hw]
  apply hremoved.mono
  intro j k w hs hp
  exact hp.1

theorem keeps_replaceUses_dropBlock (b : BlockId)
    : Within Keeps (discard (replaceUses (.block b) (.const .void)) >>= fun _ =>
        modify (dropBlock b) : Edit PUnit) := by
  intro r
  have hgrows : Within Grows (discard (replaceUses (.block b) (.const .void)) >>= fun _ =>
      modify (dropBlock b) : Edit PUnit) := by
    apply Within.bind
    . apply Within.discard
      exact (keeps_replaceUses _ _).mono fun r r' h => h.grows
    . intro u
      apply Within.modify
      intro r
      refine ⟨Nat.le_refl _, ?_, Nat.le_refl _⟩
      simp [dropBlock]
  refine ⟨hgrows r, ?_⟩
  intro hsmall htracked
  have hvoid : Operand.const .void ≠ .value (.block b) := by
    intro heq
    cases heq
  cases hb : r.contains (.block b) with
  | false =>
    obtain ⟨e, he⟩ := replaceUses_run_error hvoid (Or.inl hb)
    rw [left_bind_of_error (discard_of_error he)]
    exact htracked
  | true =>
    obtain ⟨r', hrun, hreplaced⟩ :=
      replaceUses_run htracked ((hgrows r).small hsmall) hb (x := .const .void)
        (by
          intro w heq
          cases heq)
        hvoid
    rw [left_bind_of_ok (discard_of_ok hrun)]
    apply tracked_dropBlock hreplaced.tracked
    intro j k use
    exact hreplaced.slot_ne hvoid

theorem keeps_deleteBlock (b : BlockId) : Within Keeps (deleteBlock b) := by
  have hrest : ∀ insns : List InsnId, Within Keeps (do
      insns.forM fun id => discard (replaceUses (.insn id) (.const .void))
      insns.reverse.forM erase
      discard (replaceUses (.block b) (.const .void))
      modify (dropBlock b) : Edit PUnit) := by
    intro insns
    apply Within.bind
    . apply Within.forM
      intro id hid
      apply Within.discard
      apply keeps_replaceUses
    . intro u
      apply Within.bind
      . apply Within.forM
        intro id hid
        apply keeps_erase
      . intro u
        apply keeps_replaceUses_dropBlock
  unfold deleteBlock
  apply Within.bind
  . exact Within.block b
  . intro found
    split
    . exact Within.throw _
    . apply Within.bind
      . exact Within.get
      . intro r
        exact hrest _

end Blocks

section Jumps

theorem keeps_addJump (source target : BlockId) : Within Keeps (addJump source target) := by
  unfold addJump
  apply Within.bind
  . exact Within.block target
  . intro found
    apply Within.bind
    . exact Within.block source
    . intro found
      apply Within.bind
      . exact keeps_modifyBlock (by intro b; rfl) _
      . intro u
        exact keeps_modifyBlock (by intro b; rfl) _

theorem keeps_deleteJump (source target : BlockId) (fixPhis : Bool)
    : Within Keeps (deleteJump source target fixPhis) := by
  have hphi : ∀ k phi, Within Keeps (do
      if k < (← knownInsn phi).slots.length then
        discard (removeOperand phi k) : Edit PUnit) := by
    intro k phi
    apply Within.bind
    . exact Within.knownInsn phi
    . intro i
      split
      . apply Within.discard
        apply keeps_removeOperand
      . exact Within.pure _
  have hrest : ∀ p s : Nat, Within Keeps (do
      modify (·.modifyBlock target fun b => { b with predecessors := b.predecessors.eraseIdx p })
      modify (·.modifyBlock source fun b => { b with successors := b.successors.eraseIdx s }) :
        Edit PUnit) := by
    intro p s
    apply Within.bind
    . exact keeps_modifyBlock (by intro b; rfl) _
    . intro u
      exact keeps_modifyBlock (by intro b; rfl) _
  unfold deleteJump
  apply Within.bind
  . exact Within.block target
  . intro found
    split
    . exact Within.throw _
    . apply Within.bind
      . exact Within.block source
      . intro found
        split
        . exact Within.throw _
        . split
          . apply Within.bind
            . exact Within.get
            . intro r
              apply Within.bind
              . apply Within.forM
                intro phi hmem
                apply hphi
              . intro u
                apply hrest
          . apply hrest

end Jumps

section Split

theorem sameUses_setBlocks (moved : List InsnId) (b : BlockId) (r : Routine)
    : r.SameUses (moved.foldl (fun r id => r.modifyInsn id ({ · with block := b })) r) := by
  apply rel_foldl
  intro r id
  apply SameUses.modifyInsn <;> intro i <;> rfl

def handOver (b : BlockId) (prev id : InsnId) (ip : Option UInt64) (moved : List InsnId)
    (order : List BlockId) (new : BlockId) : Edit BlockId := do
  modify fun r => { r with order := insertBehind b new order }
  modify fun r => moved.foldl (fun r id => r.modifyInsn id ({ · with block := new })) r
  modify (·.modifyInsn id ({ · with prev := none }))
  modify (·.modifyInsn prev ({ · with next := none }))
  let old ← block b
  modify (·.modifyBlock b fun b =>
    { b with last := some prev, len := b.len - moved.length, endIp := ip, successors := [] })
  let rename (c : BlockId) : BlockId := if c = b then new else c
  modify fun r => old.successors.foldl (fun r c => r.modifyBlock c fun b =>
    { b with predecessors := b.predecessors.map rename }) r
  modify (·.modifyBlock new ({ · with
    first := some id
    last := old.last
    len := moved.length
    ip := ip
    endIp := old.endIp
    successors := old.successors }))
  pure new

theorem keeps_handOver (b : BlockId) (prev id : InsnId) (ip : Option UInt64) (moved : List InsnId)
    (order : List BlockId) (new : BlockId)
    : Within Keeps (handOver b prev id ip moved order new) := by
  unfold handOver
  refine Within.bind (Within.modify fun r => ?_) fun _ => ?_
  . exact SameUses.keeps ⟨rfl, rfl, fun _ _ => rfl, fun _ => rfl, rfl⟩
  refine Within.bind (Within.modify fun r => ?_) fun _ => ?_
  . exact (sameUses_setBlocks _ _ r).keeps
  refine Within.bind (keeps_modifyInsn (by intro i; rfl) (by intro i; rfl) id) fun _ => ?_
  refine Within.bind (keeps_modifyInsn (by intro i; rfl) (by intro i; rfl) prev) fun _ => ?_
  refine Within.bind (Within.block b) fun old => ?_
  refine Within.bind (keeps_modifyBlock (by intro b; rfl) b) fun _ => ?_
  refine Within.bind (Within.modify fun r => ?_) fun _ => ?_
  . apply SameUses.keeps
    apply rel_foldl
    intro r c
    apply SameUses.modifyBlock
    intro b
    rfl
  refine Within.bind (keeps_modifyBlock (by intro b; rfl) new) fun _ => ?_
  exact Within.pure _

theorem split_of_prev {r : Routine} {b : BlockId} {id prev : InsnId} {i : Insn}
    (hi : r.insn? id = some i) (hb : i.block = b) (hprev : i.prev = some prev)
    : split b id r =
        (addBlock >>= handOver b prev id i.ip (r.insnsFrom (some id)) r.order) r := by
  unfold split
  rw [bind_of_ok (insn_run_some hi)]
  simp only [hb, ne_eq, not_true_eq_false, ite_false, hprev, get_bind_run]
  rfl

theorem keeps_split (b : BlockId) (id : InsnId) : Within Keeps (split b id) := by
  unfold split
  refine Within.bind (Within.insn id) fun i => ?_
  by_cases hb : i.block ≠ b
  . simp only [if_pos hb]
    cases i.prev with
    | none => exact Within.throw_bind _ _
    | some prev => exact Within.throw_bind _ _
  . simp only [if_neg hb]
    cases i.prev with
    | none => exact Within.pure _
    | some prev =>
      refine Within.bind Within.get fun r => ?_
      refine Within.bind Within.get fun r => ?_
      refine Within.bind keeps_addBlock fun new => ?_
      exact keeps_handOver b prev id i.ip _ _ new

end Split

end Edit

namespace Routine

section Layout

theorem keeps_renameInsns (r : Routine) : r.Keeps r.renameInsns := by
  unfold renameInsns
  apply SameUses.keeps
  refine SameUses.trans (rel_foldl ?_ _ r) ⟨rfl, rfl, fun _ _ => rfl, fun _ => rfl, rfl⟩
  rintro r ⟨id, name⟩
  apply SameUses.modifyInsn <;> intro i <;> rfl

theorem keeps_renameBlocks (r : Routine) : r.Keeps r.renameBlocks := by
  unfold renameBlocks
  apply SameUses.keeps
  refine SameUses.trans (rel_foldl ?_ _ r) ⟨rfl, rfl, fun _ _ => rfl, fun _ => rfl, rfl⟩
  rintro r ⟨id, name⟩
  apply SameUses.modifyBlock
  intro b
  rfl

theorem keeps_topologicalSort (r : Routine) : r.Keeps r.topologicalSort := by
  unfold topologicalSort
  split
  . exact Keeps.refl r
  . have hsort : ∀ order, r.Keeps { r with order } := by
      intro order
      exact SameUses.keeps ⟨rfl, rfl, fun _ _ => rfl, fun _ => rfl, rfl⟩
    apply (hsort _).trans
    apply keeps_renameBlocks

end Layout

end Routine

end MachineIR
