import MachineIR.Proofs.UseSoundness

/-!
This module contains what edits do to the cells of a routine. A new part gets a cell behind the others
and the next name, a part that is erased leaves an empty cell, and whatever else is done changes parts
in their cells and lets them keep their names. A relation that allows this much holds between a routine
before an edit and after it.
-/

namespace MachineIR

namespace Edit

open Routine

structure Allows (R : Routine → Routine → Prop) : Prop where
  modifyInsn : ∀ r id (f : Insn → Insn), (∀ i, (f i).name = i.name) → R r (r.modifyInsn id f)
  modifyBlock : ∀ r b (f : Block → Block), (∀ x, (f x).name = x.name) → R r (r.modifyBlock b f)
  pushInsn : ∀ r i, i.name = r.nextInsnName → R r (pushInsn i r)
  eraseInsn : ∀ r n, R r { r with insns := r.insns.erase n }
  pushBlock : ∀ r, R r (pushBlock r)
  eraseBlock : ∀ r n, R r { r with blocks := r.blocks.erase n }
  -- Cells are all that matters, and the names that are next.
  rest : ∀ r r' : Routine, r'.insns = r.insns → r'.blocks = r.blocks →
    r'.nextInsnName = r.nextInsnName → r'.nextBlockName = r.nextBlockName → R r r'

namespace Allows

variable {R : Routine → Routine → Prop} (h : Allows R)
include h

theorem within_modifyInsn (id : InsnId) {f : Insn → Insn} (hf : ∀ i, (f i).name = i.name)
    : Within R (modify (·.modifyInsn id f) : Edit PUnit) :=
  Within.modify fun r => h.modifyInsn r id f hf

theorem within_modifyBlock (b : BlockId) {f : Block → Block} (hf : ∀ x, (f x).name = x.name)
    : Within R (modify (·.modifyBlock b f) : Edit PUnit) :=
  Within.modify fun r => h.modifyBlock r b f hf

theorem setNext (b : BlockId) (id next : Option InsnId) (r : Routine)
    : R r (setNext b id next r) := by
  unfold Edit.setNext
  split
  . exact h.modifyInsn r _ _ fun _ => rfl
  . exact h.modifyBlock r _ _ fun _ => rfl

theorem setPrev (b : BlockId) (id prev : Option InsnId) (r : Routine)
    : R r (setPrev b id prev r) := by
  unfold Edit.setPrev
  split
  . exact h.modifyInsn r _ _ fun _ => rfl
  . exact h.modifyBlock r _ _ fun _ => rfl

variable [Trans R R R]

theorem setUseList (r : Routine) (uses : UseTable) (v : ValueId) (l : UseList)
    : R r ({ r with uses }.setUseList v l) := by
  have huses : R r { r with uses } := h.rest r _ rfl rfl rfl rfl
  have hlist : R { r with uses } ({ r with uses }.setUseList v l) := by
    cases v with
    | insn id => exact h.modifyInsn _ id _ fun _ => rfl
    | block b => exact h.modifyBlock _ b _ fun _ => rfl
  exact Trans.trans huses hlist

variable [Std.Refl R]

section Operands

theorem linkUse (v : ValueId) (user : InsnId) (slot : Nat) : Within R (linkUse v user slot) := by
  intro r
  cases hl : r.useList? v with
  | none =>
    have hrun : Edit.linkUse v user slot r = .error (.invalidHandle v) r := by
      simp [Edit.linkUse, hl]
    rw [left_of_error hrun]
    exact Std.Refl.refl r
  | some l =>
    rw [left_of_ok (linkUse_run hl user slot)]
    exact h.setUseList _ _ _ _

theorem unlinkUse (v : ValueId) (use : UseId) : Within R (unlinkUse v use) := by
  intro r
  cases hl : r.useList? v with
  | none =>
    have hrun : Edit.unlinkUse v use r = .error (.integrity (.destroyedValue v)) r := by
      simp [Edit.unlinkUse, hl]
    rw [left_of_error hrun]
    exact Std.Refl.refl r
  | some l =>
    cases hunlink : r.uses.unlink? l use with
    | none =>
      have hrun : Edit.unlinkUse v use r = .error (.integrity (.notLinked use v)) r := by
        simp [Edit.unlinkUse, hl, hunlink]
      rw [left_of_error hrun]
      exact Std.Refl.refl r
    | some p =>
      rw [left_of_ok (unlinkUse_run hl hunlink)]
      exact h.setUseList _ _ _ _

theorem releaseOperand (id : InsnId) (k : Nat) : Within R (releaseOperand id k) := by
  unfold Edit.releaseOperand
  refine Within.bind (Within.insn id) fun i => ?_
  split
  . exact Within.throw _
  . exact Within.bind (h.unlinkUse _ _) fun _ => h.within_modifyInsn id fun _ => rfl
  . exact Within.pure _

theorem setOperand (id : InsnId) (k : Nat) (x : Operand) : Within R (setOperand id k x) := by
  unfold Edit.setOperand
  refine Within.bind (Within.requireLive x) fun _ => ?_
  refine Within.bind (h.releaseOperand id k) fun _ => ?_
  split
  . refine Within.bind ((h.linkUse _ _ _).map _) fun _ => ?_
    exact h.within_modifyInsn id fun _ => rfl
  . exact Within.bind (Within.pure _) fun _ => h.within_modifyInsn id fun _ => rfl

theorem pushOperand (id : InsnId) (x : Operand) : Within R (pushOperand id x) := by
  unfold Edit.pushOperand
  refine Within.bind (Within.requireLive x) fun _ => ?_
  refine Within.bind (Within.insn id) fun i => ?_
  refine Within.bind (h.within_modifyInsn id fun _ => rfl) fun _ => ?_
  exact Within.bind (h.setOperand id _ x) fun _ => Within.pure _

theorem removeOperand (id : InsnId) (k : Nat) : Within R (removeOperand id k) := by
  unfold Edit.removeOperand
  refine Within.bind (h.releaseOperand id k) fun _ => ?_
  refine Within.bind (Within.insn id) fun i => ?_
  split
  . exact Within.throw _
  . refine Within.bind (Within.modify fun r => ?_) fun _ => Within.pure _
    have hslots : R r (r.modifyInsn id fun i => { i with slots := i.slots.eraseIdx k }) :=
      h.modifyInsn r id _ fun _ => rfl
    exact Trans.trans hslots (h.rest _ _ rfl rfl rfl rfl)

theorem setOpcode (id : InsnId) (opcode : Opcode) : Within R (setOpcode id opcode) := by
  unfold Edit.setOpcode
  exact Within.bind (Within.insn id) fun _ => h.within_modifyInsn id fun _ => rfl

theorem setTemplate (id : InsnId) (index : Nat) (t : Ty) : Within R (setTemplate id index t) := by
  unfold Edit.setTemplate
  refine Within.bind (Within.insn id) fun i => ?_
  split
  . exact h.within_modifyInsn id fun _ => rfl
  . exact h.within_modifyInsn id fun _ => rfl
  . exact Within.throw _

theorem replaceUses (v : ValueId) (x : Operand) : Within R (replaceUses v x) :=
  Within.replaceUses h.setOperand v x

end Operands

section Placement

theorem linkOperands (id : InsnId) (operands : List Operand) (index : Nat)
    : Within R (linkOperands id operands index) := by
  induction operands generalizing index with
  | nil => exact Within.pure _
  | cons x rest ih =>
    cases x with
    | value v =>
      refine Within.bind (h.linkUse v id index) fun _ => ?_
      exact Within.bind (h.within_modifyInsn id fun _ => rfl) fun _ => ih _
    | _ => exact ih _

theorem join (b : BlockId) (prev next : Option InsnId) (id : InsnId)
    : Within R (join b prev next id) := by
  unfold Edit.join
  refine Within.bind (Within.modify fun r => ?_) fun _ => ?_
  . exact Trans.trans (h.setNext b prev (some id) r) (h.setPrev b next (some id) _)
  . exact Within.bind (h.within_modifyBlock b fun _ => rfl) fun _ => Within.pure _

theorem place (b : BlockId) (prev next : Option InsnId) (i : Instruction)
    : Within R (place b prev next i) := by
  -- A new instruction comes first, with the next name; then it is linked.
  intro r
  rcases forM_requireLive_run i.operands r with ⟨hlive, -⟩ | ⟨e, he⟩
  . have hleft : left (Edit.place b prev next i) r =
        left (Edit.linkOperands (.ofNat r.insns.size) i.operands 0 >>= fun _ =>
          Edit.join b prev next (.ofNat r.insns.size)) (Edit.pushInsn (placed b prev next i r) r) := by
      unfold left
      rw [place_of_live hlive]
    have hlinks : Within R (Edit.linkOperands (.ofNat r.insns.size) i.operands 0 >>= fun _ =>
        Edit.join b prev next (.ofNat r.insns.size)) :=
      Within.bind (h.linkOperands _ _ _) fun _ => h.join _ _ _ _
    rw [hleft]
    exact Trans.trans (h.pushInsn r (placed b prev next i r) rfl) (hlinks _)
  . unfold Edit.place
    rw [left_bind_of_error he]
    exact Std.Refl.refl r

theorem pushBack (b : BlockId) (i : Instruction) : Within R (pushBack b i) := by
  unfold Edit.pushBack
  exact Within.bind (Within.block b) fun _ => h.place _ _ _ _

theorem pushFront (b : BlockId) (i : Instruction) : Within R (pushFront b i) := by
  unfold Edit.pushFront
  exact Within.bind (Within.block b) fun _ => h.place _ _ _ _

theorem insertBefore (id : InsnId) (i : Instruction) : Within R (insertBefore id i) := by
  unfold Edit.insertBefore
  exact Within.bind (Within.insn id) fun _ => h.place _ _ _ _

theorem insertAfter (id : InsnId) (i : Instruction) : Within R (insertAfter id i) := by
  unfold Edit.insertAfter
  exact Within.bind (Within.insn id) fun _ => h.place _ _ _ _

theorem unlinkInsn (id : InsnId) : Within R (unlinkInsn id) := by
  unfold Edit.unlinkInsn
  refine Within.bind (Within.insn id) fun i => ?_
  refine Within.bind (Within.modify fun r => ?_) fun _ => ?_
  . exact Trans.trans (h.setNext i.block i.prev i.next r) (h.setPrev i.block i.next i.prev _)
  . exact h.within_modifyBlock i.block fun _ => rfl

theorem erase (id : InsnId) : Within R (erase id) := by
  unfold Edit.erase
  refine Within.bind (Within.insn id) fun i => ?_
  refine Within.bind Within.get fun r => ?_
  dsimp only
  split
  . exact Within.throw _
  . refine Within.bind (Within.forM fun k _ => h.releaseOperand id k) fun _ => ?_
    refine Within.bind (h.unlinkInsn id) fun _ => ?_
    exact Within.modify fun r => h.eraseInsn r _

end Placement

section Blocks

omit [Trans R R R] [Std.Refl R] in
theorem addBlock : Within R addBlock := fun r => h.pushBlock r

theorem setBlockRange (b : BlockId) (ip : UInt64) (endIp : Option UInt64)
    : Within R (setBlockRange b ip endIp) := by
  unfold Edit.setBlockRange
  exact Within.bind (Within.block b) fun _ => h.within_modifyBlock b fun _ => rfl

theorem deleteBlock (b : BlockId) : Within R (deleteBlock b) := by
  unfold Edit.deleteBlock
  refine Within.bind (Within.block b) fun found => ?_
  split
  . exact Within.throw _
  . refine Within.bind Within.get fun r => ?_
    refine Within.bind (Within.forM fun id _ => (h.replaceUses _ _).discard) fun _ => ?_
    refine Within.bind (Within.forM fun id _ => h.erase id) fun _ => ?_
    refine Within.bind (h.replaceUses _ _).discard fun _ => Within.modify fun r => ?_
    exact Trans.trans (h.eraseBlock r b.toNat) (h.rest _ _ rfl rfl rfl rfl)

theorem addJump (source target : BlockId) : Within R (addJump source target) := by
  unfold Edit.addJump
  refine Within.bind (Within.block target) fun _ => ?_
  refine Within.bind (Within.block source) fun _ => ?_
  refine Within.bind (h.within_modifyBlock source fun _ => rfl) fun _ => ?_
  exact h.within_modifyBlock target fun _ => rfl

theorem deleteJump (source target : BlockId) (fixPhis : Bool)
    : Within R (deleteJump source target fixPhis) := by
  have hedges : ∀ p s : Nat, Within R (do
      modify (·.modifyBlock target fun b => { b with predecessors := b.predecessors.eraseIdx p })
      modify (·.modifyBlock source fun b => { b with successors := b.successors.eraseIdx s }) :
        Edit PUnit) := by
    intro p s
    refine Within.bind (h.within_modifyBlock target fun _ => rfl) fun _ => ?_
    exact h.within_modifyBlock source fun _ => rfl
  unfold Edit.deleteJump
  refine Within.bind (Within.block target) fun found => ?_
  split
  . exact Within.throw _
  . next p _ =>
    refine Within.bind (Within.block source) fun found => ?_
    split
    . exact Within.throw _
    . split
      . refine Within.bind Within.get fun r => ?_
        refine Within.bind (Within.forM fun phi _ => ?_) fun _ => hedges _ _
        refine Within.bind (Within.knownInsn phi) fun i => ?_
        split
        . exact (h.removeOperand phi p).discard
        . exact Within.pure _
      . exact hedges _ _

theorem handOver (b : BlockId) (prev id : InsnId) (ip : Option UInt64) (moved : List InsnId)
    (order : List BlockId) (new : BlockId) : Within R (handOver b prev id ip moved order new) := by
  unfold Edit.handOver
  refine Within.bind (Within.modify fun r => h.rest r _ rfl rfl rfl rfl) fun _ => ?_
  refine Within.bind (Within.modify fun r => ?_) fun _ => ?_
  . refine rel_foldl (fun r id => ?_) moved r
    exact h.modifyInsn r id _ fun _ => rfl
  refine Within.bind (h.within_modifyInsn id fun _ => rfl) fun _ => ?_
  refine Within.bind (h.within_modifyInsn prev fun _ => rfl) fun _ => ?_
  refine Within.bind (Within.block b) fun old => ?_
  refine Within.bind (h.within_modifyBlock b fun _ => rfl) fun _ => ?_
  refine Within.bind (Within.modify fun r => ?_) fun _ => ?_
  . refine rel_foldl (fun r c => ?_) old.successors r
    exact h.modifyBlock r c _ fun _ => rfl
  exact Within.bind (h.within_modifyBlock new fun _ => rfl) fun _ => Within.pure _

theorem split (b : BlockId) (id : InsnId) : Within R (split b id) := by
  unfold Edit.split
  refine Within.bind (Within.insn id) fun i => ?_
  by_cases hb : i.block ≠ b
  . simp only [if_pos hb]
    cases i.prev with
    | none => exact Within.throw_bind _ _
    | some prev => exact Within.throw_bind _ _
  . simp only [if_neg hb]
    cases i.prev with
    | none => exact Within.pure _
    | some prev =>
      refine Within.bind Within.get fun r => ?_
      refine Within.bind Within.get fun r => ?_
      exact Within.bind h.addBlock fun new => h.handOver b prev id i.ip _ _ new

end Blocks

theorem covers : Covers R where
  setOperand := h.setOperand
  setOpcode := h.setOpcode
  setTemplate := h.setTemplate
  insertBefore := h.insertBefore
  erase := h.erase

theorem action {r : Routine} (hinsns : R r r.renameInsns) (hblocks : R r r.renameBlocks)
    (hsort : R r r.topologicalSort) (a : Action) : R r (left a.run r) := by
  -- Only a change of the layout or of the names has to be looked at.
  cases a with
  | setImage image => exact h.rest r _ rfl rfl rfl rfl
  | setArch arch => exact h.rest r _ rfl rfl rfl rfl
  | setIp ip => exact h.rest r _ rfl rfl rfl rfl
  | addBlock => exact h.addBlock.discard r
  | setBlockRange b ip endIp => exact h.setBlockRange b ip endIp r
  | deleteBlock b => exact h.deleteBlock b r
  | addJump source target => exact h.addJump source target r
  | deleteJump source target fixPhis => exact h.deleteJump source target fixPhis r
  | split b id => exact (h.split b id).discard r
  | pushBack b i => exact (h.pushBack b i).discard r
  | pushFront b i => exact (h.pushFront b i).discard r
  | insertBefore id i => exact (h.insertBefore id i).discard r
  | insertAfter id i => exact (h.insertAfter id i).discard r
  | setOperand id index x => exact h.setOperand id index x r
  | pushOperand id x => exact (h.pushOperand id x).discard r
  | removeOperand id index => exact (h.removeOperand id index).discard r
  | setOpcode id opcode => exact h.setOpcode id opcode r
  | setTemplate id index t => exact h.setTemplate id index t r
  | replaceUses v x => exact (h.replaceUses v x).discard r
  | erase id => exact h.erase id r
  | eraseIf b direction p => exact (Within.eraseIf h.erase b direction p).discard r
  | topologicalSort => exact hsort
  | renameInsns => exact hinsns
  | renameBlocks => exact hblocks
  | foldConstants b debug => exact (h.covers.foldConstants b debug).discard r
  | deduplicate b debug => exact (h.covers.deduplicate b debug).discard r
  | combine b debug => exact (h.covers.combine b debug).discard r
  | resolveLoads b debug => exact (h.covers.resolveLoads b debug).discard r
  | forwardRegisters b debug => exact (h.covers.forwardRegisters b debug).discard r
  | removeDeadCode b => exact (h.covers.removeDeadCode b).discard r

end Allows

end Edit

end MachineIR
