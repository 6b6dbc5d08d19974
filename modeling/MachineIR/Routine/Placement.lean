import MachineIR.Routine.Edit

/-!
This module contains the placing and erasing of instructions.
-/

namespace MachineIR.Edit

def setNext (b : BlockId) (id next : Option InsnId) (r : Routine) : Routine :=
  match id with
  | some p => r.modifyInsn p ({ · with next })
  | none => r.modifyBlock b ({ · with first := next })

def setPrev (b : BlockId) (id prev : Option InsnId) (r : Routine) : Routine :=
  match id with
  | some n => r.modifyInsn n ({ · with prev })
  | none => r.modifyBlock b ({ · with last := prev })

def joinNeighbours (b : BlockId) (prev next : Option InsnId) (r : Routine) : Routine :=
  setPrev b next prev (setNext b prev next r)

def joinBetween (b : BlockId) (prev next : Option InsnId) (id : InsnId) (r : Routine) : Routine :=
  setPrev b next (some id) (setNext b prev (some id) r)

def linkOperands (id : InsnId) (operands : List Operand) (index : Nat) : Edit Unit :=
  match operands with
  | [] => pure ()
  | .value v :: rest => do
    let use ← linkUse v id index
    modify (·.modifySlot id index ({ · with use := some use }))
    linkOperands id rest (index + 1)
  | _ :: rest => linkOperands id rest (index + 1)

/--
Puts an instruction between two neighbours. An instruction without an address takes over the one of
the instruction before it.
-/
def place (b : BlockId) (prev next : Option InsnId) (i : Instruction) : Edit InsnId := do
  i.operands.forM requireLive
  let r ← get
  let id := InsnId.ofNat r.insns.size
  let placed : Insn := {
    opcode := i.opcode
    templates := i.templates
    slots := i.operands.map fun x => { operand := x }
    ip := i.ip <|> (prev.bind r.insn?).bind Insn.ip
    block := b
    prev
    next
    name := r.nextInsnName }
  set { r with insns := r.insns.push placed, nextInsnName := r.nextInsnName + 1 }
  linkOperands id i.operands 0
  modify (joinBetween b prev next id)
  modify (·.modifyBlock b fun b => { b with len := b.len + 1 })
  pure id

def pushBack (b : BlockId) (i : Instruction) : Edit InsnId := do
  place b (← block b).last none i

def pushFront (b : BlockId) (i : Instruction) : Edit InsnId := do
  place b none (← block b).first i

def insertBefore (at_ : InsnId) (i : Instruction) : Edit InsnId := do
  let neighbour ← insn at_
  place neighbour.block neighbour.prev (some at_) i

def insertAfter (at_ : InsnId) (i : Instruction) : Edit InsnId := do
  let neighbour ← insn at_
  place neighbour.block (some at_) neighbour.next i

def unlinkInsn (id : InsnId) : Edit Unit := do
  let i ← insn id
  modify (joinNeighbours i.block i.prev i.next)
  modify (·.modifyBlock i.block fun b => { b with len := b.len - 1 })

def erase (id : InsnId) : Edit Unit := do
  let i ← insn id
  let lingering := ((← get).usesOf (.insn id)).countP fun (user, _) => user ≠ id
  if 0 < lingering then
    throw (.lingeringUses (.insn id) lingering)
  (List.range i.slots.length).forM (releaseOperand id)
  unlinkInsn id
  modify fun r => { r with insns := r.insns.erase id.toNat }

end MachineIR.Edit
