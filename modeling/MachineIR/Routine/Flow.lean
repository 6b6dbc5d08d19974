import MachineIR.Routine.Placement

/-!
This module contains the changes to blocks and to the edges between them.
-/

namespace MachineIR.Edit

def addBlock : Edit BlockId := do
  let r ← get
  let id := BlockId.ofNat r.blocks.size
  set { r with
    blocks := r.blocks.push { name := r.nextBlockName }
    nextBlockName := r.nextBlockName + 1
    order := r.order ++ [id] }
  pure id

def setBlockRange (b : BlockId) (ip : UInt64) (endIp : Option UInt64) : Edit Unit := do
  let _ ← block b
  modify (·.modifyBlock b ({ · with ip := some ip, endIp }))

def deleteBlock (b : BlockId) : Edit Unit := do
  let found ← block b
  if !found.successors.isEmpty || !found.predecessors.isEmpty then
    throw (.integrity (.stillConnected b))
  let insns := (← get).insnsOf b
  insns.forM fun id => discard (replaceUses (.insn id) (.const .void))
  insns.reverse.forM erase
  discard (replaceUses (.block b) (.const .void))
  modify fun r =>
    { r with order := r.order.filter (· ≠ b), blocks := r.blocks.erase b.toNat }

def addJump (source target : BlockId) : Edit Unit := do
  let _ ← block target
  let _ ← block source
  modify (·.modifyBlock source fun b => { b with successors := b.successors ++ [target] })
  modify (·.modifyBlock target fun b => { b with predecessors := b.predecessors ++ [source] })

def leadingPhis (r : Routine) (b : BlockId) : List InsnId :=
  (r.insnsOf b).takeWhile fun id => (r.insn? id).any (·.opcode == .phi)

def deleteJump (source target : BlockId) (fixPhis : Bool) : Edit Unit := do
  match (← block target).predecessors.idxOf? source with
  | none => throw (.integrity (.notPredecessor source target))
  | some predecessor =>
    match (← block source).successors.idxOf? target with
    | none => throw (.integrity (.notSuccessor source target))
    | some successor =>
      if fixPhis then
        (leadingPhis (← get) target).forM fun phi => do
          if predecessor < (← knownInsn phi).slots.length then
            discard (removeOperand phi predecessor)
      modify (·.modifyBlock target fun b =>
        { b with predecessors := b.predecessors.eraseIdx predecessor })
      modify (·.modifyBlock source fun b =>
        { b with successors := b.successors.eraseIdx successor })

def insertBehind (b new : BlockId) : List BlockId → List BlockId
  | [] => [new]
  | c :: rest => if c = b then c :: new :: rest else c :: insertBehind b new rest

/--
Cuts a block in front of an instruction. The instruction and what follows move to a new block, which
takes over the outgoing edges. The result is the block that holds the instruction.
-/
def split (b : BlockId) (at_ : InsnId) : Edit BlockId := do
  let i ← insn at_
  if i.block ≠ b then
    throw (.integrity (.notInBlock at_ b))
  match i.prev with
  | none => pure b
  | some prev =>
    let moved := (← get).insnsFrom (some at_)
    let order := (← get).order
    let new ← addBlock
    modify fun r => { r with order := insertBehind b new order }
    modify fun r => moved.foldl (fun r id => r.modifyInsn id ({ · with block := new })) r
    modify (·.modifyInsn at_ ({ · with prev := none }))
    modify (·.modifyInsn prev ({ · with next := none }))
    let old ← block b
    modify (·.modifyBlock b fun b =>
      { b with last := some prev, len := b.len - moved.length, endIp := i.ip, successors := [] })
    let rename (c : BlockId) : BlockId := if c = b then new else c
    modify fun r => old.successors.foldl (fun r c => r.modifyBlock c fun b =>
      { b with predecessors := b.predecessors.map rename }) r
    modify (·.modifyBlock new ({ · with
      first := some at_
      last := old.last
      len := moved.length
      ip := i.ip
      endIp := old.endIp
      successors := old.successors }))
    pure new

end MachineIR.Edit
