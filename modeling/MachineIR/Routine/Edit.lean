import MachineIR.Error
import MachineIR.Routine.Basic

/-!
This module contains the changes to operands. A change runs on a routine and gives a result or an
error, and in both cases the routine that is left behind.
-/

namespace MachineIR

abbrev Edit := EStateM Error Routine

namespace Edit

def insn (id : InsnId) : Edit Insn := do
  match (← get).insn? id with
  | some i => pure i
  | none => throw (.invalidHandle (.insn id))

def block (id : BlockId) : Edit Block := do
  match (← get).block? id with
  | some b => pure b
  | none => throw (.invalidHandle (.block id))

def knownInsn (id : InsnId) : Edit Insn := do
  match (← get).insn? id with
  | some i => pure i
  | none => throw (.stale (.insn id))

def knownBlock (id : BlockId) : Edit Block := do
  match (← get).block? id with
  | some b => pure b
  | none => throw (.stale (.block id))

def requireLive : Operand → Edit Unit
  | .value v => do
    if (← get).contains v then pure () else throw (.invalidHandle v)
  | _ => pure ()

def linkUse (v : ValueId) (user : InsnId) (slot : Nat) : Edit UseId := do
  let r ← get
  match r.useList? v with
  | none => throw (.invalidHandle v)
  | some l =>
    let (uses, l, id) := r.uses.link l v user slot
    set ({ r with uses }.setUseList v l)
    pure id

def unlinkUse (v : ValueId) (id : UseId) : Edit Unit := do
  let r ← get
  match r.useList? v with
  | none => throw (.integrity (.destroyedValue v))
  | some l =>
    match r.uses.unlink? l id with
    | none => throw (.integrity (.notLinked id v))
    | some (uses, l) => set ({ r with uses }.setUseList v l)

def releaseOperand (id : InsnId) (index : Nat) : Edit Unit := do
  match (← insn id).slots[index]? with
  | none => throw (.integrity (.noSuchOperand id index))
  | some ⟨.value v, some use⟩ =>
    unlinkUse v use
    modify (·.modifySlot id index ({ · with use := none }))
  | some _ => pure ()

def setOperand (id : InsnId) (index : Nat) (x : Operand) : Edit Unit := do
  requireLive x
  releaseOperand id index
  let use ← match x with
    | .value v => some <$> linkUse v id index
    | _ => pure none
  modify (·.modifySlot id index fun _ => ⟨x, use⟩)

def pushOperand (id : InsnId) (x : Operand) : Edit Nat := do
  requireLive x
  let index := (← insn id).slots.length
  modify (·.modifyInsn id fun i => { i with slots := i.slots ++ [⟨.const .void, none⟩] })
  setOperand id index x
  pure index

def renumberUses (slots : List Slot) (index : Nat) (t : UseTable) : UseTable :=
  match slots with
  | [] => t
  | s :: rest =>
    renumberUses rest (index + 1) <|
      match s.use with
      | some use => t.setSlot use index
      | none => t

def removeOperand (id : InsnId) (index : Nat) : Edit Operand := do
  releaseOperand id index
  let i ← insn id
  match i.slots[index]? with
  | none => throw (.integrity (.noSuchOperand id index))
  | some removed =>
    modify fun r =>
      { r.modifyInsn id (fun i => { i with slots := i.slots.eraseIdx index }) with
        uses := renumberUses (i.slots.drop (index + 1)) index r.uses }
    pure removed.operand

def setOpcode (id : InsnId) (opcode : Opcode) : Edit Unit := do
  let _ ← insn id
  modify (·.modifyInsn id ({ · with opcode }))

def setTemplate (id : InsnId) (index : Nat) (t : Ty) : Edit Unit := do
  let _ ← insn id
  match index with
  | 0 => modify (·.modifyInsn id fun i => { i with templates := (t, i.templates.2) })
  | 1 => modify (·.modifyInsn id fun i => { i with templates := (i.templates.1, t) })
  | _ => throw (.integrity (.noSuchTemplate index))

/--
Puts `x` into the slots that the records of a list name, from the record `use` on and at most `fuel`
times; the result is their number. A record is read before its slot is changed, because then its
cell is free.
-/
def replaceFrom (v : ValueId) (x : Operand) : Nat → Option UseId → Edit Nat
  | fuel + 1, some use => do
    match (← get).uses.get? use with
    | none => throw (.integrity (.brokenUses v))
    | some u =>
      setOperand u.user u.slot x
      return (← replaceFrom v x fuel u.next) + 1
  | _, _ => pure 0

def replaceUses (v : ValueId) (x : Operand) : Edit Nat := do
  if x = .value v then
    return 0
  requireLive x
  let r ← get
  match r.useList? v with
  | none => throw (.invalidHandle v)
  | some l => replaceFrom v x r.uses.records.size l.head

end Edit

end MachineIR
