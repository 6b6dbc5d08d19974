import MachineIR.Architecture
import MachineIR.Image
import MachineIR.Instruction
import MachineIR.Use

/-!
This module contains routines. A routine owns its instructions, its blocks and the records of who
uses what. The instructions of a block are linked in both directions, and the block knows the two
ends. An erased part leaves its handle behind, which then names nothing.
-/

namespace MachineIR

/-- An operand together with the record of its use, if it refers to a value. -/
structure Slot where
  operand : Operand
  use : Option UseId := none
deriving DecidableEq, Repr, Inhabited

structure Insn where
  opcode : Opcode
  templates : Ty × Ty
  slots : List Slot
  ip : Option UInt64
  block : BlockId
  prev : Option InsnId
  next : Option InsnId
  uses : UseList := {}
  -- The number it is printed with.
  name : Nat
deriving DecidableEq, Repr, Inhabited

namespace Insn

def operands (i : Insn) : List Operand := i.slots.map Slot.operand

def code (i : Insn) : Instruction :=
  { opcode := i.opcode, templates := i.templates, operands := i.operands, ip := i.ip }

def ty (i : Insn) : Ty := i.code.ty

def template (i : Insn) (index : Nat) : Ty := i.code.template index

def operand? (i : Insn) (index : Nat) : Option Operand := i.slots[index]?.map Slot.operand

def const? (i : Insn) (index : Nat) : Option Constant := (i.operand? index).bind Operand.const?

def operator? (i : Insn) : Option Operator := i.code.operator?

end Insn

/-- A run of instructions. An edge stands in the lists of both blocks, once for each time it was added. -/
structure Block where
  first : Option InsnId := none
  last : Option InsnId := none
  len : Nat := 0
  successors : List BlockId := []
  predecessors : List BlockId := []
  uses : UseList := {}
  -- The number it is printed with.
  name : Nat
  ip : Option UInt64 := none
  endIp : Option UInt64 := none
deriving DecidableEq, Repr, Inhabited

structure Routine where
  insns : Store Insn := {}
  blocks : Store Block := {}
  uses : UseTable := {}
  -- The blocks in the order of their layout; the first one is the entry.
  order : List BlockId := []
  image : Option Image := none
  arch : Option Architecture := none
  ip : Option UInt64 := none
  nextInsnName : Nat := 0
  nextBlockName : Nat := 0
deriving DecidableEq, Repr, Inhabited

namespace Routine

def insn? (r : Routine) (id : InsnId) : Option Insn := r.insns.get? id.toNat

def block? (r : Routine) (id : BlockId) : Option Block := r.blocks.get? id.toNat

def modifyInsn (r : Routine) (id : InsnId) (f : Insn → Insn) : Routine :=
  { r with insns := r.insns.modify id.toNat f }

def modifyBlock (r : Routine) (id : BlockId) (f : Block → Block) : Routine :=
  { r with blocks := r.blocks.modify id.toNat f }

def modifySlot (r : Routine) (id : InsnId) (index : Nat) (f : Slot → Slot) : Routine :=
  r.modifyInsn id fun i => { i with slots := i.slots.modify index f }

def entry? (r : Routine) : Option BlockId := r.order.head?

def contains (r : Routine) : ValueId → Bool
  | .insn id => (r.insn? id).isSome
  | .block id => (r.block? id).isSome

def valueType (r : Routine) : ValueId → Ty
  | .insn id => ((r.insn? id).map Insn.ty).getD .none
  | .block _ => .label

def operandType (r : Routine) : Operand → Ty
  | .const c => c.ty
  | .reg _ => .reg
  | .mem _ => .pointer
  | .value v => r.valueType v

def useList? (r : Routine) : ValueId → Option UseList
  | .insn id => (r.insn? id).map Insn.uses
  | .block id => (r.block? id).map Block.uses

def setUseList (r : Routine) (v : ValueId) (uses : UseList) : Routine :=
  match v with
  | .insn id => r.modifyInsn id ({ · with uses })
  | .block id => r.modifyBlock id ({ · with uses })

def useCount (r : Routine) (v : ValueId) : Nat := ((r.useList? v).map UseList.len).getD 0

def usesOf (r : Routine) (v : ValueId) : List (InsnId × Nat) :=
  match r.useList? v with
  | some l => (r.uses.listed l).map fun (_, u) => (u.user, u.slot)
  | none => []

def insnsFrom (r : Routine) (start : Option InsnId) : List InsnId :=
  walk (fun id => some (id, (r.insn? id).bind Insn.next)) r.insns.size start

def insnsOf (r : Routine) (b : BlockId) : List InsnId :=
  r.insnsFrom ((r.block? b).bind Block.first)

end Routine

end MachineIR
