import MachineIR.Opcode
import MachineIR.Operand

/-!
This module contains instructions by themselves, before they have a place in a routine.
-/

namespace MachineIR

/-- An instruction that is no part of a routine yet. Template types it does not use are `none`. -/
structure Instruction where
  opcode : Opcode
  templates : Ty × Ty := (.none, .none)
  operands : List Operand := []
  -- The address of the machine instruction it stands for.
  ip : Option UInt64 := none
deriving DecidableEq, Repr, Inhabited

namespace Instruction

def make (opcode : Opcode) (templates : List Ty) (operands : List Operand) : Instruction :=
  { opcode, templates := (templates.getD 0 .none, templates.getD 1 .none), operands }

def readReg (t : Ty) (r : Register) : Instruction := make .readReg [t] [.reg r]

def writeReg (r : Register) (x : Operand) (t : Ty) : Instruction := make .writeReg [t] [.reg r, x]

def loadMem (t : Ty) (address : Operand) (offset : Int64) : Instruction :=
  make .loadMem [t] [address, .const (.i64 offset.toBitVec)]

def loadAbsolute (t : Ty) (address : UInt64) : Instruction :=
  loadMem t (.mem (.absolute address)) 0

def storeMem (address : Operand) (offset : Int64) (x : Operand) (t : Ty) : Instruction :=
  make .storeMem [t] [address, .const (.i64 offset.toBitVec), x]

def undef (t : Ty) : Instruction := make .undef [t] []

def poison (t : Ty) (reason : String) : Instruction := make .poison [t] [.const (.str reason)]

def cast (source target : Ty) (x : Operand) : Instruction := make .cast [source, target] [x]

def castSx (source target : Ty) (x : Operand) : Instruction := make .castSx [source, target] [x]

def bitcast (source target : Ty) (x : Operand) : Instruction := make .bitcast [source, target] [x]

def binop (t : Ty) (o : Operator) (x y : Operand) : Instruction :=
  make .binop [t] [.const (.op o), x, y]

def unop (t : Ty) (o : Operator) (x : Operand) : Instruction := make .unop [t] [.const (.op o), x]

def cmp (t : Ty) (o : Operator) (x y : Operand) : Instruction :=
  make .cmp [t] [.const (.op o), x, y]

def select (t : Ty) (c x y : Operand) : Instruction := make .select [t] [c, x, y]

def phi (t : Ty) (incoming : List Operand) : Instruction := make .phi [t] incoming

def xcall (target : Operand) : Instruction := make .xcall [] [target]

def xjmp (target : Operand) : Instruction := make .xjmp [] [target]

def jmp (target : BlockId) : Instruction := make .jmp [] [.block target]

def js (c : Operand) (x y : BlockId) : Instruction := make .js [] [c, .block x, .block y]

def xjs (c : Operand) (x y : UInt64) : Instruction :=
  make .xjs [] [c, .const (.ofAddress x), .const (.ofAddress y)]

def xret (target : Operand) : Instruction := make .xret [] [target]

def trap (reason : String) : Instruction := make .trap [] [.const (.str reason)]

def nop : Instruction := make .nop [] []

def unreachable : Instruction := make .unreachable [] []

def withIp (i : Instruction) (ip : UInt64) : Instruction := { i with ip := some ip }

def template (i : Instruction) : Nat → Ty
  | 0 => i.templates.1
  | 1 => i.templates.2
  | _ => .none

def resolve? (i : Instruction) : TypeSlot → Option Ty
  | .fixed t => some t
  | .template k => some (i.template k)
  | .any => none

def ty (i : Instruction) : Ty := (i.resolve? i.opcode.signature.result).getD .none

def operand? (i : Instruction) (index : Nat) : Option Operand := i.operands[index]?

def const? (i : Instruction) (index : Nat) : Option Constant :=
  (i.operand? index).bind Operand.const?

def operator? (i : Instruction) : Option Operator :=
  match i.opcode, i.const? 0 with
  | .binop, some (.op o) => some o
  | .unop, some (.op o) => some o
  | .cmp, some (.op o) => some o
  | _, _ => none

def slotType? (i : Instruction) (index : Nat) : Option Ty :=
  let s := i.opcode.signature
  i.resolve? (s.operands.getD index (s.variadic.getD .any))

end Instruction

end MachineIR
