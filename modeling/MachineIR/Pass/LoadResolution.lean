import MachineIR.Constant.Conversion
import MachineIR.Pass.DeadCode

/-!
This module contains the replacement of loads from constant memory by what stands there.
-/

namespace MachineIR

def Insn.loadAddress? (i : Insn) : Option UInt64 :=
  let offset := ((i.const? 1).bind Constant.toInt64?).getD 0
  let base := match i.opcode, i.operand? 0 with
    | .loadMem, some (.const c) => c.toUInt64?
    | .loadMem, some (.mem m) => m.absoluteAddress?
    | _, _ => none
  base.map (· + offset.toUInt64)

namespace Routine

def decode? (r : Routine) (t : Ty) (bytes : List UInt8) : Option (Constant × Nat) :=
  if t = .pointer then do
    let a ← r.arch
    let width := a.pointerWidth / 8
    return (← Constant.pointerOfBytes? bytes width a.byteOrder, width)
  else do
    let order := (r.arch.map Architecture.byteOrder).getD .little
    return (← Constant.ofBytes? t bytes order, t.byteWidth)

def readConstant? (r : Routine) (image : Image) (t : Ty) (address : UInt64) : Option Constant := do
  if address < image.base then
    none
  let rva := address - image.base
  if (← image.findSection? rva).writable then
    none
  let (c, size) ← r.decode? t (image.bytesFrom rva)
  if image.isPatched rva size then none else some c

end Routine

def Edit.resolveLoads (b : BlockId) (debug : Bool) : Edit Nat := do
  match (← get).image with
  | none => return 0
  | some image =>
    let n ← sweep b .forward fun id => do
      let i ← knownInsn id
      match i.loadAddress?.bind ((← get).readConstant? image i.ty) with
      | some c => replaceUses (.insn id) (.const c)
      | none => return 0
    complete b n debug

end MachineIR
