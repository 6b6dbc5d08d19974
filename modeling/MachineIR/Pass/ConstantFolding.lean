import MachineIR.Constant.Arithmetic
import MachineIR.Constant.Conversion
import MachineIR.Pass.DeadCode

/-!
This module contains the evaluation of instructions with constant operands.
-/

namespace MachineIR

namespace Insn

def evaluate? (i : Insn) : Option Constant :=
  match i.opcode with
  | .binop | .cmp => do Constant.binary? (← i.operator?) (← i.const? 1) (← i.const? 2)
  | .unop => do Constant.unary? (← i.operator?) (← i.const? 1)
  | .cast => do (← i.const? 0).convert? .zero (i.template 1)
  | .castSx => do (← i.const? 0).convert? .sign (i.template 1)
  | .bitcast => do (← i.const? 0).bitcast? (i.template 1)
  | _ => none

def chosenArm? (i : Insn) : Option Operand := do
  let c ← (← i.const? 0).toBool?
  i.operand? (if c then 1 else 2)

def fold? (id : InsnId) (i : Insn) : Option Operand :=
  match i.opcode with
  | .select => i.chosenArm?.filter (· ≠ .insn id)
  | _ => (i.evaluate?.filter fun c => c.ty == i.ty && !c.isVoid).map .const

end Insn

def Edit.foldConstants (b : BlockId) (debug : Bool) : Edit Nat := do
  let n ← sweep b .forward fun id => do
    match (← knownInsn id).fold? id with
    | some x => return 1 + (← replaceUses (.insn id) x)
    | none => return 0
  complete b n debug

end MachineIR
