import MachineIR.Pass.DeadCode
import MachineIR.Routine.Identity

/-!
This module contains the replacement of values by identical earlier ones of the same block.
-/

namespace MachineIR

namespace Routine

def duplicateAmong? (r : Routine) (id : InsnId) (constant : Bool) : List InsnId → Option InsnId
  | [] => none
  | candidate :: rest =>
    if r.identicalValues (.insn id) (.insn candidate) then
      some candidate
    else if (r.insn? candidate).any (·.opcode.hasSideEffect) && !constant then
      none
    else
      duplicateAmong? r id constant rest

def duplicate? (r : Routine) (id : InsnId) : Option InsnId :=
  (r.insn? id).bind fun i => r.duplicateAmong? id i.opcode.isConstant (r.insnsBefore id)

end Routine

def Edit.deduplicate (b : BlockId) (debug : Bool) : Edit Nat := do
  let n ← sweep b .backward fun id => do
    if (← knownInsn id).uses.len = 0 then
      return 0
    match (← get).duplicate? id with
    | some earlier => return 1 + (← replaceUses (.insn id) (.insn earlier))
    | none => return 0
  complete b n debug

end MachineIR
