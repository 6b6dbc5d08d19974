import MachineIR.Routine.Cursor
import MachineIR.Routine.Validation

/-!
This module contains the removal of unused instructions, with which every pass ends.
-/

namespace MachineIR

def Insn.isDead (i : Insn) : Bool := i.uses.len == 0 && !i.opcode.hasSideEffect

namespace Edit

def require (check : Routine → Routine.Check) : Edit Unit := do
  match check (← get) with
  | .ok () => pure ()
  | .error e => throw e

def removeDeadCode (b : BlockId) : Edit Nat :=
  eraseIf b .backward fun r id => (r.insn? id).any Insn.isDead

/--
Ends a pass that changed `n` things: if there are any, cleans the block up, which a debug build checks
before.
-/
def complete (b : BlockId) (n : Nat) (debug : Bool := true) : Edit Nat := do
  if n = 0 then
    return 0
  if debug then
    require (·.checkBlock b)
  return n + (← removeDeadCode b)

end Edit

end MachineIR
