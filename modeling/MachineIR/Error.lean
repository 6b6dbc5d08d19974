import MachineIR.Handle
import MachineIR.Ty

/-!
This module contains what can go wrong, and the words for it.
-/

namespace MachineIR

inductive Defect where
  | noSuchOperand (insn : InsnId) (index : Nat)
  | noSuchTemplate (index : Nat)
  | destroyedValue (value : ValueId)
  | notLinked (use : UseId) (value : ValueId)
  | brokenUses (value : ValueId)
  | stillConnected (block : BlockId)
  | notPredecessor (source target : BlockId)
  | notSuccessor (source target : BlockId)
  | notInBlock (insn : InsnId) (block : BlockId)
  | operandCount (insn : String) (count expected : Nat)
  | brokenLinks (insn : InsnId) (block : BlockId)
  | tooLong (block : BlockId) (length : Nat)
  | wrongLength (block : BlockId)
  | foreignRecord (use : UseId) (value named : ValueId)
  | noSuchSlot (use : UseId) (value : ValueId)
  | slotMismatch (slot : Nat) (user : InsnId) (value : ValueId)
  | cyclicUses (value : ValueId)
  | useCount (value : ValueId) (count expected : Nat)
  | outsideBlocks (insn : InsnId)
  | freedUse (slot : Nat) (insn : InsnId)
  | foreignUse (slot : Nat) (insn : InsnId)
  | dangling (slot : Nat) (insn : InsnId)
  | untracked (slot : Nat) (insn : InsnId)
  | staleUse (slot : Nat) (insn : InsnId)
  | recordCount (records tracked : Nat)
deriving DecidableEq, Repr

def Defect.message : Defect → String
  | noSuchOperand .. => "\x7binsn\x7d has no operand #\x7bindex\x7d"
  | noSuchTemplate _ => "template index \x7bindex\x7d out of range"
  | destroyedValue _ => "use of destroyed value \x7bvalue\x7d"
  | notLinked .. => "\x7buse_id:?\x7d is not linked to \x7bvalue\x7d"
  | brokenUses _ => "broken use list of \x7bvalue\x7d"
  | stillConnected _ => "deleting \x7bblock\x7d while it still has edges"
  | notPredecessor .. => "\x7bfrom\x7d is not a predecessor of \x7bto\x7d"
  | notSuccessor .. => "\x7bto\x7d is not a successor of \x7bfrom\x7d"
  | notInBlock .. => "\x7bat\x7d is not part of \x7bblock\x7d"
  | operandCount insn count expected => s!"{insn} has {count} operand(s), expected {expected}"
  | brokenLinks .. => "\x7bid\x7d is linked into \x7bblock\x7d inconsistently"
  | tooLong block length => s!"{block.render} holds more than {length} instructions"
  | wrongLength _ => "\x7bblock\x7d length or tail is out of sync"
  | foreignRecord use value named =>
    s!"{use.render} on list of {value.render} names {named.render}"
  | noSuchSlot .. => "\x7buse_id:?\x7d of \x7bvalue\x7d has no operand slot"
  | slotMismatch slot user value =>
    s!"operand #{slot} of {user.render} does not hold {value.render}"
  | cyclicUses _ => "use list of \x7bvalue\x7d is cyclic"
  | useCount value count expected =>
    s!"use list of {value.render} has {count} entries, expected {expected}"
  | outsideBlocks _ => "\x7bid\x7d is alive outside of any block"
  | freedUse .. => "operand #\x7bslot\x7d of \x7bid\x7d has a freed use"
  | foreignUse .. => "operand #\x7bslot\x7d of \x7bid\x7d owns a foreign use"
  | dangling .. => "operand #\x7bslot\x7d of \x7bid\x7d dangles"
  | untracked .. => "operand #\x7bslot\x7d of \x7bid\x7d is untracked"
  | staleUse .. => "operand #\x7bslot\x7d of \x7bid\x7d owns a stale use"
  | recordCount records tracked => s!"{records} use records for {tracked} tracked operands"

inductive Error where
  | integrity (d : Defect)
  -- A value cannot be destroyed while others use it.
  | lingeringUses (value : ValueId) (count : Nat)
  -- A handle does not name a live part of the routine.
  | invalidHandle (value : ValueId)
  | typeMismatch (index : Nat) (expected found : Ty) (insn : String)
  | constantExpected (index : Nat) (insn : String)
  -- Machine code could not be lifted.
  | lifting (reason : String)
  | outOfBounds
  | failure (reason : String)
  -- A part that has to be there is not; the callers of an operation exclude it.
  | stale (value : ValueId)
deriving DecidableEq, Repr

def Error.message : Error → String
  | integrity d => s!"Integrity - {d.message}"
  | lingeringUses value count => s!"Destroying {value.render} with {count} lingering use(s)"
  | invalidHandle value => s!"Stale or foreign handle - {value.render}"
  | typeMismatch index expected found insn =>
    s!"Operand #{index} of {insn} is '{found.name}', expected '{expected.name}'"
  | constantExpected index insn => s!"Operand #{index} of {insn} must be a constant"
  | lifting reason => s!"Lifting failed - {reason}"
  | outOfBounds => "Out of Bound read would have occurred!"
  | failure reason => reason
  | stale (.insn id) => s!"use of stale instruction handle {id.render}"
  | stale (.block id) => s!"use of stale block handle {id.render}"

end MachineIR
