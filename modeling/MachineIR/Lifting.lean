import MachineIR.Routine.Flow

/-!
This module contains the lifting of machine code, one machine instruction at a time.
-/

namespace MachineIR

abbrev Lifter := BlockId → List UInt8 → UInt64 → Edit Nat

namespace Edit

def attempt {α : Type} (e : Edit α) : Edit (Except Error α) := fun r =>
  match e r with
  | .ok a r => .ok (.ok a) r
  | .error e r => .ok (.error e) r

def liftInsn (lift : Lifter) (b : BlockId) (data : List UInt8) (ip : UInt64) :
    Edit (Except Error { length : Nat // 0 < length }) := do
  match ← attempt (lift b data ip) with
  | .ok 0 => return .error (.lifting s!"no progress at {Text.prefixedHex ip.toNat}")
  | .ok (n + 1) => return .ok ⟨n + 1, n.succ_pos⟩
  | .error e => return .error e

def isTerminated (b : BlockId) : Edit Bool := do
  match (← knownBlock b).last with
  | some last => return (← knownInsn last).opcode.isTerminator
  | none => return false

def liftFrom (lift : Lifter) (b : BlockId) (data : List UInt8) (ip : UInt64) (offset : Nat) :
    Edit Nat := do
  if offset < data.length then
    let address := ip + UInt64.ofNat offset
    match ← liftInsn lift b (data.drop offset) address with
    | .error e =>
      let _ ← pushBack b ((Instruction.trap s!"lifter error: {e.message}").withIp address)
      return offset
    | .ok ⟨length, _⟩ =>
      setBlockRange b ip (some (ip + UInt64.ofNat (offset + length)))
      if ← isTerminated b then
        return offset + length
      else
        liftFrom lift b data ip (offset + length)
  else
    return offset
termination_by data.length - offset

/--
Lifts machine code into a block until an instruction ends the block or the bytes run out; the result
is the number of bytes used. If an instruction cannot be lifted, a `trap` takes its place.
-/
def liftBlock (lift : Lifter) (b : BlockId) (data : List UInt8) (ip : UInt64) : Edit Nat := do
  setBlockRange b ip (some ip)
  liftFrom lift b data ip 0

end Edit

end MachineIR
