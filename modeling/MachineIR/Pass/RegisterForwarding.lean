import MachineIR.Pass.DeadCode

/-!
This module contains the forwarding of register contents within a block. A read gets what the last
write put into the register, or what an earlier read found there; a write that is overwritten with
no one in between who could notice goes away.
-/

namespace MachineIR

/-- The instruction that the content of a register is known from: a write, or the first read. -/
structure Producer where
  insn : InsnId
  isWrite : Bool
deriving DecidableEq, Repr

abbrev Producers := List (Register × Producer)

namespace Edit

def content? (p : Producer) : Edit (Option (Operand × Ty)) := do
  let i ← knownInsn p.insn
  if p.isWrite then
    return (i.operand? 1).map ((·, i.template 0))
  else
    return some (.insn p.insn, i.ty)

def forwardRead (read : InsnId) (p : Producer) : Edit Nat := do
  match ← content? p with
  | none => return 0
  | some (x, t) =>
    let readTy := (← knownInsn read).ty
    if t = readTy then
      let n ← replaceUses (.insn read) x
      setOpcode read .nop
      return 1 + n
    else
      let cast ← insertBefore read (.bitcast t readTy x)
      return 1 + (← replaceUses (.insn read) (.insn cast))

def visitRead (known : Producers) (n : Nat) (id : InsnId) (r : Register) :
    Edit (Producers × Nat) := do
  match known.lookup r with
  | some p => return (known, n + (← forwardRead id p))
  | none => return ((r, ⟨id, false⟩) :: known, n)

def visitWrite (known : Producers) (n : Nat) (id : InsnId) (r : Register) :
    Edit (Producers × Nat) := do
  match known.lookup r with
  | some ⟨previous, true⟩ =>
    erase previous
    return ((r, ⟨id, true⟩) :: known, n + 1)
  | _ => return ((r, ⟨id, true⟩) :: known, n)

def forwardRegisters (b : BlockId) (debug : Bool) : Edit Nat := do
  let (_, n) ← sweepWith b .forward (([], 0) : Producers × Nat) fun (known, n) id => do
    let i ← knownInsn id
    match i.opcode, (i.operand? 0).bind Operand.reg? with
    | .writeReg, some r => visitWrite known n id r
    | .readReg, some r => visitRead known n id r
    | o, _ => return (if o.touchesRegisters then [] else known, n)
  complete b n debug

end Edit

end MachineIR
