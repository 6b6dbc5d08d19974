import MachineIR.Routine.Basic

/-!
This module contains structural identity: two values are identical if they are computed in the same
way from identical operands.
-/

namespace MachineIR

def Operand.identical (same : ValueId → ValueId → Bool) : Operand → Operand → Bool
  | .value a, .value b => same a b
  | x, y => x == y

def Insn.sameShape (i j : Insn) : Bool :=
  i.opcode == j.opcode && i.templates == j.templates && i.slots.length == j.slots.length &&
    !i.opcode.hasSideEffect && i.opcode.isPure

namespace Routine

def identicalWithin (r : Routine) : Nat → List (ValueId × ValueId) → ValueId → ValueId → Bool
  | 0, _, _, _ => false
  | depth + 1, pairs, a, b =>
    if a = b then
      true
    else if r.valueType a ≠ r.valueType b then
      false
    else if pairs.contains (a, b) then
      true
    else
      match a, b with
      | .insn i, .insn j =>
        match r.insn? i, r.insn? j with
        | some x, some y =>
          x.sameShape y &&
            (x.operands.zip y.operands).all fun (p, q) =>
              p.identical (identicalWithin r depth ((a, b) :: pairs)) q
        | _, _ => false
      | _, _ => false

def identicalValues (r : Routine) (a b : ValueId) : Bool :=
  r.identicalWithin (r.insns.size * r.insns.size + 1) [] a b

def identical (r : Routine) (x y : Operand) : Bool := x.identical r.identicalValues y

end Routine

end MachineIR
