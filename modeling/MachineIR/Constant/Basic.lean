import MachineIR.Operator
import MachineIR.Ty

/-!
This module contains the typed literals. A literal of a scalar type is the bit pattern of its value,
for floats the pattern of the format, so two literals are equal if and only if their bits are.
-/

namespace MachineIR

inductive Constant where
  -- What is left of a value that was deleted.
  | void
  | scalar (t : Scalar) (bits : BitVec t.width)
  -- The operator that a `binop`, `unop` or `cmp` selects.
  | op (o : Operator)
  -- A reason or an annotation.
  | str (s : String)
deriving DecidableEq, Repr

namespace Constant

instance : Inhabited Constant := ⟨void⟩

@[match_pattern] abbrev i1 (b : BitVec 1) : Constant := scalar .i1 b
@[match_pattern] abbrev i64 (b : BitVec 64) : Constant := scalar .i64 b
@[match_pattern] abbrev pointer (b : BitVec 64) : Constant := scalar .pointer b

def ofBool (b : Bool) : Constant := i1 (BitVec.ofBool b)

def ofAddress (a : UInt64) : Constant := pointer a.toBitVec

def ty : Constant → Ty
  | void => .none
  | scalar t _ => .scalar t
  | op _ => .op
  | str _ => .str

def ofBits? (t : Ty) (raw : Nat) : Option Constant :=
  match t with
  | .scalar s => some (scalar s (BitVec.ofNat s.width raw))
  | _ => none

/-- The integer literal that agrees with `n` up to the width of the type. -/
def ofInt? (t : Ty) (n : Int) : Option Constant :=
  match t with
  | .scalar s => if s.isInteger then some (scalar s (BitVec.ofInt s.width n)) else none
  | _ => none

def rawBits? : Constant → Option Nat
  | scalar _ b => some b.toNat
  | _ => none

def toNat? : Constant → Option Nat
  | scalar t b => if t.isInteger then some b.toNat else none
  | _ => none

def toInt? : Constant → Option Int
  | scalar t b => if t.isInteger then some b.toInt else none
  | _ => none

def toUInt64? (c : Constant) : Option UInt64 := c.toNat?.map UInt64.ofNat

def toInt64? (c : Constant) : Option Int64 := c.toInt?.map Int64.ofInt

def toBool? (c : Constant) : Option Bool := c.toNat?.map (· != 0)

def isVoid (c : Constant) : Bool := c == void

def isZero (c : Constant) : Bool := c.toNat? == some 0

def isOne (c : Constant) : Bool := c.toNat? == some 1

def isAllOnes : Constant → Bool
  | scalar t b => t.isInteger && b == BitVec.allOnes t.width
  | _ => false

@[simp]
theorem ty_scalar (t : Scalar) (b : BitVec t.width) : (scalar t b).ty = .scalar t := rfl

@[simp]
theorem ofBits?_rawBits (t : Scalar) (b : BitVec t.width) :
    ofBits? (.scalar t) b.toNat = some (scalar t b) := by
  simp [ofBits?]

end Constant

end MachineIR
