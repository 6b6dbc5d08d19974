import MachineIR.ByteOrder
import MachineIR.Constant.Basic
import MachineIR.FloatFormat

/-!
This module contains the algebra of literals. An operation has no result if the operator does not
exist for the type, if the types of the operands differ, or if an integer is divided by zero.
-/

namespace MachineIR

namespace Scalar

def format? : Scalar → Option FloatFormat
  | f32 => some .single
  | f64 => some .double
  | _ => none

def sle (t : Scalar) (a b : BitVec t.width) : Bool :=
  match t with
  | i1 => a.ule b
  | _ => a.sle b

def slt (t : Scalar) (a b : BitVec t.width) : Bool := !t.sle b a

end Scalar

namespace Word

def popCount {w : Nat} (a : BitVec w) : Nat := (List.range w).countP a.getLsbD

def lowestBit? {w : Nat} (a : BitVec w) : Option Nat := (List.range w).find? a.getLsbD

def highestBit? {w : Nat} (a : BitVec w) : Option Nat := (List.range w).reverse.find? a.getLsbD

def bytes {w : Nat} (a : BitVec w) : List UInt8 :=
  (List.range ((w + 7) / 8)).map fun i => UInt8.ofNat (a.toNat >>> (8 * i))

def byteswap {w : Nat} (a : BitVec w) : BitVec w := BitVec.ofNat w (ByteOrder.big.read (bytes a))

end Word

namespace Constant

/-- A binary operator on integers: arithmetic wraps, and shifts take their amount modulo the width. -/
def intBinary? (t : Scalar) (o : Operator) (a b : BitVec t.width) : Option (BitVec t.width) :=
  match o with
  | .add => some (a + b)
  | .sub => some (a - b)
  | .mul => some (a * b)
  | .div => if b = 0 then none else some (a.sdiv b)
  | .udiv => if b = 0 then none else some (a.udiv b)
  | .rem => if b = 0 then none else some (a.srem b)
  | .urem => if b = 0 then none else some (a.umod b)
  | .or => some (a ||| b)
  | .and => some (a &&& b)
  | .xor => some (a ^^^ b)
  | .shl => some (a <<< (b.toNat % t.width))
  | .shr => some (a >>> (b.toNat % t.width))
  | .sar => some (a.sshiftRight (b.toNat % t.width))
  | .rol => some (a.rotateLeft b.toNat)
  | .ror => some (a.rotateRight b.toNat)
  | .max => some (if t.sle b a then a else b)
  | .min => some (if t.sle a b then a else b)
  | .umax => some (if b.ule a then a else b)
  | .umin => some (if a.ule b then a else b)
  | _ => none

section IntBinary

variable {t : Scalar} {o : Operator}

theorem intBinary?_absorbing (ho : o ∈ [.mul, .and]) (a : BitVec t.width)
    : intBinary? t o a 0#_ = some 0#_ := by
  simp only [List.mem_cons, List.not_mem_nil, or_false] at ho
  rcases ho with rfl | rfl
  all_goals simp [intBinary?]

theorem intBinary?_self (ho : o ∈ [.or, .and, .max, .umax, .min, .umin]) (a : BitVec t.width)
    : intBinary? t o a a = some a := by
  simp only [List.mem_cons, List.not_mem_nil, or_false] at ho
  rcases ho with rfl | rfl | rfl | rfl | rfl | rfl
  all_goals simp [intBinary?]

theorem intBinary?_cancel (ho : o ∈ [.xor, .sub]) (a : BitVec t.width)
    : intBinary? t o a a = some 0#_ := by
  simp only [List.mem_cons, List.not_mem_nil, or_false] at ho
  rcases ho with rfl | rfl
  all_goals simp [intBinary?]

end IntBinary

def intCompare? (t : Scalar) (o : Operator) (a b : BitVec t.width) : Option Bool :=
  match o with
  | .gt => some (t.slt b a)
  | .ge => some (t.sle b a)
  | .lt => some (t.slt a b)
  | .le => some (t.sle a b)
  | .ugt => some (b.ult a)
  | .uge => some (b.ule a)
  | .ult => some (a.ult b)
  | .ule => some (a.ule b)
  | .eq => some (a == b)
  | .ne => some (a != b)
  | _ => none

def intUnary? {w : Nat} (o : Operator) (a : BitVec w) : Option (BitVec w) :=
  match o with
  | .neg => some (-a)
  | .abs => some a.abs
  | .not => some (~~~a)
  | .popcount => some (BitVec.ofNat w (Word.popCount a))
  | .byteswap => some (Word.byteswap a)
  | .lsb => (Word.lowestBit? a).map (BitVec.ofNat w)
  | .msb => (Word.highestBit? a).map (BitVec.ofNat w)
  | _ => none

def floatBinary? (f : FloatFormat) (o : Operator) (a b : Nat) : Option Nat :=
  match o with
  | .add => some (f.add a b)
  | .sub => some (f.sub a b)
  | .mul => some (f.mul a b)
  | .div => some (f.div a b)
  | .rem => some (f.rem a b)
  | .max => some (f.maximum a b)
  | .min => some (f.minimum a b)
  | _ => none

def floatCompare? (f : FloatFormat) (o : Operator) (a b : Nat) : Option Bool :=
  let order := f.compare? a b
  match o with
  | .gt => some (order == some .gt)
  | .ge => some (order == some .gt || order == some .eq)
  | .lt => some (order == some .lt)
  | .le => some (order == some .lt || order == some .eq)
  | .eq => some (order == some .eq)
  | .ne => some (order != some .eq)
  | _ => none

def floatUnary? (f : FloatFormat) (o : Operator) (a : Nat) : Option Nat :=
  match o with
  | .neg => some (f.negate a)
  | .abs => some (f.magnitude a)
  | .ceil => some (f.roundToIntegral .up a)
  | .floor => some (f.roundToIntegral .down a)
  | .trunc => some (f.roundToIntegral .towardZero a)
  | .round => some (f.roundToIntegral .nearestAway a)
  | .sqrt => some (f.sqrt a)
  | _ => none

def binaryWords? (t : Scalar) (o : Operator) (a b : BitVec t.width) : Option Constant :=
  match t.format? with
  | some f =>
    match floatCompare? f o a.toNat b.toNat with
    | some r => some (ofBool r)
    | none => (floatBinary? f o a.toNat b.toNat).map fun r => scalar t (BitVec.ofNat t.width r)
  | none =>
    match intCompare? t o a b with
    | some r => some (ofBool r)
    | none => (intBinary? t o a b).map (scalar t)

def binary? (o : Operator) : Constant → Constant → Option Constant
  | scalar t a, scalar u b => if h : u = t then binaryWords? t o a (h ▸ b) else none
  | _, _ => none

def unary? (o : Operator) : Constant → Option Constant
  | scalar t a =>
    match t.format? with
    | some f => (floatUnary? f o a.toNat).map fun r => scalar t (BitVec.ofNat t.width r)
    | none => (intUnary? o a).map (scalar t)
  | _ => none

end Constant

end MachineIR
