import MachineIR.Constant.Arithmetic

/-!
This module contains the conversions of literals: by value, by bit pattern and from bytes.
-/

namespace MachineIR

inductive Extension where
  | zero
  | sign
deriving DecidableEq, Repr

namespace Extension

def toInt {w : Nat} (e : Extension) (a : BitVec w) : Int :=
  match e with
  | zero => a.toNat
  | sign => a.toInt

def resize {w : Nat} (e : Extension) (v : Nat) (a : BitVec w) : BitVec v :=
  match e with
  | zero => a.setWidth v
  | sign => a.signExtend v

end Extension

namespace Constant

/--
The conversion of a word by value. Integers are extended or cut, so that an `i1` takes the lowest
bit. A float becomes an integer by rounding towards zero, but never an `i1`.
-/
def convertWord? (e : Extension) (t : Scalar) (a : BitVec t.width) (u : Scalar) : Option Constant :=
  if t = u then
    some (scalar t a)
  else
    match t.format?, u.format? with
    | none, none => some (scalar u (e.resize u.width a))
    | none, some g => some (scalar u (BitVec.ofNat u.width (g.ofInt (e.toInt a))))
    | some f, none =>
      if u = .i1 then none else some (scalar u (BitVec.ofInt u.width (f.toInt a.toNat)))
    | some f, some g => some (scalar u (BitVec.ofNat u.width (f.convert g a.toNat)))

def convert? (e : Extension) : Constant → Ty → Option Constant
  | scalar t a, .scalar u => convertWord? e t a u
  | _, _ => none

def bitcast? : Constant → Ty → Option Constant
  | scalar t a, .scalar u =>
    if t.width = u.width then some (scalar u (BitVec.ofNat u.width a.toNat)) else none
  | _, _ => none

def ofBytes? (t : Ty) (bytes : List UInt8) (order : ByteOrder) : Option Constant :=
  if bytes.length < t.byteWidth then none else ofBits? t (order.read (bytes.take t.byteWidth))

def pointerOfBytes? (bytes : List UInt8) (width : Nat) (order : ByteOrder) : Option Constant :=
  if width = 0 ∨ 8 < width ∨ bytes.length < width then
    none
  else
    some (pointer (BitVec.ofNat 64 (order.read (bytes.take width))))

end Constant

end MachineIR
