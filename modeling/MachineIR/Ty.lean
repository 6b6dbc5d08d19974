/-!
This module contains the types of values and operands: the machine scalars, whose values are bit
patterns of a fixed width, and the symbolic types, which never hold machine data.
-/

namespace MachineIR

inductive Scalar where
  | i1
  | i8
  | i16
  | i32
  | i64
  | i128
  | f32
  | f64
  | pointer
deriving DecidableEq, Repr, Inhabited

namespace Scalar

def width : Scalar → Nat
  | i1 => 1
  | i8 => 8
  | i16 => 16
  | i32 => 32
  | i64 => 64
  | i128 => 128
  | f32 => 32
  | f64 => 64
  | pointer => 64

theorem width_pos (s : Scalar) : 0 < s.width := by
  cases s <;> decide

theorem width_le (s : Scalar) : s.width ≤ 128 := by
  cases s <;> decide

def byteWidth (s : Scalar) : Nat := (s.width + 7) / 8

def isFloat : Scalar → Bool
  | f32 => true
  | f64 => true
  | _ => false

def isInteger (s : Scalar) : Bool := !s.isFloat

def name : Scalar → String
  | i1 => "i1"
  | i8 => "i8"
  | i16 => "i16"
  | i32 => "i32"
  | i64 => "i64"
  | i128 => "i128"
  | f32 => "f32"
  | f64 => "f64"
  | pointer => "pointer"

def all : List Scalar := [i1, i8, i16, i32, i64, i128, f32, f64, pointer]

theorem mem_all (s : Scalar) : s ∈ all := by
  cases s <;> decide

end Scalar

/--
The type of a value or an operand. `reg` and `op` are the types of register and operator
operands, `label` is the type of a block used as a branch target, `str` the type of a text,
`pack` the type of a bundle of nothing in particular, and `none` says that there is no result.
-/
inductive Ty where
  | none
  | pack
  | reg
  | op
  | label
  | str
  | scalar (s : Scalar)
deriving DecidableEq, Repr, Inhabited

/-- The broad classification of types that conversions go by. -/
inductive Kind where
  | symbolic
  | integer
  | float
deriving DecidableEq, Repr

namespace Ty

@[match_pattern] abbrev i1 : Ty := scalar .i1
@[match_pattern] abbrev i8 : Ty := scalar .i8
@[match_pattern] abbrev i16 : Ty := scalar .i16
@[match_pattern] abbrev i32 : Ty := scalar .i32
@[match_pattern] abbrev i64 : Ty := scalar .i64
@[match_pattern] abbrev i128 : Ty := scalar .i128
@[match_pattern] abbrev f32 : Ty := scalar .f32
@[match_pattern] abbrev f64 : Ty := scalar .f64
@[match_pattern] abbrev pointer : Ty := scalar .pointer

def kind : Ty → Kind
  | scalar s => if s.isFloat then .float else .integer
  | _ => .symbolic

def isInteger (t : Ty) : Bool := t.kind == .integer

def isFloat (t : Ty) : Bool := t.kind == .float

def isSymbolic (t : Ty) : Bool := t.kind == .symbolic

def bitWidth : Ty → Nat
  | scalar s => s.width
  | _ => 0

def byteWidth : Ty → Nat
  | scalar s => s.byteWidth
  | _ => 0

def ofBitWidth? : Nat → Option Ty
  | 1 => some i1
  | 8 => some i8
  | 16 => some i16
  | 32 => some i32
  | 64 => some i64
  | 128 => some i128
  | _ => Option.none

def name : Ty → String
  | none => "none"
  | pack => "pack"
  | reg => "reg"
  | op => "op"
  | label => "label"
  | str => "str"
  | scalar s => s.name

def all : List Ty := [none, pack, reg, op, label, str] ++ Scalar.all.map scalar

theorem mem_all (t : Ty) : t ∈ all := by
  cases t with
  | scalar s => simp [all, Scalar.mem_all]
  | _ => decide

def ofName? (s : String) : Option Ty := all.find? (·.name == s)

end Ty

end MachineIR
