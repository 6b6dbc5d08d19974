/-!
This module contains the operators that a `binop`, `unop` or `cmp` instruction selects by its first
operand.
-/

namespace MachineIR

/--
A numeric, bitwise or comparison operator. The operators that begin with `u` read their operands
as unsigned, the others as signed where it makes a difference.
-/
inductive Operator where
  | neg
  | abs
  | lsb
  | msb
  | popcount
  | byteswap
  | not
  | ceil
  | floor
  | trunc
  | round
  | sqrt
  | add
  | sub
  | mul
  | div
  | udiv
  | rem
  | urem
  | or
  | and
  | xor
  | shl
  | shr
  | sar
  | rol
  | ror
  | max
  | umax
  | min
  | umin
  | gt
  | ugt
  | le
  | ule
  | ge
  | uge
  | lt
  | ult
  | eq
  | ne
deriving DecidableEq, Repr, Inhabited

inductive Arity where
  | unary
  | binary
  | comparison
deriving DecidableEq, Repr

namespace Operator

def arity : Operator → Arity
  | neg | abs | lsb | msb | popcount | byteswap | not | ceil | floor | trunc | round | sqrt => .unary
  | gt | ugt | le | ule | ge | uge | lt | ult | eq | ne => .comparison
  | _ => .binary

def isCommutative : Operator → Bool
  | add | mul | or | and | xor | max | umax | min | umin | eq | ne => true
  | _ => false

def onEqual? : Operator → Option Bool
  | eq | ge | uge | le | ule => some true
  | ne | gt | ugt | lt | ult => some false
  | _ => none

def name : Operator → String
  | neg => "neg"
  | abs => "abs"
  | lsb => "bit_lsb"
  | msb => "bit_msb"
  | popcount => "bit_popcnt"
  | byteswap => "bit_byteswap"
  | not => "bit_not"
  | ceil => "ceil"
  | floor => "floor"
  | trunc => "trunc"
  | round => "round"
  | sqrt => "sqrt"
  | add => "add"
  | sub => "sub"
  | mul => "mul"
  | div => "div"
  | udiv => "udiv"
  | rem => "rem"
  | urem => "urem"
  | or => "bit_or"
  | and => "bit_and"
  | xor => "bit_xor"
  | shl => "bit_shl"
  | shr => "bit_shr"
  | sar => "bit_sar"
  | rol => "bit_rol"
  | ror => "bit_ror"
  | max => "max"
  | umax => "umax"
  | min => "min"
  | umin => "umin"
  | gt => "gt"
  | ugt => "ugt"
  | le => "le"
  | ule => "ule"
  | ge => "ge"
  | uge => "uge"
  | lt => "lt"
  | ult => "ult"
  | eq => "eq"
  | ne => "ne"

def all : List Operator :=
  [neg, abs, lsb, msb, popcount, byteswap, not, ceil, floor, trunc, round, sqrt, add, sub, mul, div,
   udiv, rem, urem, or, and, xor, shl, shr, sar, rol, ror, max, umax, min, umin, gt, ugt, le, ule,
   ge, uge, lt, ult, eq, ne]

def ofName? (s : String) : Option Operator := all.find? (·.name == s)

end Operator

end MachineIR
