import MachineIR.FloatFormat

/-!
This module contains the decimal text of floating-point numbers. The digits are the fewest that read
back as the same number, and of those the nearest to it. They are found on decimal grids of falling
width, in exact integer arithmetic: a point of a grid reads back if it lies between the midpoints to
the two neighbouring numbers.
-/

namespace MachineIR

structure Decimal where
  digits : Nat
  exponent : Int
deriving DecidableEq, Repr

namespace Decimal

/--
A positive binary number `m * 2^q`. Below a power of two the neighbour is half as far away as
above it, which `narrowBelow` records.
-/
structure Binary where
  m : Nat
  q : Int
  narrowBelow : Bool
deriving DecidableEq, Repr

def onGrid? (x : Binary) (g : Int) : Option Nat :=
  let scale := Nat.pow 10 (-g).toNat <<< x.q.toNat
  let unit := 4 * Nat.pow 10 g.toNat <<< (-x.q).toNat
  let value := 4 * x.m * scale
  let low := (4 * x.m - if x.narrowBelow then 1 else 2) * scale
  let high := (4 * x.m + 2) * scale
  let readsBack (c : Nat) : Bool :=
    if x.m % 2 = 0 then low ≤ c * unit && c * unit ≤ high else low < c * unit && c * unit < high
  let below := value / unit
  let above := below + 1
  match readsBack below, readsBack above with
  | true, true => some (if value - below * unit < above * unit - value then below else above)
  | true, false => some below
  | false, true => some above
  | false, false => none

def exact (x : Binary) : Decimal :=
  if 0 ≤ x.q then ⟨x.m <<< x.q.toNat, 0⟩ else ⟨x.m * Nat.pow 5 (-x.q).toNat, x.q⟩

def topExponent (x : Binary) : Int := ((x.m.log2 + 1 + x.q) * 30103) / 100000 + 1

def shortest (x : Binary) : Decimal :=
  let top := topExponent x
  let find (i : Nat) : Option Decimal := (onGrid? x (top - i)).map (⟨·, top - i⟩)
  ((List.range 24).findSome? find).getD (exact x)

def digitList (d : Decimal) : List Char := Nat.toDigits 10 d.digits

def leadingExponent (d : Decimal) : Int := d.exponent + (d.digitList.length - 1 : Nat)

def positional (d : Decimal) : String :=
  let digits := d.digitList
  if 0 ≤ d.exponent then
    String.ofList (digits ++ List.replicate d.exponent.toNat '0') ++ ".0"
  else
    let places := (-d.exponent).toNat
    if places < digits.length then
      String.ofList (digits.take (digits.length - places)) ++ "." ++
        String.ofList (digits.drop (digits.length - places))
    else
      "0." ++ String.ofList (List.replicate (places - digits.length) '0' ++ digits)

def scientific (d : Decimal) : String :=
  let rest := d.digitList.drop 1
  let fraction := if rest.isEmpty then "" else "." ++ String.ofList rest
  String.ofList (d.digitList.take 1) ++ fraction ++ "e" ++ toString d.leadingExponent

def render (d : Decimal) : String :=
  if -4 ≤ d.leadingExponent ∧ d.leadingExponent < 16 then d.positional else d.scientific

end Decimal

namespace FloatFormat

def toBinary (f : FloatFormat) (x : Nat) : Decimal.Binary :=
  let body := f.magnitude x
  let e := body >>> f.fractionBits
  let m := body % (1 <<< f.fractionBits)
  if e = 0 then
    ⟨m, f.leastUnit, false⟩
  else
    ⟨1 <<< f.fractionBits + m, f.leastUnit + (e - 1 : Nat), m = 0 && 1 < e⟩

def render (f : FloatFormat) (x : Nat) : String :=
  let sign := if f.isNegative x then "-" else ""
  match f.decode x with
  | .nan => "NaN"
  | .infinite _ => sign ++ "inf"
  | .finite _ m _ =>
    sign ++ if m = 0 then "0.0" else (Decimal.shortest (f.toBinary x)).render

end FloatFormat

end MachineIR
