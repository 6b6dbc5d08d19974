/-!
This module contains binary floating-point arithmetic on bit patterns. A format is given by the
widths of its exponent and fraction fields, and every finite pattern stands for `± m * 2^q` with a
natural `m`. All operations compute the exact result over the integers and round once, to nearest
with ties to even, so nothing here rests on the floats of the machine.
-/

namespace MachineIR

/-- A format with one sign bit, `exponentBits` and `fractionBits`, in this order from the top. -/
structure FloatFormat where
  exponentBits : Nat
  fractionBits : Nat
deriving DecidableEq, Repr

namespace FloatFormat

def single : FloatFormat := ⟨8, 23⟩

def double : FloatFormat := ⟨11, 52⟩

/-- What a bit pattern stands for; `finite neg m q` is `± m * 2^q`. -/
inductive Value where
  | nan
  | infinite (neg : Bool)
  | finite (neg : Bool) (m : Nat) (q : Int)
deriving DecidableEq, Repr

variable (f : FloatFormat)

def signBit : Nat := 1 <<< (f.exponentBits + f.fractionBits)

def infinity : Nat := (1 <<< f.exponentBits - 1) <<< f.fractionBits

def quietBit : Nat := 1 <<< (f.fractionBits - 1)

def invalid : Nat := f.signBit + f.infinity + f.quietBit

def leastUnit : Int := 2 - (1 <<< (f.exponentBits - 1) : Nat) - f.fractionBits

def isNegative (x : Nat) : Bool := f.signBit ≤ x

def magnitude (x : Nat) : Nat := x % f.signBit

def isNaN (x : Nat) : Bool := f.infinity < f.magnitude x

def negate (x : Nat) : Nat := if f.isNegative x then f.magnitude x else x + f.signBit

def decode (x : Nat) : Value :=
  let neg := f.isNegative x
  let body := f.magnitude x
  if f.infinity < body then
    .nan
  else if body = f.infinity then
    .infinite neg
  else
    let e := body >>> f.fractionBits
    let m := body % (1 <<< f.fractionBits)
    if e = 0 then
      .finite neg m f.leastUnit
    else
      .finite neg (1 <<< f.fractionBits + m) (f.leastUnit + (e - 1 : Nat))

def roundShift (m s : Nat) : Nat :=
  let d := m >>> s
  let r := m % (1 <<< s)
  if 1 <<< s < 2 * r ∨ (1 <<< s = 2 * r ∧ d % 2 = 1) then d + 1 else d

def withSign (neg : Bool) (body : Nat) : Nat := if neg then f.signBit + body else body

def encode (neg : Bool) (m : Nat) (q : Int) : Nat :=
  f.withSign neg <|
    if m = 0 then
      0
    else
      let unit := max (q + m.log2 - f.fractionBits) f.leastUnit
      let m' := if unit ≤ q then m <<< (q - unit).toNat else roundShift m (unit - q).toNat
      -- The carry out of the fraction moves into the exponent field by itself.
      let body :=
        if m' < 1 <<< f.fractionBits then
          m'
        else
          ((unit - f.leastUnit).toNat + 1) <<< f.fractionBits + (m' - 1 <<< f.fractionBits)
      min body f.infinity

def propagate (x y : Nat) : Nat := (if f.isNaN x then x else y) ||| f.quietBit

def alignedSum (neg₁ : Bool) (m : Nat) (p : Int) (neg₂ : Bool) (n : Nat) (q : Int) : Int :=
  let a : Int := m <<< (p - min p q).toNat
  let b : Int := n <<< (q - min p q).toNat
  (if neg₁ then -a else a) + (if neg₂ then -b else b)

def add (x y : Nat) : Nat :=
  match f.decode x, f.decode y with
  | .nan, _ => f.propagate x y
  | _, .nan => f.propagate x y
  | .infinite s, .infinite t => if s = t then x else f.invalid
  | .infinite _, _ => x
  | _, .infinite _ => y
  | .finite s m p, .finite t n q =>
    let sum := alignedSum s m p t n q
    if sum = 0 then
      f.encode (s && t) 0 0
    else
      f.encode (sum < 0) sum.natAbs (min p q)

def sub (x y : Nat) : Nat :=
  if f.isNaN x || f.isNaN y then f.propagate x y else f.add x (f.negate y)

def mul (x y : Nat) : Nat :=
  match f.decode x, f.decode y with
  | .nan, _ => f.propagate x y
  | _, .nan => f.propagate x y
  | .infinite s, .infinite t => f.withSign (s != t) f.infinity
  | .infinite s, .finite t n _ => if n = 0 then f.invalid else f.withSign (s != t) f.infinity
  | .finite s m _, .infinite t => if m = 0 then f.invalid else f.withSign (s != t) f.infinity
  | .finite s m p, .finite t n q => f.encode (s != t) (m * n) (p + q)

/--
Division keeps two bits more than the format and one that says whether anything was cut off, which
is enough to round correctly.
-/
def div (x y : Nat) : Nat :=
  match f.decode x, f.decode y with
  | .nan, _ => f.propagate x y
  | _, .nan => f.propagate x y
  | .infinite _, .infinite _ => f.invalid
  | .infinite s, .finite t _ _ => f.withSign (s != t) f.infinity
  | .finite s _ _, .infinite t => f.withSign (s != t) 0
  | .finite s m p, .finite t n q =>
    if n = 0 then
      if m = 0 then f.invalid else f.withSign (s != t) f.infinity
    else
      let k := f.fractionBits + 3 + n.log2 - m.log2
      let scaled := m <<< k
      let sticky := if scaled % n = 0 then 0 else 1
      f.encode (s != t) (2 * (scaled / n) + sticky) (p - q - k - 1)

def rem (x y : Nat) : Nat :=
  match f.decode x, f.decode y with
  | .nan, _ => f.propagate x y
  | _, .nan => f.propagate x y
  | .infinite _, _ => f.invalid
  | .finite _ _ _, .infinite _ => x
  | .finite s m p, .finite _ n q =>
    if n = 0 then
      f.invalid
    else
      let unit := min p q
      f.encode s ((m <<< (p - unit).toNat) % (n <<< (q - unit).toNat)) unit

def compare? (x y : Nat) : Option Ordering :=
  match f.decode x, f.decode y with
  | .nan, _ => none
  | _, .nan => none
  | .infinite s, .infinite t => some (compare t.toNat s.toNat)
  | .infinite s, .finite .. => some (if s then .lt else .gt)
  | .finite .., .infinite t => some (if t then .gt else .lt)
  | .finite s m p, .finite t n q => some (compare (alignedSum s m p (!t) n q) 0)

def maximum (x y : Nat) : Nat :=
  match f.compare? x y with
  | some .lt => y
  | some _ => x
  | none => if f.isNaN y then (if f.isNaN x then f.propagate x y else x) else y

def minimum (x y : Nat) : Nat :=
  match f.compare? x y with
  | some .gt => y
  | some _ => x
  | none => if f.isNaN y then (if f.isNaN x then f.propagate x y else x) else y

inductive Direction where
  | up
  | down
  | towardZero
  | nearestAway
deriving DecidableEq, Repr

def Direction.increments (neg : Bool) (r s : Nat) : Direction → Bool
  | up => !neg && r != 0
  | down => neg && r != 0
  | towardZero => false
  | nearestAway => 1 <<< s ≤ 2 * r

def roundToIntegral (d : Direction) (x : Nat) : Nat :=
  match f.decode x with
  | .nan => x ||| f.quietBit
  | .infinite _ => x
  | .finite neg m q =>
    if 0 ≤ q then
      x
    else
      let s := (-q).toNat
      f.encode neg (m >>> s + (d.increments neg (m % (1 <<< s)) s).toNat) 0

def floorSqrt (n : Nat) : Nat :=
  go (n.log2 / 2 + 1) 0
where
  go : Nat → Nat → Nat
    | 0, r => r
    | k + 1, r => go k (if (r + 1 <<< k) * (r + 1 <<< k) ≤ n then r + 1 <<< k else r)

def sqrt (x : Nat) : Nat :=
  match f.decode x with
  | .nan => x ||| f.quietBit
  | .infinite neg => if neg then f.invalid else x
  | .finite neg m q =>
    if m = 0 then
      x
    else if neg then
      f.invalid
    else
      -- An even exponent, and a root with more bits than the fraction.
      let k := 2 * (f.fractionBits + 2) + (q % 2).toNat
      let scaled := m <<< k
      let root := floorSqrt scaled
      let sticky := if root * root = scaled then 0 else 1
      f.encode false (2 * root + sticky) ((q - k) / 2 - 1)

def ofInt (n : Int) : Nat := f.encode (n < 0) n.natAbs 0

def toInt (x : Nat) : Int :=
  let least : Int := -(1 <<< 127 : Nat)
  let greatest : Int := (1 <<< 127 : Nat) - 1
  match f.decode x with
  | .nan => 0
  | .infinite neg => if neg then least else greatest
  | .finite neg m q =>
    let n : Int := if 0 ≤ q then m <<< q.toNat else m >>> (-q).toNat
    max least (min greatest (if neg then -n else n))

def convert (g : FloatFormat) (x : Nat) : Nat :=
  match f.decode x with
  | .nan =>
    let payload := x % (1 <<< f.fractionBits)
    let kept :=
      if f.fractionBits ≤ g.fractionBits then
        payload <<< (g.fractionBits - f.fractionBits)
      else
        payload >>> (f.fractionBits - g.fractionBits)
    g.withSign (f.isNegative x) (g.infinity + (kept ||| g.quietBit))
  | .infinite neg => g.withSign neg g.infinity
  | .finite neg m q => g.encode neg m q

end FloatFormat

end MachineIR
