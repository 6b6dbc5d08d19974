import MachineIR.Proofs.TwosComplement

/-!
This module contains the evaluation of integer operators in one accumulator of 128 bits, whatever the
width of the operands: they are extended to it, and the surplus bits of the result are cut off. An
accumulator cannot be shifted by all of its bits, divided by zero or count below zero, and the
evaluation never asks it to.
-/

namespace MachineIR

namespace Accumulator

inductive Fault where
  | shift
  | division
  | difference
deriving DecidableEq, Repr

section Operations

def shift (f : BitVec 128 → Nat → BitVec 128) (a : BitVec 128) (n : Nat)
    : Except Fault (BitVec 128) :=
  if n < 128 then pure (f a n) else throw .shift

def divide (f : BitVec 128 → BitVec 128 → BitVec 128) (a b : BitVec 128)
    : Except Fault (BitVec 128) :=
  if b = 0 then throw .division else pure (f a b)

def difference (m n : Nat) : Except Fault Nat :=
  if n ≤ m then pure (m - n) else throw .difference

def mask (a : BitVec 128) (w : Nat) : Except Fault (BitVec 128) :=
  if 128 ≤ w then
    pure a
  else do
    let next ← shift (· <<< ·) 1#128 w
    let ones ← difference next.toNat 1
    return a &&& BitVec.ofNat 128 ones

def signExtend (a : BitVec 128) (w : Nat) : Except Fault (BitVec 128) :=
  if 128 ≤ w then
    pure a
  else do
    let surplus ← difference 128 w
    let top ← shift (· <<< ·) a surplus
    shift BitVec.sshiftRight top surplus

end Operations

/-- What all binary operators start from: both operands without and with their sign. -/
structure Operands where
  width : Nat
  a : BitVec 128
  b : BitVec 128
  signedA : BitVec 128
  signedB : BitVec 128
  -- The distance of a shift or a rotation.
  amount : Nat

def load (w : Nat) (a b : BitVec 128) : Except Fault Operands := do
  let signedA ← signExtend a w
  let signedB ← signExtend b w
  let amount ← divide BitVec.umod b (BitVec.ofNat 128 w)
  return { width := w, a, b, signedA, signedB, amount := amount.toNat }

namespace Operands

def answer? (x : Operands) : Operator → Option Bool
  | .gt => some (x.signedB.slt x.signedA)
  | .ge => some (x.signedB.sle x.signedA)
  | .lt => some (x.signedA.slt x.signedB)
  | .le => some (x.signedA.sle x.signedB)
  | .ugt => some (x.b.ult x.a)
  | .uge => some (x.b.ule x.a)
  | .ult => some (x.a.ult x.b)
  | .ule => some (x.a.ule x.b)
  | .eq => some (x.a == x.b)
  | .ne => some (x.a != x.b)
  | _ => none

def rotate (x : Operands) (there back : BitVec 128 → Nat → BitVec 128) : Except Fault (BitVec 128) :=
  if x.amount = 0 then
    pure x.a
  else do
    let rest ← difference x.width x.amount
    return (← shift there x.a x.amount) ||| (← shift back x.a rest)

def value? (x : Operands) : Operator → Except Fault (Option (BitVec 128))
  | .add => pure (some (x.a + x.b))
  | .sub => pure (some (x.a - x.b))
  | .mul => pure (some (x.a * x.b))
  | .div => if x.b = 0 then pure none else some <$> divide BitVec.sdiv x.signedA x.signedB
  | .udiv => if x.b = 0 then pure none else some <$> divide BitVec.udiv x.a x.b
  | .rem => if x.b = 0 then pure none else some <$> divide BitVec.srem x.signedA x.signedB
  | .urem => if x.b = 0 then pure none else some <$> divide BitVec.umod x.a x.b
  | .or => pure (some (x.a ||| x.b))
  | .and => pure (some (x.a &&& x.b))
  | .xor => pure (some (x.a ^^^ x.b))
  | .shl => some <$> shift (· <<< ·) x.a x.amount
  | .shr => some <$> shift (· >>> ·) x.a x.amount
  | .sar => some <$> shift BitVec.sshiftRight x.signedA x.amount
  | .rol => some <$> x.rotate (· <<< ·) (· >>> ·)
  | .ror => some <$> x.rotate (· >>> ·) (· <<< ·)
  | .max => pure (some (if x.signedB.sle x.signedA then x.a else x.b))
  | .min => pure (some (if x.signedA.sle x.signedB then x.a else x.b))
  | .umax => pure (some (if x.b.ule x.a then x.a else x.b))
  | .umin => pure (some (if x.a.ule x.b then x.a else x.b))
  | _ => pure none

end Operands

def unaryValue? (w : Nat) (o : Operator) (a : BitVec 128) : Except Fault (Option (BitVec 128)) :=
  match o with
  | .neg => pure (some (0 - a))
  | .abs => (some ·.abs) <$> signExtend a w
  | .not => pure (some (~~~a))
  | .popcount => pure (some a.cpop)
  | .byteswap =>
    if w % 8 = 0 then do
      let surplus ← difference 128 w
      some <$> shift (· >>> ·) (Word.byteswap a) surplus
    else
      pure none
  | .lsb => if a = 0 then pure none else pure (some a.ctz)
  | .msb => if a = 0 then pure none else (some <| BitVec.ofNat 128 ·) <$> difference 127 a.clz.toNat
  | _ => pure none

def store (t : Scalar) : Option (BitVec 128) → Except Fault (Option Constant)
  | some v => do return Constant.ofBits? (.scalar t) (← mask v t.width).toNat
  | none => pure none

def binary? (t : Scalar) (o : Operator) (a b : BitVec t.width) : Except Fault (Option Constant) := do
  let x ← load t.width (a.setWidth 128) (b.setWidth 128)
  match x.answer? o with
  | some holds => return some (.ofBool holds)
  | none => x.value? o >>= store t

def unary? (t : Scalar) (o : Operator) (a : BitVec t.width) : Except Fault (Option Constant) :=
  unaryValue? t.width o (a.setWidth 128) >>= store t

section Operations

variable {w : Nat}

theorem shift_of_lt {f : BitVec 128 → Nat → BitVec 128} {a : BitVec 128} {n : Nat} (hn : n < 128)
    : shift f a n = pure (f a n) := if_pos hn

theorem divide_of_ne {f : BitVec 128 → BitVec 128 → BitVec 128} {a b : BitVec 128} (hb : b ≠ 0)
    : divide f a b = pure (f a b) := if_neg hb

theorem difference_of_le {m n : Nat} (h : n ≤ m) : difference m n = pure (m - n) := if_pos h

theorem setWidth_setWidth (hw : w ≤ 128) (a : BitVec w) : (a.setWidth 128).setWidth w = a := by
  rw [BitVec.setWidth_setWidth_of_le a hw, BitVec.setWidth_eq]

theorem setWidth_ofInt (hw : w ≤ 128) (n : Int)
    : (BitVec.ofInt 128 n).setWidth w = BitVec.ofInt w n := by
  rw [← BitVec.signExtend_eq_setWidth_of_le _ hw]
  apply BitVec.eq_of_toInt_eq
  rw [BitVec.toInt_signExtend_eq_toInt_bmod_of_le _ hw, BitVec.toInt_ofInt, BitVec.toInt_ofInt,
    Int.bmod_bmod_of_dvd (Nat.pow_dvd_pow 2 hw)]

theorem mask_eq (hw : w ≤ 128) (a : BitVec 128) : mask a w = pure ((a.setWidth w).setWidth 128) := by
  unfold mask
  split
  . have hfull : w = 128 := by omega
    subst hfull
    rw [BitVec.setWidth_eq, BitVec.setWidth_eq]
  . have hlt : 2 ^ w < 2 ^ 128 := Nat.pow_lt_pow_right Nat.one_lt_two (by omega)
    have hnext : (1#128 <<< w).toNat = 2 ^ w := by
      rw [BitVec.toNat_shiftLeft, BitVec.toNat_one (by decide), Nat.one_shiftLeft,
        Nat.mod_eq_of_lt hlt]
    rw [shift_of_lt (by omega), pure_bind, hnext, difference_of_le Nat.one_le_two_pow, pure_bind]
    congr 1
    apply BitVec.eq_of_toNat_eq
    rw [BitVec.toNat_and, BitVec.toNat_ofNat, Nat.mod_eq_of_lt (by omega),
      Nat.and_two_pow_sub_one_eq_mod, BitVec.toNat_setWidth_of_le hw, BitVec.toNat_setWidth]

theorem signExtend_eq (hpos : 0 < w) (hw : w ≤ 128) (a : BitVec w)
    : signExtend (a.setWidth 128) w = pure (a.signExtend 128) := by
  unfold signExtend
  split
  . have hfull : w = 128 := by omega
    subst hfull
    rw [BitVec.setWidth_eq, BitVec.signExtend_eq]
  . rw [difference_of_le hw, pure_bind, shift_of_lt (by omega), pure_bind, shift_of_lt (by omega)]
    congr 1
    apply BitVec.eq_of_getLsbD_eq
    intro i hi
    rw [BitVec.getLsbD_sshiftRight, BitVec.getLsbD_signExtend, BitVec.msb_eq_getLsbD_last,
      BitVec.msb_eq_getLsbD_last a, BitVec.getLsbD_shiftLeft, BitVec.getLsbD_shiftLeft,
      BitVec.getLsbD_setWidth, BitVec.getLsbD_setWidth,
      show 128 - w + i - (128 - w) = i by omega, show 128 - 1 - (128 - w) = w - 1 by omega]
    by_cases hiw : i < w
    . have hlt : 128 - w + i < 128 := by omega
      simp [hi, hiw, hlt, Nat.not_le.mpr hi]
    . have hge : ¬ 128 - w + i < 128 := by omega
      have hlast : w - 1 < 128 := by omega
      have hsign : ¬ 127 < 128 - w := by omega
      simp [hi, hiw, hge, hlast, hsign, Nat.not_le.mpr hi]

def operands (a b : BitVec w) : Operands where
  width := w
  a := a.setWidth 128
  b := b.setWidth 128
  signedA := a.signExtend 128
  signedB := b.signExtend 128
  amount := b.toNat % w

theorem load_eq (hpos : 0 < w) (hw : w ≤ 128) (a b : BitVec w)
    : load w (a.setWidth 128) (b.setWidth 128) = pure (operands a b) := by
  have hwidth : (BitVec.ofNat 128 w).toNat = w := by
    rw [BitVec.toNat_ofNat, Nat.mod_eq_of_lt (by omega)]
  have hne : BitVec.ofNat 128 w ≠ 0 := by
    intro hzero
    rw [hzero] at hwidth
    exact absurd hwidth.symm (Nat.ne_of_gt hpos)
  unfold load
  rw [signExtend_eq hpos hw, pure_bind, signExtend_eq hpos hw, pure_bind, divide_of_ne hne, pure_bind]
  congr 2
  rw [BitVec.umod_eq, BitVec.toNat_umod, hwidth, BitVec.toNat_setWidth_of_le hw]

theorem store_eq (t : Scalar) (v? : Option (BitVec 128))
    : store t v? = pure (v?.map fun v => .scalar t (v.setWidth t.width)) := by
  cases v? with
  | none => rfl
  | some v =>
    have hbits (x : BitVec t.width)
        : Constant.ofBits? (.scalar t) (x.setWidth 128).toNat = some (.scalar t x) := by
      rw [BitVec.toNat_setWidth_of_le t.width_le, Constant.ofBits?_rawBits]
    dsimp only [store]
    rw [mask_eq t.width_le, pure_bind, hbits]
    rfl

end Operations

section Comparisons

variable {w : Nat}

theorem slt_signExtend (hw : w ≤ 128) (a b : BitVec w)
    : (a.signExtend 128).slt (b.signExtend 128) = decide (a.toInt < b.toInt) := by
  rw [BitVec.slt_eq_decide, BitVec.toInt_signExtend_of_le hw, BitVec.toInt_signExtend_of_le hw]

theorem sle_signExtend (hw : w ≤ 128) (a b : BitVec w)
    : (a.signExtend 128).sle (b.signExtend 128) = decide (a.toInt ≤ b.toInt) := by
  rw [BitVec.sle_eq_decide, BitVec.toInt_signExtend_of_le hw, BitVec.toInt_signExtend_of_le hw]

theorem ult_setWidth (hw : w ≤ 128) (a b : BitVec w)
    : (a.setWidth 128).ult (b.setWidth 128) = a.ult b := by
  unfold BitVec.ult
  rw [BitVec.toNat_setWidth_of_le hw, BitVec.toNat_setWidth_of_le hw]

theorem ule_setWidth (hw : w ≤ 128) (a b : BitVec w)
    : (a.setWidth 128).ule (b.setWidth 128) = a.ule b := by
  unfold BitVec.ule
  rw [BitVec.toNat_setWidth_of_le hw, BitVec.toNat_setWidth_of_le hw]

theorem setWidth_eq_iff (hw : w ≤ 128) (a b : BitVec w)
    : a.setWidth 128 = b.setWidth 128 ↔ a = b := by
  rw [← BitVec.toNat_inj, BitVec.toNat_setWidth_of_le hw, BitVec.toNat_setWidth_of_le hw,
    BitVec.toNat_inj]

theorem setWidth_eq_zero (hw : w ≤ 128) (a : BitVec w) : a.setWidth 128 = 0 ↔ a = 0 := by
  rw [← setWidth_eq_iff hw a 0, show (0 : BitVec w).setWidth 128 = 0 from BitVec.setWidth_zero 128 w]

theorem signExtend_eq_zero (hw : w ≤ 128) (a : BitVec w) : a.signExtend 128 = 0 ↔ a = 0 := by
  rw [← BitVec.toInt_inj, BitVec.toInt_signExtend_of_le hw, ← BitVec.toInt_inj]
  simp

theorem beq_setWidth (hw : w ≤ 128) (a b : BitVec w)
    : (a.setWidth 128 == b.setWidth 128) = (a == b) := by
  rw [Bool.eq_iff_iff, beq_iff_eq, beq_iff_eq, setWidth_eq_iff hw]

theorem answer?_operands {t : Scalar} (ht : t ≠ .i1) (o : Operator) (a b : BitVec t.width)
    : (operands a b).answer? o = Constant.intCompare? t o a b := by
  have hw := t.width_le
  cases o
  case gt => exact congrArg some ((slt_signExtend hw b a).trans (Scalar.slt_eq ht b a).symm)
  case ge => exact congrArg some ((sle_signExtend hw b a).trans (Scalar.sle_eq ht b a).symm)
  case lt => exact congrArg some ((slt_signExtend hw a b).trans (Scalar.slt_eq ht a b).symm)
  case le => exact congrArg some ((sle_signExtend hw a b).trans (Scalar.sle_eq ht a b).symm)
  case ugt => exact congrArg some (ult_setWidth hw b a)
  case uge => exact congrArg some (ule_setWidth hw b a)
  case ult => exact congrArg some (ult_setWidth hw a b)
  case ule => exact congrArg some (ule_setWidth hw a b)
  case eq => exact congrArg some (beq_setWidth hw a b)
  case ne => exact congrArg (some ∘ not) (beq_setWidth hw a b)
  all_goals rfl

end Comparisons

section Widths

variable {w : Nat}

theorem setWidth_binary {f : BitVec 128 → BitVec 128 → BitVec 128}
    {g : BitVec w → BitVec w → BitVec w} (hw : w ≤ 128)
    (h : ∀ x y, (f x y).setWidth w = g (x.setWidth w) (y.setWidth w)) (a b : BitVec w)
    : (f (a.setWidth 128) (b.setWidth 128)).setWidth w = g a b := by
  rw [h, setWidth_setWidth hw, setWidth_setWidth hw]

theorem setWidth_sub (hw : w ≤ 128) (x y : BitVec 128)
    : (x - y).setWidth w = x.setWidth w - y.setWidth w := by
  rw [BitVec.sub_eq_add_neg, BitVec.setWidth_add _ _ hw, BitVec.setWidth_neg_of_le hw,
    BitVec.sub_eq_add_neg]

theorem setWidth_sdiv (hw : w ≤ 128) (a b : BitVec w)
    : ((a.signExtend 128).sdiv (b.signExtend 128)).setWidth w = a.sdiv b := by
  rw [Word.sdiv_eq_ofInt, setWidth_ofInt hw, BitVec.toInt_signExtend_of_le hw,
    BitVec.toInt_signExtend_of_le hw, Word.sdiv_eq_ofInt]

theorem setWidth_srem (hw : w ≤ 128) (a b : BitVec w)
    : ((a.signExtend 128).srem (b.signExtend 128)).setWidth w = a.srem b := by
  rw [Word.srem_eq_ofInt, setWidth_ofInt hw, BitVec.toInt_signExtend_of_le hw,
    BitVec.toInt_signExtend_of_le hw, Word.srem_eq_ofInt]

theorem setWidth_udiv (hw : w ≤ 128) (a b : BitVec w)
    : ((a.setWidth 128).udiv (b.setWidth 128)).setWidth w = a.udiv b := by
  rw [Word.udiv_eq_ofInt, setWidth_ofInt hw, BitVec.toNat_setWidth_of_le hw,
    BitVec.toNat_setWidth_of_le hw, Word.udiv_eq_ofInt]

theorem setWidth_umod (hw : w ≤ 128) (a b : BitVec w)
    : ((a.setWidth 128).umod (b.setWidth 128)).setWidth w = a.umod b := by
  rw [Word.umod_eq_ofInt, setWidth_ofInt hw, BitVec.toNat_setWidth_of_le hw,
    BitVec.toNat_setWidth_of_le hw, Word.umod_eq_ofInt]

theorem setWidth_shiftLeft (hw : w ≤ 128) (a : BitVec w) (n : Nat)
    : (a.setWidth 128 <<< n).setWidth w = a <<< n := by
  rw [BitVec.setWidth_shiftLeft_of_le hw, setWidth_setWidth hw]

theorem setWidth_shiftRight (hw : w ≤ 128) (a : BitVec w) (n : Nat)
    : (a.setWidth 128 >>> n).setWidth w = a >>> n := by
  rw [← BitVec.setWidth_ushiftRight hw, setWidth_setWidth hw]

theorem setWidth_sshiftRight (hw : w ≤ 128) (a : BitVec w) (n : Nat)
    : ((a.signExtend 128).sshiftRight n).setWidth w = a.sshiftRight n := by
  rw [Word.sshiftRight_eq_ofInt, setWidth_ofInt hw, BitVec.toInt_signExtend_of_le hw,
    Word.sshiftRight_eq_ofInt]

theorem setWidth_byteswap (hw : w ≤ 128) (hbytes : w % 8 = 0) (a : BitVec w)
    : (Word.byteswap (a.setWidth 128) >>> (128 - w)).setWidth w = Word.byteswap a := by
  -- The bytes of a short word end up in the high bytes of the accumulator.
  apply BitVec.eq_of_getLsbD_eq
  intro i hi
  have hindex : 8 * (128 / 8 - 1 - (128 - w + i) / 8) + (128 - w + i) % 8 =
      8 * (w / 8 - 1 - i / 8) + i % 8 := by omega
  rw [BitVec.getLsbD_setWidth, decide_eq_true hi, Bool.true_and, BitVec.getLsbD_ushiftRight,
    Word.getLsbD_byteswap (by rfl) _ (by omega), BitVec.getLsbD_setWidth,
    Word.getLsbD_byteswap hbytes a hi, hindex, decide_eq_true (by omega), Bool.true_and]

theorem setWidth_pick {p q : Bool} (hw : w ≤ 128) (hpq : p = q) (a b : BitVec w)
    : (if p then a.setWidth 128 else b.setWidth 128).setWidth w = if q then a else b := by
  rw [apply_ite (BitVec.setWidth w), setWidth_setWidth hw, setWidth_setWidth hw, hpq]

end Widths

section Values

variable {w : Nat}

def Yields (e : Except Fault (Option (BitVec 128))) (c? : Option (BitVec w)) : Prop :=
  ∃ v?, e = pure v? ∧ v?.map (BitVec.setWidth w) = c?

theorem yields_some {v : BitVec 128} {c : BitVec w} (h : v.setWidth w = c)
    : Yields (pure (some v)) (some c) := ⟨some v, rfl, congrArg some h⟩

theorem yields_map {e : Except Fault (BitVec 128)} {v : BitVec 128} {c : BitVec w} (he : e = pure v)
    (h : v.setWidth w = c) : Yields (some <$> e) (some c) := by
  rw [he]
  exact yields_some h

theorem yields_divide {f : BitVec 128 → BitVec 128 → BitVec 128} {x y : BitVec 128} {b c : BitVec w}
    (hw : w ≤ 128) (hy : y = 0 ↔ b = 0) (h : (f x y).setWidth w = c)
    : Yields (if b.setWidth 128 = 0 then pure none else some <$> divide f x y)
        (if b = 0 then none else some c) := by
  -- Who divides by a word looks whether it is zero first.
  simp only [setWidth_eq_zero hw]
  split
  . exact ⟨none, rfl, rfl⟩
  . next hb => exact yields_map (divide_of_ne (mt hy.mp hb)) h

theorem yields_rotate {there back : BitVec 128 → Nat → BitVec 128} {a b c : BitVec w}
    (hpos : 0 < w) (hw : w ≤ 128) (hzero : b.toNat % w = 0 → a = c)
    (h : (there (a.setWidth 128) (b.toNat % w) |||
      back (a.setWidth 128) (w - b.toNat % w)).setWidth w = c)
    : Yields (some <$> (operands a b).rotate there back) (some c) := by
  have hamount := Nat.mod_lt b.toNat hpos
  unfold Operands.rotate operands
  dsimp only
  split
  . next heq =>
    apply yields_some
    rw [setWidth_setWidth hw, hzero heq]
  . next hne =>
    rw [difference_of_le (Nat.le_of_lt hamount), pure_bind, shift_of_lt (by omega), pure_bind,
      shift_of_lt (by omega), pure_bind]
    exact yields_some h

theorem value?_operands {t : Scalar} (ht : t ≠ .i1) (o : Operator) (a b : BitVec t.width)
    : Yields ((operands a b).value? o) (Constant.intBinary? t o a b) := by
  have hpos := t.width_pos
  have hw := t.width_le
  have hamount : b.toNat % t.width < 128 := Nat.lt_of_lt_of_le (Nat.mod_lt _ hpos) hw
  have hsle (x y : BitVec t.width) := (sle_signExtend hw x y).trans (Scalar.sle_eq ht x y).symm
  -- Sums, products and bitwise operators do not depend on the bits above the width; divisions,
  -- comparisons and shifts to the right do.
  cases o
  case add => exact yields_some (setWidth_binary hw (fun x y => BitVec.setWidth_add x y hw) a b)
  case sub => exact yields_some (setWidth_binary hw (setWidth_sub hw) a b)
  case mul => exact yields_some (setWidth_binary hw (fun x y => BitVec.setWidth_mul x y hw) a b)
  case div => exact yields_divide hw (signExtend_eq_zero hw b) (setWidth_sdiv hw a b)
  case udiv => exact yields_divide hw (setWidth_eq_zero hw b) (setWidth_udiv hw a b)
  case rem => exact yields_divide hw (signExtend_eq_zero hw b) (setWidth_srem hw a b)
  case urem => exact yields_divide hw (setWidth_eq_zero hw b) (setWidth_umod hw a b)
  case or => exact yields_some (setWidth_binary hw (fun _ _ => BitVec.setWidth_or) a b)
  case and => exact yields_some (setWidth_binary hw (fun _ _ => BitVec.setWidth_and) a b)
  case xor => exact yields_some (setWidth_binary hw (fun _ _ => BitVec.setWidth_xor) a b)
  case shl => exact yields_map (shift_of_lt hamount) (setWidth_shiftLeft hw a _)
  case shr => exact yields_map (shift_of_lt hamount) (setWidth_shiftRight hw a _)
  case sar => exact yields_map (shift_of_lt hamount) (setWidth_sshiftRight hw a _)
  case rol =>
    apply yields_rotate hpos hw
    . intro hzero
      rw [← BitVec.rotateLeft_mod_eq_rotateLeft, hzero, Word.rotateLeft_zero]
    . rw [BitVec.setWidth_or, setWidth_shiftLeft hw, setWidth_shiftRight hw, BitVec.rotateLeft_def]
  case ror =>
    apply yields_rotate hpos hw
    . intro hzero
      rw [← BitVec.rotateRight_mod_eq_rotateRight, hzero, Word.rotateRight_zero]
    . rw [BitVec.setWidth_or, setWidth_shiftLeft hw, setWidth_shiftRight hw, BitVec.rotateRight_def]
  case max => exact yields_some (setWidth_pick hw (hsle b a) a b)
  case min => exact yields_some (setWidth_pick hw (hsle a b) a b)
  case umax => exact yields_some (setWidth_pick hw (ule_setWidth hw b a) a b)
  case umin => exact yields_some (setWidth_pick hw (ule_setWidth hw a b) a b)
  all_goals exact ⟨none, rfl, rfl⟩

theorem unaryValue?_eq (hpos : 0 < w) (hw : w ≤ 128) (hbytes : w % 8 = 0) (o : Operator)
    (a : BitVec w) : Yields (unaryValue? w o (a.setWidth 128)) (Constant.intUnary? o a) := by
  cases o
  case neg =>
    apply yields_some
    rw [setWidth_sub hw, setWidth_setWidth hw]
    simp
  case abs =>
    simp only [unaryValue?, signExtend_eq hpos hw]
    apply yields_some
    rw [Word.abs_eq_ofInt, setWidth_ofInt hw, BitVec.toInt_signExtend_of_le hw, Word.abs_eq_ofInt]
  case not =>
    apply yields_some
    rw [BitVec.setWidth_not hw, setWidth_setWidth hw]
  case popcount =>
    apply yields_some
    rw [← BitVec.ofNat_toNat, BitVec.toNat_cpop_setWidth_eq_of_le hw, Word.toNat_cpop]
  case byteswap =>
    simp only [unaryValue?, hbytes, if_true, difference_of_le hw, pure_bind]
    exact yields_map (shift_of_lt (by omega)) (setWidth_byteswap hw hbytes a)
  case lsb =>
    simp only [unaryValue?, Constant.intUnary?, Word.lowestBit?_eq, setWidth_eq_zero hw]
    split
    . exact ⟨none, rfl, rfl⟩
    . next ha =>
      apply yields_some
      rw [← BitVec.ofNat_toNat, Word.toNat_ctz (mt (setWidth_eq_zero hw a).mp ha),
        BitVec.toNat_setWidth_of_le hw]
  case msb =>
    simp only [unaryValue?, Constant.intUnary?, Word.highestBit?_eq, setWidth_eq_zero hw]
    split
    . exact ⟨none, rfl, rfl⟩
    . next ha =>
      have hwide := mt (setWidth_eq_zero hw a).mp ha
      rw [difference_of_le (Nat.le_of_lt_succ (Word.toNat_clz_lt hwide))]
      apply yields_some
      rw [BitVec.setWidth_ofNat_of_le hw, ← Word.log2_toNat hwide, BitVec.toNat_setWidth_of_le hw]
  all_goals exact ⟨none, rfl, rfl⟩

end Values

theorem Yields.bind_store {t : Scalar} {e : Except Fault (Option (BitVec 128))}
    {c? : Option (BitVec t.width)} (h : Yields e c?) : e >>= store t = pure (c?.map (.scalar t)) := by
  obtain ⟨v?, rfl, rfl⟩ := h
  rw [pure_bind, store_eq, Option.map_map]
  rfl

theorem binary?_eq {t : Scalar} (ht : t.isInteger = true) (hi1 : t ≠ .i1) (o : Operator)
    (a b : BitVec t.width) : binary? t o a b = pure (Constant.binaryWords? t o a b) := by
  unfold binary? Constant.binaryWords?
  rw [load_eq t.width_pos t.width_le, pure_bind, answer?_operands hi1, Scalar.format?_of_isInteger ht]
  cases Constant.intCompare? t o a b with
  | some holds => rfl
  | none => exact (value?_operands hi1 o a b).bind_store

theorem unary?_eq {t : Scalar} (ht : t.isInteger = true) (hbytes : t.width % 8 = 0) (o : Operator)
    (a : BitVec t.width) : unary? t o a = pure (Constant.unary? o (.scalar t a)) := by
  unfold unary? Constant.unary?
  dsimp only
  rw [(unaryValue?_eq t.width_pos t.width_le hbytes o a).bind_store, Scalar.format?_of_isInteger ht]

end Accumulator

theorem Scalar.width_mod_eight {t : Scalar} (hi1 : t ≠ .i1) : t.width % 8 = 0 := by
  cases t <;> first | rfl | exact absurd rfl hi1

namespace Constant

theorem integer_algebra {t : Scalar} (ht : t.isInteger = true) (hi1 : t ≠ .i1) (o : Operator)
    (a b : BitVec t.width)
    : binary? o (scalar t a) (scalar t b) = (Meaning.binary? o a b).map (Meaning.constant t) ∧
        (binary? o (scalar t a) (scalar t b) = none ↔
          o.arity = .unary ∨ o ∈ [.div, .udiv, .rem, .urem] ∧ b = 0) ∧
        unary? o (scalar t a) = (Meaning.unary? o a).map (Meaning.constant t) ∧
        (unary? o (scalar t a) = none ↔
          o.arity ≠ .unary ∨ o ∈ [.ceil, .floor, .trunc, .round, .sqrt] ∨
            o ∈ [.lsb, .msb] ∧ a = 0) ∧
        Accumulator.binary? t o a b = .ok (binary? o (scalar t a) (scalar t b)) ∧
        Accumulator.unary? t o a = .ok (unary? o (scalar t a)) ∧
        ∀ c d : Constant, (c.ty ≠ d.ty ∨ c.ty.isSymbolic = true → binary? o c d = none) ∧
          (c.ty.isSymbolic = true → unary? o c = none) := by
  have hbytes := Scalar.width_mod_eight hi1
  have hbinary := binaryWords?_eq_meaning ht hi1 o a b
  have hunary := unary?_eq_meaning ht hbytes o a
  rw [binary?_scalar]
  refine ⟨hbinary, ?_, hunary, ?_, Accumulator.binary?_eq ht hi1 o a b,
    Accumulator.unary?_eq ht hbytes o a, fun c d => ⟨binary?_eq_none_of_ty, unary?_eq_none_of_ty⟩⟩
  . rw [hbinary, Option.map_eq_none_iff, Meaning.binary?_eq_none]
  . rw [hunary, Option.map_eq_none_iff, Meaning.unary?_eq_none]

theorem integer_algebra_least
    : binary? .div (scalar .i128 (BitVec.intMin 128)) (scalar .i128 (BitVec.allOnes 128)) =
          some (scalar .i128 (BitVec.intMin 128)) ∧
        Accumulator.binary? .i128 .div (BitVec.intMin 128) (BitVec.allOnes 128) =
          .ok (some (scalar .i128 (BitVec.intMin 128))) := by
  obtain ⟨hbinary, -, -, -, haccumulator, -⟩ := integer_algebra (t := .i128) rfl (by decide) .div
    (BitVec.intMin 128) (BitVec.allOnes 128)
  have hmeaning : (Meaning.binary? .div (BitVec.intMin 128) (BitVec.allOnes 128)).map
      (Meaning.constant .i128) = some (scalar .i128 (BitVec.intMin 128)) := by decide +kernel
  have hquotient := hbinary.trans hmeaning
  exact ⟨hquotient, haccumulator.trans (congrArg Except.ok hquotient)⟩

end Constant

end MachineIR
