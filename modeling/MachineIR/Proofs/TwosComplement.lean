import Mathlib.Data.Nat.Digits.Defs
import Mathlib.NumberTheory.Padics.PadicVal.Basic
import MachineIR.Proofs.Algebra

/-!
This module contains what the operators on integers compute, said by numbers and single bits: exact
arithmetic on the signed or unsigned values of which the word keeps the low bits, a bit of the result
as one of the operands, or the answer of a comparison.
-/

namespace MachineIR

namespace Word

variable {w : Nat}

def ofBits : (w : Nat) → (Nat → Bool) → BitVec w
  | 0, _ => 0#0
  | w + 1, bit => BitVec.cons (bit w) (ofBits w bit)

theorem getLsbD_ofBits {bit : Nat → Bool} {i : Nat} (hi : i < w)
    : (ofBits w bit).getLsbD i = bit i := by
  induction w with
  | zero => omega
  | succ w ih =>
    rw [ofBits, BitVec.getLsbD_cons]
    split
    . next heq => rw [heq]
    . exact ih (by omega)

theorem eq_ofBits {a : BitVec w} {bit : Nat → Bool} (h : ∀ i < w, a.getLsbD i = bit i)
    : a = ofBits w bit := by
  apply BitVec.eq_of_getLsbD_eq
  intro i hi
  rw [h i hi, getLsbD_ofBits hi]

theorem eq_ofInt {a : BitVec w} {n : Int} (h : a.toInt = n.bmod (2 ^ w)) : a = BitVec.ofInt w n := by
  apply BitVec.eq_of_toInt_eq
  rw [h, BitVec.toInt_ofInt]

section Shifts

theorem shiftLeft_eq_ofInt (a : BitVec w) (k : Nat)
    : a <<< k = BitVec.ofInt w (a.toNat * 2 ^ k : Nat) := by
  apply BitVec.eq_of_toNat_eq
  rw [BitVec.ofInt_natCast, BitVec.toNat_shiftLeft, BitVec.toNat_ofNat, Nat.shiftLeft_eq]

theorem shiftRight_eq_ofInt (a : BitVec w) (k : Nat)
    : a >>> k = BitVec.ofInt w (a.toNat / 2 ^ k : Nat) := by
  rw [BitVec.ofInt_natCast, ← Nat.shiftRight_eq_div_pow, ← BitVec.toNat_ushiftRight,
    BitVec.ofNat_toNat, BitVec.setWidth_eq]

theorem sshiftRight_eq_ofInt (a : BitVec w) (k : Nat)
    : a.sshiftRight k = BitVec.ofInt w (a.toInt.fdiv (2 ^ k : Nat)) := by
  rw [Int.fdiv_eq_ediv_of_nonneg _ (Int.natCast_nonneg _), ← Int.shiftRight_eq_div_pow,
    ← BitVec.toInt_sshiftRight, BitVec.ofInt_toInt]

theorem getLsbD_rotateLeft (a : BitVec w) (n : Nat) {i : Nat} (hi : i < w)
    : (a.rotateLeft n).getLsbD i = a.getLsbD ((i + (w - n % w)) % w) := by
  have hn : n % w < w := Nat.mod_lt n (by omega)
  rw [BitVec.getLsbD_rotateLeft, Bool.cond_decide]
  generalize n % w = k at hn
  split
  . rw [Nat.mod_eq_of_lt (by omega), Nat.add_comm]
  . rw [decide_eq_true hi, Bool.true_and, show i + (w - k) = i - k + w by omega,
      Nat.add_mod_right, Nat.mod_eq_of_lt (by omega)]

theorem getLsbD_rotateRight (a : BitVec w) (n : Nat) {i : Nat} (hi : i < w)
    : (a.rotateRight n).getLsbD i = a.getLsbD ((i + n % w) % w) := by
  have hn : n % w < w := Nat.mod_lt n (by omega)
  rw [BitVec.getLsbD_rotateRight, Bool.cond_decide]
  generalize n % w = k at hn
  split
  . rw [Nat.mod_eq_of_lt (by omega), Nat.add_comm]
  . rw [decide_eq_true hi, Bool.true_and, show i + k = i - (w - k) + w by omega,
      Nat.add_mod_right, Nat.mod_eq_of_lt (by omega)]

end Shifts

section Division

theorem sdiv_eq_ofInt (a b : BitVec w) : a.sdiv b = BitVec.ofInt w (a.toInt.tdiv b.toInt) :=
  eq_ofInt (BitVec.toInt_sdiv a b)

theorem srem_eq_ofInt (a b : BitVec w) : a.srem b = BitVec.ofInt w (a.toInt.tmod b.toInt) := by
  rw [← BitVec.toInt_srem, BitVec.ofInt_toInt]

theorem udiv_eq_ofInt (a b : BitVec w) : a.udiv b = BitVec.ofInt w (a.toNat / b.toNat : Nat) := by
  rw [BitVec.ofInt_natCast, ← BitVec.toNat_udiv, BitVec.ofNat_toNat, BitVec.setWidth_eq]
  rfl

theorem umod_eq_ofInt (a b : BitVec w) : a.umod b = BitVec.ofInt w (a.toNat % b.toNat : Nat) := by
  rw [BitVec.ofInt_natCast, ← BitVec.toNat_umod, BitVec.ofNat_toNat, BitVec.setWidth_eq]
  rfl

end Division

theorem abs_eq_ofInt (a : BitVec w) : a.abs = BitVec.ofInt w |a.toInt| := by
  rw [BitVec.abs_eq, BitVec.msb_eq_toInt]
  simp only [decide_eq_true_eq]
  split
  . next hneg => rw [abs_of_neg hneg, BitVec.ofInt_neg, BitVec.ofInt_toInt]
  . next hpos => rw [abs_of_nonneg (Int.not_lt.mp hpos), BitVec.ofInt_toInt]

section Counts

theorem countP_testBit {n : Nat} (hn : n < 2 ^ w)
    : (List.range w).countP n.testBit = (Nat.digits 2 n).sum := by
  induction w generalizing n with
  | zero =>
    have hzero : n = 0 := by omega
    simp [hzero]
  | succ w ih =>
    have hrest : n.testBit ∘ Nat.succ = (n / 2).testBit := by
      funext i
      exact Nat.testBit_succ n i
    rw [List.range_succ_eq_map, List.countP_cons, List.countP_map, hrest, ih (by omega)]
    rcases Nat.eq_zero_or_pos n with rfl | hpos
    . simp
    . rw [Nat.digits_def' Nat.one_lt_two hpos, List.sum_cons, Nat.testBit_zero]
      rcases Nat.mod_two_eq_zero_or_one n with hbit | hbit
      all_goals
        simp [hbit, Nat.add_comm]

theorem popCount_eq_digits (a : BitVec w) : popCount a = (Nat.digits 2 a.toNat).sum :=
  countP_testBit a.isLt

theorem toNat_cpop (a : BitVec w) : a.cpop.toNat = popCount a := by
  have hcount : ∀ n, a.cpopNatRec n 0 = (List.range n).countP a.getLsbD := by
    intro n
    induction n with
    | zero => rfl
    | succ n ih =>
      rw [BitVec.cpopNatRec_succ, BitVec.cpopNatRec_eq, ih, List.range_succ, List.countP_append,
        List.countP_singleton, Nat.zero_add]
      cases a.getLsbD n <;> rfl
  rw [BitVec.toNat_cpop, hcount]
  rfl

theorem testBit_padicValNat {n : Nat} (hn : n ≠ 0)
    : n.testBit (padicValNat 2 n) = true ∧ ∀ i < padicValNat 2 n, n.testBit i = false := by
  obtain ⟨q, hq⟩ := pow_padicValNat_dvd (p := 2) (n := n)
  have hodd : q % 2 = 1 := by
    apply Nat.mod_two_ne_zero.mp
    intro heven
    apply pow_succ_padicValNat_not_dvd (p := 2) hn
    obtain ⟨q, rfl⟩ := Nat.dvd_of_mod_eq_zero heven
    exact ⟨q, by rw [Nat.pow_succ, Nat.mul_assoc, ← hq]⟩
  generalize padicValNat 2 n = k at hq
  subst hq
  constructor
  . rw [Nat.testBit_two_pow_mul]
    simp [hodd]
  . intro i hi
    rw [Nat.testBit_two_pow_mul]
    simp [hi]

theorem lowestBit?_eq (a : BitVec w)
    : lowestBit? a = if a = 0 then none else some (padicValNat 2 a.toNat) := by
  unfold lowestBit?
  split
  . next hzero => simp [hzero]
  . next hne =>
    obtain ⟨hset, hlower⟩ := testBit_padicValNat (fun h => hne (BitVec.eq_of_toNat_eq h))
    rw [List.find?_range_eq_some, List.mem_range]
    refine ⟨hset, BitVec.lt_of_getLsbD hset, ?_⟩
    intro j hj
    rw [BitVec.getLsbD, hlower j hj]
    rfl

theorem toNat_ctz {a : BitVec w} (ha : a ≠ 0) : a.ctz.toNat = padicValNat 2 a.toNat := by
  have hlowest : lowestBit? a = some a.ctz.toNat := by
    have hset := BitVec.getLsbD_true_ctz_of_ne_zero ha
    rw [lowestBit?, List.find?_range_eq_some, List.mem_range]
    refine ⟨hset, BitVec.lt_of_getLsbD hset, ?_⟩
    intro j hj
    rw [BitVec.getLsbD_false_of_lt_ctz hj]
    rfl
  rw [lowestBit?_eq, if_neg ha] at hlowest
  exact (Option.some.inj hlowest).symm

theorem find?_reverse_range {p : Nat → Bool} {n : Nat} (hn : n < w) (hp : p n = true)
    (hlast : ∀ m, n < m → p m = false) : (List.range w).reverse.find? p = some n := by
  induction w with
  | zero => omega
  | succ w ih =>
    rw [List.range_succ, List.reverse_append, List.reverse_singleton, List.singleton_append]
    rcases Nat.eq_or_lt_of_le (Nat.le_of_lt_succ hn) with rfl | hlt
    . exact List.find?_cons_of_pos hp
    . rw [List.find?_cons_of_neg (by simp [hlast w hlt])]
      exact ih hlt

theorem highestBit?_eq (a : BitVec w)
    : highestBit? a = if a = 0 then none else some a.toNat.log2 := by
  unfold highestBit?
  split
  . next hzero => simp [hzero]
  . next hne =>
    have hset : a.getLsbD a.toNat.log2 = true :=
      Nat.testBit_log2 fun h => hne (BitVec.eq_of_toNat_eq h)
    apply find?_reverse_range (BitVec.lt_of_getLsbD hset) hset
    intro m hm
    apply Nat.testBit_lt_two_pow
    exact Nat.lt_of_lt_of_le Nat.lt_log2_self (Nat.pow_le_pow_right Nat.two_pos hm)

theorem toNat_clz_lt {a : BitVec w} (ha : a ≠ 0) : a.clz.toNat < w := by
  apply Nat.lt_of_not_le
  intro hle
  have hlt := BitVec.toNat_lt_two_pow_sub_clz (x := a)
  rw [Nat.sub_eq_zero_of_le hle, Nat.pow_zero, Nat.lt_one_iff] at hlt
  exact ha (BitVec.eq_of_toNat_eq hlt)

theorem log2_toNat {a : BitVec w} (ha : a ≠ 0) : a.toNat.log2 = w - 1 - a.clz.toNat := by
  have hlt := toNat_clz_lt ha
  rw [Nat.log2_eq_iff fun h => ha (BitVec.eq_of_toNat_eq h)]
  refine ⟨BitVec.two_pow_sub_clz_le_toNat_of_ne_zero (by omega) ha, ?_⟩
  rw [show w - 1 - a.clz.toNat + 1 = w - a.clz.toNat by omega]
  exact BitVec.toNat_lt_two_pow_sub_clz

end Counts

section Bytes

theorem testBit_readLittle (bs : List UInt8) (i : Nat)
    : (ByteOrder.readLittle bs).testBit i = (bs.getD (i / 8) 0).toNat.testBit (i % 8) := by
  induction bs generalizing i with
  | nil => simp [ByteOrder.readLittle]
  | cons b bs ih =>
    rw [ByteOrder.readLittle, Nat.add_comm, show 256 = 2 ^ 8 from rfl,
      Nat.testBit_two_pow_mul_add _ b.toNat_lt]
    split
    . next hi => rw [Nat.div_eq_of_lt hi, Nat.mod_eq_of_lt hi, List.getD_cons_zero]
    . next hi =>
      rw [ih, show i / 8 = (i - 8) / 8 + 1 by omega, List.getD_cons_succ]
      congr 1
      omega

theorem getD_bytes (a : BitVec w) {j : Nat} (hj : j < w / 8)
    : (bytes a).getD j 0 = UInt8.ofNat (a.toNat >>> (8 * j)) := by
  unfold bytes
  rw [List.getD_eq_getElem?_getD, List.getElem?_map, List.getElem?_range (by omega)]
  rfl

theorem getLsbD_byteswap (hw : w % 8 = 0) (a : BitVec w) {i : Nat} (hi : i < w)
    : (byteswap a).getLsbD i = a.getLsbD (8 * (w / 8 - 1 - i / 8) + i % 8) := by
  have hbyte : i / 8 < (bytes a).length := by
    rw [length_bytes hw]
    omega
  have hswapped : (bytes a).reverse.getD (i / 8) 0 = (bytes a).getD (w / 8 - 1 - i / 8) 0 := by
    rw [List.getD_eq_getElem?_getD, List.getElem?_reverse hbyte, length_bytes hw,
      List.getD_eq_getElem?_getD]
  change (BitVec.ofNat w (ByteOrder.readLittle (bytes a).reverse)).getLsbD i = _
  rw [BitVec.getLsbD_ofNat, decide_eq_true hi, Bool.true_and, testBit_readLittle, hswapped,
    getD_bytes a (by omega), UInt8.toNat_ofNat', Nat.testBit_mod_two_pow, Nat.testBit_shiftRight]
  simp [Nat.mod_lt, BitVec.getLsbD]

end Bytes

end Word

inductive Meaning where
  | number (n : Int)
  | bits (bit : Nat → Bool)
  | answer (holds : Bool)

namespace Meaning

def constant (t : Scalar) : Meaning → Constant
  | number n => .scalar t (BitVec.ofInt t.width n)
  | bits bit => .scalar t (Word.ofBits t.width bit)
  | answer holds => .ofBool holds

section Constants

variable {t : Scalar} {x : BitVec t.width}

theorem some_scalar_eq_number {n : Int} (h : x = BitVec.ofInt t.width n)
    : some (.scalar t x) = some ((number n).constant t) := by
  rw [h]
  rfl

theorem some_scalar_eq_bits {bit : Nat → Bool} (h : ∀ i < t.width, x.getLsbD i = bit i)
    : some (.scalar t x) = some ((bits bit).constant t) := by
  rw [Word.eq_ofBits h]
  rfl

end Constants

variable {w : Nat}

def binary? (o : Operator) (a b : BitVec w) : Option Meaning :=
  let amount := b.toNat % w
  match o with
  | .add => some (number (a.toInt + b.toInt))
  | .sub => some (number (a.toInt - b.toInt))
  | .mul => some (number (a.toInt * b.toInt))
  | .div => if b = 0 then none else some (number (a.toInt.tdiv b.toInt))
  | .udiv => if b = 0 then none else some (number (a.toNat / b.toNat : Nat))
  | .rem => if b = 0 then none else some (number (a.toInt.tmod b.toInt))
  | .urem => if b = 0 then none else some (number (a.toNat % b.toNat : Nat))
  | .or => some (bits fun i => a.getLsbD i || b.getLsbD i)
  | .and => some (bits fun i => a.getLsbD i && b.getLsbD i)
  | .xor => some (bits fun i => a.getLsbD i ^^ b.getLsbD i)
  | .shl => some (number (a.toNat * 2 ^ amount : Nat))
  | .shr => some (number (a.toNat / 2 ^ amount : Nat))
  | .sar => some (number (a.toInt.fdiv (2 ^ amount : Nat)))
  | .rol => some (bits fun i => a.getLsbD ((i + (w - amount)) % w))
  | .ror => some (bits fun i => a.getLsbD ((i + amount) % w))
  | .max => some (number (max a.toInt b.toInt))
  | .min => some (number (min a.toInt b.toInt))
  | .umax => some (number (max a.toNat b.toNat : Nat))
  | .umin => some (number (min a.toNat b.toNat : Nat))
  | .gt => some (answer (a.toInt > b.toInt))
  | .ge => some (answer (a.toInt ≥ b.toInt))
  | .lt => some (answer (a.toInt < b.toInt))
  | .le => some (answer (a.toInt ≤ b.toInt))
  | .ugt => some (answer (a.toNat > b.toNat))
  | .uge => some (answer (a.toNat ≥ b.toNat))
  | .ult => some (answer (a.toNat < b.toNat))
  | .ule => some (answer (a.toNat ≤ b.toNat))
  | .eq => some (answer (a.toNat = b.toNat))
  | .ne => some (answer (a.toNat ≠ b.toNat))
  | _ => none

def unary? (o : Operator) (a : BitVec w) : Option Meaning :=
  match o with
  | .neg => some (number (-a.toInt))
  | .abs => some (number |a.toInt|)
  | .not => some (bits fun i => !a.getLsbD i)
  | .popcount => some (number (Nat.digits 2 a.toNat).sum)
  | .byteswap => some (bits fun i => a.getLsbD (8 * (w / 8 - 1 - i / 8) + i % 8))
  | .lsb => if a = 0 then none else some (number (padicValNat 2 a.toNat))
  | .msb => if a = 0 then none else some (number a.toNat.log2)
  | _ => none

theorem binary?_eq_none {o : Operator} {a b : BitVec w}
    : binary? o a b = none ↔ o.arity = .unary ∨ o ∈ [.div, .udiv, .rem, .urem] ∧ b = 0 := by
  cases o <;> simp [binary?, Operator.arity]

theorem unary?_eq_none {o : Operator} {a : BitVec w}
    : unary? o a = none ↔
        o.arity ≠ .unary ∨ o ∈ [.ceil, .floor, .trunc, .round, .sqrt] ∨ o ∈ [.lsb, .msb] ∧ a = 0 := by
  cases o <;> simp [unary?, Operator.arity]

end Meaning

theorem Scalar.sle_eq {t : Scalar} (ht : t ≠ .i1) (a b : BitVec t.width)
    : t.sle a b = decide (a.toInt ≤ b.toInt) := by
  unfold sle
  split
  . exact absurd rfl ht
  . exact BitVec.sle_eq_decide

theorem Scalar.slt_eq {t : Scalar} (ht : t ≠ .i1) (a b : BitVec t.width)
    : t.slt a b = decide (a.toInt < b.toInt) := by
  unfold slt
  rw [sle_eq ht, ← decide_not]
  simp only [Int.not_le]

namespace Constant

open Meaning (some_scalar_eq_number some_scalar_eq_bits)

variable {t : Scalar} {o : Operator}

theorem binaryWords?_of_comparison (ht : t.isInteger = true) (ho : o.arity = .comparison)
    (a b : BitVec t.width) : binaryWords? t o a b = (intCompare? t o a b).map ofBool := by
  unfold binaryWords?
  rw [Scalar.format?_of_isInteger ht]
  cases o <;> first | rfl | cases ho

theorem binaryWords?_of_unary (ht : t.isInteger = true) (ho : o.arity = .unary)
    (a b : BitVec t.width) : binaryWords? t o a b = none := by
  unfold binaryWords?
  rw [Scalar.format?_of_isInteger ht]
  cases o <;> first | rfl | cases ho

theorem intCompare?_eq_meaning (ht : t ≠ .i1) (ho : o.arity = .comparison) (a b : BitVec t.width)
    : (intCompare? t o a b).map ofBool = (Meaning.binary? o a b).map (Meaning.constant t) := by
  cases o
  case gt => exact congrArg (some ∘ ofBool) (Scalar.slt_eq ht b a)
  case ge => exact congrArg (some ∘ ofBool) (Scalar.sle_eq ht b a)
  case lt => exact congrArg (some ∘ ofBool) (Scalar.slt_eq ht a b)
  case le => exact congrArg (some ∘ ofBool) (Scalar.sle_eq ht a b)
  case ugt | uge | ult | ule => rfl
  case eq =>
    simp only [intCompare?, Meaning.binary?, Meaning.constant, BitVec.toNat_inj, Option.map_some]
    rfl
  case ne =>
    simp only [intCompare?, Meaning.binary?, Meaning.constant, ne_eq, BitVec.toNat_inj,
      Option.map_some, decide_not]
    rfl
  all_goals cases ho

theorem intBinary?_eq_meaning (ht : t ≠ .i1) (ho : o.arity = .binary) (a b : BitVec t.width)
    : (intBinary? t o a b).map (scalar t) = (Meaning.binary? o a b).map (Meaning.constant t) := by
  cases o
  case add => exact some_scalar_eq_number (Word.eq_ofInt (BitVec.toInt_add a b))
  case sub => exact some_scalar_eq_number (Word.eq_ofInt BitVec.toInt_sub)
  case mul => exact some_scalar_eq_number (Word.eq_ofInt (BitVec.toInt_mul a b))
  case div =>
    simp only [intBinary?, Meaning.binary?, Word.sdiv_eq_ofInt]
    split <;> rfl
  case udiv =>
    simp only [intBinary?, Meaning.binary?, Word.udiv_eq_ofInt]
    split <;> rfl
  case rem =>
    simp only [intBinary?, Meaning.binary?, Word.srem_eq_ofInt]
    split <;> rfl
  case urem =>
    simp only [intBinary?, Meaning.binary?, Word.umod_eq_ofInt]
    split <;> rfl
  case or => exact some_scalar_eq_bits fun i _ => BitVec.getLsbD_or
  case and => exact some_scalar_eq_bits fun i _ => BitVec.getLsbD_and
  case xor => exact some_scalar_eq_bits fun i _ => BitVec.getLsbD_xor
  case shl => exact some_scalar_eq_number (Word.shiftLeft_eq_ofInt a _)
  case shr => exact some_scalar_eq_number (Word.shiftRight_eq_ofInt a _)
  case sar => exact some_scalar_eq_number (Word.sshiftRight_eq_ofInt a _)
  case rol => exact some_scalar_eq_bits fun i hi => Word.getLsbD_rotateLeft a b.toNat hi
  case ror => exact some_scalar_eq_bits fun i hi => Word.getLsbD_rotateRight a b.toNat hi
  case max =>
    apply some_scalar_eq_number
    rw [Scalar.sle_eq ht, max_comm, max_def, apply_ite (BitVec.ofInt t.width), BitVec.ofInt_toInt,
      BitVec.ofInt_toInt]
    simp only [decide_eq_true_eq]
  case min =>
    apply some_scalar_eq_number
    rw [Scalar.sle_eq ht, min_def, apply_ite (BitVec.ofInt t.width), BitVec.ofInt_toInt,
      BitVec.ofInt_toInt]
    simp only [decide_eq_true_eq]
  case umax =>
    apply some_scalar_eq_number
    rw [BitVec.ule_eq_decide, max_comm, max_def, BitVec.ofInt_natCast,
      apply_ite (BitVec.ofNat t.width)]
    simp
  case umin =>
    apply some_scalar_eq_number
    rw [BitVec.ule_eq_decide, min_def, BitVec.ofInt_natCast, apply_ite (BitVec.ofNat t.width)]
    simp
  all_goals cases ho

theorem binaryWords?_eq_meaning (ht : t.isInteger = true) (hi1 : t ≠ .i1) (o : Operator)
    (a b : BitVec t.width)
    : binaryWords? t o a b = (Meaning.binary? o a b).map (Meaning.constant t) := by
  cases ho : o.arity with
  | unary =>
    rw [binaryWords?_of_unary ht ho]
    cases o <;> first | rfl | cases ho
  | binary => rw [binaryWords?_of_int ht ho, intBinary?_eq_meaning hi1 ho]
  | comparison => rw [binaryWords?_of_comparison ht ho, intCompare?_eq_meaning hi1 ho]

theorem intUnary?_eq_meaning (hw : t.width % 8 = 0) (o : Operator) (a : BitVec t.width)
    : (intUnary? o a).map (scalar t) = (Meaning.unary? o a).map (Meaning.constant t) := by
  cases o
  case neg =>
    apply some_scalar_eq_number
    rw [BitVec.ofInt_neg, BitVec.ofInt_toInt]
  case abs => exact some_scalar_eq_number (Word.abs_eq_ofInt a)
  case not =>
    apply some_scalar_eq_bits
    intro i hi
    rw [BitVec.getLsbD_not, decide_eq_true hi, Bool.true_and]
  case popcount =>
    apply some_scalar_eq_number
    rw [BitVec.ofInt_natCast, Word.popCount_eq_digits]
  case byteswap =>
    exact some_scalar_eq_bits fun i hi => Word.getLsbD_byteswap hw a hi
  case lsb =>
    simp only [intUnary?, Meaning.unary?, Word.lowestBit?_eq]
    split
    . rfl
    . exact some_scalar_eq_number (BitVec.ofInt_natCast _ _).symm
  case msb =>
    simp only [intUnary?, Meaning.unary?, Word.highestBit?_eq]
    split
    . rfl
    . exact some_scalar_eq_number (BitVec.ofInt_natCast _ _).symm
  all_goals rfl

theorem unary?_eq_meaning (ht : t.isInteger = true) (hw : t.width % 8 = 0) (o : Operator)
    (a : BitVec t.width)
    : unary? o (scalar t a) = (Meaning.unary? o a).map (Meaning.constant t) := by
  unfold unary?
  dsimp only
  rw [Scalar.format?_of_isInteger ht, ← intUnary?_eq_meaning hw]

theorem binary?_eq_none_of_ty {c d : Constant} (h : c.ty ≠ d.ty ∨ c.ty.isSymbolic = true)
    : binary? o c d = none := by
  rw [Option.eq_none_iff_forall_not_mem]
  intro e he
  obtain ⟨t, x, y, rfl, rfl, -⟩ := binary?_eq_some he
  rcases h with hne | hsymbolic
  . exact hne rfl
  . cases t <;> cases hsymbolic

theorem unary?_eq_none_of_ty {c : Constant} (h : c.ty.isSymbolic = true) : unary? o c = none := by
  cases c with
  | scalar t a => cases t <;> cases h
  | _ => rfl

end Constant

end MachineIR
