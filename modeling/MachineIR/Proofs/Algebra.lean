import MachineIR.Constant.Conversion

/-!
This module contains the laws of the algebra of literals: units, absorbing elements, commutativity,
associativity of the addition, operators that undo themselves, and conversions of bit patterns.
-/

namespace MachineIR

namespace Word

variable {w : Nat}

theorem shiftRight_self (a : BitVec w) : a >>> w = 0#w := by
  apply BitVec.eq_of_toNat_eq
  rw [BitVec.toNat_ushiftRight, Nat.shiftRight_eq_div_pow, Nat.div_eq_of_lt a.isLt]
  simp

theorem rotateLeft_zero (a : BitVec w) : a.rotateLeft 0 = a := by
  rw [BitVec.rotateLeft_def]
  simp [shiftRight_self]

theorem rotateRight_zero (a : BitVec w) : a.rotateRight 0 = a := by
  rw [BitVec.rotateRight_def]
  simp

section Byteswap

theorem shiftRight_byte (x i : Nat) : x >>> (8 * (i + 1)) = (x / 256) >>> (8 * i) := by
  rw [Nat.mul_add, Nat.mul_one, Nat.add_comm, Nat.shiftRight_add, Nat.shiftRight_eq_div_pow x]

theorem readLittle_bytes (x n : Nat)
    : ByteOrder.readLittle ((List.range n).map fun i => UInt8.ofNat (x >>> (8 * i))) =
        x % (1 <<< (8 * n)) := by
  induction n generalizing x with
  | zero => simp [ByteOrder.readLittle, Nat.mod_one]
  | succ n ih =>
    rw [List.range_succ_eq_map, List.map_cons, List.map_map, ByteOrder.readLittle]
    simp only [Function.comp_def, Nat.succ_eq_add_one, shiftRight_byte]
    rw [ih, ByteOrder.shiftLeft_byte, Nat.mod_mul]
    simp

theorem bytes_readLittle (bs : List UInt8)
    : ((List.range bs.length).map fun i => UInt8.ofNat (ByteOrder.readLittle bs >>> (8 * i))) =
        bs := by
  induction bs with
  | nil => rfl
  | cons b bs ih =>
    have hb := b.toNat_lt
    rw [List.length_cons, List.range_succ_eq_map, List.map_cons, List.map_map]
    simp only [Function.comp_def, Nat.succ_eq_add_one, shiftRight_byte]
    have hrest : ByteOrder.readLittle (b :: bs) / 256 = ByteOrder.readLittle bs := by
      rw [ByteOrder.readLittle]
      omega
    have hfirst : UInt8.ofNat (ByteOrder.readLittle (b :: bs) >>> (8 * 0)) = b := by
      apply UInt8.toNat_inj.mp
      rw [Nat.mul_zero, Nat.shiftRight_zero, UInt8.toNat_ofNat', ByteOrder.readLittle]
      omega
    rw [hrest, ih, hfirst]

theorem length_bytes (hw : w % 8 = 0) (a : BitVec w) : (bytes a).length = w / 8 := by
  simp only [bytes, List.length_map, List.length_range]
  omega

theorem bytes_ofNat (hw : w % 8 = 0) {bs : List UInt8} (hlength : bs.length = w / 8)
    : bytes (BitVec.ofNat w (ByteOrder.readLittle bs)) = bs := by
  have hlt := ByteOrder.readLittle_lt bs
  rw [hlength, show 8 * (w / 8) = w by omega, Nat.one_shiftLeft] at hlt
  have hround := bytes_readLittle bs
  rw [hlength] at hround
  unfold bytes
  rw [BitVec.toNat_ofNat, Nat.mod_eq_of_lt hlt, show (w + 7) / 8 = w / 8 by omega, hround]

theorem ofNat_bytes (hw : w % 8 = 0) (a : BitVec w)
    : BitVec.ofNat w (ByteOrder.readLittle (bytes a)) = a := by
  unfold bytes
  rw [readLittle_bytes, show 8 * ((w + 7) / 8) = w by omega, Nat.one_shiftLeft,
    Nat.mod_eq_of_lt a.isLt, BitVec.ofNat_toNat, BitVec.setWidth_eq]

theorem byteswap_byteswap (hw : w % 8 = 0 ∨ w = 1) (a : BitVec w) : byteswap (byteswap a) = a := by
  rcases hw with hw | rfl
  . have hswap : bytes (byteswap a) = (bytes a).reverse := by
      apply bytes_ofNat hw
      rw [List.length_reverse, length_bytes hw]
    change BitVec.ofNat w (ByteOrder.readLittle (bytes (byteswap a)).reverse) = a
    rw [hswap, List.reverse_reverse, ofNat_bytes hw]
  . have hbyte : ∀ a : BitVec 1, byteswap a = a := by
      decide
    rw [hbyte, hbyte]

end Byteswap

end Word

namespace FloatFormat

theorem negate_negate (f : FloatFormat) {x : Nat} (hx : x < 2 * f.signBit)
    : f.negate (f.negate x) = x := by
  unfold negate isNegative magnitude
  by_cases h : f.signBit ≤ x
  . have hmod : x % f.signBit = x - f.signBit := by
      rw [Nat.mod_eq_sub_mod h, Nat.mod_eq_of_lt (by omega)]
    have hlt : ¬ f.signBit ≤ x - f.signBit := by omega
    simp only [h, decide_true, ↓reduceIte, hmod, hlt, decide_false, Bool.false_eq_true]
    omega
  . have hle : f.signBit ≤ x + f.signBit := by omega
    simp only [h, decide_false, Bool.false_eq_true, ↓reduceIte, hle, decide_true]
    rw [Nat.add_mod_right, Nat.mod_eq_of_lt (by omega)]

theorem negate_lt (f : FloatFormat) (x : Nat) : f.negate x < 2 * f.signBit := by
  unfold negate isNegative magnitude
  split
  . have hpos : 0 < f.signBit := by
      unfold signBit
      rw [Nat.one_shiftLeft]
      apply Nat.two_pow_pos
    have := Nat.mod_lt x hpos
    omega
  . next h =>
    simp only [decide_eq_true_eq] at h
    omega

end FloatFormat

theorem Scalar.shiftLeft_width {t : Scalar} {f : FloatFormat} (h : t.format? = some f)
    : 1 <<< t.width = 2 * f.signBit := by
  cases t <;> cases h <;> rfl

theorem Scalar.format?_of_isInteger {t : Scalar} (h : t.isInteger = true) : t.format? = none := by
  cases t <;> first | rfl | cases h

namespace Constant

section Words

variable {t : Scalar} {o : Operator}

theorem binary?_scalar (a b : BitVec t.width)
    : binary? o (scalar t a) (scalar t b) = binaryWords? t o a b := by
  simp [binary?]

theorem binary?_eq_some {a b c : Constant} (h : binary? o a b = some c)
    : ∃ t x y, a = scalar t x ∧ b = scalar t y ∧ binaryWords? t o x y = some c := by
  unfold binary? at h
  split at h
  . next t x u y =>
    split at h
    . next heq =>
      subst heq
      exact ⟨_, _, _, rfl, rfl, h⟩
    . cases h
  . cases h

theorem isInteger_of_ty {x : BitVec t.width} (h : (scalar t x).ty.isInteger = true)
    : t.isInteger = true := by
  cases t <;> first | rfl | cases h

theorem binaryWords?_of_int (ht : t.isInteger = true) (ho : o.arity = .binary) (a b : BitVec t.width)
    : binaryWords? t o a b = (intBinary? t o a b).map (scalar t) := by
  unfold binaryWords?
  rw [Scalar.format?_of_isInteger ht]
  cases o <;> first | rfl | cases ho

theorem ty_binary? {a b c : Constant} (h : binary? o a b = some c) (ho : o.arity = .binary)
    : c.ty = a.ty := by
  obtain ⟨t, x, y, rfl, rfl, hwords⟩ := binary?_eq_some h
  unfold binaryWords? at hwords
  split at hwords
  . next f hf =>
    have hcompare : floatCompare? f o x.toNat y.toNat = none := by
      cases o <;> first | rfl | cases ho
    rw [hcompare] at hwords
    obtain ⟨w, -, rfl⟩ := Option.map_eq_some_iff.mp hwords
    rfl
  . have hcompare : intCompare? t o x y = none := by
      cases o <;> first | rfl | cases ho
    rw [hcompare] at hwords
    obtain ⟨w, -, rfl⟩ := Option.map_eq_some_iff.mp hwords
    rfl

theorem ty_ofInt? {t : Ty} {n : Int} {c : Constant} (h : ofInt? t n = some c) : c.ty = t := by
  unfold ofInt? at h
  split at h
  . rw [Option.ite_none_right_eq_some] at h
    cases h.2
    rfl
  . cases h

end Words

section Laws

variable {t : Scalar} {o : Operator} {a b c d e : Constant}

theorem sle_eq_decide (t : Scalar)
    : ∃ key : BitVec t.width → Int, Function.Injective key ∧
        ∀ a b, t.sle a b = decide (key a ≤ key b) := by
  -- The signed order compares by some number that determines the word.
  by_cases ht : t = .i1
  . subst ht
    refine ⟨fun a => a.toNat, ?_, ?_⟩
    . intro a b hab
      exact BitVec.eq_of_toNat_eq (Int.ofNat.inj hab)
    . intro a b
      simp [Scalar.sle, BitVec.ule_eq_decide]
  . refine ⟨BitVec.toInt, fun a b => BitVec.eq_of_toInt_eq, ?_⟩
    intro a b
    unfold Scalar.sle
    split
    . exact absurd rfl ht
    . exact BitVec.sle_eq_decide

theorem ule_eq_decide (w : Nat)
    : ∃ key : BitVec w → Int, Function.Injective key ∧ ∀ a b, a.ule b = decide (key a ≤ key b) := by
  refine ⟨fun a => a.toNat, ?_, ?_⟩
  . intro a b hab
    exact BitVec.eq_of_toNat_eq (Int.ofNat.inj hab)
  . intro a b
    simp [BitVec.ule_eq_decide]

theorem pick_comm {w : Nat} {le : BitVec w → BitVec w → Bool}
    (hle : ∃ key : BitVec w → Int, Function.Injective key ∧
      ∀ a b, le a b = decide (key a ≤ key b)) (a b : BitVec w)
    : ((if le b a then a else b) = if le a b then b else a) ∧
        ((if le a b then a else b) = if le b a then b else a) := by
  obtain ⟨key, hkey, hle⟩ := hle
  rw [hle, hle]
  simp only [decide_eq_true_eq]
  by_cases hab : key a ≤ key b
  . by_cases hba : key b ≤ key a
    . have : a = b := hkey (Int.le_antisymm hab hba)
      simp [this]
    . simp [hab, hba]
  . have hba : key b ≤ key a := by omega
    simp [hab, hba]

theorem intBinary?_comm (ho : o.isCommutative = true) (a b : BitVec t.width)
    : intBinary? t o a b = intBinary? t o b a := by
  cases o
  case add => simp [intBinary?, BitVec.add_comm]
  case mul => simp [intBinary?, BitVec.mul_comm]
  case or => simp [intBinary?, BitVec.or_comm]
  case and => simp [intBinary?, BitVec.and_comm]
  case xor => simp [intBinary?, BitVec.xor_comm]
  case max => simp only [intBinary?, (pick_comm (sle_eq_decide t) a b).1]
  case min => simp only [intBinary?, (pick_comm (sle_eq_decide t) a b).2]
  case umax => simp only [intBinary?, (pick_comm (ule_eq_decide t.width) a b).1]
  case umin => simp only [intBinary?, (pick_comm (ule_eq_decide t.width) a b).2]
  case eq | ne => rfl
  all_goals cases ho

theorem intCompare?_comm (ho : o.isCommutative = true) (a b : BitVec t.width)
    : intCompare? t o a b = intCompare? t o b a := by
  cases o
  case eq => simp [intCompare?, BEq.comm]
  case ne => simp [intCompare?, bne_comm]
  all_goals first | rfl | cases ho

theorem binary?_comm (ho : o.isCommutative = true) (ha : a.ty.isInteger = true)
    (h : binary? o a b = some c) : binary? o b a = some c := by
  obtain ⟨t, x, y, rfl, rfl, hc⟩ := binary?_eq_some h
  rw [← hc, binary?_scalar]
  unfold binaryWords?
  rw [Scalar.format?_of_isInteger (isInteger_of_ty ha)]
  dsimp only
  rw [intCompare?_comm ho, intBinary?_comm ho]

theorem binary?_onEqual {r : Bool} (ho : o.onEqual? = some r) (ha : a.ty.isInteger = true)
    (h : binary? o a a = some c) : c = ofBool r := by
  obtain ⟨t, x, y, rfl, heq, hc⟩ := binary?_eq_some h
  cases heq
  unfold binaryWords? at hc
  rw [Scalar.format?_of_isInteger (isInteger_of_ty ha)] at hc
  obtain ⟨key, -, hle⟩ := sle_eq_decide t
  cases o
  all_goals cases ho
  all_goals
    simp [intCompare?, Scalar.slt, hle, BitVec.ult, BitVec.ule] at hc
    rw [← hc]

theorem intBinary?_zero (ho : o ∈ [.add, .sub, .or, .xor, .shl, .shr, .sar, .rol, .ror])
    (a : BitVec t.width) : intBinary? t o a 0#_ = some a := by
  simp only [List.mem_cons, List.not_mem_nil, or_false] at ho
  rcases ho with rfl | rfl | rfl | rfl | rfl | rfl | rfl | rfl | rfl
  all_goals simp [intBinary?, Word.rotateLeft_zero, Word.rotateRight_zero]

theorem one_ne_zero (t : Scalar) : 1#t.width ≠ 0#t.width := by
  intro h
  have := congrArg BitVec.toNat h
  have hlt : 1 < 2 ^ t.width := Nat.one_lt_two_pow (Nat.ne_of_gt t.width_pos)
  simp [Nat.mod_eq_of_lt hlt] at this

theorem intBinary?_one (ho : o ∈ [.mul, .div, .udiv]) (a : BitVec t.width)
    : intBinary? t o a 1#_ = some a := by
  have hone := one_ne_zero t
  simp only [List.mem_cons, List.not_mem_nil, or_false] at ho
  rcases ho with rfl | rfl | rfl
  all_goals simp [intBinary?, hone]

theorem intBinary?_rem_one (ho : o ∈ [.rem, .urem]) (a : BitVec t.width)
    : intBinary? t o a 1#_ = some 0#_ := by
  have hone := one_ne_zero t
  simp only [List.mem_cons, List.not_mem_nil, or_false] at ho
  rcases ho with rfl | rfl
  all_goals simp [intBinary?, hone]

theorem binary?_add_negated {zero negated : Constant} (ha : a.ty.isInteger = true)
    (hzero : ofInt? a.ty 0 = some zero) (hnegated : binary? .sub zero b = some negated)
    (h : binary? .sub a b = some c) : binary? .add a negated = some c := by
  obtain ⟨t, x, y, rfl, rfl, hc⟩ := binary?_eq_some h
  have ht := isInteger_of_ty ha
  simp only [ofInt?, ty_scalar, ht, ↓reduceIte, Option.some.injEq] at hzero
  subst hzero
  rw [binary?_scalar, binaryWords?_of_int ht rfl] at hnegated
  rw [binaryWords?_of_int ht rfl] at hc
  cases hnegated
  cases hc
  rw [binary?_scalar, binaryWords?_of_int ht rfl]
  simp [intBinary?, BitVec.sub_eq_add_neg]

theorem binary?_add_assoc {merged : Constant} (ha : a.ty.isInteger = true)
    (hfirst : binary? .add a b = some c) (hsecond : binary? .add c d = some e)
    (hmerged : binary? .add b d = some merged) : binary? .add a merged = some e := by
  obtain ⟨t, x, y, rfl, rfl, hc⟩ := binary?_eq_some hfirst
  have ht := isInteger_of_ty ha
  rw [binaryWords?_of_int ht rfl] at hc
  cases hc
  obtain ⟨u, p, z, heq, rfl, he⟩ := binary?_eq_some hsecond
  cases heq
  rw [binaryWords?_of_int ht rfl] at he
  cases he
  rw [binary?_scalar, binaryWords?_of_int ht rfl] at hmerged
  cases hmerged
  rw [binary?_scalar, binaryWords?_of_int ht rfl]
  simp [intBinary?, BitVec.add_assoc]

theorem intUnary?_intUnary? (ho : o ∈ [.not, .neg, .byteswap]) {x y z : BitVec t.width}
    (hy : intUnary? o x = some y) (hz : intUnary? o y = some z) : z = x := by
  have hwidth : t.width % 8 = 0 ∨ t.width = 1 := by
    cases t <;> decide
  simp only [List.mem_cons, List.not_mem_nil, or_false] at ho
  rcases ho with rfl | rfl | rfl
  all_goals
    cases hy
    cases hz
  . exact BitVec.not_not
  . exact BitVec.neg_neg
  . exact Word.byteswap_byteswap hwidth x

theorem floatUnary?_floatUnary? {f : FloatFormat} (hf : t.format? = some f)
    (ho : o ∈ [.not, .neg, .byteswap]) {x : BitVec t.width} {y z : Nat}
    (hy : floatUnary? f o x.toNat = some y)
    (hz : floatUnary? f o (BitVec.ofNat t.width y).toNat = some z) : z = x.toNat := by
  -- Of the operators that undo themselves, floats only have the one that flips the sign.
  have hwidth := Scalar.shiftLeft_width hf
  rw [Nat.one_shiftLeft] at hwidth
  simp only [List.mem_cons, List.not_mem_nil, or_false] at ho
  rcases ho with rfl | rfl | rfl
  . cases hy
  . cases hy
    cases hz
    rw [BitVec.toNat_ofNat, hwidth, Nat.mod_eq_of_lt (f.negate_lt _)]
    apply f.negate_negate
    rw [← hwidth]
    exact x.isLt
  . cases hy

theorem unary?_unary? (ho : o ∈ [.not, .neg, .byteswap]) (hb : unary? o a = some b)
    (hc : unary? o b = some c) : c = a := by
  cases a with
  | scalar t x =>
    cases hf : t.format? with
    | none =>
      simp only [unary?, hf, Option.map_eq_some_iff] at hb
      obtain ⟨y, hy, rfl⟩ := hb
      simp only [unary?, hf, Option.map_eq_some_iff] at hc
      obtain ⟨z, hz, rfl⟩ := hc
      rw [intUnary?_intUnary? ho hy hz]
    | some f =>
      simp only [unary?, hf, Option.map_eq_some_iff] at hb
      obtain ⟨y, hy, rfl⟩ := hb
      simp only [unary?, hf, Option.map_eq_some_iff] at hc
      obtain ⟨z, hz, rfl⟩ := hc
      rw [floatUnary?_floatUnary? hf ho hy hz, BitVec.ofNat_toNat, BitVec.setWidth_eq]
  | _ => cases hb

theorem bitcast?_self (h : bitcast? a a.ty = some b) : b = a := by
  cases a with
  | scalar t x =>
    simp only [bitcast?, ty_scalar, ↓reduceIte, BitVec.ofNat_toNat, BitVec.setWidth_eq,
      Option.some.injEq] at h
    exact h.symm
  | _ => cases h

theorem bitcast?_bitcast? {t u : Ty} (hb : bitcast? a t = some b) (hc : bitcast? b u = some c)
    : bitcast? a u = some c := by
  cases a with
  | scalar s x =>
    cases t with
    | scalar t =>
      simp only [bitcast?, Option.ite_none_right_eq_some, Option.some.injEq] at hb
      obtain ⟨hst, rfl⟩ := hb
      cases u with
      | scalar u =>
        simp only [bitcast?, Option.ite_none_right_eq_some, Option.some.injEq] at hc
        obtain ⟨htu, rfl⟩ := hc
        have hlt : x.toNat < 2 ^ t.width := by
          rw [← hst]
          exact x.isLt
        simp only [bitcast?, hst.trans htu, ↓reduceIte]
        rw [BitVec.toNat_ofNat, Nat.mod_eq_of_lt hlt]
      | _ => cases hc
    | _ => cases hb
  | _ => cases hb

end Laws

end Constant

end MachineIR
