import Mathlib.Algebra.BigOperators.Ring.Finset
import MachineIR.Constant.Conversion

/-!
This module contains the agreement of the ways to write a literal down: as a type with a number for the
bits, as a literal of another type of the same width, and as bytes in either order. Bytes are added to an
accumulator of 128 bits one after the other, which is wide enough for every type.
-/

namespace MachineIR

namespace ByteOrder

def push (a : BitVec 128) (b : UInt8) : BitVec 128 := a <<< 8 ||| b.toBitVec.setWidth 128

def accumulate : ByteOrder → List UInt8 → BitVec 128
  | little, bs => bs.reverse.foldl push 0
  | big, bs => bs.foldl push 0

variable {bs : List UInt8}

section Digits

open Finset

def digits (bs : List UInt8) (n : Nat) : Nat := ∑ i ∈ range n, (bs.getD i 0).toNat * 256 ^ i

theorem digits_cons (b : UInt8) (bs : List UInt8) (n : Nat)
    : digits (b :: bs) (n + 1) = b.toNat + 256 * digits bs n := by
  unfold digits
  rw [sum_range_succ', mul_sum, Nat.add_comm]
  congr 1
  . simp
  . apply sum_congr rfl
    intro i _
    rw [List.getD_cons_succ, Nat.pow_succ, ← Nat.mul_assoc, Nat.mul_comm]

theorem readLittle_take (bs : List UInt8) (n : Nat) : readLittle (bs.take n) = digits bs n := by
  induction n generalizing bs with
  | zero => simp [readLittle, digits]
  | succ n ih =>
    cases bs with
    | nil => simp [readLittle, digits]
    | cons b bs => rw [List.take_succ_cons, readLittle, ih, digits_cons]

end Digits

section Accumulator

theorem push_ofNat (n : Nat) (b : UInt8)
    : push (BitVec.ofNat 128 n) b = BitVec.ofNat 128 (b.toNat + 256 * n) := by
  have hb : b.toNat < 2 ^ 8 := b.toNat_lt
  have hshift : (n % 2 ^ 128) <<< 8 % 2 ^ 128 = 2 ^ 8 * (n % 2 ^ 120) := by
    rw [Nat.shiftLeft_eq]
    omega
  apply BitVec.eq_of_toNat_eq
  rw [push, BitVec.toNat_or, BitVec.toNat_shiftLeft, BitVec.toNat_setWidth_of_le (by decide),
    BitVec.toNat_ofNat, BitVec.toNat_ofNat, UInt8.toNat_toBitVec, hshift,
    ← Nat.two_pow_add_eq_or_of_lt hb]
  omega

theorem foldl_push (bs : List UInt8) : bs.foldl push 0 = BitVec.ofNat 128 (readLittle bs.reverse) := by
  induction bs using List.reverseRecOn with
  | nil => rfl
  | append_singleton bs b ih =>
    rw [List.foldl_concat, ih, push_ofNat, List.reverse_concat, readLittle]

theorem accumulate_eq (o : ByteOrder) (bs : List UInt8)
    : o.accumulate bs = BitVec.ofNat 128 (o.read bs) := by
  cases o with
  | little => rw [accumulate, foldl_push, List.reverse_reverse, read]
  | big => rw [accumulate, foldl_push, read]

theorem read_lt (o : ByteOrder) (bs : List UInt8) : o.read bs < 2 ^ (8 * bs.length) := by
  rw [← Nat.one_shiftLeft]
  cases o with
  | little => exact readLittle_lt bs
  | big => simpa [read] using readLittle_lt bs.reverse

theorem toNat_accumulate (o : ByteOrder) (h : bs.length ≤ 16)
    : (o.accumulate bs).toNat = o.read bs := by
  -- Sixteen bytes fill the accumulator, and no bit of them is lost.
  rw [accumulate_eq, BitVec.toNat_ofNat, Nat.mod_eq_of_lt]
  exact (o.read_lt bs).trans_le (Nat.pow_le_pow_right (by decide) (by omega))

end Accumulator

end ByteOrder

namespace Constant

open ByteOrder

variable {t u : Ty} {c : Constant} {raw : Nat} {bs : List UInt8} {o : ByteOrder}

def encoding (c : Constant) : Ty × Option Nat := (c.ty, c.rawBits?)

theorem exists_scalar (h : t.isSymbolic = false) : ∃ s, t = .scalar s := by
  cases t with
  | scalar s => exact ⟨s, rfl⟩
  | _ => cases h

section Bits

theorem ofBits?_eq_none_iff : ofBits? t raw = none ↔ t.isSymbolic = true := by
  cases t with
  | scalar s => cases s <;> simp [ofBits?] <;> decide
  | _ => exact ⟨fun _ => rfl, fun _ => rfl⟩

theorem map_encoding_ofBits? (h : t.isSymbolic = false) (raw : Nat)
    : (ofBits? t raw).map encoding = some (t, some (raw % 2 ^ t.bitWidth)) := by
  obtain ⟨s, rfl⟩ := exists_scalar h
  simp [ofBits?, encoding, ty, rawBits?, Ty.bitWidth]

theorem rawBits?_bind_ofBits? (h : c.ty.isSymbolic = false)
    : c.rawBits?.bind (ofBits? c.ty) = some c := by
  cases c with
  | scalar s b => exact ofBits?_rawBits s b
  | _ => cases h

end Bits

section Bitcasts

theorem bitcast?_ty (h : c.ty.isSymbolic = false) : c.bitcast? c.ty = some c := by
  cases c with
  | scalar s b => simp [ty, bitcast?]
  | _ => cases h

theorem exists_bitcast? (hc : c.ty.isSymbolic = false) (ht : t.isSymbolic = false)
    (hwidth : c.ty.bitWidth = t.bitWidth)
    : ∃ d, c.bitcast? t = some d ∧ d.encoding = (t, c.rawBits?) ∧ ∀ u, d.bitcast? u = c.bitcast? u := by
  -- A literal and what it is cast to have the same bits, so they are cast to the same.
  obtain ⟨s, rfl⟩ := exists_scalar ht
  cases c with
  | scalar s' b =>
    replace hwidth : s'.width = s.width := hwidth
    have hbits : (BitVec.ofNat s.width b.toNat).toNat = b.toNat := by
      rw [BitVec.toNat_ofNat, ← hwidth, Nat.mod_eq_of_lt b.isLt]
    refine ⟨scalar s (BitVec.ofNat s.width b.toNat), if_pos hwidth, ?_, ?_⟩
    . rw [encoding, rawBits?, hbits]
      rfl
    . intro u
      cases u with
      | scalar s'' => simp only [bitcast?, hbits, hwidth]
      | _ => rfl
  | _ => cases hc

end Bitcasts

section Bytes

theorem byteWidth_le (t : Ty) : t.byteWidth ≤ 16 := by
  cases t with
  | scalar s => cases s <;> decide
  | _ => decide

theorem ofBytes?_eq_none_iff
    : ofBytes? t bs o = none ↔ t.isSymbolic = true ∨ bs.length < t.byteWidth := by
  unfold ofBytes?
  by_cases h : bs.length < t.byteWidth
  . simp [h]
  . simp [h, ofBits?_eq_none_iff]

theorem ofBytes?_eq (h : t.byteWidth ≤ bs.length) (o : ByteOrder)
    : ofBytes? t bs o = ofBits? t (o.read (bs.take t.byteWidth)) :=
  if_neg (Nat.not_lt.mpr h)

theorem ofBytes?_reverse (h : t.byteWidth ≤ bs.length)
    : ofBytes? t (bs.take t.byteWidth).reverse .big = ofBytes? t bs .little := by
  have hlength : (bs.take t.byteWidth).reverse.length = t.byteWidth := by simp [h]
  rw [ofBytes?_eq hlength.ge, ofBytes?_eq h, List.take_of_length_le hlength.le, read_reverse_big]

theorem pointerOfBytes?_eq_none_iff {n : Nat}
    : pointerOfBytes? bs n o = none ↔ n = 0 ∨ 8 < n ∨ bs.length < n := by
  unfold pointerOfBytes?
  split <;> simp_all

theorem pointerOfBytes?_eq {n : Nat} (hpos : 0 < n) (hn : n ≤ 8) (h : n ≤ bs.length) (o : ByteOrder)
    : pointerOfBytes? bs n o = ofBits? .pointer (o.read (bs.take n)) :=
  if_neg (by omega)

theorem pointerOfBytes?_reverse {n : Nat} (hpos : 0 < n) (hn : n ≤ 8) (h : n ≤ bs.length)
    : pointerOfBytes? (bs.take n).reverse n .big = pointerOfBytes? bs n .little := by
  have hlength : (bs.take n).reverse.length = n := by simp [h]
  rw [pointerOfBytes?_eq hpos hn hlength.ge, pointerOfBytes?_eq hpos hn h,
    List.take_of_length_le hlength.le, read_reverse_big]

end Bytes

theorem codecs_agree
    : (∀ c : Constant, c.ty.isSymbolic = false → c.rawBits?.bind (ofBits? c.ty) = some c) ∧
        (∀ t : Ty, t.isSymbolic = false → ∀ raw < 2 ^ 128,
          (ofBits? t raw).map encoding = some (t, some (raw % 2 ^ t.bitWidth))) ∧
        (∀ (c : Constant) (t : Ty), c.ty.isSymbolic = false → t.isSymbolic = false →
          c.ty.bitWidth = t.bitWidth →
            (c.bitcast? t).bind (bitcast? · c.ty) = some c ∧
              ∀ u, (c.bitcast? t).bind (bitcast? · u) = c.bitcast? u) ∧
        (∀ (t : Ty) (bs : List UInt8), t.isSymbolic = false → t.byteWidth ≤ bs.length →
          (ofBytes? t bs .little).map encoding =
              some (t, some (digits bs t.byteWidth % 2 ^ t.bitWidth)) ∧
            ofBytes? t (bs.take t.byteWidth).reverse .big = ofBytes? t bs .little ∧
            ∀ o, ofBytes? t bs o = ofBits? t (o.accumulate (bs.take t.byteWidth)).toNat) ∧
        (∀ (bs : List UInt8) (n : Nat), 0 < n → n ≤ 8 → n ≤ bs.length →
          (pointerOfBytes? bs n .little).map encoding = some (.pointer, some (digits bs n)) ∧
            pointerOfBytes? (bs.take n).reverse n .big = pointerOfBytes? bs n .little ∧
            ∀ o, pointerOfBytes? bs n o = ofBits? .pointer (o.accumulate (bs.take n)).toNat) ∧
        (∀ t bs o, ofBytes? t bs o = none ↔ t.isSymbolic = true ∨ bs.length < t.byteWidth) ∧
        ∀ bs n o, pointerOfBytes? bs n o = none ↔ n = 0 ∨ 8 < n ∨ bs.length < n := by
  refine ⟨?_, ?_, ?_, ?_, ?_, ?_, ?_⟩
  . exact fun c hc => rawBits?_bind_ofBits? hc
  . exact fun t ht raw _ => map_encoding_ofBits? ht raw
  . intro c t hc ht hwidth
    obtain ⟨d, hd, -, hcast⟩ := exists_bitcast? hc ht hwidth
    rw [hd]
    exact ⟨(hcast c.ty).trans (bitcast?_ty hc), hcast⟩
  . intro t bs ht hlength
    refine ⟨?_, ofBytes?_reverse hlength, fun o => ?_⟩
    . rw [ofBytes?_eq hlength, map_encoding_ofBits? ht, ByteOrder.read, readLittle_take]
    . rw [ofBytes?_eq hlength, toNat_accumulate]
      exact (List.length_take_le _ _).trans (byteWidth_le t)
  . intro bs n hpos hn hlength
    refine ⟨?_, pointerOfBytes?_reverse hpos hn hlength, fun o => ?_⟩
    . have hlt := ByteOrder.read_lt .little (bs.take n)
      -- Unlike other types, a pointer may take fewer bytes than it is wide. Nothing is cut off
      -- then.
      rw [List.length_take_of_le hlength, ByteOrder.read, readLittle_take] at hlt
      have hle : 8 * n ≤ Ty.pointer.bitWidth := Nat.mul_le_mul_left 8 hn
      rw [pointerOfBytes?_eq hpos hn hlength, map_encoding_ofBits? rfl, ByteOrder.read,
        readLittle_take, Nat.mod_eq_of_lt (hlt.trans_le (Nat.pow_le_pow_right (by decide) hle))]
    . rw [pointerOfBytes?_eq hpos hn hlength, toNat_accumulate]
      exact (List.length_take_le _ _).trans (by omega)
  . exact fun t bs o => ofBytes?_eq_none_iff
  . exact fun bs n o => pointerOfBytes?_eq_none_iff

theorem codecs_agree_payload
    : ((scalar .f32 0x7fc00001#32).bitcast? .i32).bind (bitcast? · .f32) =
          some (scalar .f32 0x7fc00001#32) ∧
        (ofBytes? .i1 [0xff, 0x00] .little).map encoding = some (.i1, some 1) ∧
        (pointerOfBytes? [1, 2, 3, 4] 3 .little).map encoding = some (.pointer, some 0x030201) := by
  obtain ⟨-, -, hcast, hbytes, hpointer, -⟩ := codecs_agree
  have hbyte : digits [0xff, 0x00] 1 % 2 ^ 1 = 1 := by decide
  have hbytes₃ : digits [1, 2, 3, 4] 3 = 0x030201 := by decide
  refine ⟨(hcast (scalar .f32 0x7fc00001#32) .i32 rfl rfl rfl).1, ?_, ?_⟩
  . rw [(hbytes .i1 [0xff, 0x00] rfl (by decide)).1]
    exact congrArg (fun n => some (Ty.i1, some n)) hbyte
  . rw [(hpointer [1, 2, 3, 4] 3 (by decide) (by decide) (by decide)).1, hbytes₃]

end Constant

end MachineIR
