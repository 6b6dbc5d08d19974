/-!
This module contains the reading of unsigned numbers from bytes.
-/

namespace MachineIR

inductive ByteOrder where
  -- Least significant byte first.
  | little
  -- Most significant byte first.
  | big
deriving DecidableEq, Repr, Inhabited

namespace ByteOrder

def readLittle : List UInt8 → Nat
  | [] => 0
  | b :: bs => b.toNat + 256 * readLittle bs

def read : ByteOrder → List UInt8 → Nat
  | little, bs => readLittle bs
  | big, bs => readLittle bs.reverse

theorem shiftLeft_byte (n : Nat) : 1 <<< (8 * (n + 1)) = 256 * 1 <<< (8 * n) := by
  rw [Nat.mul_add, Nat.shiftLeft_add, Nat.shiftLeft_eq _ (8 * 1), Nat.mul_comm]

theorem readLittle_lt (bs : List UInt8) : readLittle bs < 1 <<< (8 * bs.length) := by
  induction bs with
  | nil => decide
  | cons b bs ih =>
    have := b.toNat_lt
    rw [readLittle, List.length_cons, shiftLeft_byte]
    omega

theorem read_reverse_big (bs : List UInt8) : big.read bs.reverse = little.read bs := by
  simp [read]

end ByteOrder

end MachineIR
