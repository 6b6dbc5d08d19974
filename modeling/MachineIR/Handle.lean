/-!
This module contains the handles by which a routine names its parts. A handle is 32 bits wide; one
that is made from a larger index keeps the low bits.
-/

namespace MachineIR

structure InsnId where
  index : UInt32
deriving DecidableEq, Repr, Hashable, Inhabited

structure BlockId where
  index : UInt32
deriving DecidableEq, Repr, Hashable, Inhabited

structure UseId where
  index : UInt32
deriving DecidableEq, Repr, Hashable, Inhabited

/-- What an operand can refer to: the result of an instruction, or a block as a branch target. -/
inductive ValueId where
  | insn (id : InsnId)
  | block (id : BlockId)
deriving DecidableEq, Repr, Hashable, Inhabited

namespace InsnId

def ofNat (n : Nat) : InsnId := ⟨UInt32.ofNat n⟩

def toNat (id : InsnId) : Nat := id.index.toNat

def render (id : InsnId) : String := s!"insn#{id.toNat}"

@[simp]
theorem ofNat_toNat (id : InsnId) : ofNat id.toNat = id := by
  simp [ofNat, toNat]

theorem toNat_ofNat {n : Nat} (h : n < UInt32.size) : (ofNat n).toNat = n := by
  unfold ofNat toNat
  rw [UInt32.toNat_ofNat']
  exact Nat.mod_eq_of_lt h

theorem toNat_inj {a b : InsnId} : a.toNat = b.toNat ↔ a = b := by
  constructor
  · intro h
    rw [← ofNat_toNat a, ← ofNat_toNat b, h]
  · intro h
    rw [h]

end InsnId

namespace BlockId

def ofNat (n : Nat) : BlockId := ⟨UInt32.ofNat n⟩

def toNat (id : BlockId) : Nat := id.index.toNat

def render (id : BlockId) : String := s!"block#{id.toNat}"

@[simp]
theorem ofNat_toNat (id : BlockId) : ofNat id.toNat = id := by
  simp [ofNat, toNat]

theorem toNat_ofNat {n : Nat} (h : n < UInt32.size) : (ofNat n).toNat = n := by
  unfold ofNat toNat
  rw [UInt32.toNat_ofNat']
  exact Nat.mod_eq_of_lt h

theorem toNat_inj {a b : BlockId} : a.toNat = b.toNat ↔ a = b := by
  constructor
  · intro h
    rw [← ofNat_toNat a, ← ofNat_toNat b, h]
  · intro h
    rw [h]

end BlockId

namespace UseId

def ofNat (n : Nat) : UseId := ⟨UInt32.ofNat n⟩

def toNat (id : UseId) : Nat := id.index.toNat

def render (id : UseId) : String := s!"UseId({id.toNat})"

end UseId

namespace ValueId

def render : ValueId → String
  | insn id => id.render
  | block id => id.render

end ValueId

end MachineIR
