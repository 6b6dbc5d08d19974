import MachineIR.Constant.Text
import MachineIR.Handle

/-!
This module contains what an operand slot can hold: a literal, a register, a reference to memory, or
a reference to another value of the routine.
-/

namespace MachineIR

structure Register where
  id : BitVec 24
  kind : UInt8
deriving DecidableEq, Repr, Inhabited

namespace Register

def ofNat (id kind : Nat) : Register := ⟨BitVec.ofNat 24 id, UInt8.ofNat kind⟩

def uid (r : Register) : Nat := r.kind.toNat <<< 24 + r.id.toNat

def render (r : Register) : String := s!"r{r.kind.toNat}.{r.id.toNat}"

end Register

/-- The address `segment:[base + index * scale + displacement]`; each part can be missing. -/
structure MemoryRef where
  segment : Option Register := none
  base : Option Register := none
  index : Option Register := none
  scale : UInt8 := 0
  displacement : Int64 := 0
deriving DecidableEq, Repr, Inhabited

namespace MemoryRef

def absolute (address : UInt64) : MemoryRef := { displacement := address.toInt64 }

def absoluteAddress? (m : MemoryRef) : Option UInt64 :=
  if m.segment.isNone && m.base.isNone && m.index.isNone then
    some m.displacement.toUInt64
  else
    none

def registers (m : MemoryRef) : List Register :=
  m.segment.toList ++ m.base.toList ++ m.index.toList

def render (m : MemoryRef) : String :=
  let terms := (m.base.map Register.render).toList ++
    (m.index.map fun r => s!"{r.render}*{m.scale.toNat}").toList
  let d := m.displacement.toInt
  let offset :=
    if terms.isEmpty then
      Text.prefixedHex m.displacement.toUInt64.toNat
    else if d < 0 then
      "-" ++ Text.prefixedHex d.natAbs
    else if 0 < d then
      "+" ++ Text.prefixedHex d.natAbs
    else
      ""
  let segment := match m.segment with
    | some r => r.render ++ ":"
    | none => ""
  segment ++ "[" ++ "+".intercalate terms ++ offset ++ "]"

end MemoryRef

inductive Operand where
  | const (c : Constant)
  | reg (r : Register)
  | mem (m : MemoryRef)
  | value (v : ValueId)
deriving DecidableEq, Repr, Inhabited

namespace Operand

abbrev insn (id : InsnId) : Operand := value (.insn id)

abbrev block (id : BlockId) : Operand := value (.block id)

def isConst : Operand → Bool
  | const _ => true
  | _ => false

def const? : Operand → Option Constant
  | const c => some c
  | _ => none

def reg? : Operand → Option Register
  | reg r => some r
  | _ => none

def value? : Operand → Option ValueId
  | value v => some v
  | _ => none

def insn? : Operand → Option InsnId
  | value (.insn id) => some id
  | _ => none

end Operand

end MachineIR
