import MachineIR.ByteOrder
import MachineIR.Operand

/-!
This module contains what a routine knows of the machine it was lifted from, and the registry of
known machines.
-/

namespace MachineIR

structure Architecture where
  name : String
  -- The width of a pointer in bits.
  pointerWidth : Nat
  byteOrder : ByteOrder
  stackRegister : Register
  -- The names of registers; the first entry counts.
  registerNames : List (Register × String) := []
deriving DecidableEq, Repr, Inhabited

namespace Architecture

def registerName? (a : Architecture) (r : Register) : Option String := a.registerNames.lookup r

def pointerType (a : Architecture) : Ty :=
  match a.pointerWidth with
  | 32 => .i32
  | 16 => .i16
  | _ => .i64

def describe (a : Architecture) : String :=
  s!"Architecture \x7b name: {Text.quoted a.name}, pointer_width: {a.pointerWidth} \x7d"

end Architecture

structure Registry where
  entries : List Architecture := []
deriving DecidableEq, Repr, Inhabited

namespace Registry

def find? (r : Registry) (name : String) : Option Architecture :=
  r.entries.find? (·.name == name)

def register (r : Registry) (a : Architecture) : Bool × Registry :=
  if a.name.isEmpty || (r.find? a.name).isSome then
    (false, r)
  else
    (true, ⟨r.entries ++ [a]⟩)

def names (r : Registry) : List String :=
  (r.entries.map Architecture.name).mergeSort fun a b => decide (a ≤ b)

def size (r : Registry) : Nat := r.entries.length

end Registry

end MachineIR
