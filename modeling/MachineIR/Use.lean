import MachineIR.Handle
import MachineIR.Store

/-!
This module contains the records of uses. For every operand slot that refers to a value there is one
record, and the records of one value are linked into a list in the order in which they were made,
so that a user can leave the list in one step and the users of a value can be listed without a
search. The cells of records that are gone are used again, the last one first.
-/

namespace MachineIR

/-- Operand `slot` of `user` refers to `value`. -/
structure Use where
  value : ValueId
  user : InsnId
  slot : Nat
  prev : Option UseId
  next : Option UseId
deriving DecidableEq, Repr, Inhabited

structure UseList where
  head : Option UseId := none
  tail : Option UseId := none
  len : Nat := 0
deriving DecidableEq, Repr, Inhabited

structure UseTable where
  records : Store Use := {}
  free : List UseId := []
deriving DecidableEq, Repr, Inhabited

namespace UseTable

def get? (t : UseTable) (id : UseId) : Option Use := t.records.get? id.toNat

def live (t : UseTable) : Nat := t.records.size - t.free.length

def modify (t : UseTable) (id : UseId) (f : Use → Use) : UseTable :=
  { t with records := t.records.modify id.toNat f }

def allocate (t : UseTable) (u : Use) : UseTable × UseId :=
  match t.free with
  | id :: free => (⟨t.records.put id.toNat u, free⟩, id)
  | [] => (⟨t.records.push u, []⟩, UseId.ofNat t.records.size)

def link (t : UseTable) (l : UseList) (value : ValueId) (user : InsnId) (slot : Nat) :
    UseTable × UseList × UseId :=
  let (t, id) := t.allocate { value, user, slot, prev := l.tail, next := none }
  match l.tail with
  | some tail =>
    (t.modify tail ({ · with next := some id }), { l with tail := some id, len := l.len + 1 }, id)
  | none => (t, { head := some id, tail := some id, len := l.len + 1 }, id)

def unlink? (t : UseTable) (l : UseList) (id : UseId) : Option (UseTable × UseList) :=
  (t.get? id).map fun u =>
    let t : UseTable := ⟨t.records.erase id.toNat, id :: t.free⟩
    let (t, head) := match u.prev with
      | some prev => (t.modify prev ({ · with next := u.next }), l.head)
      | none => (t, u.next)
    let (t, tail) := match u.next with
      | some next => (t.modify next ({ · with prev := u.prev }), l.tail)
      | none => (t, u.prev)
    (t, { head, tail, len := l.len - 1 })

def setSlot (t : UseTable) (id : UseId) (slot : Nat) : UseTable := t.modify id ({ · with slot })

def listed (t : UseTable) (l : UseList) : List (UseId × Use) :=
  walk (fun id => (t.get? id).map fun u => ((id, u), u.next)) t.records.size l.head

end UseTable

end MachineIR
