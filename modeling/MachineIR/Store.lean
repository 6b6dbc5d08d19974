/-!
This module contains stores: tables whose entries keep their index for good. Erasing an entry leaves
an empty cell behind, so an index is never given out twice by `push`.
-/

namespace MachineIR

structure Store (α : Type) where
  cells : Array (Option α) := #[]
deriving DecidableEq, Repr, Inhabited

namespace Store

variable {α : Type}

def size (s : Store α) : Nat := s.cells.size

def get? (s : Store α) (i : Nat) : Option α := s.cells[i]?.join

def push (s : Store α) (a : α) : Store α := ⟨s.cells.push (some a)⟩

def put (s : Store α) (i : Nat) (a : α) : Store α := ⟨s.cells.setIfInBounds i (some a)⟩

def modify (s : Store α) (i : Nat) (f : α → α) : Store α := ⟨s.cells.modify i (Option.map f)⟩

def erase (s : Store α) (i : Nat) : Store α := ⟨s.cells.setIfInBounds i none⟩

def count (s : Store α) : Nat := s.cells.countP Option.isSome

def entries (s : Store α) : List (Nat × α) :=
  s.cells.toList.zipIdx.filterMap fun (a, i) => a.map (i, ·)

@[simp]
theorem size_push (s : Store α) (a : α) : (s.push a).size = s.size + 1 := by
  simp [size, push]

@[simp]
theorem size_put (s : Store α) (i : Nat) (a : α) : (s.put i a).size = s.size := by
  simp [size, put]

@[simp]
theorem size_modify (s : Store α) (i : Nat) (f : α → α) : (s.modify i f).size = s.size := by
  simp [size, modify]

@[simp]
theorem size_erase (s : Store α) (i : Nat) : (s.erase i).size = s.size := by
  simp [size, erase]

theorem lt_size_of_get? {s : Store α} {i : Nat} {a : α} (h : s.get? i = some a) : i < s.size := by
  unfold get? at h
  unfold size
  by_cases hi : i < s.cells.size
  · exact hi
  · simp [Array.getElem?_eq_none (Nat.le_of_not_lt hi)] at h

theorem get?_push (s : Store α) (a : α) (i : Nat) :
    (s.push a).get? i = if i = s.size then some a else s.get? i := by
  by_cases h : i = s.cells.size
  · simp [get?, push, size, h]
  · simp [get?, push, size, Array.getElem?_push, h]

theorem get?_put (s : Store α) (i j : Nat) (a : α) :
    (s.put i a).get? j = if i = j ∧ j < s.size then some a else s.get? j := by
  simp only [get?, put, size, Array.getElem?_setIfInBounds]
  by_cases h : i = j
  · subst h
    by_cases hi : i < s.cells.size
    · simp [hi]
    · simp [hi]
  · simp [h]

theorem get?_modify (s : Store α) (i j : Nat) (f : α → α) :
    (s.modify i f).get? j = if i = j then (s.get? j).map f else s.get? j := by
  simp only [get?, modify, Array.getElem?_modify]
  by_cases h : i = j
  · subst h
    cases s.cells[i]? with
    | none => simp
    | some a => simp
  · simp [h]

theorem get?_erase (s : Store α) (i j : Nat) :
    (s.erase i).get? j = if i = j then none else s.get? j := by
  simp only [get?, erase, Array.getElem?_setIfInBounds]
  by_cases h : i = j
  · subst h
    by_cases hi : i < s.cells.size
    · simp [hi]
    · simp [hi]
  · simp [h]

end Store

/--
The elements met on a walk along links: `step` gives the element at a place and the next place. The
walk ends where there is no next place, and after `n` elements at the latest.
-/
def walk {ι α : Type} (step : ι → Option (α × Option ι)) : Nat → Option ι → List α
  | n + 1, some i =>
    match step i with
    | some (a, next) => a :: walk step n next
    | none => []
  | _, _ => []

end MachineIR
