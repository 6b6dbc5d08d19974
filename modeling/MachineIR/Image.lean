/-!
This module contains the loaded image: the bytes as they are mapped in memory and the tables of
sections and symbols. Positions in the image are relative to its base address, and both tables are
kept in ascending order of position.
-/

namespace MachineIR

structure Section where
  name : String
  start : UInt64
  stop : UInt64
  writable : Bool := false
  executable : Bool := false
deriving DecidableEq, Repr, Inhabited

def Section.contains (s : Section) (rva : UInt64) : Bool := s.start ≤ rva && rva < s.stop

/-- A named position. If it is `patched`, the loader may change what stands there. -/
structure Symbol where
  name : String
  rva : UInt64
  patched : Bool := false
deriving DecidableEq, Repr, Inhabited

structure Image where
  base : UInt64
  data : List UInt8
  name : String := ""
  sections : List Section := []
  symbols : List Symbol := []
  -- The first entry point is the main one.
  entryPoints : List UInt64 := []
deriving DecidableEq, Repr, Inhabited

def insertByKey {α : Type} (key : α → UInt64) (a : α) (table : List α) : List α :=
  table.takeWhile (key · < key a) ++ a :: table.dropWhile (key · < key a)

namespace Image

def addSection (i : Image) (s : Section) : Image :=
  { i with sections := insertByKey Section.start s i.sections }

def addSymbol (i : Image) (s : Symbol) : Image :=
  { i with symbols := insertByKey Symbol.rva s i.symbols }

def addEntryPoint (i : Image) (rva : UInt64) : Image :=
  { i with entryPoints := i.entryPoints ++ [rva] }

def findSection? (i : Image) (rva : UInt64) : Option Section :=
  (i.sections.takeWhile (·.start ≤ rva)).getLast?.filter (·.contains rva)

def findSymbol? (i : Image) (rva : UInt64) : Option Symbol :=
  (i.symbols.dropWhile (·.rva < rva)).head?.filter (·.rva == rva)

def isPatched (i : Image) (rva : UInt64) (length : Nat) : Bool :=
  let stop := min (rva.toNat + length) (UInt64.size - 1)
  ((i.symbols.dropWhile (·.rva < rva)).takeWhile (·.rva.toNat < stop)).any (·.patched)

def bytesFrom (i : Image) (rva : UInt64) : List UInt8 := i.data.drop rva.toNat

end Image

end MachineIR
