import MachineIR.Handle

/-!
This module contains the log of what the optimiser did.
-/

namespace MachineIR

inductive EventKind where
  | constantFolded
  | valueDeduplicated
  | instructionCombined
  | loadResolved
  | registerPropagated
  | instructionRemoved
  | routineOptimized
  | info
  | warning
  | error
deriving DecidableEq, Repr, Inhabited

namespace EventKind

def description : EventKind → String
  | constantFolded => "constant folded"
  | valueDeduplicated => "value deduplicated"
  | instructionCombined => "instruction combined"
  | loadResolved => "load resolved"
  | registerPropagated => "register propagated"
  | instructionRemoved => "instruction removed"
  | routineOptimized => "routine optimized"
  | info => "info"
  | warning => "warning"
  | error => "error"

def isTransformation : EventKind → Bool
  | constantFolded | valueDeduplicated | instructionCombined | loadResolved | registerPropagated
  | instructionRemoved => true
  | _ => false

def isDiagnostic : EventKind → Bool
  | info | warning | error => true
  | _ => false

def all : List EventKind :=
  [constantFolded, valueDeduplicated, instructionCombined, loadResolved, registerPropagated,
    instructionRemoved, routineOptimized, info, warning, error]

theorem mem_all (k : EventKind) : k ∈ all := by
  cases k <;> decide

end EventKind

structure Event where
  kind : EventKind
  -- The address of the routine.
  routine : Option UInt64 := none
  block : Option BlockId := none
  -- How many changes the event stands for.
  count : Nat := 1
  message : String := kind.description
  -- The name of the pass that reports the event.
  pass : Option String := none
deriving DecidableEq, Repr, Inhabited

def Event.render (e : Event) : String :=
  let head := s!"[{e.kind.description}] {e.message}"
  match e.pass with
  | some pass => s!"{head} ({pass})"
  | none => head

structure EventLog where
  events : List Event := []
deriving DecidableEq, Repr, Inhabited

namespace EventLog

def size (l : EventLog) : Nat := l.events.length

def isEmpty (l : EventLog) : Bool := l.events.isEmpty

def record (l : EventLog) (e : Event) : EventLog := ⟨l.events ++ [e]⟩

def append (l m : EventLog) : EventLog := ⟨l.events ++ m.events⟩

def ofKind (l : EventLog) (k : EventKind) : List Event := l.events.filter (·.kind == k)

def ofRoutine (l : EventLog) (routine : UInt64) : List Event :=
  l.events.filter (·.routine == some routine)

def transformations (l : EventLog) : List Event := l.events.filter (·.kind.isTransformation)

def diagnostics (l : EventLog) : List Event := l.events.filter (·.kind.isDiagnostic)

def has (l : EventLog) (k : EventKind) : Bool := l.events.any (·.kind == k)

def total (l : EventLog) (k : EventKind) : Nat := (l.ofKind k).foldr (fun e n => e.count + n) 0

/-- The number of changes that the transformations stand for. -/
def mutationCount (l : EventLog) : Nat := l.transformations.foldr (fun e n => e.count + n) 0

def summary (l : EventLog) : String :=
  if l.isEmpty then
    "no events"
  else
    let kinds := EventKind.all.filter fun k => k.isTransformation && l.has k
    if kinds.isEmpty then
      s!"{l.size} events"
    else
      let parts := kinds.map fun k => s!"{l.total k} {k.description}"
      String.intercalate ", " (parts.mergeSort fun a b => decide (a ≤ b))

end EventLog

end MachineIR
