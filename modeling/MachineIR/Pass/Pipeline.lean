import MachineIR.Event
import MachineIR.Pass.ConstantFolding
import MachineIR.Pass.Deduplication
import MachineIR.Pass.LoadResolution
import MachineIR.Pass.Peephole
import MachineIR.Pass.RegisterForwarding

/-!
This module contains pipelines. A pipeline is a list of passes over single blocks; it runs them in
rounds until a round changes nothing, and logs what they did. Passes can share a memory of type `σ`
that outlives a run.
-/

namespace MachineIR

structure Pass (σ : Type) where
  name : String
  description : String := "No description available"
  -- The event that stands for its changes.
  kind : EventKind := .instructionCombined
  -- Runs once over a block; the result is the number of changes.
  run : BlockId → σ → Edit (Nat × σ)

namespace Pass

variable {σ : Type}

def ofEdit (name : String) (kind : EventKind) (description : String) (run : BlockId → Edit Nat) :
    Pass σ where
  name
  description
  kind
  run b s := do return (← run b, s)

def constantFolding (debug : Bool) : Pass σ :=
  ofEdit "const_fold" .constantFolded
    "Evaluates instructions whose operands are all constants" (Edit.foldConstants · debug)

def deduplication (debug : Bool) : Pass σ :=
  ofEdit "id_fold" .valueDeduplicated
    "Replaces values with an identical earlier value" (Edit.deduplicate · debug)

def peephole (debug : Bool) : Pass σ :=
  ofEdit "ins_combine" .instructionCombined
    "Applies algebraic identities and shortens cast chains" (Edit.combine · debug)

def loadResolution (debug : Bool) : Pass σ :=
  ofEdit "const_load" .loadResolved
    "Replaces loads from read-only sections with their contents" (Edit.resolveLoads · debug)

def registerForwarding (debug : Bool) : Pass σ :=
  ofEdit "reg_move_prop" .registerPropagated
    "Forwards register writes to later reads and removes dead writes" (Edit.forwardRegisters · debug)

def deadCode : Pass σ :=
  ofEdit "dce" .instructionRemoved
    "Removes unused instructions without side effects" Edit.removeDeadCode

def builtIn (debug : Bool) : List (Pass σ) :=
  [constantFolding debug, deduplication debug, peephole debug, loadResolution debug,
    registerForwarding debug, deadCode]

def ofName? (name : String) (debug : Bool := true) : Option (Pass σ) :=
  (builtIn debug).find? (·.name == name)

end Pass

structure Pipeline (σ : Type) where
  passes : List (Pass σ) := []
  -- How many rounds over one block there may be.
  maxRounds : Nat := 32
  -- Whether routines may be worked on at the same time; the outcome does not depend on it.
  parallel : Bool := true
  -- Whether routines are checked in the end.
  validate : Bool := true

/-- What lasts from one routine to the next. -/
structure Record (σ : Type) where
  log : EventLog := {}
  memory : σ
deriving DecidableEq, Repr

structure Session (σ : Type) where
  routine : Routine
  record : Record σ
deriving DecidableEq, Repr

abbrev Run (σ : Type) := EStateM Error (Session σ)

namespace Run

variable {σ : Type}

def log (e : Event) : Run σ Unit :=
  modify fun s => { s with record := { s.record with log := s.record.log.record e } }

def pass (p : Pass σ) (b : BlockId) : Run σ Nat := fun s =>
  match p.run b s.record.memory s.routine with
  | .ok (n, memory) routine => .ok n { routine, record := { s.record with memory } }
  | .error e routine => .error e { s with routine }

end Run

namespace Pipeline

variable {σ : Type}

def standard (debug : Bool := true) : Pipeline σ where
  passes := [.registerForwarding debug, .constantFolding debug, .deduplication debug, .peephole debug,
    .loadResolution debug, .constantFolding debug, .deduplication debug]
  validate := debug

def runPass (p : Pass σ) (b : BlockId) : Run σ Nat := do
  let n ← tryCatch (Run.pass p b) fun e => do
    Run.log { kind := .error, message := s!"{p.name} failed on {b.render}: {e.message}" }
    throw e
  if n > 0 then
    Run.log {
      kind := p.kind, routine := (← get).routine.ip, block := some b, count := n
      pass := some p.name }
  return n

def runPasses : List (Pass σ) → BlockId → Run σ Nat
  | [], _ => return 0
  | p :: rest, b => do
    let n ← runPass p b
    return n + (← runPasses rest b)

def runRound (p : Pipeline σ) (b : BlockId) : Run σ Nat := runPasses p.passes b

/-- Runs at most `rounds` rounds; says how many changes there were and whether the last had none. -/
def runRounds (p : Pipeline σ) (b : BlockId) : Nat → Run σ (Nat × Bool)
  | 0 => return (0, false)
  | rounds + 1 => do
    let n ← p.runRound b
    if n = 0 then
      return (0, true)
    let (m, converged) ← runRounds p b rounds
    return (n + m, converged)

def runOnBlock (p : Pipeline σ) (b : BlockId) : Run σ Nat := do
  let (n, converged) ← p.runRounds b p.maxRounds
  if !converged then
    Run.log {
      kind := .warning
      message := s!"{b.render} did not converge within {p.maxRounds} rounds" }
  return n

def runOnBlocks (p : Pipeline σ) : List BlockId → Run σ Nat
  | [] => return 0
  | b :: rest => do
    let n ← p.runOnBlock b
    return n + (← runOnBlocks p rest)

def runOnRoutine (p : Pipeline σ) : Run σ Nat := do
  let n ← p.runOnBlocks (← get).routine.order
  let r := (← get).routine
  if p.validate then
    match r.check with
    | .ok () => pure ()
    | .error e => throw e
  Run.log { kind := .routineOptimized, routine := r.ip, count := n }
  return n

def runOnRoutines (p : Pipeline σ) : List Routine → Record σ →
    Except Error Nat × List Routine × Record σ
  | [], record => (.ok 0, [], record)
  | routine :: rest, record =>
    match p.runOnRoutine { routine, record } with
    | .ok n s =>
      let (result, rest, record) := runOnRoutines p rest s.record
      (result.map (n + ·), s.routine :: rest, record)
    | .error e s => (.error e, s.routine :: rest, s.record)

end Pipeline

end MachineIR
