import MachineIR.Routine.Placement

/-!
This module contains cursors. A cursor walks over the instructions of a block while the block is
being changed: if the instruction it stands on has been taken out of the block, it goes on with the
one that followed.
-/

namespace MachineIR

inductive Direction where
  | forward
  | backward
deriving DecidableEq, Repr

structure Cursor where
  block : BlockId
  direction : Direction
  -- Whether the cursor has left its start.
  started : Bool := false
  current : Option InsnId := none
  -- What followed `current` when the cursor came there.
  lookahead : Option InsnId := none
deriving DecidableEq, Repr

namespace Cursor

def neighbour? (c : Cursor) (r : Routine) (id : InsnId) : Option InsnId :=
  match c.direction with
  | .forward => (r.insn? id).bind Insn.next
  | .backward => (r.insn? id).bind Insn.prev

def start? (c : Cursor) (r : Routine) : Option InsnId :=
  match c.direction with
  | .forward => (r.block? c.block).bind Block.first
  | .backward => (r.block? c.block).bind Block.last

def isMember (c : Cursor) (r : Routine) (id : InsnId) : Bool :=
  (r.insn? id).any (·.block == c.block)

def target? (c : Cursor) (r : Routine) : Option InsnId :=
  let candidate := match c.current with
    | none => if c.started then none else c.start? r
    | some id => if c.isMember r id then c.neighbour? r id else c.lookahead
  candidate.filter (c.isMember r)

def next (c : Cursor) (r : Routine) : Option InsnId × Cursor :=
  let target := c.target? r
  (target, { c with started := true, current := target, lookahead := target.bind (c.neighbour? r) })

def rest (r : Routine) : Nat → Cursor → List InsnId
  | 0, _ => []
  | n + 1, c =>
    match c.next r with
    | (some id, c) => id :: rest r n c
    | (none, _) => []

end Cursor

namespace Routine

def cursorBefore? (r : Routine) (id : InsnId) : Option Cursor :=
  (r.insn? id).map fun i =>
    { block := i.block, direction := .backward, started := true, current := some id,
      lookahead := i.prev }

def insnsBefore (r : Routine) (id : InsnId) : List InsnId :=
  match r.cursorBefore? id with
  | some c => c.rest r r.insns.size
  | none => []

end Routine

namespace Edit

def cursor (b : BlockId) (direction : Direction) : Edit Cursor := do
  let _ ← block b
  pure { block := b, direction }

def visitAll {σ : Type} (visit : σ → InsnId → Edit σ) : Nat → Cursor → σ → Edit σ
  | 0, _, s => pure s
  | fuel + 1, c, s => do
    match c.next (← get) with
    | (some id, c) => visitAll visit fuel c (← visit s id)
    | (none, _) => pure s

/--
Visits the instructions of a block one by one and passes a state along. A visit may erase the
instruction it is given and add others in front of it; so no more instructions are visited than
there are when it starts.
-/
def sweepWith {σ : Type} (b : BlockId) (direction : Direction) (s : σ)
    (visit : σ → InsnId → Edit σ) : Edit σ := do
  let c ← cursor b direction
  visitAll visit (← get).insns.size c s

def sweep (b : BlockId) (direction : Direction) (visit : InsnId → Edit Nat) : Edit Nat :=
  sweepWith b direction 0 fun total id => do
    return total + (← visit id)

def eraseWhen (p : Routine → InsnId → Bool) (id : InsnId) : Edit Nat := do
  if p (← get) id then
    erase id
    pure 1
  else
    pure 0

def eraseIf (b : BlockId) (direction : Direction) (p : Routine → InsnId → Bool) : Edit Nat :=
  sweep b direction (eraseWhen p)

end Edit

end MachineIR
