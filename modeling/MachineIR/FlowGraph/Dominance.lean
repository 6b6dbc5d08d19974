import MachineIR.FlowGraph.Basic

/-!
This module contains dominance. A node `a` dominates `b` if every path from a root to `b` meets `a`,
where the roots are the entry and the nodes without predecessors. To find out, one walks from `b`
against the edges, around `a`, and looks for a root.
-/

namespace MachineIR.FlowGraph

def dominatesFrom (g : FlowGraph) (entry : Option Nat) (a b : Nat) : Bool :=
  a < g.nodeCount && b < g.nodeCount && (a == b || go g.nodeCount [b] [b])
where
  -- Goes on until a root is found or no node waits.
  go : Nat → List Nat → List Nat → Bool
    | rounds + 1, u :: stack, seen =>
      if entry = some u then
        false
      else if (g.predecessors u).isEmpty then
        false
      else
        let new := g.unseen seen ((g.predecessors u).filter (· ≠ a))
        go rounds (new.reverse ++ stack) (new ++ seen)
    | _, _, _ => true

def dominates (g : FlowGraph) (a b : Nat) : Bool := g.dominatesFrom (some g.entry) a b

def postDominates (g : FlowGraph) (a b : Nat) : Bool := g.reverse.dominatesFrom none a b

end MachineIR.FlowGraph
