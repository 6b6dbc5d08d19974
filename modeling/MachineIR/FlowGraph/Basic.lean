/-!
This module contains directed graphs and the orders in which their nodes can be visited. A graph has
the nodes below `nodeCount`; an edge may lead out of this range and is then not followed.
-/

namespace MachineIR

structure FlowGraph where
  nodeCount : Nat
  -- The nodes in the order in which they are listed.
  nodes : List Nat
  entry : Nat
  successors : Nat → List Nat
  predecessors : Nat → List Nat

namespace FlowGraph

def reverse (g : FlowGraph) : FlowGraph :=
  { g with successors := g.predecessors, predecessors := g.successors }

def ofEdges (nodeCount entry : Nat) (edges : List (Nat × Nat)) : FlowGraph where
  nodeCount
  nodes := List.range nodeCount
  entry
  successors u := (edges.filter (·.1 == u)).map (·.2)
  predecessors u := (edges.filter (·.2 == u)).map (·.1)

/-- The nodes of a list that are in range and not yet seen, each once. -/
def unseen (g : FlowGraph) (seen : List Nat) : List Nat → List Nat
  | [] => []
  | v :: vs =>
    if v < g.nodeCount && !seen.contains v then
      v :: unseen g (v :: seen) vs
    else
      unseen g seen vs

def dfs (g : FlowGraph) (start : Nat) : List Nat :=
  if start < g.nodeCount then go g.nodeCount [start] [start] else []
where
  -- As every node waits only once, there are no more rounds than nodes.
  go : Nat → List Nat → List Nat → List Nat
    | rounds + 1, u :: stack, seen =>
      let new := g.unseen seen (g.successors u).reverse
      u :: go rounds (new.reverse ++ stack) (new ++ seen)
    | _, _, _ => []

def bfs (g : FlowGraph) (start : Nat) : List Nat :=
  if start < g.nodeCount then go g.nodeCount [start] [start] else []
where
  -- As every node waits only once, there are no more rounds than nodes.
  go : Nat → List Nat → List Nat → List Nat
    | rounds + 1, u :: queue, seen =>
      let new := g.unseen seen (g.successors u)
      u :: go rounds (queue ++ new) (new ++ seen)
    | _, _, _ => []

def postorder (g : FlowGraph) (start : Nat) : List Nat :=
  if start < g.nodeCount then go (2 * g.nodeCount) [(start, g.successors start)] [start] else []
where
  -- A node that is being visited waits together with its successors that have not been looked at.
  -- As a round enters a node or leaves one, there are no more than two of them for each node.
  go : Nat → List (Nat × List Nat) → List Nat → List Nat
    | rounds + 1, (u, pending) :: stack, seen =>
      match pending.dropWhile fun v => !(v < g.nodeCount && !seen.contains v) with
      | v :: pending => go rounds ((v, g.successors v) :: (u, pending) :: stack) (v :: seen)
      | [] => u :: go rounds stack seen
    | _, _, _ => []

def reversePostorder (g : FlowGraph) (start : Nat) : List Nat := (g.postorder start).reverse

def hasPath (g : FlowGraph) (a b : Nat) : Bool :=
  a < g.nodeCount && b < g.nodeCount &&
    go ((g.successors a).length + ((List.range g.nodeCount).flatMap g.successors).length)
      (g.successors a).reverse []
where
  -- A node is marked as seen when it is visited, so it can wait as often as edges lead to it.
  go : Nat → List Nat → List Nat → Bool
    | rounds + 1, u :: stack, seen =>
      if u = b then
        true
      else if g.nodeCount ≤ u || seen.contains u then
        go rounds stack seen
      else
        go rounds ((g.successors u).reverse ++ stack) (u :: seen)
    | _, _, _ => false

end FlowGraph

end MachineIR
