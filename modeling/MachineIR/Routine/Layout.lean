import MachineIR.FlowGraph.Basic
import MachineIR.Routine.Basic

/-!
This module contains the order of the blocks and the numbers that parts are printed with.
-/

namespace MachineIR.Routine

def flowGraph (r : Routine) : FlowGraph where
  nodeCount := r.blocks.size
  nodes := r.order.map BlockId.toNat
  entry := (r.entry?.map BlockId.toNat).getD 0
  successors u := ((r.block? (.ofNat u)).map fun b => b.successors.map BlockId.toNat).getD []
  predecessors u := ((r.block? (.ofNat u)).map fun b => b.predecessors.map BlockId.toNat).getD []

def renameInsns (r : Routine) : Routine :=
  let ids := (r.order.flatMap r.insnsOf).filter fun id => (r.insn? id).isSome
  { ids.zipIdx.foldl (fun r (id, name) => r.modifyInsn id ({ · with name })) r with
    nextInsnName := ids.length }

def renameBlocks (r : Routine) : Routine :=
  { r.order.zipIdx.foldl (fun r (id, name) => r.modifyBlock id ({ · with name })) r with
    nextBlockName := r.order.length }

def topologicalSort (r : Routine) : Routine :=
  match r.entry? with
  | none => r
  | some entry =>
    let reached := (r.flowGraph.reversePostorder entry.toNat).map BlockId.ofNat
    let unreached := r.order.filter fun b => !reached.contains b
    { r with order := reached ++ unreached }.renameBlocks

end MachineIR.Routine
