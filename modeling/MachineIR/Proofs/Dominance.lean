import MachineIR.FlowGraph.Dominance
import MachineIR.Proofs.Edges
import MachineIR.Proofs.Reachability

/-!
This module contains dominance as a statement about paths. A search against the edges and around a node
ends at the first root that it lists, and it lists one exactly if there is a path from it that avoids the
node. In a routine the edges look the same from both ends, so it does not matter that the search goes by
the predecessors.
-/

namespace MachineIR

namespace FlowGraph

variable {g : FlowGraph} {entry : Option Nat} {a b u v rounds : Nat} {p stack seen : List Nat}

def backwardsAround (g : FlowGraph) (a : Nat) : FlowGraph :=
  { g.reverse with successors := fun u => (g.predecessors u).filter (· ≠ a) }

def isRoot (g : FlowGraph) (entry : Option Nat) (u : Nat) : Bool :=
  entry == some u || (g.predecessors u).isEmpty

def Leads (g : FlowGraph) (u v : Nat) : Prop := u ∈ g.predecessors v

theorem isRoot_iff : g.isRoot entry u = true ↔ entry = some u ∨ g.predecessors u = [] := by
  simp [isRoot]

theorem step_backwardsAround
    : (g.backwardsAround a).Step v u ↔ g.Leads u v ∧ u ≠ a ∧ u < g.nodeCount := by
  simp [Step, Leads, backwardsAround, reverse, and_assoc]

theorem reaches_of_path (h : Path g.Leads (· < g.nodeCount) u b p) (ha : a ∉ p)
    : Relation.ReflTransGen (g.backwardsAround a).Step b u := by
  induction h with
  | single _ => exact .refl
  | cons hu hedge _ ih =>
    rw [List.mem_cons, not_or] at ha
    exact (ih ha.2).tail (step_backwardsAround.mpr ⟨hedge, fun heq => ha.1 heq.symm, hu⟩)

theorem path_of_reaches (hb : b < g.nodeCount) (hne : b ≠ a)
    (h : Relation.ReflTransGen (g.backwardsAround a).Step b u)
    : ∃ p, Path g.Leads (· < g.nodeCount) u b p ∧ a ∉ p := by
  induction h with
  | refl => exact ⟨[b], .single hb, by simpa using hne.symm⟩
  | tail _ hstep ih =>
    obtain ⟨hedge, hne, hu⟩ := step_backwardsAround.mp hstep
    obtain ⟨p, hp, ha⟩ := ih
    exact ⟨_ :: p, .cons hu hedge hp, by simp [hne.symm, ha]⟩

theorem dominatesFromGo_cons
    : dominatesFrom.go g entry a (rounds + 1) (u :: stack) seen =
        (!g.isRoot entry u && dominatesFrom.go g entry a rounds
          ((g.unseen seen ((g.backwardsAround a).successors u)).reverse ++ stack)
          (g.unseen seen ((g.backwardsAround a).successors u) ++ seen)) := by
  rw [dominatesFrom.go, isRoot]
  by_cases hentry : entry = some u
  . simp [hentry]
  . cases (g.predecessors u).isEmpty
    . simp [hentry, backwardsAround]
    . simp [hentry]

theorem unseen_backwardsAround (vs : List Nat)
    : (g.backwardsAround a).unseen seen vs = g.unseen seen vs := by
  induction vs generalizing seen with
  | nil => rfl
  | cons v vs ih =>
    rw [unseen, unseen, ih, ih]
    rfl

theorem dominatesFromGo_iff (entry : Option Nat) (h : Waiting (g.backwardsAround a) rounds stack seen)
    : ∃ listed, Search (g.backwardsAround a) stack seen listed ∧
        (dominatesFrom.go g entry a rounds stack seen = true ↔ ∀ u ∈ listed, g.isRoot entry u = false) := by
  induction rounds generalizing stack seen with
  | zero =>
    rw [h.stack_eq_nil]
    exact ⟨[], .done, by simp [dominatesFrom.go]⟩
  | succ rounds ih =>
    cases stack with
    | nil => exact ⟨[], .done, by simp [dominatesFrom.go]⟩
    | cons u stack =>
      have hjoin : ((g.unseen seen ((g.backwardsAround a).successors u)).reverse ++ stack).Perm
          ((g.backwardsAround a).unseen seen ((g.backwardsAround a).successors u) ++ stack) := by
        rw [unseen_backwardsAround]
        exact (List.reverse_perm _).append_right stack
      obtain ⟨listed, hsearch, hiff⟩ := ih (h.step hjoin)
      refine ⟨u :: listed, .visit ?_ nodup_unseen hjoin hsearch, ?_⟩
      . intro v
        rw [mem_unseen, Step, and_assoc]
      . rw [unseen_backwardsAround] at hiff
        rw [dominatesFromGo_cons, Bool.and_eq_true, Bool.not_eq_true', hiff, List.forall_mem_cons]

theorem dominatesFrom_iff
    : g.dominatesFrom entry a b = true ↔
        a < g.nodeCount ∧ b < g.nodeCount ∧
          ∀ root p, entry = some root ∨ g.predecessors root = [] →
            Path g.Leads (· < g.nodeCount) root b p → a ∈ p := by
  unfold dominatesFrom
  rw [Bool.and_eq_true, Bool.and_eq_true, decide_eq_true_eq, decide_eq_true_eq, and_assoc]
  apply and_congr_right
  intro _
  apply and_congr_right
  intro hb
  have hstart : b < (g.backwardsAround a).nodeCount := hb
  obtain ⟨listed, hsearch, hiff⟩ := dominatesFromGo_iff entry (.initial hstart)
  have hlisted : ∀ u, u ∈ listed ↔ Relation.ReflTransGen (g.backwardsAround a).Step b u := by
    intro u
    rw [(hsearch.covers hstart).2, reaches_iff, and_iff_right hstart]
  change (a == b || dominatesFrom.go g entry a (g.backwardsAround a).nodeCount [b] [b]) = true ↔ _
  rw [Bool.or_eq_true, beq_iff_eq, hiff]
  constructor
  . rintro (rfl | hnone) root p hroot hp
    . exact hp.last_mem
    . apply Classical.byContradiction
      intro ha
      have hfalse := hnone root ((hlisted root).mpr (reaches_of_path hp ha))
      rw [isRoot_iff.mpr hroot] at hfalse
      cases hfalse
  . intro hall
    by_cases hne : a = b
    . exact Or.inl hne
    . right
      intro u hu
      obtain ⟨p, hp, ha⟩ := path_of_reaches hb (Ne.symm hne) ((hlisted u).mp hu)
      rw [← Bool.not_eq_true]
      exact fun hroot => ha (hall u p (isRoot_iff.mp hroot) hp)

end FlowGraph

namespace Routine

open FlowGraph

variable {r : Routine} {a b : BlockId} {u : Nat}

theorem successors_flowGraph : r.flowGraph.successors u = (r.targets (.ofNat u)).map BlockId.toNat := by
  cases h : r.block? (.ofNat u) with
  | none => simp [flowGraph, h, targets_of_none h]
  | some x => simp [flowGraph, h, targets_of_block? h]

theorem predecessors_flowGraph
    : r.flowGraph.predecessors u = (r.sources (.ofNat u)).map BlockId.toNat := by
  cases h : r.block? (.ofNat u) with
  | none => simp [flowGraph, h, sources_of_none h]
  | some x => simp [flowGraph, h, sources_of_block? h]

theorem ofNat_mem_of_mem_map {l : List BlockId} (h : u ∈ l.map BlockId.toNat) : .ofNat u ∈ l := by
  obtain ⟨c, hc, rfl⟩ := List.mem_map.mp h
  rwa [BlockId.ofNat_toNat]

theorem Wired.root_iff (h : r.Wired) (hu : u < UInt32.size)
    : some r.flowGraph.entry = some u ∨ r.flowGraph.predecessors u = [] ↔
        r.entry? = some (.ofNat u) ∨ r.sources (.ofNat u) = [] := by
  -- If there is no entry block, there is no block at all.
  rw [predecessors_flowGraph, List.map_eq_nil_iff]
  cases hentry : r.entry? with
  | none =>
    have hempty : r.order = [] := List.head?_eq_none_iff.mp hentry
    have hnone : r.block? (.ofNat u) = none := by
      rw [← not_ne_iff, ← h.laid, hempty]
      exact List.not_mem_nil
    simp [sources_of_none hnone]
  | some e =>
    have hnode : r.flowGraph.entry = e.toNat := by simp [flowGraph, hentry]
    rw [hnode, Option.some.injEq, Option.some.injEq, ← BlockId.toNat_inj, BlockId.toNat_ofNat hu]

section Blocks

variable {edge : Nat → Nat → Prop} {jump : BlockId → BlockId → Prop} {root : Nat → Prop}
  {start : BlockId → Prop}

theorem forall_path_iff (hsmall : r.Small) (hjump : ∀ u v, jump u v → edge u.toNat v.toNat)
    (hedge : ∀ u v, edge u v → jump (.ofNat u) (.ofNat v))
    (hstart : ∀ u, u < r.blocks.size → (root u ↔ start (.ofNat u)))
    : (∀ u p, root u → FlowGraph.Path edge (· < r.blocks.size) u b.toNat p → a.toNat ∈ p) ↔
        ∀ u p, start u → FlowGraph.Path jump (·.toNat < r.blocks.size) u b p → a ∈ p := by
  have hblocks := hsmall.blocks
  constructor
  . intro h u p hu hp
    have hnodes : FlowGraph.Path edge (· < r.blocks.size) u.toNat b.toNat (p.map BlockId.toNat) :=
      hp.map (fun _ hlt => hlt) hjump
    have hroot : root u.toNat := (hstart _ hp.first_inRange).mpr (by rwa [BlockId.ofNat_toNat])
    obtain ⟨c, hc, heq⟩ := List.mem_map.mp (h _ _ hroot hnodes)
    rwa [← BlockId.toNat_inj.mp heq]
  . intro h u p hu hp
    have hnat : ∀ n, n < r.blocks.size → (BlockId.ofNat n).toNat = n := by
      intro n hn
      exact BlockId.toNat_ofNat (by omega)
    have hpath : FlowGraph.Path jump (·.toNat < r.blocks.size) (.ofNat u) b (p.map BlockId.ofNat) := by
      rw [← BlockId.ofNat_toNat b]
      refine hp.map ?_ hedge
      intro n hn
      rwa [hnat n hn]
    obtain ⟨n, hn, heq⟩ := List.mem_map.mp (h _ _ ((hstart u hp.first_inRange).mp hu) hpath)
    rwa [← heq, hnat n (hp.inRange_of_mem hn)]

end Blocks

def JumpPath (r : Routine) : BlockId → BlockId → List BlockId → Prop :=
  FlowGraph.Path (fun u v => v ∈ r.targets u) (·.toNat < r.blocks.size)

theorem Wired.dominates_iff (h : r.Wired) (hsmall : r.Small)
    : r.flowGraph.dominates a.toNat b.toNat = true ↔
        a.toNat < r.blocks.size ∧ b.toNat < r.blocks.size ∧
          ∀ root p, r.entry? = some root ∨ r.sources root = [] → r.JumpPath root b p → a ∈ p := by
  unfold dominates JumpPath
  rw [dominatesFrom_iff]
  refine and_congr_right fun _ => and_congr_right fun _ => forall_path_iff hsmall ?_ ?_ ?_
  . intro u v huv
    unfold Leads
    rw [predecessors_flowGraph, BlockId.ofNat_toNat]
    exact List.mem_map_of_mem (h.mem_iff.mp huv)
  . intro u v huv
    unfold Leads at huv
    rw [predecessors_flowGraph] at huv
    exact h.mem_iff.mpr (ofNat_mem_of_mem_map huv)
  . intro u hu
    exact h.root_iff (Nat.lt_of_lt_of_le hu hsmall.blocks)

theorem postDominates_iff (hsmall : r.Small)
    : r.flowGraph.postDominates a.toNat b.toNat = true ↔
        a.toNat < r.blocks.size ∧ b.toNat < r.blocks.size ∧
          ∀ exit p, r.targets exit = [] → r.JumpPath b exit p → a ∈ p := by
  unfold postDominates
  rw [dominatesFrom_iff]
  apply and_congr_right
  intro _
  apply and_congr_right
  intro _
  -- The search goes by the successors here, so it finds the paths from their ends.
  have hback : (∀ root p, none = some root ∨ r.flowGraph.successors root = [] →
      FlowGraph.Path (fun u v => u ∈ r.flowGraph.successors v) (· < r.blocks.size) root b.toNat p →
        a.toNat ∈ p) ↔
      ∀ exit p, r.targets exit = [] →
        FlowGraph.Path (fun u v => u ∈ r.targets v) (·.toNat < r.blocks.size) exit b p → a ∈ p := by
    apply forall_path_iff hsmall
    . intro u v huv
      rw [successors_flowGraph, BlockId.ofNat_toNat]
      exact List.mem_map_of_mem huv
    . intro u v huv
      rw [successors_flowGraph] at huv
      exact ofNat_mem_of_mem_map huv
    . intro u _
      rw [successors_flowGraph, List.map_eq_nil_iff, or_iff_right nofun]
  refine hback.trans ⟨?_, ?_⟩
  . intro h exit p hexit hp
    exact List.mem_reverse.mp (h exit p.reverse hexit hp.reverse)
  . intro h exit p hexit hp
    exact List.mem_reverse.mp (h exit p.reverse hexit hp.reverse)

theorem dominance_over_paths
    : (∀ (g : FlowGraph) (entry : Option Nat) (a b : Nat),
        g.dominatesFrom entry a b = true ↔
          a < g.nodeCount ∧ b < g.nodeCount ∧
            ∀ root p, entry = some root ∨ g.predecessors root = [] →
              FlowGraph.Path g.Leads (· < g.nodeCount) root b p → a ∈ p) ∧
      ∀ actions : List Action, (after actions).Small → ∀ a b : BlockId,
        ((after actions).flowGraph.dominates a.toNat b.toNat = true ↔
          a.toNat < (after actions).blocks.size ∧ b.toNat < (after actions).blocks.size ∧
            ∀ root p, entry? (after actions) = some root ∨ (after actions).sources root = [] →
              (after actions).JumpPath root b p → a ∈ p) ∧
        ((after actions).flowGraph.postDominates a.toNat b.toNat = true ↔
          a.toNat < (after actions).blocks.size ∧ b.toNat < (after actions).blocks.size ∧
            ∀ exit p, (after actions).targets exit = [] →
              (after actions).JumpPath b exit p → a ∈ p) := by
  constructor
  . intro g entry a b
    exact dominatesFrom_iff
  . intro actions hsmall a b
    exact ⟨(wired_after actions hsmall).dominates_iff hsmall, postDominates_iff hsmall⟩

def forkedLoop : List Action :=
  [.addBlock, .addBlock, .addBlock, .addBlock, .addBlock, .addBlock,
    .addJump (.ofNat 0) (.ofNat 1),
    .addJump (.ofNat 0) (.ofNat 2),
    .addJump (.ofNat 1) (.ofNat 3),
    .addJump (.ofNat 2) (.ofNat 3),
    .addJump (.ofNat 3) (.ofNat 0),
    .addJump (.ofNat 3) (.ofNat 4),
    .addJump (.ofNat 5) (.ofNat 5)]

theorem dominance_over_paths_forkedLoop
    : (∀ root p, entry? (after forkedLoop) = some root ∨ (after forkedLoop).sources root = [] →
        (after forkedLoop).JumpPath root (.ofNat 3) p → .ofNat 0 ∈ p) ∧
      (∃ root p, ( entry? (after forkedLoop) = some root ∨ (after forkedLoop).sources root = []) ∧
        (after forkedLoop).JumpPath root (.ofNat 3) p ∧ .ofNat 1 ∉ p) ∧
      (∀ root p, entry? (after forkedLoop) = some root ∨ (after forkedLoop).sources root = [] →
        (after forkedLoop).JumpPath root (.ofNat 5) p → .ofNat 4 ∈ p) ∧
      (∀ exit p, (after forkedLoop).targets exit = [] →
        (after forkedLoop).JumpPath (.ofNat 0) exit p → .ofNat 3 ∈ p) ∧
      ∀ root p, some 0 = some root ∨ (ofEdges 2 0 [(7, 1)]).predecessors root = [] →
        FlowGraph.Path (ofEdges 2 0 [(7, 1)]).Leads (· < 2) root 1 p → 0 ∈ p := by
  have hsmall : (after forkedLoop).Small := by decide +kernel
  obtain ⟨hgraph, hroutine⟩ := dominance_over_paths
  refine ⟨?_, ?_, ?_, ?_, ?_⟩
  . exact ((hroutine forkedLoop hsmall (.ofNat 0) (.ofNat 3)).1.mp (by decide +kernel)).2.2
  . have hnot : ¬ (after forkedLoop).flowGraph.dominates (BlockId.ofNat 1).toNat
        (BlockId.ofNat 3).toNat = true := by
      decide +kernel
    rw [(hroutine forkedLoop hsmall _ _).1] at hnot
    apply Classical.byContradiction
    intro hnone
    refine hnot ⟨by decide +kernel, by decide +kernel, ?_⟩
    intro root p hroot hp
    apply Classical.byContradiction
    intro haround
    exact hnone ⟨root, p, hroot, hp, haround⟩
  . exact ((hroutine forkedLoop hsmall (.ofNat 4) (.ofNat 5)).1.mp (by decide +kernel)).2.2
  . exact ((hroutine forkedLoop hsmall (.ofNat 3) (.ofNat 0)).2.mp (by decide +kernel)).2.2
  . exact ((hgraph (ofEdges 2 0 [(7, 1)]) (some 0) 0 1).mp (by decide)).2.2

end Routine

end MachineIR
