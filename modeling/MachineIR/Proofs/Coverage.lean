import MachineIR.Proofs.Traversal

/-!
This module contains which nodes the traversals of a graph list. They end by themselves: no bound on
their rounds or their depth makes a difference once it is large enough for all nodes. They list the nodes
that can be reached, each once. The search for a path, in which a node can wait more than once, has rounds
enough for all edges, and finds the other node if a successor reaches it.
-/

namespace MachineIR.FlowGraph

variable {g : FlowGraph} {rounds a b u start : Nat} {stack seen : List Nat}

section Rounds

theorem dfsGo_nil : dfs.go g rounds [] seen = [] := by
  cases rounds <;> rfl

theorem bfsGo_nil : bfs.go g rounds [] seen = [] := by
  cases rounds <;> rfl

theorem dfsGo_add (h : Waiting g rounds stack seen) (more : Nat)
    : dfs.go g (rounds + more) stack seen = dfs.go g rounds stack seen := by
  induction rounds generalizing stack seen with
  | zero => rw [h.stack_eq_nil, dfsGo_nil, dfsGo_nil]
  | succ rounds ih =>
    cases stack with
    | nil => rw [dfsGo_nil, dfsGo_nil]
    | cons u stack =>
      rw [Nat.succ_add, dfs.go, dfs.go]
      rw [ih (h.step ((List.reverse_perm _).append_right stack))]

theorem bfsGo_add (h : Waiting g rounds stack seen) (more : Nat)
    : bfs.go g (rounds + more) stack seen = bfs.go g rounds stack seen := by
  induction rounds generalizing stack seen with
  | zero => rw [h.stack_eq_nil, bfsGo_nil, bfsGo_nil]
  | succ rounds ih =>
    cases stack with
    | nil => rw [bfsGo_nil, bfsGo_nil]
    | cons u queue =>
      rw [Nat.succ_add, bfs.go, bfs.go]
      rw [ih (h.step List.perm_append_comm)]

theorem dfsGo_eq_dfs (hstart : start < g.nodeCount) (hrounds : g.nodeCount ≤ rounds)
    : dfs.go g rounds [start] [start] = g.dfs start := by
  obtain ⟨more, rfl⟩ := Nat.exists_eq_add_of_le hrounds
  rw [dfs, if_pos hstart, dfsGo_add (.initial hstart)]

theorem bfsGo_eq_bfs (hstart : start < g.nodeCount) (hrounds : g.nodeCount ≤ rounds)
    : bfs.go g rounds [start] [start] = g.bfs start := by
  obtain ⟨more, rfl⟩ := Nat.exists_eq_add_of_le hrounds
  rw [bfs, if_pos hstart, bfsGo_add (.initial hstart)]

theorem visit_eq_postorder (hstart : start < g.nodeCount) (hdepth : g.nodeCount ≤ rounds)
    : (g.visit rounds start {}).left.reverse = g.postorder start :=
  ((visits_start hstart hdepth).unique (visits_orders hstart)).2

theorem postorderGo_eq_postorder (hstart : start < g.nodeCount) (hrounds : 2 * g.nodeCount ≤ rounds)
    : postorder.go g rounds [(start, g.successors start)] [start] = g.postorder start :=
  (visits_orders hstart).postorderGo_start hstart hrounds

end Rounds

section Worklist

def unexplored (g : FlowGraph) (seen : List Nat) : Nat :=
  (((List.range g.nodeCount).filter (· ∉ seen)).flatMap g.successors).length

theorem unexplored_cons (hu : u < g.nodeCount) (hnew : u ∉ seen)
    : (g.successors u).length + g.unexplored (u :: seen) = g.unexplored seen := by
  have hnodup : ((List.range g.nodeCount).filter (· ∉ seen)).Nodup := List.nodup_range.filter _
  have hmem : u ∈ (List.range g.nodeCount).filter (· ∉ seen) := by simp [hu, hnew]
  have hrest : (List.range g.nodeCount).filter (· ∉ u :: seen) =
      ((List.range g.nodeCount).filter (· ∉ seen)).erase u := by
    rw [hnodup.erase_eq_filter, List.filter_filter]
    apply List.filter_congr
    intro v _
    rw [Bool.eq_iff_iff]
    simp
  unfold unexplored
  rw [hrest, ((List.perm_cons_erase hmem).flatMap_right g.successors).length_eq, List.flatMap_cons,
    List.length_append]

def Explored (g : FlowGraph) (b : Nat) (stack seen : List Nat) : Prop :=
  ∀ u ∈ seen, u ≠ b ∧ ∀ v, g.Step u v → v ∈ seen ∨ v ∈ stack

theorem Explored.skip (h : g.Explored b (u :: stack) seen) (hold : u < g.nodeCount → u ∈ seen)
    : g.Explored b stack seen := by
  intro w hw
  refine (h w hw).imp_right fun hclosed v hstep => ?_
  rcases hclosed v hstep with hv | hv
  . exact Or.inl hv
  . rcases List.mem_cons.mp hv with rfl | hv
    . exact Or.inl (hold hstep.2)
    . exact Or.inr hv

theorem Explored.visit (h : g.Explored b (u :: stack) seen) (hne : u ≠ b)
    : g.Explored b ((g.successors u).reverse ++ stack) (u :: seen) := by
  refine List.forall_mem_cons.mpr ⟨⟨hne, ?_⟩, ?_⟩
  . intro v hstep
    exact Or.inr (List.mem_append_left _ (List.mem_reverse.mpr hstep.1))
  . intro w hw
    refine (h w hw).imp_right fun hclosed v hstep => ?_
    have := hclosed v hstep
    grind

theorem hasPathGo_sound (hb : b < g.nodeCount) (h : hasPath.go g b rounds stack seen = true)
    : ∃ u ∈ stack, g.Reaches u b := by
  fun_induction hasPath.go g b rounds stack seen with
  | case1 rounds stack seen => exact ⟨b, List.mem_cons_self, .refl hb⟩
  | case2 rounds u stack seen hne hold ih =>
    obtain ⟨v, hv, hreaches⟩ := ih h
    exact ⟨v, List.mem_cons_of_mem u hv, hreaches⟩
  | case3 rounds u stack seen hne hnew ih =>
    simp only [Bool.or_eq_true, decide_eq_true_eq, not_or, Nat.not_le] at hnew
    obtain ⟨v, hv, hreaches⟩ := ih h
    rcases List.mem_append.mp hv with hv | hv
    . exact ⟨u, List.mem_cons_self, .head hnew.1 (List.mem_reverse.mp hv) hreaches⟩
    . exact ⟨v, List.mem_cons_of_mem u hv, hreaches⟩
  | case4 => cases h

theorem hasPathGo_complete (hrounds : stack.length + g.unexplored seen ≤ rounds)
    (hexplored : g.Explored b stack seen) (h : hasPath.go g b rounds stack seen = false)
    : ∀ u, u ∈ stack ∨ u ∈ seen → ¬ g.Reaches u b := by
  fun_induction hasPath.go g b rounds stack seen with
  | case1 rounds stack seen => cases h
  | case2 rounds u stack seen hne hold ih =>
    have hseen : u < g.nodeCount → u ∈ seen := by
      intro hu
      simpa [Nat.not_le.mpr hu] using hold
    rw [List.length_cons] at hrounds
    have hnone := ih (by omega) (hexplored.skip hseen) h
    rintro v (hv | hv) hreaches
    . rcases List.mem_cons.mp hv with rfl | hv
      . exact hnone v (Or.inr (hseen hreaches.inRange)) hreaches
      . exact hnone v (Or.inl hv) hreaches
    . exact hnone v (Or.inr hv) hreaches
  | case3 rounds u stack seen hne hnew ih =>
    simp only [Bool.or_eq_true, decide_eq_true_eq, List.contains_eq_mem, not_or, Nat.not_le] at hnew
    have hless := unexplored_cons hnew.1 hnew.2
    rw [List.length_cons] at hrounds
    have hnone := ih (by rw [List.length_append, List.length_reverse]; omega) (hexplored.visit hne) h
    intro v hv
    apply hnone v
    grind
  | case4 rounds stack seen hend =>
    -- The rounds are enough, so that the search has ended because no node waits.
    have hstack : stack = [] := by
      cases stack with
      | nil => rfl
      | cons u stack =>
        cases rounds with
        | zero => simp at hrounds
        | succ rounds => exact absurd rfl (hend rounds u stack rfl)
    subst hstack
    rintro v (hv | hv) hreaches
    . cases hv
    . have hlast : b ∈ seen := hreaches.holds (P := (· ∈ seen))
        (fun u w hu hstep => ((hexplored u hu).2 w hstep).resolve_right List.not_mem_nil) hv
      exact (hexplored b hlast).1 rfl

theorem hasPathGo_iff (hb : b < g.nodeCount) (hrounds : stack.length + g.unexplored [] ≤ rounds)
    : hasPath.go g b rounds stack [] = true ↔ ∃ u ∈ stack, g.Reaches u b := by
  refine ⟨hasPathGo_sound hb, ?_⟩
  rintro ⟨u, hu, hreaches⟩
  rw [← Bool.not_eq_false]
  intro hfalse
  exact hasPathGo_complete hrounds nofun hfalse u (Or.inl hu) hreaches

end Worklist

theorem hasPath_iff
    : g.hasPath a b = true ↔
        a < g.nodeCount ∧ b < g.nodeCount ∧ ∃ c ∈ g.successors a, g.Reaches c b := by
  unfold hasPath
  rw [Bool.and_eq_true, Bool.and_eq_true, decide_eq_true_eq, decide_eq_true_eq, and_assoc]
  refine and_congr_right fun _ => and_congr_right fun hb => ?_
  rw [hasPathGo_iff hb (by simp [unexplored])]
  simp only [List.mem_reverse]

theorem hasPathGo_eq_hasPath (ha : a < g.nodeCount) (hb : b < g.nodeCount)
    (hrounds : (g.successors a).length + ((List.range g.nodeCount).flatMap g.successors).length ≤ rounds)
    : hasPath.go g b rounds (g.successors a).reverse [] = g.hasPath a b := by
  rw [Bool.eq_iff_iff, hasPath_iff, hasPathGo_iff hb (by simpa [unexplored] using hrounds)]
  simp [ha, hb]

theorem exists_route_iff
    : (∃ p, g.Route a b p ∧ 2 ≤ p.length) ↔
        a < g.nodeCount ∧ ∃ c ∈ g.successors a, g.Reaches c b := by
  -- A path of at least one edge goes on from a successor of the node where it begins.
  constructor
  . rintro ⟨p, hp, hlength⟩
    cases hp with
    | single _ => simp at hlength
    | cons ha hedge htail => exact ⟨ha, _, hedge, _, htail⟩
  . rintro ⟨ha, c, hedge, p, hp⟩
    have hpos : 0 < p.length := List.length_pos_of_mem hp.last_mem
    exact ⟨a :: p, .cons ha hedge hp, by rw [List.length_cons]; omega⟩

theorem traversals_cover (g : FlowGraph) (start : Nat)
    : (∀ order ∈ [g.dfs start, g.bfs start, g.postorder start],
        order.Nodup ∧ ∀ v, v ∈ order ↔ g.Reaches start v) ∧
      (g.nodeCount ≤ start → g.dfs start = [] ∧ g.bfs start = [] ∧ g.postorder start = []) ∧
      (start < g.nodeCount → ∀ rounds, g.nodeCount ≤ rounds →
        dfs.go g rounds [start] [start] = g.dfs start ∧
        bfs.go g rounds [start] [start] = g.bfs start ∧
        (g.visit rounds start {}).left.reverse = g.postorder start) ∧
      (start < g.nodeCount → ∀ rounds, 2 * g.nodeCount ≤ rounds →
        postorder.go g rounds [(start, g.successors start)] [start] = g.postorder start) ∧
      ∀ a b, a < g.nodeCount → b < g.nodeCount →
        (g.hasPath a b = true ↔ ∃ p, g.Route a b p ∧ 2 ≤ p.length) ∧
        ∀ rounds,
          (g.successors a).length + ((List.range g.nodeCount).flatMap g.successors).length ≤ rounds →
          hasPath.go g b rounds (g.successors a).reverse [] = g.hasPath a b := by
  have houtside : ¬ start < g.nodeCount →
      g.dfs start = [] ∧ g.bfs start = [] ∧ g.postorder start = [] := by
    intro hstart
    simp [dfs, bfs, postorder, hstart]
  refine ⟨?_, fun hstart => houtside (Nat.not_lt.mpr hstart), ?_, ?_, ?_⟩
  . by_cases hstart : start < g.nodeCount
    . simp only [List.forall_mem_cons]
      exact ⟨(search_dfs hstart).covers hstart, (search_bfs hstart).covers hstart,
        postorder_covers hstart, fun _ hnil => absurd hnil List.not_mem_nil⟩
    . obtain ⟨hdfs, hbfs, hpost⟩ := houtside hstart
      have hnone : ∀ v, ¬ g.Reaches start v := fun v h => hstart h.inRange
      rw [hdfs, hbfs, hpost]
      simp [hnone]
  . intro hstart rounds hrounds
    exact ⟨dfsGo_eq_dfs hstart hrounds, bfsGo_eq_bfs hstart hrounds, visit_eq_postorder hstart hrounds⟩
  . intro hstart rounds hrounds
    exact postorderGo_eq_postorder hstart hrounds
  . intro a b ha hb
    refine ⟨?_, fun rounds hrounds => hasPathGo_eq_hasPath ha hb hrounds⟩
    rw [hasPath_iff, exists_route_iff]
    simp [ha, hb]

def looseEnds : FlowGraph := ofEdges 5 0 [(0, 1), (0, 0), (1, 2), (2, 8), (2, 1), (1, 3), (8, 4)]

theorem traversals_cover_looseEnds
    : (∀ v, v ∈ looseEnds.bfs 0 ↔ looseEnds.Reaches 0 v) ∧ ¬ looseEnds.Reaches 0 4 ∧
      looseEnds.postorder 8 = [] ∧
      dfs.go looseEnds 50 [0] [0] = looseEnds.dfs 0 ∧
      (∃ p, looseEnds.Route 2 2 p ∧ 2 ≤ p.length) ∧
      ¬ ∃ p, looseEnds.Route 3 3 p ∧ 2 ≤ p.length := by
  obtain ⟨hcovers, -, hrounds, -, hpath⟩ := traversals_cover looseEnds 0
  refine ⟨(hcovers (looseEnds.bfs 0) (by simp)).2, by decide, ?_, ?_, ?_, ?_⟩
  . exact ((traversals_cover looseEnds 8).2.1 (by decide)).2.2
  . exact (hrounds (by decide) 50 (by decide)).1
  . exact (hpath 2 2 (by decide) (by decide)).1.mp (by decide)
  . rw [← (hpath 3 3 (by decide) (by decide)).1]
    decide

end MachineIR.FlowGraph
