import Mathlib.Data.Nat.Find
import Mathlib.Order.Bounds.Basic
import MachineIR.Proofs.Reachability

/-!
This module contains distances in a graph, that is, the lengths of shortest paths, and the order in which
a breadth-first search lists the nodes. The nodes that wait are at two distances, one edge apart, and
those at the smaller one come first. So a node is never listed after one that is farther away.
-/

namespace MachineIR.FlowGraph

variable {g : FlowGraph} {rounds level m n start u v : Nat} {near far seen : List Nat}

def Distance (g : FlowGraph) (u v n : Nat) : Prop :=
  IsLeast {n | ∃ p, g.Route u v p ∧ p.length = n + 1} n

theorem Path.last_edge {α : Type} {edge : α → α → Prop} {inRange : α → Prop} {a c : α} {p : List α}
    (h : Path edge inRange a c p)
    : p.length = 1 ∧ a = c ∨
        ∃ b q, Path edge inRange a b q ∧ edge b c ∧ inRange c ∧ p.length = q.length + 1 := by
  induction h with
  | single _ => exact Or.inl ⟨rfl, rfl⟩
  | @cons a b c p ha hab htail ih =>
    right
    rcases ih with ⟨hlength, rfl⟩ | ⟨d, q, hq, hdc, hc, hlength⟩
    . exact ⟨a, [a], .single ha, hab, htail.first_inRange, by simp [hlength]⟩
    . exact ⟨d, a :: q, .cons ha hab hq, hdc, hc, by simp [hlength]⟩

namespace Distance

theorem unique (h : g.Distance u v m) (h' : g.Distance u v n) : m = n := IsLeast.unique h h'

theorem reaches (h : g.Distance u v n) : g.Reaches u v := by
  obtain ⟨⟨p, hp, -⟩, -⟩ := h
  exact ⟨p, hp⟩

theorem self (hu : u < g.nodeCount) : g.Distance u u 0 :=
  ⟨⟨[u], .single hu, rfl⟩, fun n _ => Nat.zero_le n⟩

theorem eq_of_zero (h : g.Distance u v 0) : u = v := by
  obtain ⟨⟨p, hp, hlength⟩, -⟩ := h
  rcases hp.last_edge with ⟨-, heq⟩ | ⟨b, q, hq, -, -, hlength'⟩
  . exact heq
  . have : 0 < q.length := List.length_pos_of_mem hq.last_mem
    omega

end Distance

open Classical in
theorem exists_distance (h : g.Reaches u v) : ∃ n, g.Distance u v n := by
  have hexists : ∃ n, ∃ p, g.Route u v p ∧ p.length = n + 1 := by
    obtain ⟨p, hp⟩ := h
    have : 0 < p.length := List.length_pos_of_mem hp.last_mem
    exact ⟨p.length - 1, p, hp, by omega⟩
  exact ⟨Nat.find hexists, Nat.find_spec hexists, fun n hn => Nat.find_le hn⟩

namespace Distance

theorem step (h : g.Distance start u n) (hstep : g.Step u v)
    : ∃ m, g.Distance start v m ∧ m ≤ n + 1 := by
  obtain ⟨m, hm⟩ := exists_distance (h.reaches.tail hstep)
  obtain ⟨p, hp, hlength⟩ := h.1
  refine ⟨m, hm, hm.2 ⟨p ++ [v], hp.concat hstep.1 hstep.2, ?_⟩⟩
  rw [List.length_append, hlength, List.length_singleton]

theorem exists_nearer (h : g.Distance start v (n + 1)) : ∃ u, g.Distance start u n ∧ g.Step u v := by
  obtain ⟨⟨p, hp, hlength⟩, -⟩ := id h
  rcases hp.last_edge with ⟨hone, -⟩ | ⟨u, q, hq, hedge, hv, hlast⟩
  . omega
  . obtain ⟨m, hm⟩ := exists_distance ⟨q, hq⟩
    have hle : m ≤ n := hm.2 ⟨q, hq, by omega⟩
    obtain ⟨k, hk, hkm⟩ := hm.step ⟨hedge, hv⟩
    obtain rfl : m = n := by
      have := hk.unique h
      omega
    exact ⟨u, hm, hedge, hv⟩

end Distance

structure Levels (g : FlowGraph) (start level : Nat) (near far seen : List Nat) : Prop where
  nearest : ∀ v ∈ near, g.Distance start v level
  farther : ∀ v ∈ far, g.Distance start v (level + 1)
  settled : ∀ v n, g.Distance start v n → n ≤ level → v ∈ seen
  bounded : ∀ v ∈ seen, ∃ n, g.Distance start v n ∧ n ≤ level + 1
  waits : ∀ v, g.Distance start v (level + 1) → v ∈ seen → v ∈ far
  ahead : ∀ v, g.Distance start v (level + 1) → v ∉ seen → ∃ u ∈ near, g.Step u v

namespace Levels

theorem initial (hstart : start < g.nodeCount) : Levels g start 0 [start] [] [start] where
  nearest := by
    intro v hv
    rw [List.mem_singleton.mp hv]
    exact .self hstart
  farther := nofun
  settled := by
    intro v n hv hn
    rw [Nat.le_zero.mp hn] at hv
    exact List.mem_singleton.mpr hv.eq_of_zero.symm
  bounded := by
    intro v hv
    rw [List.mem_singleton.mp hv]
    exact ⟨0, .self hstart, Nat.zero_le _⟩
  waits := by
    intro v hv hmem
    rw [List.mem_singleton.mp hmem] at hv
    exact absurd (hv.unique (.self hstart)) (Nat.succ_ne_zero 0)
  ahead := by
    intro v hv _
    obtain ⟨u, hu, hstep⟩ := hv.exists_nearer
    rw [← hu.eq_of_zero] at hstep
    exact ⟨start, List.mem_cons_self, hstep⟩

theorem visit (h : Levels g start level (u :: near) far seen)
    : Levels g start level near (far ++ g.unseen seen (g.successors u))
        (g.unseen seen (g.successors u) ++ seen) := by
  -- The first of the nodes that are near is visited, and those found from it are far.
  have hnew : ∀ v ∈ g.unseen seen (g.successors u), g.Distance start v (level + 1) := by
    intro v hv
    obtain ⟨hedge, hrange, hunseen⟩ := mem_unseen.mp hv
    obtain ⟨n, hn, hle⟩ := (h.nearest u List.mem_cons_self).step ⟨hedge, hrange⟩
    have hgt : ¬ n ≤ level := fun hle => hunseen (h.settled v n hn hle)
    obtain rfl : n = level + 1 := by omega
    exact hn
  refine ⟨fun v hv => h.nearest v (List.mem_cons_of_mem u hv), ?_, ?_, ?_, ?_, ?_⟩
  . exact List.forall_mem_append.mpr ⟨h.farther, hnew⟩
  . intro v n hv hn
    exact List.mem_append_right _ (h.settled v n hv hn)
  . refine List.forall_mem_append.mpr ⟨?_, h.bounded⟩
    intro v hv
    exact ⟨level + 1, hnew v hv, Nat.le_refl _⟩
  . intro v hv hseen
    rcases List.mem_append.mp hseen with hseen | hseen
    . exact List.mem_append_right _ hseen
    . exact List.mem_append_left _ (h.waits v hv hseen)
  . intro v hv hunseen
    rw [List.mem_append, not_or, mem_unseen] at hunseen
    obtain ⟨w, hw, hstep⟩ := h.ahead v hv hunseen.2
    rcases List.mem_cons.mp hw with rfl | hw
    . exact absurd ⟨hstep.1, hstep.2, hunseen.2⟩ hunseen.1
    . exact ⟨w, hw, hstep⟩

theorem advance (h : Levels g start level [] far seen) : Levels g start (level + 1) far [] seen := by
  -- No node is near any more, so those that were far are near now.
  have hsettled : ∀ v n, g.Distance start v n → n ≤ level + 1 → v ∈ seen := by
    intro v n hv hn
    rcases Nat.le_succ_iff.mp hn with hn | rfl
    . exact h.settled v n hv hn
    . apply Classical.byContradiction
      intro hunseen
      obtain ⟨u, hu, -⟩ := h.ahead v hv hunseen
      exact List.not_mem_nil hu
  refine ⟨h.farther, nofun, hsettled, ?_, ?_, ?_⟩
  . intro v hv
    obtain ⟨n, hn, hle⟩ := h.bounded v hv
    exact ⟨n, hn, Nat.le_succ_of_le hle⟩
  . intro v hv hseen
    obtain ⟨n, hn, hle⟩ := h.bounded v hseen
    have := hn.unique hv
    omega
  . intro v hv _
    obtain ⟨u, hu, hstep⟩ := hv.exists_nearer
    exact ⟨u, h.waits u hu (hsettled u _ hu (Nat.le_refl _)), hstep⟩

end Levels

structure ByDistance (g : FlowGraph) (start level : Nat) (order : List Nat) : Prop where
  least : ∀ v ∈ order, ∃ n, g.Distance start v n ∧ level ≤ n
  sorted : order.Pairwise fun u v => ∀ m n, g.Distance start u m → g.Distance start v n → m ≤ n

namespace ByDistance

variable {order : List Nat}

theorem nil : ByDistance g start level [] := ⟨nofun, .nil⟩

theorem cons (hu : g.Distance start u level) (h : ByDistance g start level order)
    : ByDistance g start level (u :: order) := by
  refine ⟨List.forall_mem_cons.mpr ⟨⟨level, hu, Nat.le_refl _⟩, h.least⟩, .cons ?_ h.sorted⟩
  intro v hv m n hm hn
  obtain ⟨k, hk, hle⟩ := h.least v hv
  have hlevel := hm.unique hu
  have := hk.unique hn
  omega

theorem mono (h : ByDistance g start (level + 1) order) : ByDistance g start level order := by
  refine ⟨?_, h.sorted⟩
  intro v hv
  obtain ⟨n, hn, hle⟩ := h.least v hv
  exact ⟨n, hn, Nat.le_of_succ_le hle⟩

end ByDistance

theorem byDistance_bfsGo (h : Levels g start level near far seen)
    : ByDistance g start level (bfs.go g rounds (near ++ far) seen) := by
  induction rounds generalizing level near far seen with
  | zero => exact .nil
  | succ rounds ih =>
    have hvisit : ∀ {level u near far}, Levels g start level (u :: near) far seen →
        ByDistance g start level (bfs.go g (rounds + 1) (u :: near ++ far) seen) := by
      intro level u near far h
      rw [List.cons_append, bfs.go]
      have hrest := ih h.visit
      rw [← List.append_assoc] at hrest
      exact .cons (h.nearest u List.mem_cons_self) hrest
    cases near with
    | cons u near => exact hvisit h
    | nil =>
      cases far with
      | nil => exact .nil
      | cons u far =>
        have hrest := hvisit h.advance
        rw [List.append_nil] at hrest
        exact hrest.mono

theorem bfs_lists_by_distance (g : FlowGraph) (start : Nat)
    : (∀ v, v ∈ g.bfs start ↔ ∃ n, g.Distance start v n) ∧
      ∀ u v, Before (g.bfs start) u v →
        ∃ m n, g.Distance start u m ∧ g.Distance start v n ∧ m ≤ n := by
  by_cases hstart : start < g.nodeCount
  . have hmem : ∀ v, v ∈ g.bfs start ↔ ∃ n, g.Distance start v n := by
      intro v
      rw [((search_bfs hstart).covers hstart).2]
      exact ⟨exists_distance, fun ⟨n, hn⟩ => hn.reaches⟩
    have hsorted : ByDistance g start 0 (g.bfs start) := by
      rw [bfs, if_pos hstart]
      exact byDistance_bfsGo (.initial hstart)
    refine ⟨hmem, ?_⟩
    intro u v hbefore
    obtain ⟨m, hm⟩ := (hmem u).mp hbefore.mem_left
    obtain ⟨n, hn⟩ := (hmem v).mp hbefore.mem_right
    have hpair := hsorted.sorted.sublist hbefore
    exact ⟨m, n, hm, hn, List.rel_of_pairwise_cons hpair List.mem_cons_self m n hm hn⟩
  . have hnil : g.bfs start = [] := by simp [bfs, hstart]
    rw [hnil]
    refine ⟨fun v => ⟨nofun, ?_⟩, nofun⟩
    rintro ⟨n, hn⟩
    exact absurd hn.reaches.inRange hstart

def shortcut : FlowGraph := ofEdges 6 0 [(0, 1), (0, 1), (1, 2), (2, 3), (0, 4), (4, 3), (3, 0), (3, 9)]

theorem bfs_lists_by_distance_shortcut
    : Before (shortcut.bfs 0) 4 2 ∧ Before (shortcut.bfs 0) 2 3 ∧
      (∃ m n, shortcut.Distance 0 4 m ∧ shortcut.Distance 0 2 n ∧ m ≤ n) ∧
      ∃ m n, shortcut.Distance 0 2 m ∧ shortcut.Distance 0 3 n ∧ m ≤ n := by
  obtain ⟨-, hsorted⟩ := bfs_lists_by_distance shortcut 0
  exact ⟨by decide, by decide, hsorted 4 2 (by decide), hsorted 2 3 (by decide)⟩

end MachineIR.FlowGraph
