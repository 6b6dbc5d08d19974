import MachineIR.Proofs.Traversal

/-!
This module contains what postorder says about the edges of a graph. When a node is left, the edges
from all nodes left so far lead to nodes left as well, or to one that is still being visited and leads
back to it. So a node is left after all that it reaches by way of a successor that does not lead back.
-/

namespace MachineIR.FlowGraph

variable {g : FlowGraph} {a u v w x start : Nat} {entered entered' vs pre post l m p q : List Nat}

def LeftClosed (g : FlowGraph) (entered post : List Nat) : Prop :=
  ∀ p x q, post = p ++ x :: q → ∀ w ∈ p ++ [x], ∀ v, g.Step w v →
    v ∈ p ∨ v ∈ entered ∨ g.Reaches v x

theorem split_append (h : l ++ m = p ++ x :: q)
    : (∃ q', l = p ++ x :: q') ∨ ∃ p', p = l ++ p' ∧ m = p' ++ x :: q := by
  rcases List.append_eq_append_iff.mp h with ⟨p', hp, hm⟩ | ⟨c, rfl, hc⟩
  . exact Or.inr ⟨p', hp, hm⟩
  . rcases List.cons_eq_append_iff.mp hc with ⟨rfl, hm⟩ | ⟨q', rfl, -⟩
    . exact Or.inr ⟨[], by simp, hm⟩
    . exact Or.inl ⟨q', rfl⟩

namespace LeftClosed

theorem leave (h : g.LeftClosed (a :: entered) post) (hbelow : ∀ x ∈ post, g.Reaches a x)
    (ha : a < g.nodeCount)
    (hclosed : ∀ w ∈ post ++ [a], ∀ v, g.Step w v → v ∈ entered ∨ v ∈ post ++ [a])
    : g.LeftClosed entered (post ++ [a]) := by
  intro p x q heq w hw v hstep
  rcases split_append heq with ⟨q', rfl⟩ | ⟨p', rfl, hlast⟩
  . rcases h p x q' rfl w hw v hstep with hv | hv | hv
    . exact Or.inl hv
    . rcases List.mem_cons.mp hv with rfl | hv
      . exact Or.inr (Or.inr (hbelow x (by simp)))
      . exact Or.inr (Or.inl hv)
    . exact Or.inr (Or.inr hv)
  . obtain ⟨rfl, rfl⟩ : p' = [] ∧ a = x := by
      cases p' <;> simp_all
    rw [List.append_nil] at hw ⊢
    rcases hclosed w hw v hstep with hv | hv
    . exact Or.inr (Or.inl hv)
    . rcases List.mem_append.mp hv with hv | hv
      . exact Or.inl hv
      . rw [List.mem_singleton.mp hv]
        exact Or.inr (Or.inr (.refl ha))

theorem append (h : g.LeftClosed entered l) (h' : g.LeftClosed entered' m)
    (hclosed : ∀ w ∈ l, ∀ v, g.Step w v → v ∈ entered ∨ v ∈ l)
    (hentered : ∀ v ∈ entered', v ∈ entered ∨ v ∈ l) : g.LeftClosed entered (l ++ m) := by
  -- No edge leads out of the nodes that are left first, so the visit can go on.
  intro p x q heq w hw v hstep
  rcases split_append heq with ⟨q', hl⟩ | ⟨p', rfl, hm⟩
  . exact h p x q' hl w hw v hstep
  . have hearlier : v ∈ entered ∨ v ∈ l → v ∈ l ++ p' ∨ v ∈ entered ∨ g.Reaches v x := by
      rintro (hv | hv)
      . exact Or.inr (Or.inl hv)
      . exact Or.inl (List.mem_append_left p' hv)
    rw [List.append_assoc] at hw
    rcases List.mem_append.mp hw with hw | hw
    . exact hearlier (hclosed w hw v hstep)
    . rcases h' p' x q hm w hw v hstep with hv | hv | hv
      . exact Or.inl (List.mem_append_right l hv)
      . exact hearlier (hentered v hv)
      . exact Or.inr (Or.inr hv)

end LeftClosed

namespace Visits

theorem closed_below (h : Visits g (a :: entered) (g.successors a) pre post)
    (hw : w ∈ post ++ [a]) (hstep : g.Step w v) : v ∈ entered ∨ v ∈ post ++ [a] := by
  have hv : v ∈ a :: entered ∨ v ∈ pre := by
    rcases List.mem_append.mp hw with hw | hw
    . exact h.closed (h.perm.mem_iff.mp hw) hstep
    . rw [List.mem_singleton.mp hw] at hstep
      exact h.entered_of_mem hstep.1 hstep.2
  rw [← h.perm.mem_iff] at hv
  grind

theorem leftClosed (h : Visits g entered vs pre post) : g.LeftClosed entered post := by
  induction h with
  | done =>
    intro p x q heq
    simp at heq
  | skip _ _ ih => exact ih
  | @enter a _ _ _ _ _ _ hrange _ hbelow _ ihbelow ihrest =>
    have hclosed := fun w hw v hstep => hbelow.closed_below (w := w) (v := v) hw hstep
    rw [List.append_cons]
    refine (ihbelow.leave ?_ hrange hclosed).append ihrest hclosed ?_
    . intro x hx
      obtain ⟨b, hb, hreaches⟩ := hbelow.reached (hbelow.perm.mem_iff.mp hx)
      exact .head hrange hb hreaches
    . intro v hv
      rw [List.mem_append, List.mem_reverse, ← hbelow.perm.mem_iff] at hv
      grind

theorem left_after (h : Visits g [] [start] pre post) (hu : u ∈ post) (ha : a ∈ g.successors u)
    (hreaches : g.Reaches a v) (hback : ¬ g.Reaches a u) : Before post v u := by
  obtain ⟨p, q, rfl⟩ := List.append_of_mem hu
  have hleft : ∀ w ∈ p ++ [u], ∀ b, g.Step w b → g.Reaches a b → b ∈ p := by
    intro w hw b hstep hb
    rcases h.leftClosed p u q rfl w hw b hstep with hbp | hbp | hbu
    . exact hbp
    . exact absurd hbp List.not_mem_nil
    . exact absurd (hb.trans hbu) hback
  have hall : v ∈ p ∧ g.Reaches a v := by
    refine hreaches.holds (P := fun b => b ∈ p ∧ g.Reaches a b) ?_ ?_
    . rintro b c ⟨hbp, hb⟩ hstep
      exact ⟨hleft b (List.mem_append_left [u] hbp) c hstep (hb.tail hstep), hb.tail hstep⟩
    . have haa : g.Reaches a a := .refl hreaches.inRange
      exact ⟨hleft u (by simp) a ⟨ha, hreaches.inRange⟩ haa, haa⟩
  exact before_of_mem hall.1 List.mem_cons_self

end Visits

theorem Reaches.exists_exit (h : g.Reaches x v) (hux : g.Reaches u x) (hxu : g.Reaches x u)
    (hvu : ¬ g.Reaches v u)
    : ∃ w a, g.Reaches u w ∧ g.Reaches w u ∧ a ∈ g.successors w ∧ g.Reaches a v ∧ ¬ g.Reaches a u := by
  -- A path to where nothing leads back leaves, at some edge, the nodes that lead back.
  obtain ⟨p, hp⟩ := h
  induction hp with
  | single _ => exact absurd hxu hvu
  | @cons x b _ _ hx hedge htail ih =>
    by_cases hbu : g.Reaches b u
    . exact ih (hux.tail ⟨hedge, htail.first_inRange⟩) hbu hvu
    . exact ⟨x, b, hux, hxu, hedge, ⟨_, htail⟩, hbu⟩

theorem reversePostorder_respects_edges (g : FlowGraph) (start : Nat) (hstart : start < g.nodeCount)
    : (g.reversePostorder start).head? = some start ∧
      (g.reversePostorder start).Nodup ∧
      (∀ v, v ∈ g.reversePostorder start ↔ g.Reaches start v) ∧
      (∀ u v, u ∈ g.reversePostorder start → v ∈ g.reversePostorder start → v ∈ g.successors u →
        Before (g.reversePostorder start) u v ∨ g.Reaches v u) ∧
      (∀ u a v, u ∈ g.postorder start → a ∈ g.successors u → g.Reaches a v → ¬ g.Reaches a u →
        Before (g.postorder start) v u) ∧
      ∀ u v, u ∈ g.postorder start → g.Reaches u v → ¬ g.Reaches v u →
        ∃ w, g.Reaches u w ∧ g.Reaches w u ∧ Before (g.postorder start) v w := by
  have hvisits := visits_orders hstart
  obtain ⟨hnodup, hmem⟩ := postorder_covers hstart
  have hreverse : g.reversePostorder start = (g.postorder start).reverse := rfl
  refine ⟨?_, ?_, ?_, ?_, ?_, ?_⟩
  . obtain ⟨_, post, -, hpost⟩ := hvisits.encloses hstart
    rw [hreverse, hpost, List.reverse_append]
    rfl
  . rwa [hreverse, List.nodup_reverse]
  . intro v
    rw [hreverse, List.mem_reverse, hmem]
  . intro u v hu hv hedge
    rw [hreverse, List.mem_reverse] at hu hv
    have hrange : v < g.nodeCount := (hvisits.fresh v (hvisits.perm.mem_iff.mp hv)).1
    rw [hreverse, before_reverse]
    exact or_iff_not_imp_right.mpr (hvisits.left_after hu hedge (.refl hrange))
  . intro u a v hu ha hreaches hback
    exact hvisits.left_after hu ha hreaches hback
  . intro u v hu hreaches hvu
    -- The path from `u` leaves the nodes that lead back to `u` at some edge, and from behind it no
    -- path leads back.
    have huu : g.Reaches u u := .refl hreaches.inRange
    obtain ⟨w, a, huw, hwu, ha, hav, hau⟩ := hreaches.exists_exit huu huu hvu
    have hw : w ∈ g.postorder start := (hmem w).mpr (((hmem u).mp hu).trans huw)
    exact ⟨w, huw, hwu, hvisits.left_after hw ha hav fun haw => hau (haw.trans hwu)⟩

def crossedLoop : FlowGraph := ofEdges 4 0 [(0, 1), (1, 2), (2, 2), (2, 1), (2, 3), (0, 1), (3, 7)]

theorem reversePostorder_respects_edges_crossedLoop
    : (crossedLoop.reversePostorder 0).head? = some 0 ∧
      Before (crossedLoop.reversePostorder 0) 0 1 ∧
      (Before (crossedLoop.reversePostorder 0) 2 1 ∨ crossedLoop.Reaches 1 2) ∧
      Before (crossedLoop.postorder 0) 3 2 ∧
      ∃ w, crossedLoop.Reaches 1 w ∧ crossedLoop.Reaches w 1 ∧ Before (crossedLoop.postorder 0) 3 w := by
  obtain ⟨hhead, -, -, hedge, hexit, hcycle⟩ :=
    reversePostorder_respects_edges crossedLoop 0 (by decide)
  refine ⟨hhead, ?_, ?_, ?_, ?_⟩
  . exact (hedge 0 1 (by decide) (by decide) (by decide)).resolve_right (by decide)
  . exact hedge 2 1 (by decide) (by decide) (by decide)
  . exact hexit 2 3 3 (by decide) (by decide) (by decide) (by decide)
  . exact hcycle 1 3 (by decide) (by decide) (by decide)

def backEdge : FlowGraph := ofEdges 3 0 [(0, 1), (0, 2), (1, 0)]

theorem postorder_backEdge
    : ¬ ∀ u v, u ∈ backEdge.postorder 0 → backEdge.Reaches u v → ¬ backEdge.Reaches v u →
        Before (backEdge.postorder 0) v u := by
  intro h
  have hbefore : Before (backEdge.postorder 0) 2 1 := h 1 2 (by decide) (by decide) (by decide)
  revert hbefore
  decide

end MachineIR.FlowGraph
