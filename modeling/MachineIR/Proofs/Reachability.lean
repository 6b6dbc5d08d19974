import Mathlib.Data.List.Nodup
import Mathlib.Data.List.Perm.Subperm
import Mathlib.Logic.Relation
import MachineIR.FlowGraph.Basic

/-!
This module contains the nodes that a graph search finds. Every node waits once at most, so the search
has rounds enough for all of them. Wherever the nodes join those that wait, what is listed in the end is
closed under the edges that stay in range, and nothing is listed but what such edges lead to.
-/

namespace MachineIR.FlowGraph

section Paths

variable {α β : Type} {edge : α → α → Prop} {inRange : α → Prop} {a b c : α} {p : List α}

inductive Path (edge : α → α → Prop) (inRange : α → Prop) : α → α → List α → Prop
  | single {a : α} (ha : inRange a) : Path edge inRange a a [a]
  | cons {a b c : α} {p : List α} (ha : inRange a) (hedge : edge a b)
    (htail : Path edge inRange b c p) : Path edge inRange a c (a :: p)

namespace Path

theorem first_inRange (h : Path edge inRange a b p) : inRange a := by
  cases h with
  | single ha => exact ha
  | cons ha _ _ => exact ha

theorem last_mem (h : Path edge inRange a b p) : b ∈ p := by
  induction h with
  | single _ => exact List.mem_singleton_self _
  | cons _ _ _ ih => exact List.mem_cons_of_mem _ ih

theorem inRange_of_mem (h : Path edge inRange a b p) (hc : c ∈ p) : inRange c := by
  induction h with
  | single ha => rwa [List.mem_singleton.mp hc]
  | cons ha _ _ ih =>
    rcases List.mem_cons.mp hc with rfl | hc
    . exact ha
    . exact ih hc

theorem map {edge' : β → β → Prop} {inRange' : β → Prop} {f : α → β}
    (hrange : ∀ a, inRange a → inRange' (f a)) (hedge : ∀ a b, edge a b → edge' (f a) (f b))
    (h : Path edge inRange a b p) : Path edge' inRange' (f a) (f b) (p.map f) := by
  induction h with
  | single ha => exact .single (hrange _ ha)
  | cons ha hab _ ih => exact .cons (hrange _ ha) (hedge _ _ hab) ih

theorem concat (h : Path edge inRange a b p) (hedge : edge b c) (hc : inRange c)
    : Path edge inRange a c (p ++ [c]) := by
  induction h with
  | single ha => exact .cons ha hedge (.single hc)
  | cons ha hab _ ih => exact .cons ha hab (ih hedge)

theorem trans {q : List α} (h : Path edge inRange a b p) (h' : Path edge inRange b c q)
    : ∃ r, Path edge inRange a c r := by
  induction h with
  | single _ => exact ⟨q, h'⟩
  | cons ha hab _ ih =>
    obtain ⟨r, hr⟩ := ih h'
    exact ⟨_ :: r, .cons ha hab hr⟩

theorem reverse (h : Path edge inRange a b p)
    : Path (fun a b => edge b a) inRange b a p.reverse := by
  induction h with
  | single ha => exact .single ha
  | cons ha hab _ ih =>
    rw [List.reverse_cons]
    exact ih.concat hab ha

end Path

end Paths

section Order

variable {l m : List Nat} {a u v w : Nat}

def Before (l : List Nat) (u v : Nat) : Prop := [u, v].Sublist l

instance : Decidable (Before l u v) := inferInstanceAs (Decidable ([u, v].Sublist l))

theorem not_before_nil : ¬ Before [] u v := fun h => List.cons_ne_nil u [v] (List.sublist_nil.mp h)

theorem before_cons : Before (a :: l) u v ↔ u = a ∧ v ∈ l ∨ Before l u v := by
  unfold Before
  rw [List.cons_sublist_cons', List.singleton_sublist, or_comm]

theorem before_append
    : Before (l ++ m) u v ↔ Before l u v ∨ u ∈ l ∧ v ∈ m ∨ Before m u v := by
  induction l with
  | nil => simp [Before]
  | cons a l ih =>
    rw [List.cons_append, before_cons, before_cons, ih, List.mem_append, List.mem_cons]
    grind

theorem before_head (hv : v ∈ l) : Before (a :: l) a v := before_cons.mpr (Or.inl ⟨rfl, hv⟩)

theorem before_of_mem (hu : u ∈ l) (hv : v ∈ m) : Before (l ++ m) u v :=
  before_append.mpr (Or.inr (Or.inl ⟨hu, hv⟩))

theorem before_reverse : Before l.reverse u v ↔ Before l v u := by
  unfold Before
  rw [← List.reverse_sublist, List.reverse_reverse]
  rfl

namespace Before

theorem mem_left (h : Before l u v) : u ∈ l := List.Sublist.subset h List.mem_cons_self

theorem mem_right (h : Before l u v) : v ∈ l :=
  List.Sublist.subset h (List.mem_cons_of_mem u List.mem_cons_self)

theorem mono (h : Before l u v) (hsub : l.Sublist m) : Before m u v := List.Sublist.trans h hsub

theorem of_append_left (h : Before (l ++ m) u v) (hnodup : (l ++ m).Nodup) (hv : v ∈ l)
    : Before l u v := by
  rcases before_append.mp h with h | ⟨-, hv'⟩ | h
  . exact h
  . exact absurd hv' (List.disjoint_of_nodup_append hnodup hv)
  . exact absurd h.mem_right (List.disjoint_of_nodup_append hnodup hv)

theorem of_append_right (h : Before (l ++ m) u v) (hnodup : (l ++ m).Nodup) (hu : u ∈ m)
    : Before m u v := by
  rcases before_append.mp h with h | ⟨hu', -⟩ | h
  . exact absurd hu (List.disjoint_of_nodup_append hnodup h.mem_left)
  . exact absurd hu (List.disjoint_of_nodup_append hnodup hu')
  . exact h

theorem mem_tail (h : Before (a :: l) u v) : v ∈ l := by
  rcases before_cons.mp h with ⟨-, hv⟩ | h
  . exact hv
  . exact h.mem_right

theorem of_cons (h : Before (a :: l) u v) (hnodup : (a :: l).Nodup) (hu : u ∈ l) : Before l u v :=
  of_append_right (l := [a]) h hnodup hu

theorem trans (h : Before l u v) (h' : Before l v w) (hnodup : l.Nodup) : Before l u w := by
  induction l with
  | nil => exact absurd h not_before_nil
  | cons a l ih =>
    have hvw : Before l v w := h'.of_cons hnodup h.mem_tail
    rcases before_cons.mp h with ⟨rfl, -⟩ | huv
    . exact before_head hvw.mem_right
    . exact (ih huv hvw hnodup.of_cons).mono (List.sublist_cons_self a l)

end Before

end Order

variable {g : FlowGraph} {P : Nat → Prop} {rounds u v w start : Nat}
  {stack seen vs waiting listed : List Nat}

def Step (g : FlowGraph) (u v : Nat) : Prop := v ∈ g.successors u ∧ v < g.nodeCount

def Route (g : FlowGraph) : Nat → Nat → List Nat → Prop :=
  Path (fun u v => v ∈ g.successors u) (· < g.nodeCount)

def Reaches (g : FlowGraph) (u v : Nat) : Prop := ∃ p, g.Route u v p

namespace Reaches

theorem refl (hu : u < g.nodeCount) : g.Reaches u u := ⟨[u], .single hu⟩

theorem inRange (h : g.Reaches u v) : u < g.nodeCount := by
  obtain ⟨p, hp⟩ := h
  exact hp.first_inRange

theorem head (hu : u < g.nodeCount) (hedge : v ∈ g.successors u) (h : g.Reaches v w)
    : g.Reaches u w := by
  obtain ⟨p, hp⟩ := h
  exact ⟨u :: p, .cons hu hedge hp⟩

theorem tail (h : g.Reaches u v) (hstep : g.Step v w) : g.Reaches u w := by
  obtain ⟨p, hp⟩ := h
  exact ⟨p ++ [w], hp.concat hstep.1 hstep.2⟩

theorem trans (h : g.Reaches u v) (h' : g.Reaches v w) : g.Reaches u w := by
  obtain ⟨p, hp⟩ := h
  obtain ⟨q, hq⟩ := h'
  exact hp.trans hq

theorem holds (h : g.Reaches u v) (hclosed : ∀ a b, P a → g.Step a b → P b) (hu : P u) : P v := by
  obtain ⟨p, hp⟩ := h
  induction hp with
  | single _ => exact hu
  | cons _ hedge htail ih => exact ih (hclosed _ _ hu ⟨hedge, htail.first_inRange⟩)

end Reaches

theorem reaches_iff
    : g.Reaches u v ↔ u < g.nodeCount ∧ Relation.ReflTransGen g.Step u v := by
  constructor
  . intro h
    exact ⟨h.inRange, h.holds (fun _ _ ha hstep => ha.tail hstep) .refl⟩
  . rintro ⟨hu, h⟩
    induction h with
    | refl => exact .refl hu
    | tail _ hstep ih => exact ih.tail hstep

section Unseen

theorem mem_unseen : v ∈ g.unseen seen vs ↔ v ∈ vs ∧ v < g.nodeCount ∧ v ∉ seen := by
  fun_induction unseen g seen vs with
  | case1 seen => simp
  | case2 seen w ws hw ih =>
    simp only [Bool.and_eq_true, decide_eq_true_eq, Bool.not_eq_true', List.contains_eq_mem,
      decide_eq_false_iff_not] at hw
    rw [List.mem_cons, ih, List.mem_cons, List.mem_cons, not_or]
    constructor
    . rintro (rfl | ⟨hv, hlt, -, hnew⟩)
      . exact ⟨Or.inl rfl, hw⟩
      . exact ⟨Or.inr hv, hlt, hnew⟩
    . rintro ⟨hv, hlt, hnew⟩
      by_cases heq : v = w
      . exact Or.inl heq
      . exact Or.inr ⟨hv.resolve_left heq, hlt, heq, hnew⟩
  | case3 seen w ws hw ih =>
    rw [ih, List.mem_cons]
    constructor
    . rintro ⟨hv, hnew⟩
      exact ⟨Or.inr hv, hnew⟩
    . rintro ⟨rfl | hv, hlt, hnew⟩
      . simp [hlt, hnew] at hw
      . exact ⟨hv, hlt, hnew⟩

theorem nodup_unseen : (g.unseen seen vs).Nodup := by
  fun_induction unseen g seen vs with
  | case1 seen => exact List.nodup_nil
  | case2 seen w ws hw ih =>
    refine List.nodup_cons.mpr ⟨?_, ih⟩
    rw [mem_unseen]
    rintro ⟨-, -, hnew⟩
    exact hnew List.mem_cons_self
  | case3 seen w ws hw ih => exact ih

end Unseen

structure Waiting (g : FlowGraph) (rounds : Nat) (stack seen : List Nat) : Prop where
  nodup : seen.Nodup
  range : ∀ v ∈ seen, v < g.nodeCount
  waits : stack.Subperm seen
  enough : g.nodeCount + stack.length ≤ rounds + seen.length

namespace Waiting

theorem initial (hstart : start < g.nodeCount) : Waiting g g.nodeCount [start] [start] where
  nodup := List.nodup_singleton start
  range := by simpa using hstart
  waits := List.Subperm.refl [start]
  enough := Nat.le_refl _

theorem length_le (h : Waiting g rounds stack seen) : stack.length ≤ rounds := by
  have hsub : seen ⊆ List.range g.nodeCount := fun v hv => List.mem_range.mpr (h.range v hv)
  have hlength := (List.subperm_of_subset h.nodup hsub).length_le
  rw [List.length_range] at hlength
  have := h.enough
  omega

theorem stack_eq_nil (h : Waiting g 0 stack seen) : stack = [] :=
  List.eq_nil_of_length_eq_zero (Nat.le_zero.mp h.length_le)

theorem stack_nodup (h : Waiting g rounds stack seen) : stack.Nodup := by
  obtain ⟨l, hperm, hsub⟩ := h.waits
  exact hperm.nodup_iff.mp (h.nodup.sublist hsub)

theorem step (h : Waiting g (rounds + 1) (u :: stack) seen) {stack' : List Nat}
    (hjoin : stack'.Perm (g.unseen seen vs ++ stack))
    : Waiting g rounds stack' (g.unseen seen vs ++ seen) := by
  constructor
  . rw [List.nodup_append]
    refine ⟨nodup_unseen, h.nodup, ?_⟩
    rintro v hv w hw rfl
    exact (mem_unseen.mp hv).2.2 hw
  . intro v hv
    rcases List.mem_append.mp hv with hv | hv
    . exact (mem_unseen.mp hv).2.1
    . exact h.range v hv
  . have hstack : stack.Subperm seen := (List.sublist_cons_self u stack).subperm.trans h.waits
    exact hjoin.subperm.trans ((List.subperm_append_left _).mpr hstack)
  . have := h.enough
    rw [List.length_append, hjoin.length_eq, List.length_append]
    rw [List.length_cons] at this
    omega

end Waiting

/--
A search lists the first of the nodes that wait. Its successors that have not been seen join the others
that wait, at a place of which nothing is said, and the search goes on until no node waits.
-/
inductive Search (g : FlowGraph) : List Nat → List Nat → List Nat → Prop
  | done {seen : List Nat} : Search g [] seen []
  | visit {u : Nat} {waiting waiting' new seen listed : List Nat}
    (hnew : ∀ v, v ∈ new ↔ g.Step u v ∧ v ∉ seen) (hnodup : new.Nodup)
    (hjoin : waiting'.Perm (new ++ waiting)) (hrest : Search g waiting' (new ++ seen) listed)
    : Search g (u :: waiting) seen (u :: listed)

namespace Search

theorem mem_of_waits (h : Search g waiting seen listed) (hv : v ∈ waiting) : v ∈ listed := by
  induction h with
  | done => exact hv
  | visit _ _ hjoin _ ih =>
    rcases List.mem_cons.mp hv with rfl | hv
    . exact List.mem_cons_self
    . exact List.mem_cons_of_mem _ (ih (hjoin.mem_iff.mpr (List.mem_append_right _ hv)))

theorem closed (h : Search g waiting seen listed) (hu : u ∈ listed) (hstep : g.Step u v)
    : v ∈ listed ∨ v ∈ seen := by
  induction h with
  | done => exact absurd hu List.not_mem_nil
  | @visit _ _ _ new seen _ hnew _ hjoin hrest ih =>
    by_cases hseen : v ∈ seen
    . exact Or.inr hseen
    . left
      apply List.mem_cons_of_mem
      have hlist : v ∈ new → v ∈ _ := fun hv =>
        hrest.mem_of_waits (hjoin.mem_iff.mpr (List.mem_append_left _ hv))
      rcases List.mem_cons.mp hu with rfl | hu
      . exact hlist ((hnew v).mpr ⟨hstep, hseen⟩)
      . rcases ih hu with hv | hv
        . exact hv
        . exact hlist ((List.mem_append.mp hv).resolve_right hseen)

theorem parent (h : Search g waiting seen listed) (hv : v ∈ listed)
    : v ∈ waiting ∨ ∃ u, Before listed u v ∧ g.Step u v := by
  induction h with
  | done => exact absurd hv List.not_mem_nil
  | @visit u _ _ _ _ _ hnew _ hjoin _ ih =>
    rcases List.mem_cons.mp hv with rfl | hv
    . exact Or.inl List.mem_cons_self
    . rcases ih hv with hwaits | ⟨x, hbefore, hstep⟩
      . rcases List.mem_append.mp (hjoin.mem_iff.mp hwaits) with hfresh | hwaits
        . exact Or.inr ⟨u, before_head hv, ((hnew v).mp hfresh).1⟩
        . exact Or.inl (List.mem_cons_of_mem u hwaits)
      . exact Or.inr ⟨x, hbefore.mono (List.sublist_cons_self u _), hstep⟩

theorem holds (h : Search g waiting seen listed) (hclosed : ∀ a b, P a → g.Step a b → P b)
    (hwaiting : ∀ u ∈ waiting, P u) : ∀ u ∈ listed, P u := by
  induction h with
  | done => exact hwaiting
  | visit hnew _ hjoin _ ih =>
    obtain ⟨hu, hwaiting⟩ := List.forall_mem_cons.mp hwaiting
    refine List.forall_mem_cons.mpr ⟨hu, ih ?_⟩
    intro v hv
    rcases List.mem_append.mp (hjoin.mem_iff.mp hv) with hv | hv
    . exact hclosed _ _ hu ((hnew v).mp hv).1
    . exact hwaiting v hv

theorem nodup (h : Search g waiting seen listed) (hnodup : waiting.Nodup)
    (hseen : ∀ v ∈ waiting, v ∈ seen)
    : listed.Nodup ∧ ∀ v ∈ listed, v ∈ waiting ∨ v ∉ seen := by
  -- What joins the nodes that wait has not been seen, and what waits has, so no node joins twice.
  induction h with
  | done => exact ⟨List.nodup_nil, nofun⟩
  | @visit u waiting _ new seen _ hnew hdistinct hjoin _ ih =>
    obtain ⟨hu, hnodup⟩ := List.nodup_cons.mp hnodup
    obtain ⟨huseen, hseen⟩ := List.forall_mem_cons.mp hseen
    have hfresh : ∀ v ∈ new, v ∉ seen := fun v hv => ((hnew v).mp hv).2
    have hjoined : (new ++ waiting).Nodup := by
      refine List.nodup_append.mpr ⟨hdistinct, hnodup, ?_⟩
      rintro v hv w hw rfl
      exact hfresh v hv (hseen v hw)
    obtain ⟨hrest, horigin⟩ := ih (hjoin.nodup_iff.mpr hjoined) (by
      intro v hv
      rw [hjoin.mem_iff, List.mem_append] at hv
      exact List.mem_append.mpr (hv.imp_right (hseen v)))
    simp only [hjoin.mem_iff, List.mem_append, not_or] at horigin
    constructor
    . refine List.nodup_cons.mpr ⟨?_, hrest⟩
      intro hmem
      rcases horigin u hmem with (hnew | hwaits) | ⟨-, hunseen⟩
      . exact hfresh u hnew huseen
      . exact hu hwaits
      . exact hunseen huseen
    . refine List.forall_mem_cons.mpr ⟨Or.inl List.mem_cons_self, ?_⟩
      intro v hv
      rcases horigin v hv with (hnew | hwaits) | ⟨-, hunseen⟩
      . exact Or.inr (hfresh v hnew)
      . exact Or.inl (List.mem_cons_of_mem u hwaits)
      . exact Or.inr hunseen

theorem covers (h : Search g [start] [start] listed) (hstart : start < g.nodeCount)
    : listed.Nodup ∧ ∀ v, v ∈ listed ↔ g.Reaches start v := by
  have hmem : start ∈ listed := h.mem_of_waits List.mem_cons_self
  refine ⟨(h.nodup (List.nodup_singleton start) (by simp)).1, fun v => ⟨?_, ?_⟩⟩
  . refine h.holds (P := g.Reaches start) (fun _ _ ha hstep => ha.tail hstep) ?_ v
    simpa using Reaches.refl hstart
  . intro hreaches
    refine hreaches.holds (P := (· ∈ listed)) ?_ hmem
    intro a b ha hstep
    rcases h.closed ha hstep with hb | hb
    . exact hb
    . rwa [List.mem_singleton.mp hb]

end Search

theorem search_dfsGo (h : Waiting g rounds stack seen)
    : Search g stack seen (dfs.go g rounds stack seen) := by
  induction rounds generalizing stack seen with
  | zero =>
    rw [h.stack_eq_nil]
    exact .done
  | succ rounds ih =>
    cases stack with
    | nil => exact .done
    | cons u stack =>
      have hjoin : ((g.unseen seen (g.successors u).reverse).reverse ++ stack).Perm
          (g.unseen seen (g.successors u).reverse ++ stack) :=
        (List.reverse_perm _).append_right stack
      refine .visit ?_ nodup_unseen hjoin (ih (h.step hjoin))
      intro v
      rw [mem_unseen, List.mem_reverse, Step, and_assoc]

theorem search_bfsGo (h : Waiting g rounds stack seen)
    : Search g stack seen (bfs.go g rounds stack seen) := by
  induction rounds generalizing stack seen with
  | zero =>
    rw [h.stack_eq_nil]
    exact .done
  | succ rounds ih =>
    cases stack with
    | nil => exact .done
    | cons u queue =>
      have hjoin : (queue ++ g.unseen seen (g.successors u)).Perm
          (g.unseen seen (g.successors u) ++ queue) := List.perm_append_comm
      refine .visit ?_ nodup_unseen hjoin (ih (h.step hjoin))
      intro v
      rw [mem_unseen, Step, and_assoc]

theorem search_dfs (hstart : start < g.nodeCount) : Search g [start] [start] (g.dfs start) := by
  unfold dfs
  rw [if_pos hstart]
  exact search_dfsGo (.initial hstart)

theorem search_bfs (hstart : start < g.nodeCount) : Search g [start] [start] (g.bfs start) := by
  unfold bfs
  rw [if_pos hstart]
  exact search_bfsGo (.initial hstart)

theorem mem_dfs_iff_reaches : v ∈ g.dfs start ↔ g.Reaches start v := by
  by_cases hstart : start < g.nodeCount
  . exact ((search_dfs hstart).covers hstart).2 v
  . constructor
    . intro hv
      simp [dfs, hstart] at hv
    . intro hreaches
      exact absurd hreaches.inRange hstart

instance : Decidable (g.Reaches u v) := decidable_of_iff (v ∈ g.dfs u) mem_dfs_iff_reaches

end MachineIR.FlowGraph
