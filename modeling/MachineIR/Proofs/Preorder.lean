import MachineIR.Proofs.Traversal

/-!
This module contains the order in which a depth-first visit enters the nodes and the one in which a
depth-first search lists them. Both are lists in which every node comes after one that leads to it. The
first one is the only such list in which nothing comes between a node and its successor but what is below
the node and belongs before the successor. The search marks a node as seen when the first node that leads
to it is listed, so its list has this property only with regard to these first nodes.
-/

namespace MachineIR.FlowGraph

variable {g : FlowGraph} {rounds a b u v w x start : Nat}
  {entered vs pre post l m p q stack seen order : List Nat}

def FitsBetween (g : FlowGraph) (order : List Nat) (x w v : Nat) : Prop :=
  (∃ y, Before order x y ∧ Before order y w ∧ w ∈ g.successors y) ∨
    (g.successors x).idxOf w < (g.successors x).idxOf v

def DepthFirst (g : FlowGraph) (order : List Nat) : Prop :=
  ∀ x w v, Before order x w → Before order w v → v ∈ g.successors x → g.FitsBetween order x w v

theorem depthFirst_nil : g.DepthFirst [] := fun _ _ _ hxw => absurd hxw not_before_nil

theorem FitsBetween.mono (h : g.FitsBetween l x w v) (hsub : l.Sublist m) : g.FitsBetween m x w v := by
  refine Or.imp_left ?_ h
  rintro ⟨y, hxy, hyw, hedge⟩
  exact ⟨y, hxy.mono hsub, hyw.mono hsub, hedge⟩

section Visits

theorem Visits.before_of_mem (h : Visits g entered vs pre post) (hbefore : Before pre w v) (hv : v ∈ vs)
    : (∃ y, Before pre y w ∧ w ∈ g.successors y) ∨ vs.idxOf w < vs.idxOf v := by
  induction h with
  | done => exact absurd hv List.not_mem_nil
  | @skip a _ _ pre _ hold hrest ih =>
    have hne : ∀ y ∈ pre, a ≠ y := by
      rintro _ hy rfl
      exact (hrest.fresh a hy).2 (hold (hrest.fresh a hy).1)
    have hv := (List.mem_cons.mp hv).resolve_left (hne v hbefore.mem_right).symm
    rw [List.idxOf_cons_ne _ (hne w hbefore.mem_left), List.idxOf_cons_ne _ (hne v hbefore.mem_right)]
    exact (ih hbefore hv).imp_right Nat.succ_lt_succ
  | @enter a _ _ pre pre' _ _ hrange hnew hbelow hrest _ ihrest =>
    obtain ⟨ha, hnodup⟩ := List.nodup_cons.mp (Visits.enter hrange hnew hbelow hrest).nodup
    have hne : ∀ y ∈ pre ++ pre', a ≠ y := fun y hy heq => ha (heq ▸ hy)
    have hne_v : a ≠ v := hne v hbefore.mem_tail
    have hv := (List.mem_cons.mp hv).resolve_left hne_v.symm
    rcases before_cons.mp hbefore with ⟨rfl, -⟩ | hbefore
    . rw [List.idxOf_cons_self, List.idxOf_cons_ne _ hne_v]
      exact Or.inr (Nat.succ_pos _)
    . rw [List.idxOf_cons_ne _ (hne w hbefore.mem_left), List.idxOf_cons_ne _ hne_v]
      rcases List.mem_append.mp hbefore.mem_left with hw | hw
      . left
        rcases hbelow.parent hw with hedge | ⟨y, hy, hstep⟩
        . exact ⟨a, before_head hbefore.mem_left, hedge⟩
        . exact ⟨y, hy.mono ((List.sublist_append_left pre pre').cons a), hstep.1⟩
      . rcases ihrest (hbefore.of_append_right hnodup hw) hv with ⟨y, hy, hedge⟩ | hlt
        . exact Or.inl ⟨y, hy.mono ((List.sublist_append_right pre pre').cons a), hedge⟩
        . exact Or.inr (Nat.succ_lt_succ hlt)

theorem Visits.depthFirst (h : Visits g entered vs pre post) : g.DepthFirst pre := by
  induction h with
  | done => exact depthFirst_nil
  | skip _ _ ih => exact ih
  | @enter a entered _ pre pre' _ _ hrange hnew hbelow hrest ihbelow ihrest =>
    intro x w v hxw hwv hedge
    have hvisits := Visits.enter hrange hnew hbelow hrest
    obtain ⟨ha, hnodup⟩ := List.nodup_cons.mp hvisits.nodup
    obtain ⟨hvrange, hvnew⟩ := hvisits.fresh v hwv.mem_right
    have hwv : Before (pre ++ pre') w v := hwv.of_cons hvisits.nodup hxw.mem_tail
    have hsub : pre.Sublist (a :: (pre ++ pre')) := (List.sublist_append_left pre pre').cons a
    -- A successor of `a` or of a node below it is below `a` itself, with all that comes before.
    have hinner : v ∈ a :: entered ∨ v ∈ pre → Before pre w v := by
      intro hv
      have hne : v ≠ a := fun heq => ha (heq ▸ hwv.mem_right)
      exact hwv.of_append_left hnodup (hv.resolve_left (by simp [hne, hvnew]))
    rcases before_cons.mp hxw with ⟨rfl, -⟩ | hxw
    . have hwv := hinner (hbelow.entered_of_mem hedge hvrange)
      refine (hbelow.before_of_mem hwv hedge).imp_left ?_
      rintro ⟨y, hyw, hy⟩
      exact ⟨y, before_head (List.mem_append_left pre' hyw.mem_left), hyw.mono hsub, hy⟩
    . rcases List.mem_append.mp hxw.mem_left with hx | hx
      . have hwv := hinner (hbelow.closed hx ⟨hedge, hvrange⟩)
        have hxw := hxw.of_append_left hnodup hwv.mem_left
        exact (ihbelow x w v hxw hwv hedge).mono hsub
      . have hxw := hxw.of_append_right hnodup hx
        have hwv := hwv.of_append_right hnodup hxw.mem_right
        exact (ihrest x w v hxw hwv hedge).mono ((List.sublist_append_right pre pre').cons a)

end Visits

section Unique

/-- A list that begins with `start` and names every other node once, after one that leads to it. -/
structure Grown (g : FlowGraph) (start : Nat) (order : List Nat) : Prop where
  first : order.head? = some start
  nodup : order.Nodup
  parent : ∀ v ∈ order, v ≠ start → ∃ u, Before order u v ∧ v ∈ g.successors u

theorem exists_last_of_mem {P : Nat → Prop} (h : ∃ x ∈ l, P x)
    : ∃ p x q, l = p ++ x :: q ∧ P x ∧ ∀ y ∈ q, ¬ P y := by
  induction l with
  | nil =>
    obtain ⟨x, hx, -⟩ := h
    exact absurd hx List.not_mem_nil
  | cons a l ih =>
    by_cases hl : ∃ x ∈ l, P x
    . obtain ⟨p, x, q, rfl, hx, hq⟩ := ih hl
      exact ⟨a :: p, x, q, rfl, hx, hq⟩
    . have hq : ∀ y ∈ l, ¬ P y := fun y hy hPy => hl ⟨y, hy, hPy⟩
      obtain ⟨x, hx, hPx⟩ := h
      rcases List.mem_cons.mp hx with rfl | hx
      . exact ⟨[], x, l, rfl, hPx, hq⟩
      . exact absurd hPx (hq x hx)

theorem Before.mem_of_append_cons (h : Before (p ++ w :: l) u w) (hnodup : (p ++ w :: l).Nodup)
    : u ∈ p := by
  rcases List.mem_append.mp h.mem_left with hu | hu
  . exact hu
  . have hw : w ∈ l := (h.of_append_right hnodup hu).mem_tail
    exact absurd hw (List.nodup_cons.mp hnodup.of_append_right).1

theorem mem_of_between (hnodup : (p ++ x :: q ++ w :: l).Nodup)
    (hxu : Before (p ++ x :: q ++ w :: l) x u) (huw : Before (p ++ x :: q ++ w :: l) u w) : u ∈ q := by
  have hxu : Before (p ++ x :: q) x u := hxu.of_append_left hnodup (huw.mem_of_append_cons hnodup)
  exact (hxu.of_append_right hnodup.of_append_left List.mem_cons_self).mem_tail

theorem DepthFirst.idxOf_lt (h : g.DepthFirst (p ++ x :: q ++ w :: l))
    (hnodup : (p ++ x :: q ++ w :: l).Nodup) (hnone : ∀ y ∈ q, w ∉ g.successors y) (hv : v ∈ l)
    (hedge : v ∈ g.successors x) : (g.successors x).idxOf w < (g.successors x).idxOf v := by
  have hxw : Before (p ++ x :: q ++ w :: l) x w := before_of_mem (by simp) List.mem_cons_self
  have hwv : Before (p ++ x :: q ++ w :: l) w v := (before_head hv).mono (List.sublist_append_right _ _)
  refine (h x w v hxw hwv hedge).resolve_left ?_
  rintro ⟨y, hxy, hyw, hy⟩
  exact hnone y (mem_of_between hnodup hxy hyw) hy

theorem mem_of_idxOf_lt (h : l.idxOf w < l.idxOf v) : w ∈ l :=
  List.idxOf_lt_length_iff.mp (Nat.lt_of_lt_of_le h List.idxOf_le_length)

theorem Grown.parent_mem (h : g.Grown start (p ++ w :: l)) (hp : p ≠ [])
    : ∃ x ∈ p, w ∈ g.successors x := by
  have hw : w ∈ p ++ w :: l := List.mem_append_right p List.mem_cons_self
  have hne : w ≠ start := by
    rintro rfl
    obtain ⟨a, p, rfl⟩ := List.exists_cons_of_ne_nil hp
    obtain rfl : a = w := by simpa using h.first
    exact (List.nodup_cons.mp h.nodup).1 (List.mem_append_right p List.mem_cons_self)
  obtain ⟨x, hx, hedge⟩ := h.parent w hw hne
  exact ⟨x, hx.mem_of_append_cons h.nodup, hedge⟩

theorem DepthFirst.next_eq (hl : g.DepthFirst (p ++ w :: l)) (hm : g.DepthFirst (p ++ v :: m))
    (hlgrown : g.Grown start (p ++ w :: l)) (hmnodup : (p ++ v :: m).Nodup)
    (hperm : (w :: l).Perm (v :: m)) (hp : p ≠ []) : w = v := by
  apply Classical.byContradiction
  intro hne
  have hw : w ∈ m := (List.mem_cons.mp (hperm.mem_iff.mp List.mem_cons_self)).resolve_left hne
  have hv : v ∈ l := (List.mem_cons.mp (hperm.mem_iff.mpr List.mem_cons_self)).resolve_left (Ne.symm hne)
  -- The last node listed so far that leads to `w` or to `v` has to lead to both of them.
  have hparent : ∃ x ∈ p, w ∈ g.successors x ∨ v ∈ g.successors x := by
    obtain ⟨x, hx, hedge⟩ := hlgrown.parent_mem hp
    exact ⟨x, hx, Or.inl hedge⟩
  obtain ⟨p, x, q, rfl, hx, hnone⟩ := exists_last_of_mem hparent
  have hwv := hl.idxOf_lt hlgrown.nodup (fun y hy h => hnone y hy (Or.inl h)) hv
  have hvw := hm.idxOf_lt hmnodup (fun y hy h => hnone y hy (Or.inr h)) hw
  rcases hx with hx | hx
  . have := hwv (mem_of_idxOf_lt (hvw hx))
    have := hvw hx
    omega
  . have := hvw (mem_of_idxOf_lt (hwv hx))
    have := hwv hx
    omega

theorem DepthFirst.append_eq (hl : g.DepthFirst (p ++ l)) (hm : g.DepthFirst (p ++ m))
    (hlgrown : g.Grown start (p ++ l)) (hmnodup : (p ++ m).Nodup) (hperm : l.Perm m) (hp : p ≠ [])
    : l = m := by
  induction l generalizing p m with
  | nil => exact hperm.nil_eq
  | cons w l ih =>
    cases m with
    | nil => exact absurd hperm.eq_nil (List.cons_ne_nil w l)
    | cons v m =>
      obtain rfl : w = v := hl.next_eq hm hlgrown hmnodup hperm hp
      rw [List.append_cons] at hl hm hlgrown hmnodup
      rw [ih hl hm hlgrown hmnodup hperm.cons_inv (by simp)]

theorem DepthFirst.unique (hl : g.DepthFirst l) (hm : g.DepthFirst m) (hlgrown : g.Grown start l)
    (hmgrown : g.Grown start m) (hmem : ∀ v, v ∈ l ↔ v ∈ m) : l = m := by
  have hperm : l.Perm m := (List.perm_ext_iff_of_nodup hlgrown.nodup hmgrown.nodup).mpr hmem
  obtain ⟨l, rfl⟩ := List.head?_eq_some_iff.mp hlgrown.first
  obtain ⟨m, rfl⟩ := List.head?_eq_some_iff.mp hmgrown.first
  have happend : l = m := DepthFirst.append_eq (p := [start]) hl hm hlgrown hmgrown.nodup
    hperm.cons_inv (List.cons_ne_nil start [])
  rw [happend]

end Unique

section Search

theorem idxOf_lt_of_before_unseen (h : Before (g.unseen seen vs) a b) : vs.idxOf a < vs.idxOf b := by
  fun_induction unseen g seen vs with
  | case1 seen => exact absurd h not_before_nil
  | case2 seen u vs hu ih =>
    have hne : ∀ v ∈ g.unseen (u :: seen) vs, u ≠ v := by
      rintro _ hv rfl
      exact (mem_unseen.mp hv).2.2 List.mem_cons_self
    rcases before_cons.mp h with ⟨rfl, hb⟩ | h
    . rw [List.idxOf_cons_self, List.idxOf_cons_ne _ (hne b hb)]
      exact Nat.succ_pos _
    . rw [List.idxOf_cons_ne _ (hne a h.mem_left), List.idxOf_cons_ne _ (hne b h.mem_right)]
      exact Nat.succ_lt_succ (ih h)
  | case3 seen u vs hu ih =>
    have hne : ∀ v ∈ g.unseen seen vs, u ≠ v := by
      rintro _ hv rfl
      obtain ⟨-, hrange, hunseen⟩ := mem_unseen.mp hv
      simp [hrange, hunseen] at hu
    rw [List.idxOf_cons_ne _ (hne a h.mem_left), List.idxOf_cons_ne _ (hne b h.mem_right)]
    exact Nat.succ_lt_succ (ih h)

theorem nodup_dfsGo (h : Waiting g rounds stack seen) : (dfs.go g rounds stack seen).Nodup :=
  ((search_dfsGo h).nodup h.stack_nodup h.waits.subset).1

theorem before_of_waits (h : Waiting g rounds stack seen)
    (hbefore : Before (dfs.go g rounds stack seen) w v) (hv : v ∈ stack)
    : Before stack w v ∨ ∃ y, Before (dfs.go g rounds stack seen) y w ∧ w ∈ g.successors y := by
  induction rounds generalizing stack seen with
  | zero => exact absurd hbefore not_before_nil
  | succ rounds ih =>
    cases stack with
    | nil => exact absurd hv List.not_mem_nil
    | cons u stack =>
      have hnodup := nodup_dfsGo h
      rw [dfs.go] at hbefore hnodup ⊢
      have hrest := h.step ((List.reverse_perm (g.unseen seen (g.successors u).reverse)).append_right stack)
      have hnew : ∀ x ∈ g.unseen seen (g.successors u).reverse, x ∈ g.successors u := fun x hx =>
        List.mem_reverse.mp (mem_unseen.mp hx).1
      have ih := @ih _ _ hrest
      have hstack := hrest.stack_nodup
      generalize g.unseen seen (g.successors u).reverse = new at *
      generalize dfs.go g rounds (new.reverse ++ stack) (new ++ seen) = rest at *
      have hne : v ≠ u := fun heq => (List.nodup_cons.mp hnodup).1 (heq ▸ hbefore.mem_tail)
      have hwaits : v ∈ stack := (List.mem_cons.mp hv).resolve_left hne
      rcases before_cons.mp hbefore with ⟨rfl, -⟩ | hbefore
      . exact Or.inl (before_head hwaits)
      . rcases ih hbefore (List.mem_append_right _ hwaits) with hjoined | ⟨y, hy, hedge⟩
        . rcases List.mem_append.mp hjoined.mem_left with hw | hw
          . exact Or.inr ⟨u, before_head hbefore.mem_left, hnew w (List.mem_reverse.mp hw)⟩
          . exact Or.inl ((hjoined.of_append_right hstack hw).mono (List.sublist_cons_self u stack))
        . exact Or.inr ⟨y, hy.mono (List.sublist_cons_self u rest), hedge⟩

theorem fits_after_head {new : List Nat} (hnew : new = g.unseen seen (g.successors x).reverse)
    (h : Waiting g rounds (new.reverse ++ stack) (new ++ seen))
    (hwv : Before (dfs.go g rounds (new.reverse ++ stack) (new ++ seen)) w v) (hv : v ∈ new)
    : (∃ y, Before (dfs.go g rounds (new.reverse ++ stack) (new ++ seen)) y w ∧ w ∈ g.successors y) ∨
      w ∈ g.successors x ∧ (g.successors x).reverse.idxOf v < (g.successors x).reverse.idxOf w := by
  have hv : v ∈ new.reverse := List.mem_reverse.mpr hv
  rcases before_of_waits h hwv (List.mem_append_left stack hv) with hwaits | hfound
  . have hbefore : Before new v w := before_reverse.mp (hwaits.of_append_left h.stack_nodup hv)
    rw [hnew] at hbefore
    exact Or.inr ⟨List.mem_reverse.mp (mem_unseen.mp hbefore.mem_right).1,
      idxOf_lt_of_before_unseen hbefore⟩
  . exact Or.inl hfound

theorem fits_after_first (h : Waiting g rounds stack seen)
    (hxw : Before (dfs.go g rounds stack seen) x w) (hwv : Before (dfs.go g rounds stack seen) w v)
    (hedge : v ∈ g.successors x) (hunseen : v ∉ seen)
    (hfirst : ∀ z, Before (dfs.go g rounds stack seen) z x → v ∉ g.successors z)
    : (∃ y, Before (dfs.go g rounds stack seen) x y ∧ Before (dfs.go g rounds stack seen) y w ∧
        w ∈ g.successors y) ∨
      w ∈ g.successors x ∧ (g.successors x).reverse.idxOf v < (g.successors x).reverse.idxOf w := by
  -- The search is followed to the visit of `x`. Until then no edge has led to `v`, so `v` starts to
  -- wait there.
  induction rounds generalizing stack seen with
  | zero => exact absurd hxw not_before_nil
  | succ rounds ih =>
    cases stack with
    | nil => exact absurd hxw not_before_nil
    | cons u stack =>
      have hnodup := nodup_dfsGo h
      have hrange := (search_dfsGo h).holds (P := (· < g.nodeCount)) (fun _ _ _ hstep => hstep.2)
        (fun y hy => h.range y (h.waits.subset hy)) v hwv.mem_right
      rw [dfs.go] at hxw hwv hfirst hnodup ⊢
      have hrest := h.step ((List.reverse_perm (g.unseen seen (g.successors u).reverse)).append_right stack)
      have hnew : v ∈ g.unseen seen (g.successors u).reverse ↔ v ∈ g.successors u := by
        simp [mem_unseen, hrange, hunseen]
      have hwv := hwv.of_cons hnodup hxw.mem_tail
      have hsub := List.sublist_cons_self u (dfs.go g rounds
        ((g.unseen seen (g.successors u).reverse).reverse ++ stack)
        (g.unseen seen (g.successors u).reverse ++ seen))
      rcases before_cons.mp hxw with ⟨rfl, -⟩ | hxw
      . refine (fits_after_head rfl hrest hwv (hnew.mpr hedge)).imp_left ?_
        rintro ⟨y, hy, hyw⟩
        exact ⟨y, before_head hy.mem_left, hy.mono hsub, hyw⟩
      . have hunseen' : v ∉ g.unseen seen (g.successors u).reverse ++ seen := by
          rw [List.mem_append, not_or, hnew]
          exact ⟨hfirst u (before_head hxw.mem_left), hunseen⟩
        refine (ih hrest hxw hwv hunseen' fun z hz => hfirst z (hz.mono hsub)).imp_left ?_
        rintro ⟨y, hxy, hyw, hy⟩
        exact ⟨y, hxy.mono hsub, hyw.mono hsub, hy⟩

end Search

theorem idxOf_lt_of_reverse (hv : v ∈ l) (hw : w ∈ l) (hcount : l.count v ≤ 1)
    (h : l.reverse.idxOf v < l.reverse.idxOf w) : l.idxOf w < l.idxOf v := by
  obtain ⟨p, q, rfl, hp⟩ := List.eq_append_cons_of_mem hv
  have hq : v ∉ q := by
    rw [List.count_append, List.count_cons_self] at hcount
    exact List.count_eq_zero.mp (by omega)
  have hne : w ≠ v := by
    rintro rfl
    exact Nat.lt_irrefl _ h
  have hwp : w ∈ p := by
    rcases List.mem_append.mp hw with hw | hw
    . exact hw
    . have hwq : w ∈ q.reverse := List.mem_reverse.mpr ((List.mem_cons.mp hw).resolve_left hne)
      have hvq : v ∉ q.reverse := mt List.mem_reverse.mp hq
      have hlt := List.idxOf_lt_length_of_mem hwq
      rw [List.reverse_append, List.reverse_cons, List.append_assoc, List.idxOf_append_of_mem hwq,
        List.idxOf_append_of_notMem hvq] at h
      omega
  rw [List.idxOf_append_of_mem hwp, List.idxOf_append_of_notMem hp]
  have := List.idxOf_lt_length_of_mem hwp
  omega

theorem Visits.grown (h : Visits g [] [start] pre post) (hstart : start < g.nodeCount)
    : g.Grown start pre := by
  obtain ⟨_, _, hpre, -⟩ := h.encloses hstart
  refine ⟨by rw [hpre]; rfl, h.nodup, ?_⟩
  intro v hv hne
  rcases h.parent hv with hmem | ⟨u, hbefore, hstep⟩
  . exact absurd (List.mem_singleton.mp hmem) hne
  . exact ⟨u, hbefore, hstep.1⟩

theorem Search.grown (h : Search g [start] [start] order) (hstart : start < g.nodeCount)
    : g.Grown start order := by
  refine ⟨?_, (h.covers hstart).1, ?_⟩
  . cases h with
    | visit _ _ _ _ => rfl
  . intro v hv hne
    rcases h.parent hv with hmem | ⟨u, hbefore, hstep⟩
    . exact absurd (List.mem_singleton.mp hmem) hne
    . exact ⟨u, hbefore, hstep.1⟩

def LedToTwice (g : FlowGraph) (order : List Nat) (x v : Nat) : Prop :=
  (∃ z, Before order z x ∧ v ∈ g.successors z) ∨ 1 < (g.successors x).count v

theorem fitsBetween_dfs (hstart : start < g.nodeCount) (hxw : Before (g.dfs start) x w)
    (hwv : Before (g.dfs start) w v) (hedge : v ∈ g.successors x) (honce : ¬ g.LedToTwice (g.dfs start) x v)
    : g.FitsBetween (g.dfs start) x w v := by
  have hgrown := (search_dfs hstart).grown hstart
  have hunseen : v ∉ [start] := by
    obtain ⟨rest, hrest⟩ := List.head?_eq_some_iff.mp hgrown.first
    have hnodup := hgrown.nodup
    rw [hrest] at hnodup hwv
    intro hv
    rw [List.mem_singleton.mp hv] at hwv
    exact (List.nodup_cons.mp hnodup).1 hwv.mem_tail
  have hfirst : ∀ z, Before (g.dfs start) z x → v ∉ g.successors z := fun z hzx hz =>
    honce (Or.inl ⟨z, hzx, hz⟩)
  have hcount : (g.successors x).count v ≤ 1 := Nat.not_lt.mp fun hlt => honce (Or.inr hlt)
  unfold FitsBetween
  unfold dfs at hxw hwv hfirst ⊢
  rw [if_pos hstart] at hxw hwv hfirst ⊢
  refine (fits_after_first (.initial hstart) hxw hwv hedge hunseen hfirst).imp_right ?_
  rintro ⟨hw, hlt⟩
  exact idxOf_lt_of_reverse hedge hw hcount hlt

theorem dfs_eq_preorder_iff (g : FlowGraph) (start : Nat)
    : g.dfs start = g.preorder start ↔
        ∀ x w v, Before (g.dfs start) x w → Before (g.dfs start) w v → v ∈ g.successors x →
          g.LedToTwice (g.dfs start) x v → g.FitsBetween (g.dfs start) x w v := by
  by_cases hstart : start < g.nodeCount
  . have hsearch := search_dfs hstart
    have hvisits := visits_orders hstart
    have hmem : ∀ v, v ∈ g.dfs start ↔ v ∈ g.preorder start := by
      intro v
      rw [(hsearch.covers hstart).2, (hvisits.covers hstart).2]
    constructor
    . intro heq x w v hxw hwv hedge _
      rw [heq] at hxw hwv ⊢
      exact hvisits.depthFirst x w v hxw hwv hedge
    . intro hfits
      have hdepth : g.DepthFirst (g.dfs start) := by
        intro x w v hxw hwv hedge
        by_cases htwice : g.LedToTwice (g.dfs start) x v
        . exact hfits x w v hxw hwv hedge htwice
        . exact fitsBetween_dfs hstart hxw hwv hedge htwice
      exact hdepth.unique hvisits.depthFirst (hsearch.grown hstart) (hvisits.grown hstart) hmem
  . have hdfs : g.dfs start = [] := by simp [dfs, hstart]
    have hpre : g.preorder start = [] := by simp [preorder, hstart]
    rw [hdfs, hpre]
    exact ⟨fun _ _ _ _ hxw => absurd hxw not_before_nil, fun _ => rfl⟩

def meetingWays : FlowGraph := ofEdges 5 0 [(0, 1), (0, 2), (1, 3), (2, 3), (3, 0), (3, 3), (2, 9)]

theorem dfs_eq_preorder_iff_meetingWays : meetingWays.dfs 0 = meetingWays.preorder 0 := by
  rw [dfs_eq_preorder_iff]
  intro x w v hxw hwv hedge htwice
  have honce : ∀ x ∈ meetingWays.dfs 0, ∀ v ∈ meetingWays.dfs 0, v ∈ meetingWays.successors x →
      Before (meetingWays.dfs 0) x v → (meetingWays.successors x).count v = 1 ∧
        ∀ z ∈ meetingWays.dfs 0, Before (meetingWays.dfs 0) z x → v ∉ meetingWays.successors z := by
    decide
  have hxv := hxw.trans hwv (by decide)
  obtain ⟨hcount, hnone⟩ := honce x hxv.mem_left v hxv.mem_right hedge hxv
  rcases htwice with ⟨z, hzx, hz⟩ | htwice
  . exact absurd hz (hnone z hzx.mem_left hzx)
  . omega

def overtaken : FlowGraph := ofEdges 4 0 [(0, 1), (0, 2), (0, 3), (1, 3)]

theorem dfs_ne_preorder_overtaken
    : overtaken.dfs 0 = [0, 1, 2, 3] ∧ overtaken.preorder 0 = [0, 1, 3, 2] ∧
      (ofEdges 3 0 [(0, 1), (0, 2), (0, 1)]).dfs 0 = [0, 2, 1] ∧
      (ofEdges 3 0 [(0, 1), (0, 2), (0, 1)]).preorder 0 = [0, 1, 2] := by
  decide

end MachineIR.FlowGraph
