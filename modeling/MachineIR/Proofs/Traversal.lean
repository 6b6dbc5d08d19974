import MachineIR.Proofs.Reachability

/-!
This module contains depth-first visits as a relation that knows no bound on their depth. There is one
visit of each list of nodes, and there is depth enough for a recursive function to carry it out. It enters
all nodes that can be reached, each once, and leaves them again. The postorder, which keeps the nodes that
are being visited on a stack, carries out the same visit.
-/

namespace MachineIR.FlowGraph

structure Visit where
  entered : List Nat := []
  left : List Nat := []

def visit (g : FlowGraph) : Nat → Nat → Visit → Visit
  | 0, _, s => s
  | depth + 1, u, s =>
    let s := (g.successors u).foldl
      (fun s v => if v < g.nodeCount && !s.entered.contains v then visit g depth v s else s)
      { s with entered := u :: s.entered }
    { s with left := u :: s.left }

variable {g : FlowGraph} {P : Nat → Prop} {s : Visit} {depth rounds u v start : Nat}
  {entered vs pre pre' post post' : List Nat} {stack : List (Nat × List Nat)}

/--
A depth-first visit of a list of nodes, where some nodes have been entered already: the nodes that are
entered, in this order, and the same nodes in the order in which they are left.
-/
inductive Visits (g : FlowGraph) : List Nat → List Nat → List Nat → List Nat → Prop
  | done {entered : List Nat} : Visits g entered [] [] []
  | skip {v : Nat} {entered vs pre post : List Nat} (hold : v < g.nodeCount → v ∈ entered)
    (hrest : Visits g entered vs pre post) : Visits g entered (v :: vs) pre post
  | enter {v : Nat} {entered vs pre pre' post post' : List Nat} (hrange : v < g.nodeCount)
    (hnew : v ∉ entered) (hbelow : Visits g (v :: entered) (g.successors v) pre post)
    (hrest : Visits g (pre.reverse ++ v :: entered) vs pre' post')
    : Visits g entered (v :: vs) (v :: (pre ++ pre')) (post ++ v :: post')

namespace Visits

theorem fresh (h : Visits g entered vs pre post) : ∀ v ∈ pre, v < g.nodeCount ∧ v ∉ entered := by
  induction h with
  | done => exact nofun
  | skip _ _ ih => exact ih
  | enter hrange hnew _ _ ihbelow ihrest =>
    refine List.forall_mem_cons.mpr ⟨⟨hrange, hnew⟩, List.forall_mem_append.mpr ⟨?_, ?_⟩⟩
    . intro w hw
      have := ihbelow w hw
      simp_all
    . intro w hw
      have := ihrest w hw
      simp_all

theorem nodup (h : Visits g entered vs pre post) : pre.Nodup := by
  induction h with
  | done => exact List.nodup_nil
  | skip _ _ ih => exact ih
  | @enter v _ _ pre pre' _ _ _ _ hbelow hrest ihbelow ihrest =>
    have hv : v ∉ pre ++ pre' := by
      rw [List.mem_append]
      rintro (hv | hv)
      . exact (hbelow.fresh v hv).2 List.mem_cons_self
      . exact (hrest.fresh v hv).2 (List.mem_append_right _ List.mem_cons_self)
    refine List.nodup_cons.mpr ⟨hv, List.nodup_append.mpr ⟨ihbelow, ihrest, ?_⟩⟩
    rintro w hw x hx rfl
    exact (hrest.fresh w hx).2 (List.mem_append_left _ (List.mem_reverse.mpr hw))

theorem perm (h : Visits g entered vs pre post) : post.Perm pre := by
  induction h with
  | done => exact .refl []
  | skip _ _ ih => exact ih
  | @enter v _ _ _ _ _ _ _ _ _ _ ihbelow ihrest =>
    exact List.perm_middle.trans ((ihbelow.append ihrest).cons v)

theorem entered_of_mem (h : Visits g entered vs pre post) (hv : v ∈ vs) (hrange : v < g.nodeCount)
    : v ∈ entered ∨ v ∈ pre := by
  induction h with
  | done => exact absurd hv List.not_mem_nil
  | skip hold _ ih =>
    rcases List.mem_cons.mp hv with rfl | hv
    . exact Or.inl (hold hrange)
    . exact ih hv
  | enter _ _ _ _ _ ihrest =>
    rcases List.mem_cons.mp hv with rfl | hv
    . exact Or.inr List.mem_cons_self
    . have := ihrest hv
      grind

theorem closed (h : Visits g entered vs pre post) (hu : u ∈ pre) (hstep : g.Step u v)
    : v ∈ entered ∨ v ∈ pre := by
  induction h with
  | done => exact absurd hu List.not_mem_nil
  | skip _ _ ih => exact ih hu
  | enter _ _ hbelow _ ihbelow ihrest =>
    rw [List.mem_cons, List.mem_append] at hu
    rcases hu with rfl | hu | hu
    . have := hbelow.entered_of_mem hstep.1 hstep.2
      grind
    . have := ihbelow hu
      grind
    . have := ihrest hu
      grind

theorem parent (h : Visits g entered vs pre post) (hv : v ∈ pre)
    : v ∈ vs ∨ ∃ u, Before pre u v ∧ g.Step u v := by
  induction h with
  | done => exact absurd hv List.not_mem_nil
  | skip _ _ ih => exact (ih hv).imp_left (List.mem_cons_of_mem _)
  | @enter a _ _ pre pre' _ _ _ _ hbelow hrest ihbelow ihrest =>
    rcases List.mem_cons.mp hv with rfl | hv'
    . exact Or.inl List.mem_cons_self
    . rcases List.mem_append.mp hv' with hbelow' | hrest'
      . right
        rcases ihbelow hbelow' with hedge | ⟨u, hbefore, hstep⟩
        . exact ⟨a, before_head hv', hedge, (hbelow.fresh v hbelow').1⟩
        . exact ⟨u, hbefore.mono ((List.sublist_append_left pre pre').cons a), hstep⟩
      . rcases ihrest hrest' with hmem | ⟨u, hbefore, hstep⟩
        . exact Or.inl (List.mem_cons_of_mem a hmem)
        . exact Or.inr ⟨u, hbefore.mono ((List.sublist_append_right pre pre').cons a), hstep⟩

theorem holds (h : Visits g entered vs pre post) (hclosed : ∀ a b, P a → g.Step a b → P b)
    (hvs : ∀ v ∈ vs, v < g.nodeCount → P v) : ∀ v ∈ pre, P v := by
  induction h with
  | done => exact nofun
  | skip _ _ ih => exact ih (List.forall_mem_cons.mp hvs).2
  | enter hrange _ _ _ ihbelow ihrest =>
    obtain ⟨hv, hvs⟩ := List.forall_mem_cons.mp hvs
    refine List.forall_mem_cons.mpr ⟨hv hrange, List.forall_mem_append.mpr ⟨ihbelow ?_, ihrest hvs⟩⟩
    intro w hw hlt
    exact hclosed _ w (hv hrange) ⟨hw, hlt⟩

theorem reached (h : Visits g entered vs pre post) (hv : v ∈ pre) : ∃ u ∈ vs, g.Reaches u v := by
  refine h.holds (P := fun v => ∃ u ∈ vs, g.Reaches u v) ?_ ?_ v hv
  . rintro a b ⟨u, hu, hreaches⟩ hstep
    exact ⟨u, hu, hreaches.tail hstep⟩
  . intro u hu hrange
    exact ⟨u, hu, .refl hrange⟩

theorem unique (h : Visits g entered vs pre post) (h' : Visits g entered vs pre' post')
    : pre = pre' ∧ post = post' := by
  induction h generalizing pre' post' with
  | done =>
    cases h'
    exact ⟨rfl, rfl⟩
  | skip hold _ ih =>
    cases h' with
    | skip _ hrest => exact ih hrest
    | enter hrange hnew _ _ => exact absurd (hold hrange) hnew
  | enter hrange hnew _ _ ihbelow ihrest =>
    cases h' with
    | skip hold _ => exact absurd (hold hrange) hnew
    | enter _ _ hbelow hrest =>
      obtain ⟨rfl, rfl⟩ := ihbelow hbelow
      obtain ⟨rfl, rfl⟩ := ihrest hrest
      exact ⟨rfl, rfl⟩

theorem encloses (h : Visits g [] [start] pre post) (hstart : start < g.nodeCount)
    : ∃ pre' post', pre = start :: pre' ∧ post = post' ++ [start] := by
  cases h with
  | skip hold _ => exact absurd (hold hstart) List.not_mem_nil
  | enter _ _ _ hrest =>
    cases hrest with
    | done => exact ⟨_, _, rfl, rfl⟩

theorem covers (h : Visits g [] [start] pre post) (hstart : start < g.nodeCount)
    : pre.Nodup ∧ ∀ v, v ∈ pre ↔ g.Reaches start v := by
  have hmem : start ∈ pre := by simpa using h.entered_of_mem List.mem_cons_self hstart
  refine ⟨h.nodup, fun v => ⟨?_, ?_⟩⟩
  . intro hv
    simpa using h.reached hv
  . intro hreaches
    refine hreaches.holds (P := (· ∈ pre)) ?_ hmem
    intro a b ha hstep
    simpa using h.closed ha hstep

end Visits

section Depth

def Visit.extend (s : Visit) (pre post : List Nat) : Visit where
  entered := pre.reverse ++ s.entered
  left := post.reverse ++ s.left

theorem Waiting.enter (h : Waiting g depth [] entered) (hu : u < g.nodeCount) (hnew : u ∉ entered)
    : Waiting g depth [u] (u :: entered) where
  nodup := List.nodup_cons.mpr ⟨hnew, h.nodup⟩
  range := List.forall_mem_cons.mpr ⟨hu, h.range⟩
  waits := (List.singleton_sublist.mpr List.mem_cons_self).subperm
  enough := by
  -- A node that is new takes one level of the depth, so there is one left.
    have := h.enough
    simp only [List.length_cons, List.length_nil] at this ⊢
    omega

theorem Waiting.visited (h : Waiting g depth [] entered) (hvisits : Visits g entered vs pre post)
    : Waiting g depth [] (pre.reverse ++ entered) where
  nodup := by
    refine List.nodup_append.mpr ⟨List.nodup_reverse.mpr hvisits.nodup, h.nodup, ?_⟩
    rintro v hv w hw rfl
    exact (hvisits.fresh v (List.mem_reverse.mp hv)).2 hw
  range := by
    intro v hv
    rcases List.mem_append.mp hv with hv | hv
    . exact (hvisits.fresh v (List.mem_reverse.mp hv)).1
    . exact h.range v hv
  waits := List.nil_subperm
  enough := by
    have := h.enough
    rw [List.length_append]
    omega

theorem visits_foldl (vs : List Nat)
    (hvisit : ∀ (u : Nat) (s : Visit), Waiting g depth [] s.entered → u < g.nodeCount →
      u ∉ s.entered → ∃ pre post, Visits g (u :: s.entered) (g.successors u) pre post ∧
        g.visit depth u s = s.extend (u :: pre) (post ++ [u]))
    (h : Waiting g depth [] s.entered)
    : ∃ pre post, Visits g s.entered vs pre post ∧
        vs.foldl (fun s v =>
          if v < g.nodeCount && !s.entered.contains v then g.visit depth v s else s) s =
            s.extend pre post := by
  -- A successor that has been entered in the meantime is skipped; the others are visited from where
  -- the visits before them ended.
  induction vs generalizing s with
  | nil => exact ⟨[], [], .done, rfl⟩
  | cons v vs ih =>
    rw [List.foldl_cons]
    split
    next hfresh =>
      simp only [Bool.and_eq_true, decide_eq_true_eq, Bool.not_eq_true', List.contains_eq_mem,
        decide_eq_false_iff_not] at hfresh
      obtain ⟨pre, post, hbelow, heq⟩ := hvisit v s h hfresh.1 hfresh.2
      have hentered : (s.extend (v :: pre) (post ++ [v])).entered = pre.reverse ++ v :: s.entered := by
        simp [Visit.extend]
      have hwaiting : Waiting g depth [] (s.extend (v :: pre) (post ++ [v])).entered := by
        have := h.visited (.enter hfresh.1 hfresh.2 hbelow .done)
        rwa [List.append_nil] at this
      rw [heq]
      obtain ⟨pre', post', hrest, heq'⟩ := ih hwaiting
      rw [hentered] at hrest
      refine ⟨_, _, .enter hfresh.1 hfresh.2 hbelow hrest, heq'.trans ?_⟩
      simp [Visit.extend]
    next hold =>
      obtain ⟨pre, post, hrest, heq⟩ := ih h
      refine ⟨pre, post, .skip ?_ hrest, heq⟩
      intro hlt
      simpa [hlt] using hold

theorem visits_visit (h : Waiting g depth [] s.entered) (hu : u < g.nodeCount) (hnew : u ∉ s.entered)
    : ∃ pre post, Visits g (u :: s.entered) (g.successors u) pre post ∧
        g.visit depth u s = s.extend (u :: pre) (post ++ [u]) := by
  induction depth generalizing u s with
  | zero => exact absurd (h.enter hu hnew).stack_eq_nil (List.cons_ne_nil u [])
  | succ depth ih =>
    have hbelow : Waiting g depth [] (g.unseen (u :: s.entered) [] ++ u :: s.entered) :=
      (h.enter hu hnew).step (.refl [])
    obtain ⟨pre, post, hvisits, heq⟩ := visits_foldl (s := { s with entered := u :: s.entered })
      (g.successors u) (fun u s h hu hnew => ih h hu hnew) hbelow
    refine ⟨pre, post, hvisits, ?_⟩
    rw [visit, heq]
    simp [Visit.extend]

end Depth

def preorder (g : FlowGraph) (start : Nat) : List Nat :=
  if start < g.nodeCount then (g.visit g.nodeCount start {}).entered.reverse else []

theorem visits_start (hstart : start < g.nodeCount) (hdepth : g.nodeCount ≤ depth)
    : Visits g [] [start] (g.visit depth start {}).entered.reverse
        (g.visit depth start {}).left.reverse := by
  have hwaiting : Waiting g depth [] ({} : Visit).entered :=
    ⟨List.nodup_nil, nofun, List.nil_subperm, hdepth⟩
  obtain ⟨pre, post, hvisits, heq⟩ := visits_visit hwaiting hstart List.not_mem_nil
  have hstarted := Visits.enter hstart List.not_mem_nil hvisits .done
  rw [heq]
  simpa [Visit.extend] using hstarted

section Stack

theorem postorderGo_nil (rounds : Nat) (seen : List Nat) : postorder.go g rounds [] seen = [] := by
  cases rounds <;> rfl

theorem postorderGo_skip (hold : v < g.nodeCount → v ∈ entered)
    : postorder.go g (rounds + 1) ((u, v :: vs) :: stack) entered =
        postorder.go g (rounds + 1) ((u, vs) :: stack) entered := by
  have hskip : (!(v < g.nodeCount && !entered.contains v)) = true := by
    by_cases hv : v < g.nodeCount
    . simp [hv, hold hv]
    . simp [hv]
  rw [postorder.go, postorder.go, List.dropWhile_cons, if_pos hskip]

theorem postorderGo_enter (hrange : v < g.nodeCount) (hnew : v ∉ entered)
    : postorder.go g (rounds + 1) ((u, v :: vs) :: stack) entered =
        postorder.go g rounds ((v, g.successors v) :: (u, vs) :: stack) (v :: entered) := by
  rw [postorder.go, List.dropWhile_cons, if_neg (by simp [hrange, hnew])]

theorem Visits.postorderGo (h : Visits g entered vs pre post) (rounds u : Nat)
    (stack : List (Nat × List Nat))
    : postorder.go g (rounds + 2 * pre.length + 1) ((u, vs) :: stack) entered =
        post ++ u :: postorder.go g rounds stack (pre.reverse ++ entered) := by
  induction h generalizing rounds u stack with
  | done => rfl
  | skip hold _ ih => rw [postorderGo_skip hold, ih]
  | @enter v entered vs pre pre' post post' hrange hnew _ _ ihbelow ihrest =>
    have hrounds : rounds + 2 * (v :: (pre ++ pre')).length =
        (rounds + 2 * pre'.length + 1) + 2 * pre.length + 1 := by
      rw [List.length_cons, List.length_append]
      omega
    rw [postorderGo_enter hrange hnew, hrounds, ihbelow, ihrest]
    simp

theorem Visits.postorderGo_start (h : Visits g [] [start] pre post) (hstart : start < g.nodeCount)
    (hrounds : 2 * g.nodeCount ≤ rounds)
    : postorder.go g rounds [(start, g.successors start)] [start] = post := by
  have hlength : pre.length ≤ g.nodeCount := by
    have hsub : pre ⊆ List.range g.nodeCount := fun v hv => List.mem_range.mpr (h.fresh v hv).1
    simpa using (List.subperm_of_subset h.nodup hsub).length_le
  cases h with
  | skip hold _ => exact absurd (hold hstart) List.not_mem_nil
  | @enter _ _ _ pre _ _ _ _ _ hbelow hrest =>
    cases hrest with
    | done =>
      rw [List.append_nil, List.length_cons] at hlength
      obtain ⟨more, rfl⟩ := Nat.exists_eq_add_of_le (show 2 * pre.length + 1 ≤ rounds by omega)
      rw [show 2 * pre.length + 1 + more = more + 2 * pre.length + 1 by omega, hbelow.postorderGo,
        postorderGo_nil]

end Stack

theorem visits_orders (hstart : start < g.nodeCount)
    : Visits g [] [start] (g.preorder start) (g.postorder start) := by
  have hvisits := visits_start hstart (Nat.le_refl _)
  unfold preorder postorder
  rw [if_pos hstart, if_pos hstart, hvisits.postorderGo_start hstart (Nat.le_refl _)]
  exact hvisits

theorem postorder_covers (hstart : start < g.nodeCount)
    : (g.postorder start).Nodup ∧ ∀ v, v ∈ g.postorder start ↔ g.Reaches start v := by
  have hvisits := visits_orders hstart
  obtain ⟨hnodup, hmem⟩ := hvisits.covers hstart
  exact ⟨hvisits.perm.nodup_iff.mpr hnodup, fun v => hvisits.perm.mem_iff.trans (hmem v)⟩

def Closed (g : FlowGraph) (P : Nat → Prop) : Prop := ∀ u, P u → ∀ v ∈ g.successors u, P v

theorem reversePostorder_sound (hclosed : g.Closed P) (hstart : P start)
    : (g.reversePostorder start).Nodup ∧ ∀ v ∈ g.reversePostorder start, P v := by
  by_cases hrange : start < g.nodeCount
  . obtain ⟨hnodup, hmem⟩ := postorder_covers hrange
    refine ⟨List.nodup_reverse.mpr hnodup, ?_⟩
    intro v hv
    have hreaches : g.Reaches start v := (hmem v).mp (List.mem_reverse.mp hv)
    exact hreaches.holds (fun u v hu hstep => hclosed u hu v hstep.1) hstart
  . unfold reversePostorder postorder
    simp [hrange]

end MachineIR.FlowGraph
