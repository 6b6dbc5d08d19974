import MachineIR.Proofs.Dominance
import MachineIR.Proofs.Postorder

/-!
This module contains how the blocks of a routine are laid out. The blocks that jumps lead to from the
entry come first, in reverse postorder, and the rest follow as they were. The layout is all that changes,
along with the names of the blocks, which are their positions.
-/

namespace MachineIR.Routine

variable {r : Routine} {a b c e u v : BlockId}

def LeadsTo (r : Routine) (a b : BlockId) : Prop := ∃ p, r.JumpPath a b p

def Reached (r : Routine) (b : BlockId) : Prop := ∃ e, r.entry? = some e ∧ r.LeadsTo e b

section Nodes

theorem toNat_mem_successors : v.toNat ∈ r.flowGraph.successors u.toNat ↔ v ∈ r.targets u := by
  rw [successors_flowGraph, BlockId.ofNat_toNat]
  constructor
  . intro h
    rw [← BlockId.ofNat_toNat v]
    exact ofNat_mem_of_mem_map h
  . exact List.mem_map_of_mem

theorem leadsTo_iff (hsmall : r.Small) : r.LeadsTo a b ↔ r.flowGraph.Reaches a.toNat b.toNat := by
  constructor
  . rintro ⟨p, hp⟩
    exact ⟨p.map BlockId.toNat, hp.map (fun _ hlt => hlt) fun _ _ => toNat_mem_successors.mpr⟩
  . rintro ⟨p, hp⟩
    refine ⟨p.map BlockId.ofNat, ?_⟩
    rw [← BlockId.ofNat_toNat a, ← BlockId.ofNat_toNat b]
    refine hp.map ?_ ?_
    . intro n hn
      rwa [BlockId.toNat_ofNat (Nat.lt_of_lt_of_le hn hsmall.blocks)]
    . intro m n hmn
      rw [successors_flowGraph] at hmn
      exact ofNat_mem_of_mem_map hmn

def reachedFrom (r : Routine) (e : BlockId) : List BlockId :=
  (r.flowGraph.reversePostorder e.toNat).map BlockId.ofNat

variable (hsmall : r.Small) (he : e.toNat < r.blocks.size)
include hsmall he

theorem mem_reachedFrom : b ∈ r.reachedFrom e ↔ r.LeadsTo e b := by
  have hcovers : ∀ n, n ∈ r.flowGraph.reversePostorder e.toNat ↔ r.flowGraph.Reaches e.toNat n :=
    fun n => List.mem_reverse.trans ((FlowGraph.postorder_covers (g := r.flowGraph) he).2 n)
  rw [leadsTo_iff hsmall, ← hcovers]
  unfold reachedFrom
  constructor
  . intro hb
    obtain ⟨n, hn, rfl⟩ := List.mem_map.mp hb
    obtain ⟨p, hp⟩ := (hcovers n).mp hn
    have hlt : n < r.blocks.size := hp.inRange_of_mem hp.last_mem
    rwa [BlockId.toNat_ofNat (Nat.lt_of_lt_of_le hlt hsmall.blocks)]
  . intro hb
    rw [← BlockId.ofNat_toNat b]
    exact List.mem_map_of_mem hb

omit hsmall in
theorem head?_reachedFrom : (r.reachedFrom e).head? = some e := by
  obtain ⟨_, post, -, hpost⟩ := (FlowGraph.visits_orders (g := r.flowGraph) he).encloses he
  unfold reachedFrom FlowGraph.reversePostorder
  rw [hpost]
  simp [BlockId.ofNat_toNat]

theorem sublist_reachedFrom (hu : r.LeadsTo e u) (hv : r.LeadsTo e v) (hjump : v ∈ r.targets u)
    : [u, v].Sublist (r.reachedFrom e) ∨ r.LeadsTo v u := by
  have hvisits := FlowGraph.visits_orders (g := r.flowGraph) he
  have hcovers := (FlowGraph.postorder_covers (g := r.flowGraph) he).2
  rw [leadsTo_iff hsmall] at hu hv
  obtain ⟨p, hp⟩ := hv
  rw [leadsTo_iff hsmall, or_iff_not_imp_right]
  intro hback
  have hbefore : FlowGraph.Before (r.flowGraph.reversePostorder e.toNat) u.toNat v.toNat := by
    rw [FlowGraph.reversePostorder, FlowGraph.before_reverse]
    exact hvisits.left_after ((hcovers _).mpr hu) (toNat_mem_successors.mpr hjump)
      (.refl (hp.inRange_of_mem hp.last_mem)) hback
  simpa [reachedFrom, BlockId.ofNat_toNat] using List.Sublist.map BlockId.ofNat hbefore

end Nodes

section Names

theorem get_foldl_zipIdx {κ β : Type} [DecidableEq κ] (get : Routine → κ → Option β)
    (update : Routine → κ → Nat → Routine) (set : Nat → β → β)
    (hupdate : ∀ r x n c, get (update r x n) c = if c = x then (get r c).map (set n) else get r c)
    {l : List κ} (hnodup : l.Nodup) (k : Nat) (r : Routine) (c : κ)
    : get ((l.zipIdx k).foldl (fun r (x, n) => update r x n) r) c =
        if c ∈ l then (get r c).map (set (k + l.idxOf c)) else get r c := by
  induction l generalizing r k with
  | nil => rfl
  | cons x rest ih =>
    rw [List.nodup_cons] at hnodup
    rw [List.zipIdx_cons, List.foldl_cons, ih hnodup.2, hupdate]
    by_cases hc : c = x
    . subst hc
      simp [hnodup.1]
    . have hposition : k + 1 + rest.idxOf c = k + (x :: rest).idxOf c := by
        rw [List.idxOf_cons_ne rest (Ne.symm hc)]
        omega
      simp [hc, hposition]

theorem block?_foldl_name {l : List BlockId} (hnodup : l.Nodup) (k : Nat) (r : Routine)
    : ((l.zipIdx k).foldl (fun r (b, name) => r.modifyBlock b ({ · with name })) r).block? c =
        if c ∈ l then (r.block? c).map ({ · with name := k + l.idxOf c }) else r.block? c :=
  get_foldl_zipIdx block? (fun r b name => r.modifyBlock b ({ · with name }))
    (fun name found => { found with name }) (fun r b _ c => block?_modifyBlock r b c _) hnodup k r c

theorem foldl_modifyBlock_eq {α : Type} (f : α → BlockId × (Block → Block)) (l : List α) (r : Routine)
    : ∃ blocks, l.foldl (fun r x => r.modifyBlock (f x).1 (f x).2) r = { r with blocks } := by
  induction l generalizing r with
  | nil => exact ⟨r.blocks, rfl⟩
  | cons x rest ih => exact ih (r.modifyBlock (f x).1 (f x).2)

theorem Wired.block?_renameBlocks (h : r.Wired) (b : BlockId)
    : r.renameBlocks.block? b = (r.block? b).map ({ · with name := r.order.idxOf b }) := by
  have hnames := block?_foldl_name (c := b) h.nodup 0 r
  rw [Nat.zero_add] at hnames
  refine Eq.trans hnames ?_
  split
  . rfl
  . next hb =>
    rw [h.laid, not_ne_iff] at hb
    simp [hb]

theorem renameBlocks_eq (r : Routine)
    : ∃ blocks nextBlockName, r.renameBlocks = { r with blocks, nextBlockName } := by
  obtain ⟨blocks, heq⟩ :=
    foldl_modifyBlock_eq (fun (b, name) => (b, fun x => { x with name })) r.order.zipIdx r
  refine ⟨blocks, r.order.length, ?_⟩
  unfold renameBlocks
  rw [heq]

end Names

structure Sorted (r r' : Routine) : Prop where
  perm : r'.order.Perm r.order
  entry : r'.entry? = r.entry?
  -- The blocks that the entry leads to stand in front of the others, which stay in their order.
  front : ∃ front back, r'.order = front ++ back ∧ (∀ b ∈ front, r.Reached b) ∧
    (∀ b ∈ back, ¬ r.Reached b) ∧ back.Sublist r.order
  forward : ∀ u v, r.Reached u → r.Reached v → v ∈ r.targets u →
    [u, v].Sublist r'.order ∨ r.LeadsTo v u
  -- The name of a block is its position, and nothing else of a block is new.
  block : ∀ b, r'.block? b = (r.block? b).map ({ · with name := r'.order.idxOf b })
  rest : r' = { r with blocks := r'.blocks, order := r'.order, nextBlockName := r'.nextBlockName }

theorem Wired.sorted_self (h : r.Wired) (hentry : r.entry? = none) : r.Sorted r := by
  -- Without an entry there is no block at all.
  have hempty : r.order = [] := List.head?_eq_none_iff.mp hentry
  have hnone : ∀ b, r.block? b = none := by
    intro b
    rw [← not_ne_iff, ← h.laid, hempty]
    exact List.not_mem_nil
  have hreached : ∀ b, ¬ r.Reached b := by
    rintro b ⟨e, he, -⟩
    rw [hentry] at he
    cases he
  constructor
  . rfl
  . rfl
  . exact ⟨[], r.order, rfl, by simp, fun b _ => hreached b, List.Sublist.refl _⟩
  . intro u v hu
    exact absurd hu (hreached u)
  . intro b
    rw [hnone]
    rfl
  . rfl

theorem topologicalSort_eq (hentry : r.entry? = some e)
    : r.topologicalSort = { r with
        order := r.reachedFrom e ++ r.order.filter fun b => !(r.reachedFrom e).contains b }.renameBlocks := by
  unfold topologicalSort
  rw [hentry]
  rfl

theorem Wired.sorted_topologicalSort (h : r.Wired) (hsmall : r.Small) : r.Sorted r.topologicalSort := by
  cases hentry : r.entry? with
  | none =>
    have hself : r.topologicalSort = r := by
      unfold topologicalSort
      rw [hentry]
    rw [hself]
    exact h.sorted_self hentry
  | some e =>
    obtain ⟨found, hfound⟩ := Option.ne_none_iff_exists'.mp
      ((h.laid e).mp (List.mem_of_mem_head? hentry))
    have he : e.toNat < r.blocks.size := Store.lt_size_of_get? hfound
    have hreached : ∀ b, r.Reached b ↔ b ∈ r.reachedFrom e := by
      intro b
      rw [mem_reachedFrom hsmall he]
      unfold Reached
      simp [hentry]
    have hwired : r.topologicalSort.Wired := wired_topologicalSort h
    rw [topologicalSort_eq hentry] at hwired ⊢
    -- The blocks are laid out first and named afterwards, and neither changes an edge.
    generalize hlaid : { r with order := _ ++ _ } = laid at hwired ⊢
    have hsame := sameEdges_renameBlocks laid
    have horder : laid.renameBlocks.order =
        r.reachedFrom e ++ r.order.filter fun b => !(r.reachedFrom e).contains b := by
      rw [hsame.order, ← hlaid]
    have hwired' : laid.Wired := SameEdges.wired ⟨fun b => (hsame.edges b).symm, hsame.order.symm⟩ hwired
    have hblock : ∀ b, laid.block? b = r.block? b := by
      intro b
      rw [← hlaid]
      rfl
    constructor
    . rw [List.perm_ext_iff_of_nodup hwired.nodup h.nodup]
      intro b
      rw [hsame.order, hwired'.laid, h.laid, hblock]
    . unfold entry? at hentry ⊢
      rw [horder, List.head?_append, head?_reachedFrom he, hentry]
      rfl
    . refine ⟨_, _, horder, fun b hb => (hreached b).mpr hb, ?_, List.filter_sublist⟩
      intro b hb
      rw [hreached]
      simpa using (List.mem_filter.mp hb).2
    . intro u v hu hv hjump
      rw [hreached, mem_reachedFrom hsmall he] at hu hv
      rw [horder]
      exact (sublist_reachedFrom hsmall he hu hv hjump).imp_left
        fun hsub => hsub.trans (List.sublist_append_left _ _)
    . intro b
      rw [hwired'.block?_renameBlocks, hblock, hsame.order]
    . obtain ⟨blocks, nextBlockName, heq⟩ := renameBlocks_eq laid
      rw [heq, ← hlaid]

theorem topologicalSort_sorted (actions : List Action) (hsmall : (after actions).Small)
    : (after actions).Sorted (after actions).topologicalSort :=
  (wired_after actions hsmall).sorted_topologicalSort hsmall

def scatteredLoop : List Action :=
  [.addBlock, .addBlock, .addBlock, .addBlock, .addBlock, .addBlock, .addBlock, .addBlock,
    .addJump (.ofNat 0) (.ofNat 6),
    .addJump (.ofNat 6) (.ofNat 5),
    .addJump (.ofNat 6) (.ofNat 7),
    .addJump (.ofNat 7) (.ofNat 5),
    .addJump (.ofNat 5) (.ofNat 6),
    .addJump (.ofNat 5) (.ofNat 2),
    .addJump (.ofNat 4) (.ofNat 1),
    .addJump (.ofNat 1) (.ofNat 4),
    .addJump (.ofNat 1) (.ofNat 5),
    .pushBack (.ofNat 6) (.readReg .i64 (.ofNat 1 1)),
    .pushBack (.ofNat 7) (.writeReg (.ofNat 1 1) (.insn (.ofNat 0)) .i64),
    .deleteBlock (.ofNat 3)]

theorem topologicalSort_sorted_scatteredLoop
    : (after scatteredLoop).Small ∧ (after scatteredLoop).Sorted (after scatteredLoop).topologicalSort ∧
        (after scatteredLoop).order = [0, 1, 2, 4, 5, 6, 7].map BlockId.ofNat ∧
        (after scatteredLoop).topologicalSort.order = [0, 6, 7, 5, 2, 1, 4].map BlockId.ofNat := by
  have hsmall : (after scatteredLoop).Small := by decide +kernel
  exact ⟨hsmall, topologicalSort_sorted scatteredLoop hsmall, by decide +kernel⟩

end MachineIR.Routine
