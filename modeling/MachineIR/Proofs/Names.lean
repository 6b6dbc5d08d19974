import Mathlib.Data.List.Nodup
import MachineIR.Proofs.Cells
import MachineIR.Proofs.Codes
import MachineIR.Proofs.LayoutOrder

/-!
This module contains that names tell the parts of a routine apart. A new part gets the name that is
next, and no other change gives out names; so names stay distinct until the parts are named anew. Then
the counters go back, and all depends on that no part is left out: every instruction is on the list of
a block, and every block has its place in the layout.
-/

namespace MachineIR

namespace Store

variable {α : Type} {name : α → Nat} {s s' : Store α} {next : Nat}

structure Numbered (name : α → Nat) (s : Store α) (next : Nat) : Prop where
  lt : ∀ n a, s.get? n = some a → name a < next
  inj : ∀ m n a b, s.get? m = some a → s.get? n = some b → name a = name b → m = n

namespace Numbered

theorem of_names (h : Numbered name s next)
    (hnames : ∀ n b, s'.get? n = some b → ∃ a, s.get? n = some a ∧ name b = name a)
    : Numbered name s' next := by
  constructor
  . intro n b hb
    obtain ⟨a, ha, heq⟩ := hnames n b hb
    rw [heq]
    exact h.lt n a ha
  . intro m n a b ha hb heq
    obtain ⟨a', ha', heqa⟩ := hnames m a ha
    obtain ⟨b', hb', heqb⟩ := hnames n b hb
    exact h.inj m n a' b' ha' hb' (by rw [← heqa, heq, heqb])

theorem modify {f : α → α} (h : Numbered name s next) (hf : ∀ a, name (f a) = name a) (i : Nat)
    : Numbered name (s.modify i f) next := by
  apply h.of_names
  intro n b hb
  rw [get?_modify] at hb
  split at hb
  . obtain ⟨a, ha, rfl⟩ := Option.map_eq_some_iff.mp hb
    exact ⟨a, ha, hf a⟩
  . exact ⟨b, hb, rfl⟩

theorem erase (h : Numbered name s next) (i : Nat) : Numbered name (s.erase i) next := by
  apply h.of_names
  intro n b hb
  rw [get?_erase] at hb
  split at hb
  . cases hb
  . exact ⟨b, hb, rfl⟩

theorem push {a : α} (h : Numbered name s next) (ha : name a = next)
    : Numbered name (s.push a) (next + 1) := by
  -- The names that were there are below the new one.
  have hcases : ∀ n b, (s.push a).get? n = some b →
      (n = s.size ∧ name b = next) ∨ (s.get? n = some b ∧ name b < next) := by
    intro n b hb
    rw [get?_push] at hb
    split at hb
    next hn =>
      cases hb
      exact Or.inl ⟨hn, ha⟩
    next => exact Or.inr ⟨hb, h.lt n b hb⟩
  constructor
  . intro n b hb
    rcases hcases n b hb with ⟨-, heq⟩ | ⟨-, hlt⟩
    . omega
    . omega
  . intro m n b c hb hc heq
    rcases hcases m b hb with ⟨hm, hb'⟩ | ⟨hb', hblt⟩
    . rcases hcases n c hc with ⟨hn, hc'⟩ | ⟨-, hclt⟩
      . rw [hm, hn]
      . omega
    . rcases hcases n c hc with ⟨-, hc'⟩ | ⟨hc', -⟩
      . omega
      . exact h.inj m n b c hb' hc' heq

theorem empty : Numbered name {} next := by
  have hnone : ∀ n, ({} : Store α).get? n = none := fun n => by simp [get?]
  constructor
  . intro n a ha
    rw [hnone] at ha
    cases ha
  . intro m n a b ha
    rw [hnone] at ha
    cases ha

end Numbered

end Store

namespace Routine

variable {r r' r'' : Routine}

section Issued

structure Named (r : Routine) : Prop where
  insns : Store.Numbered Insn.name r.insns r.nextInsnName
  blocks : Store.Numbered Block.name r.blocks r.nextBlockName

def KeepsNamed (r r' : Routine) : Prop := r.Named → r'.Named

instance : Std.Refl KeepsNamed := ⟨fun _ h => h⟩

instance : Trans KeepsNamed KeepsNamed KeepsNamed := ⟨fun h h' hr => h' (h hr)⟩

theorem allows_keepsNamed : Edit.Allows KeepsNamed where
  modifyInsn _ id _ hf h := ⟨h.insns.modify hf id.toNat, h.blocks⟩
  modifyBlock _ b _ hf h := ⟨h.insns, h.blocks.modify hf b.toNat⟩
  pushInsn _ _ hi h := ⟨h.insns.push hi, h.blocks⟩
  eraseInsn _ n h := ⟨h.insns.erase n, h.blocks⟩
  pushBlock _ h := ⟨h.insns, h.blocks.push rfl⟩
  eraseBlock _ n h := ⟨h.insns, h.blocks.erase n⟩
  rest r r' hinsns hblocks hnextInsn hnextBlock h := by
    constructor
    . rw [hinsns, hnextInsn]
      exact h.insns
    . rw [hblocks, hnextBlock]
      exact h.blocks

theorem named_empty : ({} : Routine).Named := ⟨.empty, .empty⟩

end Issued

section Counted

variable {κ : Type} {name? : κ → Option Nat} {l : List κ}

structure Counted (name? : κ → Option Nat) (l : List κ) : Prop where
  nodup : l.Nodup
  mem_iff : ∀ a, a ∈ l ↔ name? a ≠ none
  names : l.map name? = (List.range l.length).map some

namespace Counted

theorem of_positions [DecidableEq κ] (hnodup : l.Nodup) (hmem : ∀ a, a ∈ l ↔ name? a ≠ none)
    (hnames : ∀ a ∈ l, name? a = some (l.idxOf a)) : Counted name? l := by
  refine ⟨hnodup, hmem, ?_⟩
  apply List.ext_getElem
  . simp
  . intro n hn hn'
    rw [List.getElem_map, List.getElem_map, List.getElem_range, hnames _ (List.getElem_mem _),
      hnodup.idxOf_getElem]

theorem getElem?_eq (h : Counted name? l) {a : κ} {n : Nat} (ha : name? a = some n)
    : l[n]? = some a := by
  have hmem : a ∈ l := (h.mem_iff a).mpr (by simp [ha])
  obtain ⟨m, hm, rfl⟩ := List.mem_iff_getElem.mp hmem
  have hname : (l.map name?)[m]? = ((List.range l.length).map some)[m]? := by rw [h.names]
  rw [List.getElem?_map, List.getElem?_map, List.getElem?_eq_getElem hm, List.getElem?_range hm,
    Option.map_some, Option.map_some, ha] at hname
  cases hname
  exact List.getElem?_eq_getElem hm

theorem lt (h : Counted name? l) {a : κ} {n : Nat} (ha : name? a = some n) : n < l.length :=
  (List.getElem?_eq_some_iff.mp (h.getElem?_eq ha)).1

theorem inj (h : Counted name? l) {a b : κ} {n : Nat} (ha : name? a = some n)
    (hb : name? b = some n) : a = b := by
  have heq := (h.getElem?_eq ha).symm.trans (h.getElem?_eq hb)
  cases heq
  rfl

theorem numbered {α : Type} {name : α → Nat} {s : Store α} {toNat : κ → Nat}
    (h : Counted (fun a => (s.get? (toNat a)).map name) l) (ofNat : Nat → κ)
    (hhandles : ∀ n < s.size, toNat (ofNat n) = n) : s.Numbered name l.length := by
  have hname : ∀ n a, s.get? n = some a →
      (s.get? (toNat (ofNat n))).map name = some (name a) := by
    intro n a ha
    rw [hhandles n (Store.lt_size_of_get? ha), ha]
    rfl
  constructor
  . intro n a ha
    exact h.lt (hname n a ha)
  . intro m n a b ha hb heq
    have hsame := h.inj (hname m a ha) (heq ▸ hname n b hb)
    rw [← hhandles m (Store.lt_size_of_get? ha), hsame, hhandles n (Store.lt_size_of_get? hb)]

end Counted

end Counted

section Renamed

def insnName? (r : Routine) (id : InsnId) : Option Nat := (r.insn? id).map Insn.name

def blockName? (r : Routine) (b : BlockId) : Option Nat := (r.block? b).map Block.name

def listing (r : Routine) : List InsnId := r.order.flatMap r.insnsOf

theorem mem_listing (harranged : r.Arranged) (hwired : r.Wired) {id : InsnId}
    : id ∈ r.listing ↔ r.insn? id ≠ none := by
  unfold listing
  rw [List.mem_flatMap]
  constructor
  . rintro ⟨b, -, hid⟩
    obtain ⟨i, hi, -⟩ := harranged.mem_insnsOf.mp hid
    simp [hi]
  . intro hid
    obtain ⟨i, hi⟩ := Option.ne_none_iff_exists'.mp hid
    have hblock : r.block? i.block ≠ none :=
      block?_ne_none_iff.mp (harranged.home i.block id _ (neighbours?_of_insn? hi rfl))
    exact ⟨i.block, (hwired.laid i.block).mpr hblock, harranged.mem_insnsOf.mpr ⟨i, hi, rfl⟩⟩

theorem nodup_listing (harranged : r.Arranged) (hwired : r.Wired) : r.listing.Nodup := by
  -- No instruction is on two lists, and no block is laid out twice.
  unfold listing
  rw [List.nodup_flatMap]
  refine ⟨fun b _ => harranged.nodup_insnsOf b, hwired.nodup.imp ?_⟩
  intro b c hne id hb hc
  obtain ⟨i, hi, rfl⟩ := harranged.mem_insnsOf.mp hb
  obtain ⟨i', hi', rfl⟩ := harranged.mem_insnsOf.mp hc
  rw [hi] at hi'
  cases hi'
  exact hne rfl

theorem listing_eq_of_samePlaces (h : r.SamePlaces r') (horder : r'.order = r.order)
    (harranged : r.Arranged) : r'.listing = r.listing := by
  unfold listing
  rw [horder]
  exact congrArg (r.order.flatMap ·) (funext fun b => h.insnsOf harranged b)

theorem renameInsns_eq (harranged : r.Arranged) (hwired : r.Wired)
    : r.renameInsns =
        { r.listing.zipIdx.foldl (fun r (id, name) => r.modifyInsn id ({ · with name })) r with
          nextInsnName := r.listing.length } := by
  have hlive : (r.order.flatMap r.insnsOf).filter (fun id => (r.insn? id).isSome) = r.listing := by
    refine List.filter_eq_self.mpr fun id hid => ?_
    rw [Option.isSome_iff_ne_none]
    exact (mem_listing harranged hwired).mp hid
  unfold renameInsns
  simp only [hlive]

theorem insn?_renameInsns (harranged : r.Arranged) (hwired : r.Wired) (id : InsnId)
    : r.renameInsns.insn? id = (r.insn? id).map ({ · with name := r.listing.idxOf id }) := by
  have hnames := get_foldl_zipIdx insn? (fun r id name => r.modifyInsn id ({ · with name }))
    (fun name i => { i with name }) (fun r id _ j => insn?_modifyInsn r id j _)
    (nodup_listing harranged hwired) 0 r id
  rw [Nat.zero_add] at hnames
  rw [renameInsns_eq harranged hwired]
  refine Eq.trans hnames ?_
  split
  . rfl
  . next hid =>
    rw [mem_listing harranged hwired, not_ne_iff] at hid
    simp [hid]

theorem listing_renameInsns (harranged : r.Arranged) : r.renameInsns.listing = r.listing :=
  listing_eq_of_samePlaces (samePlaces_renameInsns r) (sameEdges_renameInsns r).order harranged

theorem counted_renameInsns (harranged : r.Arranged) (hwired : r.Wired)
    : Counted r.renameInsns.insnName? r.renameInsns.listing := by
  rw [listing_renameInsns harranged]
  refine .of_positions (nodup_listing harranged hwired) ?_ ?_
  . intro id
    unfold insnName?
    rw [mem_listing harranged hwired, insn?_renameInsns harranged hwired]
    simp
  . intro id hid
    obtain ⟨i, hi⟩ := Option.ne_none_iff_exists'.mp ((mem_listing harranged hwired).mp hid)
    unfold insnName?
    rw [insn?_renameInsns harranged hwired, hi]
    rfl

theorem counted_renameBlocks (hwired : r.Wired)
    : Counted r.renameBlocks.blockName? r.renameBlocks.order := by
  rw [(sameEdges_renameBlocks r).order]
  refine .of_positions hwired.nodup ?_ ?_
  . intro b
    unfold blockName?
    rw [hwired.laid, hwired.block?_renameBlocks]
    simp
  . intro b hb
    obtain ⟨found, hfound⟩ := Option.ne_none_iff_exists'.mp ((hwired.laid b).mp hb)
    unfold blockName?
    rw [hwired.block?_renameBlocks, hfound]
    rfl

theorem topologicalSort_cases (hwired : r.Wired)
    : (r.order = [] ∧ r.topologicalSort = r) ∨
        ∃ laid : Routine, laid.Wired ∧ laid = { r with order := laid.order } ∧
          r.topologicalSort = laid.renameBlocks := by
  cases hentry : r.entry? with
  | none =>
    left
    refine ⟨List.head?_eq_none_iff.mp hentry, ?_⟩
    unfold topologicalSort
    rw [hentry]
  | some e =>
    right
    have hsorted := wired_topologicalSort hwired
    rw [topologicalSort_eq hentry] at hsorted ⊢
    refine ⟨_, ?_, rfl, rfl⟩
    have hsame := sameEdges_renameBlocks { r with
      order := r.reachedFrom e ++ r.order.filter fun b => !(r.reachedFrom e).contains b }
    exact SameEdges.wired ⟨fun b => (hsame.edges b).symm, hsame.order.symm⟩ hsorted

theorem counted_topologicalSort (hwired : r.Wired)
    : Counted r.topologicalSort.blockName? r.topologicalSort.order := by
  rcases topologicalSort_cases hwired with ⟨hempty, heq⟩ | ⟨laid, hlaid, -, heq⟩
  . rw [heq, hempty]
    refine ⟨List.nodup_nil, ?_, rfl⟩
    intro b
    rw [← hempty, hwired.laid]
    simp [blockName?]
  . rw [heq]
    exact counted_renameBlocks hlaid

end Renamed

section Run

theorem view_foldl {α γ : Type} {f : Routine → α → Routine} (view : Routine → γ)
    (hf : ∀ r a, view (f r a) = view r) (l : List α) (r : Routine)
    : view (l.foldl f r) = view r := by
  induction l generalizing r with
  | nil => rfl
  | cons a rest ih => rw [List.foldl_cons, ih, hf]

theorem frame_renameInsns (r : Routine)
    : (r.renameInsns.insns.size, r.renameInsns.blocks, r.renameInsns.nextBlockName) =
        (r.insns.size, r.blocks, r.nextBlockName) := by
  refine view_foldl (fun r => (r.insns.size, r.blocks, r.nextBlockName)) ?_ _ r
  rintro r ⟨id, name⟩
  simp [modifyInsn]

theorem frame_renameBlocks (r : Routine)
    : (r.renameBlocks.blocks.size, r.renameBlocks.insns, r.renameBlocks.nextInsnName) =
        (r.blocks.size, r.insns, r.nextInsnName) := by
  refine view_foldl (fun r => (r.blocks.size, r.insns, r.nextInsnName)) ?_ _ r
  rintro r ⟨b, name⟩
  simp [modifyBlock]

theorem named_renameInsns (harranged : r.Arranged) (hwired : r.Wired) (hroomy : r.Roomy)
    (h : r.Named) : r.renameInsns.Named := by
  have hframe := frame_renameInsns r
  simp only [Prod.mk.injEq] at hframe
  obtain ⟨hsize, hblocks, hnext⟩ := hframe
  constructor
  . have hcounted := counted_renameInsns harranged hwired
    have hnext : r.renameInsns.nextInsnName = r.renameInsns.listing.length := by
      rw [listing_renameInsns harranged, renameInsns_eq harranged hwired]
    rw [hnext]
    refine hcounted.numbered InsnId.ofNat fun n hn => ?_
    exact InsnId.toNat_ofNat (Nat.lt_of_lt_of_le (hsize ▸ hn) hroomy.insns)
  . rw [hblocks, hnext]
    exact h.blocks

theorem named_renameBlocks (hwired : r.Wired) (hroomy : r.Roomy) (h : r.Named)
    : r.renameBlocks.Named := by
  have hframe := frame_renameBlocks r
  simp only [Prod.mk.injEq] at hframe
  obtain ⟨hsize, hinsns, hnext⟩ := hframe
  constructor
  . rw [hinsns, hnext]
    exact h.insns
  . have hcounted := counted_renameBlocks hwired
    have hnext : r.renameBlocks.nextBlockName = r.renameBlocks.order.length := by
      rw [(sameEdges_renameBlocks r).order]
      rfl
    rw [hnext]
    refine hcounted.numbered BlockId.ofNat fun n hn => ?_
    exact BlockId.toNat_ofNat (Nat.lt_of_lt_of_le (hsize ▸ hn) hroomy.blocks)

theorem named_topologicalSort (hwired : r.Wired) (hroomy : r.Roomy) (h : r.Named)
    : r.topologicalSort.Named := by
  rcases topologicalSort_cases hwired with ⟨-, heq⟩ | ⟨laid, hlaid, hrest, heq⟩
  . rw [heq]
    exact h
  . have hnamed : laid.Named := by
      rw [hrest]
      exact ⟨h.insns, h.blocks⟩
    have hroomy' : laid.Roomy := by
      rw [hrest]
      exact ⟨hroomy.insns, hroomy.blocks⟩
    rw [heq]
    exact named_renameBlocks hlaid hroomy' hnamed

theorem named_action (a : Action) (harranged : r.Arranged) (hwired : r.Wired) (hroomy : r.Roomy)
    (h : r.Named) : (Edit.left a.run r).Named :=
  allows_keepsNamed.action (named_renameInsns harranged hwired hroomy)
    (named_renameBlocks hwired hroomy) (named_topologicalSort hwired hroomy) a h

theorem named_actions (actions : List Action) (harranged : r.Arranged) (hwired : r.Wired)
    (h : r.Named) (hroomy : (actions.foldl (fun r a => Edit.left a.run r) r).Roomy)
    : (actions.foldl (fun r a => Edit.left a.run r) r).Named := by
  induction actions generalizing r with
  | nil => exact h
  | cons a rest ih =>
    have hroomy₁ : (Edit.left a.run r).Roomy := (arranges_actions rest _).grows.roomy hroomy
    have hroomy₀ : r.Roomy := (arranges_action a r).grows.roomy hroomy₁
    exact ih ((arranges_action a r).arranged hroomy₁ harranged)
      (wired_action a hwired harranged hroomy₁) (named_action a harranged hwired hroomy₀ h) hroomy

theorem named_of_roomy (actions : List Action) (h : (after actions).Roomy) : (after actions).Named :=
  named_actions actions arranged_empty wired_empty named_empty h

end Run

/-- Names tell the instructions apart and the blocks apart, and the ones that are next are new. -/
structure DistinctNames (r : Routine) : Prop where
  insn_lt : ∀ id n, r.insnName? id = some n → n < r.nextInsnName
  insn_inj : ∀ id id' n, r.insnName? id = some n → r.insnName? id' = some n → id = id'
  block_lt : ∀ b n, r.blockName? b = some n → n < r.nextBlockName
  block_inj : ∀ b b' n, r.blockName? b = some n → r.blockName? b' = some n → b = b'

theorem Named.distinctNames (h : r.Named) : r.DistinctNames where
  insn_lt id n hn := by
    obtain ⟨i, hi, rfl⟩ := Option.map_eq_some_iff.mp hn
    exact h.insns.lt id.toNat i hi
  insn_inj id id' n hn hn' := by
    obtain ⟨i, hi, rfl⟩ := Option.map_eq_some_iff.mp hn
    obtain ⟨i', hi', heq⟩ := Option.map_eq_some_iff.mp hn'
    exact InsnId.toNat_inj.mp (h.insns.inj _ _ i i' hi hi' heq.symm)
  block_lt b n hn := by
    obtain ⟨found, hfound, rfl⟩ := Option.map_eq_some_iff.mp hn
    exact h.blocks.lt b.toNat found hfound
  block_inj b b' n hn hn' := by
    obtain ⟨found, hfound, rfl⟩ := Option.map_eq_some_iff.mp hn
    obtain ⟨found', hfound', heq⟩ := Option.map_eq_some_iff.mp hn'
    exact BlockId.toNat_inj.mp (h.blocks.inj _ _ found found' hfound hfound' heq.symm)

theorem distinctNames_after (actions : List Action) (h : (after actions).Roomy)
    : (after actions).DistinctNames ∧
        ((after actions).renameInsns.listing = (after actions).listing ∧
          Counted (after actions).renameInsns.insnName? (after actions).listing) ∧
        ((after actions).renameBlocks.order = (after actions).order ∧
          Counted (after actions).renameBlocks.blockName? (after actions).order) ∧
        Counted (after actions).topologicalSort.blockName? (after actions).topologicalSort.order := by
  have harranged := arranged_of_roomy actions h
  have hwired := wired_of_roomy actions h
  have hlisting := listing_renameInsns harranged
  have horder := (sameEdges_renameBlocks (after actions)).order
  refine ⟨(named_of_roomy actions h).distinctNames, ⟨hlisting, ?_⟩, ⟨horder, ?_⟩, ?_⟩
  . rw [← hlisting]
    exact counted_renameInsns harranged hwired
  . rw [← horder]
    exact counted_renameBlocks hwired
  . exact counted_topologicalSort hwired

def renamedBetween : List Action :=
  [.addBlock, .addBlock, .addBlock,
    .pushBack (.ofNat 2) (.readReg .i64 (.ofNat 0 1)),
    .pushBack (.ofNat 2) (.writeReg (.ofNat 3 1) (.insn (.ofNat 0)) .i64),
    .pushBack (.ofNat 0) (.readReg .i64 (.ofNat 1 1)),
    .pushBack (.ofNat 0) (.binop .i64 .mul (.const (.i64 2)) (.const (.i64 3))),
    .pushBack (.ofNat 0) (.writeReg (.ofNat 1 1) (.insn (.ofNat 3)) .i64),
    .pushBack (.ofNat 0) (.writeReg (.ofNat 2 1) (.insn (.ofNat 2)) .i64),
    .foldConstants (.ofNat 0) true,
    .deleteBlock (.ofNat 1),
    .renameInsns,
    .split (.ofNat 0) (.ofNat 4),
    .insertBefore (.ofNat 5) (.readReg .i64 (.ofNat 2 1)),
    .addJump (.ofNat 0) (.ofNat 2)]

theorem distinctNames_after_renamedBetween
    : (after renamedBetween).Roomy ∧ (after renamedBetween).DistinctNames ∧
        (after renamedBetween).listing = [2, 4, 6, 5, 0, 1].map InsnId.ofNat ∧
        (after renamedBetween).listing.map (after renamedBetween).insnName? =
          [0, 1, 5, 2, 3, 4].map some ∧
        (after renamedBetween).order.map (after renamedBetween).blockName? = [0, 3, 2].map some ∧
        Counted (after renamedBetween).renameInsns.insnName? (after renamedBetween).listing ∧
        Counted (after renamedBetween).renameBlocks.blockName? (after renamedBetween).order ∧
        (after renamedBetween).topologicalSort.order = [0, 2, 3].map BlockId.ofNat ∧
        Counted (after renamedBetween).topologicalSort.blockName?
          (after renamedBetween).topologicalSort.order := by
  have hroomy : (after renamedBetween).Roomy := ⟨by decide +kernel, by decide +kernel⟩
  obtain ⟨hdistinct, ⟨-, hinsns⟩, ⟨-, hblocks⟩, hsorted⟩ := distinctNames_after renamedBetween hroomy
  exact ⟨hroomy, hdistinct, by decide +kernel, by decide +kernel, by decide +kernel, hinsns, hblocks,
    by decide +kernel, hsorted⟩

end Routine

end MachineIR
