import MachineIR.Proofs.RetiredHandles
import MachineIR.Proofs.Sequences

/-!
This module contains the phis at the start of a block, which have one operand for each edge that enters
the block. An edge that is taken away takes its operands with it, and the ones behind them move up as
the edges do. A cut renames the block that some edges come from and leaves their order as it is. The
phis from the cut on keep their operands as well, but no edge enters the block that they are in then.
-/

namespace MachineIR

theorem zip_eraseIdx {α β : Type} (l : List α) (m : List β) (p : Nat)
    : (l.eraseIdx p).zip (m.eraseIdx p) = (l.zip m).eraseIdx p := by
  induction l generalizing m p with
  | nil => simp
  | cons a l ih =>
    cases m with
    | nil => simp
    | cons b m =>
      cases p with
      | zero => simp
      | succ p => simp [ih]

def Instruction.dropOperand (k : Nat) (c : Instruction) : Instruction :=
  { c with operands := c.operands.eraseIdx k }

theorem Instruction.dropOperand_of_le {k : Nat} {c : Instruction} (h : c.operands.length ≤ k)
    : c.dropOperand k = c := by
  unfold dropOperand
  rw [List.eraseIdx_of_length_le h]

theorem Insn.code_eraseIdx (i : Insn) (k : Nat)
    : { i with slots := i.slots.eraseIdx k }.code = i.code.dropOperand k := by
  simp [code, operands, Instruction.dropOperand, List.eraseIdx_map]

namespace Routine

variable {r r' : Routine} {b : BlockId} {id : InsnId} {ids : List InsnId}

def operandsOf (r : Routine) (id : InsnId) : List Operand :=
  ((r.code? id).map Instruction.operands).getD []

def incoming (r : Routine) (b : BlockId) (id : InsnId) : List (BlockId × Operand) :=
  (r.sources b).zip (r.operandsOf id)

def Aligned (r : Routine) (b : BlockId) : Prop :=
  ∀ id ∈ Edit.leadingPhis r b, (r.operandsOf id).length = (r.sources b).length

instance : Decidable (r.Aligned b) :=
  inferInstanceAs (Decidable (∀ id ∈ Edit.leadingPhis r b, _))

def isPhi (r : Routine) (id : InsnId) : Bool := (r.code? id).any (·.opcode == .phi)

theorem leadingPhis_eq : Edit.leadingPhis r b = (r.insnsOf b).takeWhile r.isPhi := by
  unfold Edit.leadingPhis
  congr 1
  funext id
  cases hi : r.insn? id with
  | none => simp [isPhi, code?, hi]
  | some i => simp [isPhi, code?, hi, Insn.code]

theorem leadingPhis_congr (hlist : r'.insnsOf b = r.insnsOf b) (hphi : ∀ id, r'.isPhi id = r.isPhi id)
    : Edit.leadingPhis r' b = Edit.leadingPhis r b := by
  rw [leadingPhis_eq, leadingPhis_eq, hlist, funext hphi]

theorem Arranged.nodup_leadingPhis (h : r.Arranged) (b : BlockId) : (Edit.leadingPhis r b).Nodup := by
  rw [leadingPhis_eq]
  exact (h.nodup_insnsOf b).sublist (List.takeWhile_sublist _)

end Routine

namespace Edit

open Routine

variable {r r' : Routine} {a b c new source target : BlockId} {id j : InsnId} {k p : Nat}

section Operands

theorem code?_of_removeOperand {x : Operand} (h : removeOperand id k r = .ok x r') (j : InsnId)
    : r'.code? j = if j = id then (r.code? j).map (·.dropOperand k) else r.code? j := by
  unfold removeOperand at h
  obtain ⟨_, r₁, hrelease, hrest⟩ := of_bind_ok h
  have hbare := sameBare_releaseOperand id k r
  rw [left_of_ok hrelease] at hbare
  rw [← code?_of_bare_eq hbare]
  obtain ⟨i, r₂, hi, hdrop⟩ := of_bind_ok hrest
  have hleft := left_insn id r₁
  rw [left_of_ok hi] at hleft
  subst hleft
  cases hs : i.slots[k]? with
  | none =>
    rw [hs] at hdrop
    cases hdrop
  | some s =>
    rw [hs] at hdrop
    cases hdrop
    change (r₂.modifyInsn id _).code? j = _
    unfold code?
    rw [insn?_modifyInsn]
    split
    next =>
      rw [Option.map_map, Option.map_map]
      congr 1
      funext i
      exact i.code_eraseIdx k
    next => rfl

theorem dropOperand_run {i : Insn} (h : r.Tracked) (hi : r.insn? id = some i) (k : Nat)
    : ∃ r', (do
        if k < (← knownInsn id).slots.length then discard (removeOperand id k) : Edit Unit) r =
          .ok () r' ∧ r'.Tracked ∧
        ∀ j, r'.code? j = if j = id then (r.code? j).map (·.dropOperand k) else r.code? j := by
  rw [bind_of_ok (knownInsn_run hi)]
  split
  next hk =>
    have hs : r.slot? id k = some i.slots[k] := by
      rw [slot?_eq hi, List.getElem?_eq_getElem hk]
    obtain ⟨x, r', hrun, htracked, -⟩ := removeOperand_run h hs
    exact ⟨r', discard_of_ok hrun, htracked, code?_of_removeOperand hrun⟩
  next hk =>
    refine ⟨r, rfl, h, fun j => ?_⟩
    split
    next hj =>
      have hle : i.code.operands.length ≤ k := by
        simp only [Insn.code, Insn.operands, List.length_map]
        omega
      rw [hj, code?_of_insn? hi, Option.map_some, Instruction.dropOperand_of_le hle]
    next => rfl

theorem dropOperands_run {phis : List InsnId} (h : r.Tracked) (hnodup : phis.Nodup)
    (hlive : ∀ id ∈ phis, r.insn? id ≠ none) (k : Nat)
    : ∃ r', dropOperands phis k r = .ok () r' ∧ r'.Tracked ∧
        ∀ j, r'.code? j = if j ∈ phis then (r.code? j).map (·.dropOperand k) else r.code? j := by
  induction phis generalizing r with
  | nil => exact ⟨r, rfl, h, fun j => by simp⟩
  | cons id rest ih =>
    obtain ⟨i, hi⟩ := Option.ne_none_iff_exists'.mp (hlive id List.mem_cons_self)
    obtain ⟨hid, hnodup⟩ := List.nodup_cons.mp hnodup
    obtain ⟨r₁, hrun, htracked, hcode⟩ := dropOperand_run h hi k
    have hlive₁ : ∀ j ∈ rest, r₁.insn? j ≠ none := by
      intro j hj
      have hne : j ≠ id := by
        rintro rfl
        exact hid hj
      rw [ne_eq, ← code?_eq_none_iff, hcode, if_neg hne, code?_eq_none_iff]
      exact hlive j (List.mem_cons_of_mem id hj)
    obtain ⟨r', hrun', htracked', hcode'⟩ := ih htracked hnodup hlive₁
    refine ⟨r', (bind_of_ok hrun).trans hrun', htracked', fun j => ?_⟩
    rw [hcode', hcode]
    by_cases hj : j = id
    . simp [hj, hid]
    . simp [hj]

theorem samePlaces_dropOperands (phis : List InsnId) (k : Nat)
    : Within SamePlaces (dropOperands phis k) := by
  unfold dropOperands
  refine Within.forM fun phi _ => ?_
  refine Within.bind (Within.knownInsn phi) fun i => ?_
  split
  . exact (samePlaces_removeOperand _ _).discard
  . exact Within.pure _

end Operands

section Jump

/--
The routine `r'` is `r` without the edge from `source` to `target` that stands at the places `p` and `k`
of their lists, and without the operands that the phis had for it.
-/
structure Unjoined (r r' : Routine) (source target : BlockId) (p k : Nat) : Prop where
  entering : (r.sources target)[p]? = some source
  leaving : (r.targets source)[k]? = some target
  sources : ∀ c, r'.sources c = if c = target then (r.sources c).eraseIdx p else r.sources c
  targets : ∀ c, r'.targets c = if c = source then (r.targets c).eraseIdx k else r.targets c
  insnsOf : ∀ c, r'.insnsOf c = r.insnsOf c
  code : ∀ id, r'.code? id =
    if id ∈ leadingPhis r target then (r.code? id).map (·.dropOperand p) else r.code? id

theorem getElem?_of_idxOf? {l : List BlockId} (h : l.idxOf? a = some k) : l[k]? = some a := by
  obtain ⟨hlt, heq, -⟩ := List.idxOf?_eq_some_iff.mp h
  rw [List.getElem?_eq_getElem hlt, heq]

theorem sameUses_cutEdge (source target : BlockId) (p k : Nat) (r : Routine)
    : r.SameUses (cutEdge source target p k r) := by
  refine SameUses.trans (SameUses.modifyBlock ?_ r target) (SameUses.modifyBlock ?_ _ source)
  . intro b
    rfl
  . intro b
    rfl

theorem samePlaces_cutEdge (source target : BlockId) (p k : Nat) (r : Routine)
    : r.SamePlaces (cutEdge source target p k r) := by
  refine SamePlaces.trans (SamePlaces.modifyBlock ?_ r target) (SamePlaces.modifyBlock ?_ _ source)
  . intro b
    exact ⟨rfl, rfl, rfl⟩
  . intro b
    exact ⟨rfl, rfl, rfl⟩

theorem deleteJump_run (h : r.Tracked) (harranged : r.Arranged) (hwired : r.Wired)
    (hedge : target ∈ r.targets source)
    : ∃ r' p k, deleteJump source target true r = .ok () r' ∧ r'.Tracked ∧
        Unjoined r r' source target p k := by
  rcases deleteJump_cases source target true r with ⟨-, hnone⟩ | ⟨p, k, hp, hk, hrun⟩
  . exact (hnone.elim (· (hwired.mem_iff.mp hedge)) (· hedge)).elim
  . have hlive := hwired.live_of_mem_targets hedge
    have hlive' := hwired.live_of_mem_sources (hwired.mem_iff.mp hedge)
    obtain ⟨r₁, hdrop, htracked, hcode⟩ := dropOperands_run h (harranged.nodup_leadingPhis target)
      (fun id => live_of_mem_leadingPhis) p
    have hedges := sameEdges_dropOperands (leadingPhis r target) p r
    have hplaces := samePlaces_dropOperands (leadingPhis r target) p r
    rw [left_of_ok hdrop] at hedges hplaces
    refine ⟨cutEdge source target p k r₁, p, k, hrun.trans (bind_of_ok hdrop),
      (sameUses_cutEdge source target p k r₁).tracks htracked, ?_, ?_, ?_, ?_, ?_, ?_⟩
    . exact getElem?_of_idxOf? hp
    . exact getElem?_of_idxOf? hk
    . intro c
      unfold cutEdge
      rw [sources_mapSuccessors, sources_mapPredecessors (hedges.live_iff.mpr hlive), hedges.sources,
        hedges.sources]
      split
      next hc => rw [hc]
      next => rfl
    . intro c
      unfold cutEdge
      rw [targets_mapSuccessors (modifyBlock_ne_none.mpr (hedges.live_iff.mpr hlive')),
        targets_mapPredecessors, targets_mapPredecessors, hedges.targets, hedges.targets]
      split
      next hc => rw [hc]
      next => rfl
    . exact (hplaces.trans (samePlaces_cutEdge source target p k r₁)).insnsOf harranged
    . exact hcode

namespace Unjoined

theorem leadingPhis (h : Unjoined r r' source target p k) (c : BlockId)
    : leadingPhis r' c = leadingPhis r c := by
  apply leadingPhis_congr (h.insnsOf c)
  intro id
  unfold isPhi
  rw [h.code]
  split
  next =>
    rw [Option.any_map]
    rfl
  next => rfl

theorem operandsOf (h : Unjoined r r' source target p k) (hid : id ∈ Edit.leadingPhis r target)
    : r'.operandsOf id = (r.operandsOf id).eraseIdx p := by
  unfold Routine.operandsOf
  rw [h.code, if_pos hid]
  cases r.code? id with
  | none => simp
  | some c => rfl

theorem aligned (h : Unjoined r r' source target p k) (haligned : r.Aligned target)
    : r'.Aligned target := by
  -- An edge and what the phis hold for it stand at the same place.
  intro id hid
  rw [h.leadingPhis] at hid
  rw [h.operandsOf hid, h.sources, if_pos rfl, List.length_eraseIdx, List.length_eraseIdx,
    haligned id hid]

theorem incoming (h : Unjoined r r' source target p k) (hid : id ∈ Edit.leadingPhis r target)
    : r'.incoming target id = (r.incoming target id).eraseIdx p := by
  unfold Routine.incoming
  rw [h.operandsOf hid, h.sources, if_pos rfl, zip_eraseIdx]

end Unjoined

end Jump

end Edit

namespace Routine

variable {r r' r'' : Routine}

def SameCode (r r' : Routine) : Prop := ∀ id, r'.code? id = r.code? id

namespace SameCode

instance : Std.Refl SameCode := ⟨fun _ _ => rfl⟩

instance : Trans SameCode SameCode SameCode := ⟨fun h h' id => (h' id).trans (h id)⟩

theorem modifyInsn {f : Insn → Insn} (hf : ∀ i, (f i).code = i.code) (r : Routine) (id : InsnId)
    : r.SameCode (r.modifyInsn id f) := by
  intro j
  unfold code?
  rw [insn?_modifyInsn]
  split
  . rw [Option.map_map]
    congr 1
    funext i
    exact hf i
  . rfl

end SameCode

end Routine

namespace Edit

open Routine

variable {r r' : Routine} {b c new : BlockId} {id : InsnId}

section Cut

theorem sameCode_handOver (b : BlockId) (prev id : InsnId) (ip : Option UInt64) (moved : List InsnId)
    (order : List BlockId) (new : BlockId) : Within SameCode (handOver b prev id ip moved order new) := by
  unfold handOver
  refine Within.bind (Within.modify fun r _ => rfl) fun _ => ?_
  refine Within.bind (Within.modify fun r => ?_) fun _ => ?_
  . exact rel_foldl (fun r id => SameCode.modifyInsn (by intro i; rfl) r id) moved r
  refine Within.bind (Within.modify fun r => .modifyInsn (by intro i; rfl) r id) fun _ => ?_
  refine Within.bind (Within.modify fun r => .modifyInsn (by intro i; rfl) r prev) fun _ => ?_
  refine Within.bind (Within.block b) fun old => ?_
  refine Within.bind (Within.modify fun r _ => rfl) fun _ => ?_
  refine Within.bind (Within.modify fun r => ?_) fun _ => ?_
  . refine rel_foldl ?_ old.successors r
    intro r c id
    rfl
  exact Within.bind (Within.modify fun r _ => rfl) fun _ => Within.pure _

structure Recut (r r' : Routine) (b new : BlockId) : Prop where
  sources : ∀ c, r'.sources c = (r.sources c).map (renamed b new)
  targets : ∀ c, r'.targets c = if c = new then r.targets b else if c = b then [] else r.targets c
  code : ∀ id, r'.code? id = r.code? id
  front : ∀ c, r.block? c ≠ none → r'.insnsOf c <+: r.insnsOf c

theorem Recut.refl (r : Routine) (b : BlockId) : Recut r r b b := by
  have hname : renamed b b = id := by
    funext c
    unfold renamed
    split
    next hc => exact hc.symm
    next => rfl
  constructor
  . intro c
    rw [hname, List.map_id]
  . intro c
    split
    next hc => rw [hc]
    next => rfl
  . intro id
    rfl
  . intro c _
    exact List.prefix_rfl

theorem recut_of_split (hwired : r.Wired) (harranged : r.Arranged) (hsmall : r'.Small)
    (hrun : split b id r = .ok new r') : Recut r r' b new := by
  rcases split_cases b id r with ⟨⟨e, he⟩, -⟩ | ⟨i, hi, hb, ⟨-, hrun'⟩ | ⟨prev, hprev, hrun'⟩⟩
  . rw [he] at hrun
    cases hrun
  . rw [hrun'] at hrun
    cases hrun
    exact .refl r b
  . have hlive : r.block? b ≠ none := by
      rw [← block?_ne_none_iff]
      exact harranged.home b id _ (neighbours?_of_insn? hi hb)
    obtain ⟨found, hfound⟩ := Option.ne_none_iff_exists'.mp hlive
    have hsize : r.blocks.size < UInt32.size := by
      rw [hrun'] at hrun
      exact size_lt_of_handOver (left_of_ok hrun ▸ hsmall.roomy)
    obtain ⟨r₁, hrun₁, hhanded⟩ := handOver_run hwired hsize hfound i.ip (r.insnsFrom (some id))
    have hsame : r.SameCode r' := by
      have := sameCode_handOver b prev id i.ip (r.insnsFrom (some id)) r.order (.ofNat r.blocks.size)
        (pushBlock r)
      rw [hrun'] at hrun
      rw [← left_of_ok hrun]
      exact this
    obtain ⟨front, back, hlist, hcases⟩ := (ensures_split harranged hsize b id).2 new r' hrun
    rw [hrun', hrun₁] at hrun
    cases hrun
    refine ⟨hhanded.sources, hhanded.targets, hsame, ?_⟩
    intro c hc
    rcases hcases with ⟨-, -, rfl⟩ | ⟨-, hnew, -, hinsns⟩
    . exact List.prefix_rfl
    . rw [hinsns, if_neg (by rintro rfl; exact hc hnew)]
      split
      next hcb =>
        rw [hcb, hlist]
        exact List.prefix_append front _
      next => exact List.prefix_rfl

namespace Recut

theorem isPhi (h : Recut r r' b new) : r'.isPhi = r.isPhi := by
  funext id
  unfold Routine.isPhi
  rw [h.code]

theorem operandsOf (h : Recut r r' b new) (id : InsnId) : r'.operandsOf id = r.operandsOf id := by
  unfold Routine.operandsOf
  rw [h.code]

theorem leadingPhis (h : Recut r r' b new) (harranged : r.Arranged) (hc : r.block? c ≠ none)
    : leadingPhis r' c = (leadingPhis r c).filter (· ∈ r'.insnsOf c) := by
  obtain ⟨moved, hlist⟩ := h.front c hc
  have hnodup := harranged.nodup_insnsOf c
  rw [← hlist, List.nodup_append] at hnodup
  rw [leadingPhis_eq, leadingPhis_eq, ← hlist, h.isPhi, List.takeWhile_append]
  split
  next hall =>
    have hfront : (r'.insnsOf c).takeWhile r.isPhi = r'.insnsOf c :=
      (List.takeWhile_sublist _).eq_of_length hall
    have hgone : ∀ id ∈ moved.takeWhile r.isPhi, ¬ id ∈ r'.insnsOf c := by
      intro id hid hmem
      exact hnodup.2.2 id hmem id ((List.takeWhile_sublist _).subset hid) rfl
    rw [hfront, List.filter_append, List.filter_eq_self.mpr (by simp),
      List.filter_eq_nil_iff.mpr (by simpa using hgone), List.append_nil]
  next =>
    rw [List.filter_eq_self.mpr]
    intro id hid
    exact decide_eq_true ((List.takeWhile_sublist _).subset hid)

theorem aligned (h : Recut r r' b new) (harranged : r.Arranged) (hc : r.block? c ≠ none)
    (haligned : r.Aligned c) : r'.Aligned c := by
  intro id hid
  rw [h.leadingPhis harranged hc, List.mem_filter] at hid
  rw [h.operandsOf, h.sources, List.length_map, haligned id hid.1]

theorem incoming (h : Recut r r' b new) (c : BlockId) (id : InsnId)
    : r'.incoming c id = (r.incoming c id).map fun (d, x) => (renamed b new d, x) := by
  unfold Routine.incoming
  rw [h.operandsOf, h.sources, List.zip_map_left]
  rfl

end Recut

/-- The instructions `moved` are at the end of the block `b` no more, but in a block that no edge enters. -/
structure Severed (r r' : Routine) (b new : BlockId) (front moved : List InsnId) : Prop where
  insns : r.insnsOf b = front ++ moved
  fresh : r.block? new = none
  staying : r'.insnsOf b = front
  leaving : r'.insnsOf new = moved
  entries : r'.sources new = []

theorem size_lt_of_split (hsmall : r'.Small) (hrun : split b id r = .ok new r')
    : (new = b ∧ r' = r) ∨ r.blocks.size < UInt32.size := by
  rcases split_cases b id r with ⟨⟨e, he⟩, -⟩ | ⟨i, -, -, ⟨-, hrun'⟩ | ⟨prev, -, hrun'⟩⟩
  . rw [he] at hrun
    cases hrun
  . rw [hrun'] at hrun
    cases hrun
    exact Or.inl ⟨rfl, rfl⟩
  . rw [hrun'] at hrun
    exact Or.inr (size_lt_of_handOver (left_of_ok hrun ▸ hsmall.roomy))

theorem severed_of_split (harranged : r.Arranged) (hsmall : r'.Small)
    (hrun : split b id r = .ok new r') (h : Recut r r' b new)
    : (new = b ∧ r' = r) ∨ ∃ front back, front ≠ [] ∧ Severed r r' b new front (id :: back) := by
  rcases size_lt_of_split hsmall hrun with hsame | hsize
  . exact Or.inl hsame
  obtain ⟨front, back, hlist, ⟨-, rfl, rfl⟩ | ⟨hfront, hnew, -, hinsns⟩⟩ :=
    (ensures_split harranged hsize b id).2 new r' hrun
  . exact Or.inl ⟨rfl, rfl⟩
  . have hne : b ≠ new := by
      rintro rfl
      rw [insnsOf_of_none hnew] at hlist
      simp at hlist
    refine Or.inr ⟨front, back, hfront, hlist, hnew, ?_, ?_, ?_⟩
    . rw [hinsns, if_neg hne, if_pos rfl]
    . rw [hinsns, if_pos rfl]
    . rw [h.sources, sources_of_none hnew, List.map_nil]

theorem Severed.leadingPhis {front moved : List InsnId} (h : Severed r r' b new front moved)
    (hrecut : Recut r r' b new) : leadingPhis r' new = moved.takeWhile r.isPhi := by
  rw [leadingPhis_eq, h.leaving, hrecut.isPhi]

theorem Severed.aligned_iff {front moved : List InsnId} (h : Severed r r' b new front moved)
    (hrecut : Recut r r' b new)
    : r'.Aligned new ↔ ∀ phi ∈ Edit.leadingPhis r' new, r.operandsOf phi = [] := by
  unfold Aligned
  simp only [h.entries, hrecut.operandsOf, List.length_nil, List.length_eq_zero_iff]

end Cut

def loopingPhis : List Action :=
  [.addBlock, .addBlock, .addBlock,
    .pushBack (.ofNat 0) (.readReg .i64 (.ofNat 1 1)),
    .pushBack (.ofNat 1) (.readReg .i64 (.ofNat 2 1)),
    .pushBack (.ofNat 2) (.phi .i64 [.insn (.ofNat 0), .const (.i64 5), .insn (.ofNat 0),
      .insn (.ofNat 1)]),
    .pushBack (.ofNat 2) (.phi .i64 [.const (.i64 1), .insn (.ofNat 2), .const (.i64 2),
      .const (.i64 3)]),
    .pushBack (.ofNat 2) (.writeReg (.ofNat 1 1) (.insn (.ofNat 3)) .i64),
    .addJump (.ofNat 0) (.ofNat 2),
    .addJump (.ofNat 2) (.ofNat 2),
    .addJump (.ofNat 0) (.ofNat 2),
    .addJump (.ofNat 1) (.ofNat 2)]

def phisInRow : List Action :=
  [.addBlock, .addBlock,
    .pushBack (.ofNat 1) (.phi .i64 [.const (.i64 1)]),
    .pushBack (.ofNat 1) (.phi .i64 [.const (.i64 2)]),
    .pushBack (.ofNat 1) (.writeReg (.ofNat 0 1) (.insn (.ofNat 1)) .i64),
    .addJump (.ofNat 0) (.ofNat 1)]

end Edit

end MachineIR
