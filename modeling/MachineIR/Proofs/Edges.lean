import MachineIR.Proofs.Arrangement
import MachineIR.Proofs.Traversal

/-!
This module contains that the edges of a routine look the same from both of their ends and that its
layout has every block once, whatever has been done to it. Most changes do not touch edges at all;
the ones that do are looked at one by one.
-/

namespace MachineIR

def Block.mapSuccessors (f : List BlockId → List BlockId) (b : Block) : Block :=
  { b with successors := f b.successors }

def Block.mapPredecessors (f : List BlockId → List BlockId) (b : Block) : Block :=
  { b with predecessors := f b.predecessors }

namespace Routine

variable {r r' r'' : Routine} {a b c : BlockId}

def edges? (r : Routine) (b : BlockId) : Option (List BlockId × List BlockId) :=
  (r.block? b).map fun found => (found.successors, found.predecessors)

def targets (r : Routine) (b : BlockId) : List BlockId := ((r.edges? b).map Prod.fst).getD []

def sources (r : Routine) (b : BlockId) : List BlockId := ((r.edges? b).map Prod.snd).getD []

structure Wired (r : Routine) : Prop where
  symmetric : ∀ a b, (r.targets a).count b = (r.sources b).count a
  nodup : r.order.Nodup
  laid : ∀ b, b ∈ r.order ↔ r.block? b ≠ none

theorem edges?_ne_none_iff : r.edges? b ≠ none ↔ r.block? b ≠ none := by
  simp [edges?]

theorem targets_of_block? {found : Block} (h : r.block? b = some found)
    : r.targets b = found.successors := by
  simp [targets, edges?, h]

theorem sources_of_block? {found : Block} (h : r.block? b = some found)
    : r.sources b = found.predecessors := by
  simp [sources, edges?, h]

theorem targets_of_none (h : r.block? b = none) : r.targets b = [] := by
  simp [targets, edges?, h]

theorem sources_of_none (h : r.block? b = none) : r.sources b = [] := by
  simp [sources, edges?, h]

namespace Wired

theorem mem_iff (h : r.Wired) : b ∈ r.targets a ↔ a ∈ r.sources b := by
  rw [← List.count_pos_iff, h.symmetric a b, List.count_pos_iff]

theorem live_of_mem_targets (h : r.Wired) (hb : b ∈ r.targets a) : r.block? b ≠ none := by
  intro hnone
  rw [h.mem_iff, sources_of_none hnone] at hb
  cases hb

theorem live_of_mem_sources (h : r.Wired) (ha : a ∈ r.sources b) : r.block? a ≠ none := by
  intro hnone
  rw [← h.mem_iff, targets_of_none hnone] at ha
  cases ha

end Wired

structure SameEdges (r r' : Routine) : Prop where
  edges : ∀ b, r'.edges? b = r.edges? b
  order : r'.order = r.order

namespace SameEdges

theorem refl (r : Routine) : r.SameEdges r := ⟨fun _ => rfl, rfl⟩

theorem trans (h : r.SameEdges r') (h' : r'.SameEdges r'') : r.SameEdges r'' :=
  ⟨fun b => (h'.edges b).trans (h.edges b), h'.order.trans h.order⟩

instance : Std.Refl SameEdges := ⟨refl⟩

instance : Trans SameEdges SameEdges SameEdges := ⟨trans⟩

theorem targets (h : r.SameEdges r') (b : BlockId) : r'.targets b = r.targets b := by
  unfold Routine.targets
  rw [h.edges]

theorem sources (h : r.SameEdges r') (b : BlockId) : r'.sources b = r.sources b := by
  unfold Routine.sources
  rw [h.edges]

theorem live_iff (h : r.SameEdges r') : r'.block? b ≠ none ↔ r.block? b ≠ none := by
  rw [← edges?_ne_none_iff, h.edges, edges?_ne_none_iff]

theorem wired (h : r.SameEdges r') (hr : r.Wired) : r'.Wired := by
  constructor
  . intro a b
    rw [h.targets, h.sources]
    exact hr.symmetric a b
  . rw [h.order]
    exact hr.nodup
  . intro b
    rw [h.order, h.live_iff]
    exact hr.laid b

theorem of_bare_eq (h : r'.bare = r.bare) : r.SameEdges r' := by
  have hedges : ∀ (r : Routine) b, r.bare.edges? b = r.edges? b := by
    intro r b
    unfold edges?
    rw [block?_bare, Option.map_map]
    rfl
  refine ⟨?_, (congrArg Routine.order h :)⟩
  intro b
  rw [← hedges r', h, hedges]

theorem modifyInsn (r : Routine) (id : InsnId) (f : Insn → Insn) : r.SameEdges (r.modifyInsn id f) :=
  ⟨fun _ => rfl, rfl⟩

theorem modifyBlock {f : Block → Block}
    (hf : ∀ b, (f b).successors = b.successors ∧ (f b).predecessors = b.predecessors) (r : Routine)
    (b : BlockId) : r.SameEdges (r.modifyBlock b f) := by
  refine ⟨?_, rfl⟩
  intro c
  unfold edges?
  rw [block?_modifyBlock]
  split
  . rw [Option.map_map]
    congr 1
    funext found
    simp [hf found]
  . rfl

end SameEdges

end Routine

namespace Edit

open Routine

variable {r r' : Routine} {a b c new : BlockId} {id : InsnId}

section SameEdges

theorem sameEdges_of_sameBare {α : Type} {e : Edit α} (h : Within SameBare e) : Within SameEdges e :=
  h.mono fun _ _ => .of_bare_eq

theorem sameEdges_modifyInsn (id : InsnId) (f : Insn → Insn)
    : Within SameEdges (modify (·.modifyInsn id f) : Edit PUnit) :=
  Within.modify fun r => SameEdges.modifyInsn r id f

theorem sameEdges_modifyBlock {f : Block → Block}
    (hf : ∀ b, (f b).successors = b.successors ∧ (f b).predecessors = b.predecessors) (b : BlockId)
    : Within SameEdges (modify (·.modifyBlock b f) : Edit PUnit) :=
  Within.modify fun r => SameEdges.modifyBlock hf r b

theorem sameEdges_setOperand (id : InsnId) (k : Nat) (x : Operand)
    : Within SameEdges (setOperand id k x) := by
  unfold setOperand
  refine Within.bind (Within.requireLive x) fun _ => ?_
  refine Within.bind (sameEdges_of_sameBare (sameBare_releaseOperand id k)) fun _ => ?_
  split
  . refine Within.bind (Within.map _ (sameEdges_of_sameBare (sameBare_linkUse _ _ _))) fun use => ?_
    apply sameEdges_modifyInsn
  . refine Within.bind (Within.pure _) fun use => ?_
    apply sameEdges_modifyInsn

theorem sameEdges_pushOperand (id : InsnId) (x : Operand)
    : Within SameEdges (pushOperand id x) := by
  unfold pushOperand
  refine Within.bind (Within.requireLive x) fun _ => ?_
  refine Within.bind (Within.insn id) fun i => ?_
  refine Within.bind (sameEdges_modifyInsn id _) fun _ => ?_
  refine Within.bind (sameEdges_setOperand _ _ _) fun _ => ?_
  exact Within.pure _

theorem sameEdges_removeOperand (id : InsnId) (k : Nat)
    : Within SameEdges (removeOperand id k) := by
  unfold removeOperand
  refine Within.bind (sameEdges_of_sameBare (sameBare_releaseOperand id k)) fun _ => ?_
  refine Within.bind (Within.insn id) fun i => ?_
  split
  . exact Within.throw _
  . refine Within.bind (Within.modify fun r => ?_) fun _ => ?_
    . exact ⟨fun _ => rfl, rfl⟩
    . exact Within.pure _

theorem sameEdges_setOpcode (id : InsnId) (opcode : Opcode)
    : Within SameEdges (setOpcode id opcode) := by
  unfold setOpcode
  exact Within.bind (Within.insn id) fun i => sameEdges_modifyInsn id _

theorem sameEdges_setTemplate (id : InsnId) (index : Nat) (t : Ty)
    : Within SameEdges (setTemplate id index t) := by
  unfold setTemplate
  refine Within.bind (Within.insn id) fun i => ?_
  split
  . apply sameEdges_modifyInsn
  . apply sameEdges_modifyInsn
  . exact Within.throw _

theorem sameEdges_setNext (b : BlockId) (id next : Option InsnId) (r : Routine)
    : r.SameEdges (setNext b id next r) := by
  cases id with
  | none => exact .modifyBlock (by intro b; exact ⟨rfl, rfl⟩) r b
  | some p => exact .modifyInsn r p _

theorem sameEdges_setPrev (b : BlockId) (id prev : Option InsnId) (r : Routine)
    : r.SameEdges (setPrev b id prev r) := by
  cases id with
  | none => exact .modifyBlock (by intro b; exact ⟨rfl, rfl⟩) r b
  | some n => exact .modifyInsn r n _

theorem sameEdges_linkOperands (id : InsnId) (operands : List Operand) (index : Nat)
    : Within SameEdges (linkOperands id operands index) := by
  induction operands generalizing index with
  | nil => exact Within.pure _
  | cons x rest ih =>
    cases x with
    | value v =>
      refine Within.bind (sameEdges_of_sameBare (sameBare_linkUse _ _ _)) fun use => ?_
      refine Within.bind (sameEdges_modifyInsn _ _) fun _ => ?_
      exact ih (index + 1)
    | _ => exact ih (index + 1)

theorem sameEdges_place (b : BlockId) (prev next : Option InsnId) (i : Instruction)
    : Within SameEdges (place b prev next i) := by
  intro r
  cases forM_requireLive_run i.operands r with
  | inr herror =>
    obtain ⟨e, he⟩ := herror
    unfold place
    rw [left_bind_of_error he]
    apply SameEdges.refl
  | inl hlive =>
    have hleft : left (place b prev next i) r =
        left (linkOperands (.ofNat r.insns.size) i.operands 0 >>= fun _ =>
          join b prev next (.ofNat r.insns.size)) (pushInsn (placed b prev next i r) r) := by
      unfold left
      rw [place_of_live hlive.1]
    have hpush : r.SameEdges (pushInsn (placed b prev next i r) r) := ⟨fun _ => rfl, rfl⟩
    rw [hleft]
    refine hpush.trans (Within.bind (sameEdges_linkOperands _ _ _) (fun _ => ?_) _)
    unfold join
    refine Within.bind (Within.modify fun r => ?_) fun _ => ?_
    . exact (sameEdges_setNext _ _ _ r).trans (sameEdges_setPrev _ _ _ _)
    . exact Within.bind (sameEdges_modifyBlock (by intro b; exact ⟨rfl, rfl⟩) b) fun _ => Within.pure _

theorem sameEdges_pushBack (b : BlockId) (i : Instruction) : Within SameEdges (pushBack b i) := by
  unfold pushBack
  exact Within.bind (Within.block b) fun _ => sameEdges_place _ _ _ _

theorem sameEdges_pushFront (b : BlockId) (i : Instruction) : Within SameEdges (pushFront b i) := by
  unfold pushFront
  exact Within.bind (Within.block b) fun _ => sameEdges_place _ _ _ _

theorem sameEdges_insertBefore (id : InsnId) (i : Instruction)
    : Within SameEdges (insertBefore id i) := by
  unfold insertBefore
  exact Within.bind (Within.insn id) fun _ => sameEdges_place _ _ _ _

theorem sameEdges_insertAfter (id : InsnId) (i : Instruction)
    : Within SameEdges (insertAfter id i) := by
  unfold insertAfter
  exact Within.bind (Within.insn id) fun _ => sameEdges_place _ _ _ _

theorem sameEdges_erase (id : InsnId) : Within SameEdges (erase id) := by
  intro r
  rcases erase_cases id r with ⟨e, r₁, hrun, hbare⟩ | ⟨i, r₁, -, hbare, hrun⟩
  . rw [left_of_error hrun]
    exact .of_bare_eq hbare
  . rw [left_of_ok hrun]
    have hjoin := (sameEdges_setNext i.block i.prev i.next r₁).trans
      (sameEdges_setPrev i.block i.next i.prev _)
    have hlen := SameEdges.modifyBlock (f := fun b => { b with len := b.len - 1 })
      (fun _ => ⟨rfl, rfl⟩) (joinNeighbours i.block i.prev i.next r₁) i.block
    exact (SameEdges.of_bare_eq hbare).trans (hjoin.trans (hlen.trans ⟨fun _ => rfl, rfl⟩))

theorem covers_sameEdges : Covers SameEdges where
  setOperand := sameEdges_setOperand
  setOpcode := sameEdges_setOpcode
  setTemplate := sameEdges_setTemplate
  insertBefore := sameEdges_insertBefore
  erase := sameEdges_erase

theorem sameEdges_setBlockRange (b : BlockId) (ip : UInt64) (endIp : Option UInt64)
    : Within SameEdges (setBlockRange b ip endIp) := by
  unfold setBlockRange
  exact Within.bind (Within.block b) fun _ => sameEdges_modifyBlock (by intro b; exact ⟨rfl, rfl⟩) b

end SameEdges

section Jumps

theorem modifyBlock_ne_none {f : Block → Block}
    : (r.modifyBlock b f).block? c ≠ none ↔ r.block? c ≠ none := by
  rw [block?_modifyBlock]
  split
  . simp
  . rfl

theorem targets_modifyBlock {f : Block → Block} {found : Block} (hb : r.block? b = some found)
    : (r.modifyBlock b f).targets c = if c = b then (f found).successors else r.targets c := by
  unfold targets edges?
  rw [block?_modifyBlock]
  split
  next h => simp [h, hb]
  next => rfl

theorem sources_modifyBlock {f : Block → Block} {found : Block} (hb : r.block? b = some found)
    : (r.modifyBlock b f).sources c = if c = b then (f found).predecessors else r.sources c := by
  unfold sources edges?
  rw [block?_modifyBlock]
  split
  next h => simp [h, hb]
  next => rfl

theorem targets_mapSuccessors {f : List BlockId → List BlockId} (hb : r.block? b ≠ none)
    : (r.modifyBlock b (.mapSuccessors f)).targets c =
        if c = b then f (r.targets b) else r.targets c := by
  obtain ⟨found, hfound⟩ := Option.ne_none_iff_exists'.mp hb
  rw [targets_modifyBlock hfound, targets_of_block? hfound]
  rfl

theorem sources_mapPredecessors {f : List BlockId → List BlockId} (hb : r.block? b ≠ none)
    : (r.modifyBlock b (.mapPredecessors f)).sources c =
        if c = b then f (r.sources b) else r.sources c := by
  obtain ⟨found, hfound⟩ := Option.ne_none_iff_exists'.mp hb
  rw [sources_modifyBlock hfound, sources_of_block? hfound]
  rfl

@[simp]
theorem targets_mapPredecessors {f : List BlockId → List BlockId}
    : (r.modifyBlock b (.mapPredecessors f)).targets c = r.targets c := by
  unfold targets edges?
  rw [block?_modifyBlock]
  split
  . rw [Option.map_map, Option.map_map, Option.map_map]
    rfl
  . rfl

@[simp]
theorem sources_mapSuccessors {f : List BlockId → List BlockId}
    : (r.modifyBlock b (.mapSuccessors f)).sources c = r.sources c := by
  unfold sources edges?
  rw [block?_modifyBlock]
  split
  . rw [Option.map_map, Option.map_map, Option.map_map]
    rfl
  . rfl

theorem wired_of_count_eq (ts ss : List BlockId) (h : r.Wired)
    (htargets : ∀ c, r'.targets c = if c = a then ts else r.targets c)
    (hsources : ∀ c, r'.sources c = if c = b then ss else r.sources c)
    (hts : ∀ c, c ≠ b → ts.count c = (r.targets a).count c)
    (hss : ∀ c, c ≠ a → ss.count c = (r.sources b).count c) (hcount : ts.count b = ss.count a)
    (horder : r'.order = r.order) (hlive : ∀ c, r'.block? c ≠ none ↔ r.block? c ≠ none)
    : r'.Wired := by
  refine ⟨?_, horder ▸ h.nodup, ?_⟩
  . intro c d
    rw [htargets, hsources]
    by_cases hc : c = a
    . by_cases hd : d = b
      . rw [if_pos hc, if_pos hd, hc, hd, hcount]
      . rw [if_pos hc, if_neg hd, hts d hd, hc, h.symmetric]
    . by_cases hd : d = b
      . rw [if_neg hc, if_pos hd, hss c hc, hd, h.symmetric]
      . rw [if_neg hc, if_neg hd, h.symmetric]
  . intro c
    rw [horder, hlive]
    exact h.laid c

def addEdge (source target : BlockId) (r : Routine) : Routine :=
  (r.modifyBlock source (.mapSuccessors (· ++ [target]))).modifyBlock target
    (.mapPredecessors (· ++ [source]))

theorem addJump_cases (source target : BlockId) (r : Routine)
    : ((∃ e, addJump source target r = .error e r) ∧
        (r.block? source = none ∨ r.block? target = none)) ∨
        r.block? source ≠ none ∧ r.block? target ≠ none ∧
          addJump source target r = .ok () (addEdge source target r) := by
  unfold addJump
  cases htarget : r.block? target with
  | none => exact Or.inl ⟨⟨_, bind_of_error (block_run_none htarget)⟩, Or.inr rfl⟩
  | some y =>
    rw [bind_of_ok (block_run_some htarget)]
    cases hsource : r.block? source with
    | none => exact Or.inl ⟨⟨_, bind_of_error (block_run_none hsource)⟩, Or.inl rfl⟩
    | some x =>
      rw [bind_of_ok (block_run_some hsource)]
      exact Or.inr ⟨by simp, by simp, rfl⟩

theorem wired_addJump (h : r.Wired) (source target : BlockId)
    : (left (addJump source target) r).Wired := by
  rcases addJump_cases source target r with ⟨⟨e, hrun⟩, -⟩ | ⟨hsource, htarget, hrun⟩
  . rw [left_of_error hrun]
    exact h
  . rw [left_of_ok hrun]
    unfold addEdge
    refine wired_of_count_eq (r.targets source ++ [target]) (r.sources target ++ [source])
      (a := source) (b := target) h ?_ ?_ ?_ ?_ ?_ rfl ?_
    . intro c
      rw [targets_mapPredecessors, targets_mapSuccessors hsource]
    . intro c
      rw [sources_mapPredecessors (modifyBlock_ne_none.mpr htarget), sources_mapSuccessors,
        sources_mapSuccessors]
    . intro c hc
      simp [hc.symm]
    . intro c hc
      simp [hc.symm]
    . simp [h.symmetric source target]
    . intro c
      exact modifyBlock_ne_none.trans modifyBlock_ne_none

def dropOperands (phis : List InsnId) (k : Nat) : Edit Unit :=
  phis.forM fun phi => do
    if k < (← knownInsn phi).slots.length then
      discard (removeOperand phi k)

def cutEdge (source target : BlockId) (p k : Nat) (r : Routine) : Routine :=
  (r.modifyBlock target (.mapPredecessors (·.eraseIdx p))).modifyBlock source
    (.mapSuccessors (·.eraseIdx k))

theorem deleteJump_cases (source target : BlockId) (fixPhis : Bool) (r : Routine)
    : ((∃ e, deleteJump source target fixPhis r = .error e r) ∧
        (source ∉ r.sources target ∨ target ∉ r.targets source)) ∨
        ∃ p k, (r.sources target).idxOf? source = some p ∧ (r.targets source).idxOf? target = some k ∧
          deleteJump source target fixPhis r =
            ((if fixPhis then dropOperands (leadingPhis r target) p else pure ()) >>= fun _ =>
              modify (cutEdge source target p k) : Edit PUnit) r := by
  unfold deleteJump
  cases htarget : r.block? target with
  | none =>
    refine Or.inl ⟨⟨_, bind_of_error (block_run_none htarget)⟩, Or.inl ?_⟩
    simp [sources_of_none htarget]
  | some y =>
    rw [bind_of_ok (block_run_some htarget), sources_of_block? htarget]
    cases hp : y.predecessors.idxOf? source with
    | none => exact Or.inl ⟨⟨_, rfl⟩, Or.inl (List.idxOf?_eq_none_iff.mp hp)⟩
    | some p =>
      dsimp only
      cases hsource : r.block? source with
      | none =>
        refine Or.inl ⟨⟨_, bind_of_error (block_run_none hsource)⟩, Or.inr ?_⟩
        simp [targets_of_none hsource]
      | some x =>
        rw [bind_of_ok (block_run_some hsource), targets_of_block? hsource]
        cases hk : x.successors.idxOf? target with
        | none => exact Or.inl ⟨⟨_, rfl⟩, Or.inr (List.idxOf?_eq_none_iff.mp hk)⟩
        | some k =>
          refine Or.inr ⟨p, k, rfl, rfl, ?_⟩
          cases fixPhis with
          | true => rfl
          | false => rfl

theorem wired_cutEdge {source target : BlockId} {p k : Nat} (h : r.Wired)
    (hp : (r.sources target).idxOf? source = some p) (hk : (r.targets source).idxOf? target = some k)
    : (cutEdge source target p k r).Wired := by
  have hx : r.block? source ≠ none := by
    intro hnone
    simp [targets_of_none hnone] at hk
  have hy : r.block? target ≠ none := by
    intro hnone
    simp [sources_of_none hnone] at hp
  have hsources : (r.sources target).eraseIdx p = (r.sources target).erase source := by
    rw [List.erase_eq_eraseIdx, hp]
  have htargets : (r.targets source).eraseIdx k = (r.targets source).erase target := by
    rw [List.erase_eq_eraseIdx, hk]
  -- An edge can be there many times. Both lists lose one entry, so the counts still agree.
  unfold cutEdge
  refine wired_of_count_eq ((r.targets source).erase target) ((r.sources target).erase source)
    (a := source) (b := target) h ?_ ?_ ?_ ?_ ?_ rfl ?_
  . intro c
    rw [targets_mapSuccessors (modifyBlock_ne_none.mpr hx), targets_mapPredecessors,
      targets_mapPredecessors, htargets]
  . intro c
    rw [sources_mapSuccessors, sources_mapPredecessors hy, hsources]
  . intro c hc
    exact List.count_erase_of_ne hc
  . intro c hc
    exact List.count_erase_of_ne hc
  . rw [List.count_erase_self, List.count_erase_self, h.symmetric]
  . intro c
    exact modifyBlock_ne_none.trans modifyBlock_ne_none

theorem sameEdges_dropOperands (phis : List InsnId) (k : Nat)
    : Within SameEdges (dropOperands phis k) := by
  unfold dropOperands
  refine Within.forM fun phi _ => ?_
  refine Within.bind (Within.knownInsn phi) fun i => ?_
  split
  . exact (sameEdges_removeOperand _ _).discard
  . exact Within.pure _

theorem wired_deleteJump (h : r.Wired) (source target : BlockId) (fixPhis : Bool)
    : (left (deleteJump source target fixPhis) r).Wired := by
  rcases deleteJump_cases source target fixPhis r with ⟨⟨e, hrun⟩, -⟩ | ⟨p, k, hp, hk, hrun⟩
  . rw [left_of_error hrun]
    exact h
  . have hdrop : Within SameEdges
        (if fixPhis then dropOperands (leadingPhis r target) p else pure () : Edit Unit) := by
      split
      . exact sameEdges_dropOperands _ _
      . exact Within.pure _
    specialize hdrop r
    unfold left at hdrop ⊢
    rw [hrun, bind_run]
    cases hphis : (if fixPhis then dropOperands (leadingPhis r target) p else pure () : Edit Unit) r with
    | error e r₁ =>
      rw [hphis] at hdrop
      exact hdrop.wired h
    | ok u r₁ =>
      rw [hphis] at hdrop
      refine wired_cutEdge (hdrop.wired h) ?_ ?_
      . rw [hdrop.sources, hp]
      . rw [hdrop.targets, hk]

end Jumps

section Blocks

theorem edges_of_fresh {name : Nat} (hsize : r.blocks.size < UInt32.size)
    (h : ∀ c, r'.block? c = if c = .ofNat r.blocks.size then some { name } else r.block? c)
    : (∀ c, r'.targets c = r.targets c) ∧ (∀ c, r'.sources c = r.sources c) ∧
        ∀ c, r'.block? c ≠ none ↔ c = .ofNat r.blocks.size ∨ r.block? c ≠ none := by
  refine ⟨?_, ?_, ?_⟩
  . intro c
    unfold targets edges?
    rw [h]
    split
    next hc => simp [hc, block?_ofNat_size hsize]
    next => rfl
  . intro c
    unfold sources edges?
    rw [h]
    split
    next hc => simp [hc, block?_ofNat_size hsize]
    next => rfl
  . intro c
    rw [h]
    split
    next hc => simp [hc]
    next hc => simp [hc]

theorem ofNat_size_not_mem_order (h : r.Wired) (hsize : r.blocks.size < UInt32.size)
    : .ofNat r.blocks.size ∉ r.order := by
  rw [h.laid, block?_ofNat_size hsize]
  simp

theorem wired_pushBlock (h : r.Wired) (hsize : r.blocks.size < UInt32.size)
    : (pushBlock r).Wired := by
  obtain ⟨htargets, hsources, hlive⟩ := edges_of_fresh hsize fun c => block?_pushBlock hsize (c := c)
  refine ⟨?_, ?_, ?_⟩
  . intro a b
    rw [htargets, hsources]
    exact h.symmetric a b
  . have hnew := ofNat_size_not_mem_order h hsize
    simp only [pushBlock, List.nodup_append, List.mem_singleton]
    refine ⟨h.nodup, by simp, ?_⟩
    rintro a ha b rfl rfl
    exact hnew ha
  . intro b
    rw [hlive, ← h.laid]
    simp [pushBlock, or_comm]

theorem wired_dropBlock (h : r.Wired) (htargets : r.targets b = []) (hsources : r.sources b = [])
    : (dropBlock b r).Wired := by
  have hblock : ∀ c, (dropBlock b r).block? c = if c = b then none else r.block? c := by
    intro c
    simp only [dropBlock, block?, Store.get?_erase, BlockId.toNat_inj, eq_comm]
  have htargets' : ∀ c, (dropBlock b r).targets c = r.targets c := by
    intro c
    by_cases hc : c = b
    . rw [hc, htargets, targets_of_none ((hblock b).trans (if_pos rfl))]
    . unfold targets edges?
      rw [hblock, if_neg hc]
  have hsources' : ∀ c, (dropBlock b r).sources c = r.sources c := by
    intro c
    by_cases hc : c = b
    . rw [hc, hsources, sources_of_none ((hblock b).trans (if_pos rfl))]
    . unfold sources edges?
      rw [hblock, if_neg hc]
  refine ⟨?_, h.nodup.filter _, ?_⟩
  . intro a c
    rw [htargets', hsources']
    exact h.symmetric a c
  . intro c
    rw [hblock]
    by_cases hc : c = b
    . simp [dropBlock, hc]
    . simp [dropBlock, hc, h.laid]

def clearBlock (b : BlockId) (ids : List InsnId) : Edit Unit := do
  ids.forM fun id => discard (replaceUses (.insn id) (.const .void))
  ids.reverse.forM erase
  discard (replaceUses (.block b) (.const .void))

theorem deleteBlock_cases (b : BlockId) (r : Routine)
    : ((∃ e, deleteBlock b r = .error e r) ∧
        (r.block? b = none ∨ r.targets b ≠ [] ∨ r.sources b ≠ [])) ∨
        r.block? b ≠ none ∧ r.targets b = [] ∧ r.sources b = [] ∧
          deleteBlock b r = (clearBlock b (r.insnsOf b) >>= fun _ => modify (dropBlock b)) r := by
  unfold deleteBlock
  cases hb : r.block? b with
  | none => exact Or.inl ⟨⟨_, bind_of_error (block_run_none hb)⟩, Or.inl rfl⟩
  | some found =>
    rw [bind_of_ok (block_run_some hb), targets_of_block? hb, sources_of_block? hb]
    split
    next h =>
      refine Or.inl ⟨⟨_, rfl⟩, Or.inr ?_⟩
      simpa using h
    next h =>
      simp only [Bool.or_eq_true, Bool.not_eq_true', List.isEmpty_eq_false_iff, not_or,
        Classical.not_not] at h
      refine Or.inr ⟨by simp, h.1, h.2, ?_⟩
      unfold clearBlock
      simp only [bind_assoc]
      rfl

theorem sameEdges_clearBlock (b : BlockId) (ids : List InsnId)
    : Within SameEdges (clearBlock b ids) := by
  unfold clearBlock
  refine Within.bind (Within.forM fun id _ => ?_) fun _ => ?_
  . exact (covers_sameEdges.replaceUses _ _).discard
  . refine Within.bind (Within.forM fun id _ => sameEdges_erase id) fun _ => ?_
    exact (covers_sameEdges.replaceUses _ _).discard

theorem wired_deleteBlock (h : r.Wired) (b : BlockId) : (left (deleteBlock b) r).Wired := by
  rcases deleteBlock_cases b r with ⟨⟨e, hrun⟩, -⟩ | ⟨-, htargets, hsources, hrun⟩
  . rw [left_of_error hrun]
    exact h
  . have hclear := sameEdges_clearBlock b (r.insnsOf b) r
    unfold left at hclear ⊢
    rw [hrun, bind_run]
    cases hids : clearBlock b (r.insnsOf b) r with
    | error e r₁ =>
      rw [hids] at hclear
      exact hclear.wired h
    | ok u r₁ =>
      rw [hids] at hclear
      apply wired_dropBlock (hclear.wired h)
      . rw [hclear.targets, htargets]
      . rw [hclear.sources, hsources]

end Blocks

section Split

variable {found : Block} {i : Insn} {prev : InsnId}

def renamed (b new c : BlockId) : BlockId := if c = b then new else c

theorem renamed_of_ne (h : c ≠ b) : renamed b new c = c := if_neg h

theorem count_map_renamed {l : List BlockId} (hne : b ≠ new) (hnew : new ∉ l)
    : (l.map (renamed b new)).count a =
        if a = new then l.count b else if a = b then 0 else l.count a := by
  induction l with
  | nil => simp
  | cons c rest ih =>
    have hc : c ≠ new := by
      rintro rfl
      exact hnew List.mem_cons_self
    rw [List.map_cons, List.count_cons, ih (fun h => hnew (List.mem_cons_of_mem c h)),
      List.count_cons, List.count_cons]
    unfold renamed
    by_cases hcb : c = b
    . subst hcb
      by_cases ha : a = new
      . simp [ha]
      . by_cases hab : a = c
        . simp [hab, hne, hne.symm]
        . simp [ha, hab, Ne.symm ha, Ne.symm hab]
    . by_cases ha : a = new
      . simp [ha, hcb, hc]
      . by_cases hab : a = b
        . simp [hab, hcb, hne]
        . simp [ha, hab, hcb]

theorem sources_foldl_renamed {l : List BlockId} (hne : b ≠ new) (hlive : ∀ c ∈ l, r.block? c ≠ none)
    : (l.foldl (fun r c => r.modifyBlock c (.mapPredecessors (·.map (renamed b new)))) r).sources c =
        if c ∈ l then (r.sources c).map (renamed b new) else r.sources c := by
  -- The blocks that the edges of `b` lead to learn its new name, some of them more than once.
  induction l generalizing r with
  | nil => rfl
  | cons d rest ih =>
    have htwice : renamed b new ∘ renamed b new = renamed b new := by
      funext c
      by_cases hc : c = b
      . simp [renamed, hc, hne.symm]
      . simp [renamed, hc]
    rw [List.foldl_cons, ih fun c hc => modifyBlock_ne_none.mpr (hlive c (List.mem_cons_of_mem d hc)),
      sources_mapPredecessors (hlive d List.mem_cons_self)]
    by_cases hcd : c = d
    . subst hcd
      simp [htwice]
    . simp [hcd]

theorem foldl_renamed {l : List BlockId} {r' : Routine}
    (h : r' = l.foldl (fun r c => r.modifyBlock c (.mapPredecessors (·.map (renamed b new)))) r)
    : r'.order = r.order ∧ (∀ c, r'.targets c = r.targets c) ∧
        ∀ c, r'.block? c ≠ none ↔ r.block? c ≠ none := by
  induction l generalizing r with
  | nil => simp [h]
  | cons d rest ih =>
    obtain ⟨horder, htargets, hlive⟩ := ih h
    refine ⟨horder, ?_, ?_⟩
    . intro c
      rw [htargets, targets_mapPredecessors]
    . intro c
      rw [hlive, modifyBlock_ne_none]

theorem mem_insertBehind {l : List BlockId} : c ∈ insertBehind b new l ↔ c = new ∨ c ∈ l := by
  induction l with
  | nil => simp [insertBehind]
  | cons d rest ih =>
    unfold insertBehind
    split
    . simp only [List.mem_cons]
      exact or_left_comm
    . simp only [List.mem_cons, ih]
      exact or_left_comm

theorem nodup_insertBehind {l : List BlockId} (h : l.Nodup) (hnew : new ∉ l)
    : (insertBehind b new l).Nodup := by
  induction l with
  | nil => simp [insertBehind]
  | cons d rest ih =>
    rw [List.nodup_cons] at h
    simp only [List.mem_cons, not_or] at hnew
    unfold insertBehind
    split
    . simp [h, hnew, Ne.symm hnew.1]
    . rw [List.nodup_cons, mem_insertBehind]
      exact ⟨by simp [h, Ne.symm hnew.1], ih h.2 hnew.2⟩

structure Handed (r r' : Routine) (b new : BlockId) : Prop where
  targets : ∀ c, r'.targets c = if c = new then r.targets b else if c = b then [] else r.targets c
  sources : ∀ c, r'.sources c = (r.sources c).map (renamed b new)
  order : r'.order = insertBehind b new r.order
  live : ∀ c, r'.block? c ≠ none ↔ c = new ∨ r.block? c ≠ none

theorem Handed.wired (h : r.Wired) (hnew : r.block? new = none) (hb : r.block? b ≠ none)
    (hhanded : Handed r r' b new) : r'.Wired := by
  have hne : b ≠ new := by
    rintro rfl
    exact hb hnew
  have hnot : ∀ c, new ∉ r.sources c := fun c hc => h.live_of_mem_sources hc hnew
  have hzero : ∀ c, (r.targets c).count new = 0 := by
    intro c
    rw [h.symmetric, sources_of_none hnew, List.count_nil]
  refine ⟨?_, ?_, ?_⟩
  . intro a c
    rw [hhanded.targets, hhanded.sources, count_map_renamed hne (hnot c)]
    split
    . exact h.symmetric b c
    . split
      . exact List.count_nil
      . exact h.symmetric a c
  . rw [hhanded.order]
    apply nodup_insertBehind h.nodup
    simp [h.laid, hnew]
  . intro c
    rw [hhanded.order, mem_insertBehind, hhanded.live, h.laid]

theorem order_severed (prev id : InsnId) (moved : List InsnId)
    : (severed b new prev id moved r).order = insertBehind b new r.order :=
  (rel_foldl (fun r id => SameEdges.modifyInsn r id _) moved
    { pushBlock r with order := insertBehind b new r.order }).order

theorem sources_severed {moved : List InsnId} {f : Block → Block} (h : r.Wired)
    (hsize : r.blocks.size < UInt32.size) (hne : b ≠ new) (hnew : new = .ofNat r.blocks.size)
    (hb : r.block? b = some found) (hf : ∀ x, (f x).predecessors = x.predecessors) (c : BlockId)
    : (found.successors.foldl (fun r c => r.modifyBlock c (.mapPredecessors (·.map (renamed b new))))
        ((severed b new prev id moved r).modifyBlock b f)).sources c =
        (r.sources c).map (renamed b new) := by
  have hsevered : ∀ c, (severed b new prev id moved r).block? c =
      if c = .ofNat r.blocks.size then some { name := r.nextBlockName } else r.block? c :=
    fun c => block?_severed hsize
  obtain ⟨-, hsources, hlive⟩ := edges_of_fresh hsize hsevered
  have hcut : ((severed b new prev id moved r).modifyBlock b f).sources c = r.sources c := by
    have hb' : (severed b new prev id moved r).block? b = some found := by
      rw [hsevered, ← hnew, if_neg hne, hb]
    rw [sources_modifyBlock hb', hsources, hf found, ← sources_of_block? hb]
    split
    next hc => rw [hc]
    next => rfl
  rw [sources_foldl_renamed hne, hcut]
  . split
    next => rfl
    next hc =>
      -- Where no edge of `b` leads, the name `b` does not stand.
      rw [← targets_of_block? hb, h.mem_iff] at hc
      rw [List.map_congr_left fun d hd => renamed_of_ne (by rintro rfl; exact hc hd), List.map_id'']
      simp
  . intro d hd
    rw [modifyBlock_ne_none, hlive]
    rw [← targets_of_block? hb] at hd
    exact Or.inr (h.live_of_mem_targets hd)

theorem handed_of_severed {moved : List InsnId} {f g : Block → Block} {r₁ : Routine} (h : r.Wired)
    (hsize : r.blocks.size < UInt32.size) (hnew : new = .ofNat r.blocks.size)
    (hb : r.block? b = some found)
    (hf : ∀ x, (f x).successors = [] ∧ (f x).predecessors = x.predecessors)
    (hg : ∀ x, (g x).successors = found.successors ∧ (g x).predecessors = x.predecessors)
    (hr₁ : r₁ = found.successors.foldl
      (fun r c => r.modifyBlock c (.mapPredecessors (·.map (renamed b new))))
      ((severed b new prev id moved r).modifyBlock b f))
    : Handed r (r₁.modifyBlock new g) b new := by
  have hne : b ≠ new := by
    rintro rfl
    rw [hnew, block?_ofNat_size hsize] at hb
    cases hb
  have hsevered : ∀ c, (severed b new prev id moved r).block? c =
      if c = .ofNat r.blocks.size then some { name := r.nextBlockName } else r.block? c :=
    fun c => block?_severed hsize
  obtain ⟨htargets, -, hlive⟩ := edges_of_fresh hsize hsevered
  have hb' : (severed b new prev id moved r).block? b = some found := by
    rw [hsevered, ← hnew, if_neg hne, hb]
  obtain ⟨horder₁, htargets₁, hlive₁⟩ := foldl_renamed hr₁
  -- The edges that left `b` leave `new` now, and those that enter a block are renamed accordingly.
  have hsources₁ : ∀ c, r₁.sources c = (r.sources c).map (renamed b new) := by
    rw [hr₁]
    exact sources_severed h hsize hne hnew hb fun x => (hf x).2
  obtain ⟨d, hd⟩ : ∃ d, r₁.block? new = some d := by
    rw [← Option.ne_none_iff_exists', hlive₁, modifyBlock_ne_none, hlive]
    exact Or.inl hnew
  refine ⟨?_, ?_, horder₁.trans (order_severed prev id moved), ?_⟩
  . intro c
    rw [targets_modifyBlock hd, htargets₁, targets_modifyBlock hb', htargets, (hg d).1, (hf found).1,
      targets_of_block? hb]
  . intro c
    rw [sources_modifyBlock hd, (hg d).2, ← sources_of_block? hd, hsources₁, hsources₁]
    split
    next hc => rw [hc]
    next => rfl
  . intro c
    rw [modifyBlock_ne_none, hlive₁, modifyBlock_ne_none, hlive, hnew]

theorem split_cases (b : BlockId) (id : InsnId) (r : Routine)
    : ((∃ e, split b id r = .error e r) ∧ ∀ i, r.insn? id = some i → i.block ≠ b) ∨
        ∃ i, r.insn? id = some i ∧ i.block = b ∧
          (i.prev = none ∧ split b id r = .ok b r ∨
            ∃ prev, i.prev = some prev ∧
              split b id r = (addBlock >>= handOver b prev id i.ip (r.insnsFrom (some id)) r.order) r) := by
  cases hi : r.insn? id with
  | none =>
    refine Or.inl ⟨⟨_, bind_of_error (insn_run_none hi)⟩, ?_⟩
    intro i h
    cases h
  | some i =>
    by_cases hb : i.block = b
    . refine Or.inr ⟨i, rfl, hb, ?_⟩
      cases hprev : i.prev with
      | none =>
        refine Or.inl ⟨rfl, ?_⟩
        unfold split
        rw [bind_of_ok (insn_run_some hi)]
        simp [hb, hprev]
      | some prev => exact Or.inr ⟨prev, rfl, split_of_prev hi hb hprev⟩
    . refine Or.inl ⟨⟨.integrity (.notInBlock id b), ?_⟩, ?_⟩
      . unfold split
        rw [bind_of_ok (insn_run_some hi)]
        simp [hb]
      . rintro _ ⟨⟩
        exact hb

theorem handOver_run (h : r.Wired) (hsize : r.blocks.size < UInt32.size) (hb : r.block? b = some found)
    (ip : Option UInt64) (moved : List InsnId)
    : ∃ r', (addBlock >>= handOver b prev id ip moved r.order) r = .ok (.ofNat r.blocks.size) r' ∧
        Handed r r' b (.ofNat r.blocks.size) := by
  have hadd : addBlock r = .ok (.ofNat r.blocks.size) (pushBlock r) := rfl
  have hold : (severed b (.ofNat r.blocks.size) prev id moved r).block? b = some found := by
    rw [block?_severed hsize, if_neg, hb]
    rintro rfl
    rw [block?_ofNat_size hsize] at hb
    cases hb
  rw [bind_of_ok hadd]
  unfold handOver
  rw [modify_bind_run, modify_bind_run, modify_bind_run, modify_bind_run]
  refine ⟨_, (bind_of_ok (block_run_some hold)).trans rfl, ?_⟩
  exact handed_of_severed h hsize rfl hb (by intro x; exact ⟨rfl, rfl⟩) (by intro x; exact ⟨rfl, rfl⟩) rfl

theorem size_lt_of_handOver {prev id : InsnId} {ip : Option UInt64} {moved : List InsnId}
    {order : List BlockId}
    (h : (left (addBlock >>= handOver b prev id ip moved order) r).Roomy)
    : r.blocks.size < UInt32.size := by
  have hgrows : (pushBlock r).Grows (left (addBlock >>= handOver b prev id ip moved order) r) :=
    (keeps_handOver b prev id ip moved order (.ofNat r.blocks.size) (pushBlock r)).grows
  have := (hgrows.roomy h).blocks
  simp only [pushBlock, Store.size_push] at this
  omega

theorem wired_split (h : r.Wired) (harranged : r.Arranged) (b : BlockId) (id : InsnId)
    (hroomy : (left (split b id) r).Roomy) : (left (split b id) r).Wired := by
  rcases split_cases b id r with ⟨⟨e, hrun⟩, -⟩ | ⟨i, hi, hb, ⟨-, hrun⟩ | ⟨prev, hprev, hrun⟩⟩
  . rw [left_of_error hrun]
    exact h
  . rw [left_of_ok hrun]
    exact h
  . have hlive : r.block? b ≠ none := by
      rw [← block?_ne_none_iff]
      exact harranged.home b id _ (neighbours?_of_insn? hi hb)
    have hsize : r.blocks.size < UInt32.size := by
      unfold left at hroomy
      rw [hrun] at hroomy
      exact size_lt_of_handOver hroomy
    obtain ⟨found, hfound⟩ := Option.ne_none_iff_exists'.mp hlive
    obtain ⟨r', hrun', hhanded⟩ := handOver_run h hsize hfound i.ip (r.insnsFrom (some id))
    rw [left_of_ok (hrun.trans hrun')]
    exact hhanded.wired h (block?_ofNat_size hsize) hlive

end Split

end Edit

namespace Routine

variable {r r' : Routine} {b : BlockId}

section Layout

theorem sameEdges_renameInsns (r : Routine) : r.SameEdges r.renameInsns := by
  unfold renameInsns
  refine SameEdges.trans (rel_foldl ?_ _ r) ⟨fun _ => rfl, rfl⟩
  rintro r ⟨id, name⟩
  apply SameEdges.modifyInsn

theorem sameEdges_renameBlocks (r : Routine) : r.SameEdges r.renameBlocks := by
  unfold renameBlocks
  refine SameEdges.trans (rel_foldl ?_ _ r) ⟨fun _ => rfl, rfl⟩
  rintro r ⟨id, name⟩
  apply SameEdges.modifyBlock
  intro b
  exact ⟨rfl, rfl⟩

theorem Wired.closed_flowGraph (h : r.Wired)
    : r.flowGraph.Closed fun u => ∃ b : BlockId, b.toNat = u ∧ r.block? b ≠ none := by
  rintro u ⟨b, rfl, hb⟩ v hv
  obtain ⟨found, hfound⟩ := Option.ne_none_iff_exists'.mp hb
  simp only [flowGraph, BlockId.ofNat_toNat, hfound, Option.map_some, Option.getD_some,
    List.mem_map] at hv
  obtain ⟨c, hc, rfl⟩ := hv
  rw [← targets_of_block? hfound] at hc
  exact ⟨c, rfl, h.live_of_mem_targets hc⟩

theorem wired_topologicalSort (h : r.Wired) : r.topologicalSort.Wired := by
  unfold topologicalSort
  split
  next => exact h
  next entry hentry =>
    obtain ⟨hnodup, hlive⟩ := FlowGraph.reversePostorder_sound h.closed_flowGraph
      ⟨entry, rfl, (h.laid entry).mp (List.mem_of_mem_head? hentry)⟩
    have hreached : ∀ b, b ∈ (r.flowGraph.reversePostorder entry.toNat).map BlockId.ofNat →
        r.block? b ≠ none := by
      intro b hb
      obtain ⟨u, hu, rfl⟩ := List.mem_map.mp hb
      obtain ⟨c, rfl, hc⟩ := hlive u hu
      rw [BlockId.ofNat_toNat]
      exact hc
    have hnodup' : ((r.flowGraph.reversePostorder entry.toNat).map BlockId.ofNat).Nodup := by
      refine List.pairwise_map.mpr (hnodup.imp_of_mem ?_)
      intro u v hu hv hne heq
      obtain ⟨c, rfl, -⟩ := hlive u hu
      obtain ⟨d, rfl, -⟩ := hlive v hv
      rw [BlockId.ofNat_toNat, BlockId.ofNat_toNat] at heq
      exact hne (heq ▸ rfl)
    apply (sameEdges_renameBlocks _).wired
    generalize (r.flowGraph.reversePostorder entry.toNat).map BlockId.ofNat = reached at hreached hnodup'
    refine ⟨h.symmetric, ?_, ?_⟩
    . refine List.nodup_append.mpr ⟨hnodup', h.nodup.filter _, ?_⟩
      rintro b hb c hc rfl
      simp [hb] at hc
    . intro b
      show b ∈ reached ++ r.order.filter _ ↔ r.block? b ≠ none
      by_cases hb : b ∈ reached
      . simp [hb, hreached b hb]
      . simp [hb, h.laid]

end Layout

theorem wired_action (a : Action) (h : r.Wired) (harranged : r.Arranged)
    (hroomy : (Edit.left a.run r).Roomy) : (Edit.left a.run r).Wired := by
  have hsame : ∀ {a : Action}, Edit.Within SameEdges a.run → (Edit.left a.run r).Wired :=
    fun ha => (ha r).wired h
  have hfields : ∀ r' : Routine, (∀ b, r'.edges? b = r.edges? b) → r'.order = r.order → r'.Wired :=
    fun r' hedges horder => SameEdges.wired ⟨hedges, horder⟩ h
  cases a with
  | setImage image => exact hfields _ (fun _ => rfl) rfl
  | setArch arch => exact hfields _ (fun _ => rfl) rfl
  | setIp ip => exact hfields _ (fun _ => rfl) rfl
  | addBlock =>
    have hsize : (Edit.pushBlock r).blocks.size ≤ UInt32.size := hroomy.blocks
    rw [Edit.pushBlock, Store.size_push] at hsize
    exact Edit.wired_pushBlock h hsize
  | setBlockRange b ip endIp => exact hsame (Edit.sameEdges_setBlockRange b ip endIp)
  | deleteBlock b => exact Edit.wired_deleteBlock h b
  | addJump source target => exact Edit.wired_addJump h source target
  | deleteJump source target fixPhis => exact Edit.wired_deleteJump h source target fixPhis
  | split b id =>
    simp only [Action.run, Edit.left_discard] at hroomy ⊢
    exact Edit.wired_split h harranged b id hroomy
  | pushBack b i => exact hsame (Edit.sameEdges_pushBack b i).discard
  | pushFront b i => exact hsame (Edit.sameEdges_pushFront b i).discard
  | insertBefore id i => exact hsame (Edit.sameEdges_insertBefore id i).discard
  | insertAfter id i => exact hsame (Edit.sameEdges_insertAfter id i).discard
  | setOperand id index x => exact hsame (Edit.sameEdges_setOperand id index x)
  | pushOperand id x => exact hsame (Edit.sameEdges_pushOperand id x).discard
  | removeOperand id index => exact hsame (Edit.sameEdges_removeOperand id index).discard
  | setOpcode id opcode => exact hsame (Edit.sameEdges_setOpcode id opcode)
  | setTemplate id index t => exact hsame (Edit.sameEdges_setTemplate id index t)
  | replaceUses v x => exact hsame (Edit.covers_sameEdges.replaceUses v x).discard
  | erase id => exact hsame (Edit.sameEdges_erase id)
  | eraseIf b direction p => exact hsame (Edit.Within.eraseIf Edit.sameEdges_erase b direction p).discard
  | topologicalSort => exact wired_topologicalSort h
  | renameInsns => exact (sameEdges_renameInsns r).wired h
  | renameBlocks => exact (sameEdges_renameBlocks r).wired h
  | foldConstants b debug => exact hsame (Edit.covers_sameEdges.foldConstants b debug).discard
  | deduplicate b debug => exact hsame (Edit.covers_sameEdges.deduplicate b debug).discard
  | combine b debug => exact hsame (Edit.covers_sameEdges.combine b debug).discard
  | resolveLoads b debug => exact hsame (Edit.covers_sameEdges.resolveLoads b debug).discard
  | forwardRegisters b debug => exact hsame (Edit.covers_sameEdges.forwardRegisters b debug).discard
  | removeDeadCode b => exact hsame (Edit.covers_sameEdges.removeDeadCode b).discard

theorem wired_empty : ({} : Routine).Wired := by
  have hnone : ∀ b, ({} : Routine).block? b = none := fun b => by simp [block?, Store.get?]
  refine ⟨?_, List.nodup_nil, ?_⟩
  . intro a b
    rw [targets_of_none (hnone a), sources_of_none (hnone b)]
    rfl
  . intro b
    simp [hnone]

theorem wired_actions (actions : List Action) (h : r.Wired) (harranged : r.Arranged)
    (hroomy : (actions.foldl (fun r a => Edit.left a.run r) r).Roomy)
    : (actions.foldl (fun r a => Edit.left a.run r) r).Wired := by
  induction actions generalizing r with
  | nil => exact h
  | cons a rest ih =>
    have hroomy' : (Edit.left a.run r).Roomy := (arranges_actions rest _).grows.roomy hroomy
    exact ih (wired_action a h harranged hroomy')
      ((arranges_action a r).arranged hroomy' harranged) hroomy

theorem wired_of_roomy (actions : List Action) (h : (after actions).Roomy) : (after actions).Wired :=
  wired_actions actions wired_empty arranged_empty h

theorem wired_after (actions : List Action) (h : (after actions).Small) : (after actions).Wired :=
  wired_of_roomy actions h.roomy

/-- The lists of edges agree with each other and with the blocks there are, and so does the layout. -/
structure FlowAgrees (r : Routine) : Prop where
  symmetric : ∀ a b x y, r.block? a = some x → r.block? b = some y →
    x.successors.count b = y.predecessors.count a
  successors : ∀ a x, r.block? a = some x → ∀ b ∈ x.successors, r.block? b ≠ none
  predecessors : ∀ b y, r.block? b = some y → ∀ a ∈ y.predecessors, r.block? a ≠ none
  once : r.order.Nodup
  laid : ∀ b, b ∈ r.order ↔ r.block? b ≠ none

theorem Wired.flowAgrees (h : r.Wired) : r.FlowAgrees where
  symmetric a b x y hx hy := by
    rw [← targets_of_block? hx, ← sources_of_block? hy]
    exact h.symmetric a b
  successors a x hx b hb := by
    rw [← targets_of_block? hx] at hb
    exact h.live_of_mem_targets hb
  predecessors b y hy a ha := by
    rw [← sources_of_block? hy] at ha
    exact h.live_of_mem_sources ha
  once := h.nodup
  laid := h.laid

theorem flowAgrees_after (actions : List Action) (h : (after actions).Small)
    : (after actions).FlowAgrees := (wired_after actions h).flowAgrees

def loopActions : List Action :=
  [.addBlock, .addBlock, .addBlock,
    .pushBack (.ofNat 0) (.readReg .i64 (.ofNat 1 1)),
    .pushBack (.ofNat 0) (.writeReg (.ofNat 1 1) (.insn (.ofNat 0)) .i64),
    .addJump (.ofNat 0) (.ofNat 0),
    .addJump (.ofNat 0) (.ofNat 2),
    .addJump (.ofNat 0) (.ofNat 2),
    .split (.ofNat 0) (.ofNat 1),
    .addJump (.ofNat 0) (.ofNat 3),
    .deleteJump (.ofNat 3) (.ofNat 2) true,
    .deleteBlock (.ofNat 1),
    .deleteBlock (.ofNat 2),
    .topologicalSort]

theorem flowAgrees_after_loopActions
    : (after loopActions).Small ∧ (after loopActions).FlowAgrees ∧
        (after loopActions).targets (.ofNat 3) = [.ofNat 0, .ofNat 2] ∧
        (after loopActions).sources (.ofNat 0) = [.ofNat 3] ∧
        (after loopActions).order = [.ofNat 0, .ofNat 3, .ofNat 2] := by
  have hsmall : (after loopActions).Small := by decide +kernel
  exact ⟨hsmall, flowAgrees_after loopActions hsmall, by decide +kernel⟩

end Routine

end MachineIR
