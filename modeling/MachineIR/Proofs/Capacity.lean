import MachineIR.Proofs.Deduplication
import MachineIR.Proofs.PipelineRuns
import MachineIR.Proofs.Weights

/-!
This module contains what the passes can add to a routine. Every conversion that they insert uses up
a register read, and no pass makes new ones. So handles that suffice for one conversion for each
read suffice for any number of passes.
-/

namespace MachineIR

def Instruction.reads (i : Instruction) : Nat := if i.opcode = .readReg then 1 else 0

namespace Routine

variable {r r' : Routine} {b : BlockId} {id : InsnId} {k n : Nat} {x : Operand}
  {gone gone' : List InsnId}

def slotCount (r : Routine) : Nat := r.total (·.operands.length)

def readCount (r : Routine) : Nat := r.total Instruction.reads

/-- There are handles for `n` more instructions with an operand each. -/
structure Affords (r : Routine) (n : Nat) : Prop where
  insns : r.insns.size + n ≤ UInt32.size
  blocks : r.blocks.size ≤ UInt32.size
  uses : r.uses.records.size ≤ UInt32.size
  slots : r.slotCount + n ≤ UInt32.size

instance (r : Routine) (n : Nat) : Decidable (r.Affords n) :=
  decidable_of_iff
    (r.insns.size + n ≤ UInt32.size ∧ r.blocks.size ≤ UInt32.size ∧
      r.uses.records.size ≤ UInt32.size ∧ r.slotCount + n ≤ UInt32.size)
    ⟨fun h => ⟨h.1, h.2.1, h.2.2.1, h.2.2.2⟩, fun h => ⟨h.insns, h.blocks, h.uses, h.slots⟩⟩

namespace Affords

theorem small (h : r.Affords n) : r.Small :=
  ⟨Nat.le_trans (Nat.le_add_right _ _) h.insns, h.blocks, h.uses⟩

theorem mono {m : Nat} (h : r.Affords n) (hm : m ≤ n) : r.Affords m := by
  have hinsns := h.insns
  have hslots := h.slots
  exact ⟨by omega, h.blocks, h.uses, by omega⟩

theorem of_sizes (h : r.Affords n) (hsizes : r'.sizes = r.sizes)
    (huses : r'.uses.records.size ≤ UInt32.size)
    (hslots : r'.weight (·.operands.length) [] ≤ r.weight (·.operands.length) [])
    : r'.Affords n := by
  obtain ⟨hinsns, hblocks⟩ := Prod.mk.inj hsizes
  have hsmall : r'.Small := ⟨hinsns ▸ h.small.insns, hblocks ▸ h.blocks, huses⟩
  rw [weight_nil hsmall, weight_nil h.small] at hslots
  exact ⟨hinsns ▸ h.insns, hblocks ▸ h.blocks, huses,
    Nat.le_trans (Nat.add_le_add_right hslots n) h.slots⟩

end Affords

section Records

theorem slotRecords_eq
    : r.slotRecords = (r.insns.entries.flatMap fun p => p.2.slots).filterMap Slot.use := by
  unfold slotRecords
  rw [List.filterMap_flatMap]

theorem slotCount_eq : r.slotCount = (r.insns.entries.flatMap fun p => p.2.slots).length := by
  unfold slotCount total
  rw [List.length_flatMap]
  simp [Insn.code, Insn.operands]

theorem Tracks.live_le_slotCount (h : r.Tracked) (hsmall : r.Small) : r.uses.live ≤ r.slotCount := by
  rw [← h.referenceCount_eq hsmall, ← h.owns.length_slotRecords hsmall, slotRecords_eq, slotCount_eq]
  exact List.length_filterMap_le _ _

theorem Tracks.live_lt_slotCount (h : r.Tracked) (hsmall : r.Small)
    (hs : r.slot? id k = some ⟨x, none⟩) : r.uses.live < r.slotCount := by
  rw [← h.referenceCount_eq hsmall, ← h.owns.length_slotRecords hsmall, slotRecords_eq, slotCount_eq,
    List.length_filterMap_lt_length_iff_exists]
  obtain ⟨i, hi, hk⟩ := Option.bind_eq_some_iff.mp hs
  refine ⟨⟨x, none⟩, List.mem_flatMap.mpr ⟨(id.toNat, i), ?_, List.mem_of_getElem? hk⟩, rfl⟩
  exact Store.mem_entries.mpr hi

end Records

def Saves (r r' : Routine) : Prop := ∀ n, r.Tracked → r.Affords n → r'.Tracked ∧ r'.Affords n

instance : Std.Refl Saves := ⟨fun _ _ htracked haffords => ⟨htracked, haffords⟩⟩

instance : Trans Saves Saves Saves where
  trans h h' n htracked haffords := h' n (h n htracked haffords).1 (h n htracked haffords).2

end Routine

namespace Edit

open Routine

variable {r r' : Routine} {b : BlockId} {id : InsnId} {k n : Nat} {x : Operand} {i : Instruction}

section Saves

theorem saves_setOperand (id : InsnId) (k : Nat) (x : Operand)
    : Within Saves (setOperand id k x) := by
  intro r n htracked haffords
  have hfailed : ∀ {e}, setOperand id k x r = .error e r →
      (left (setOperand id k x) r).Tracked ∧ (left (setOperand id k x) r).Affords n := by
    intro e he
    rw [left_of_error he]
    exact ⟨htracked, haffords⟩
  by_cases hfails : r.slot? id k = none ∨ ¬ r.Admits x
  . obtain ⟨e, he⟩ := setOperand_run_error hfails
    exact hfailed he
  . rw [not_or, not_not] at hfails
    obtain ⟨⟨y, use⟩, hs⟩ := Option.ne_none_iff_exists'.mp hfails.1
    obtain ⟨r', hrun, hset, htracked'⟩ := setOperand_run hs (htracked.releasable hs) hfails.2
    -- A slot that had no record is not among those that the records are for.
    have huses : r'.uses.records.size ≤ UInt32.size := by
      cases use with
      | none =>
        have hsize := hset.size_le
        have hlive := htracked.live_lt_slotCount haffords.small hs
        have huses := haffords.uses
        have hslots := haffords.slots
        omega
      | some use =>
        rw [hset.reuse (Option.some_ne_none use)]
        exact haffords.uses
    rw [left_of_ok hrun]
    refine ⟨htracked' htracked huses, haffords.of_sizes ?_ huses ?_⟩
    . rw [← sizes_bare, hset.bare, modifySlot, sizes_modifyInsn, sizes_bare]
    . rw [← weight_bare, hset.bare, modifySlot, weight_modifyInsn, weight_bare]
      intro i _
      simp [Insn.code, Insn.operands]

theorem saves_modifyInsn {f : Insn → Insn} (hslots : ∀ i, (f i).slots = i.slots)
    (huses : ∀ i, (f i).uses = i.uses) (id : InsnId)
    : Within Saves (modify (·.modifyInsn id f) : Edit PUnit) := by
  apply Within.modify
  intro r n htracked haffords
  have haffords' : (r.modifyInsn id f).Affords n := by
    apply haffords.of_sizes (sizes_modifyInsn f id) haffords.uses
    apply Nat.le_of_eq
    apply weight_modifyInsn
    intro i _
    simp [Insn.code, Insn.operands, hslots]
  exact ⟨(SameUses.modifyInsn hslots huses r id).keeps.tracked haffords'.small htracked, haffords'⟩

theorem coversInPlace_saves : CoversInPlace Saves where
  setOperand := saves_setOperand
  setOpcode id o := by
    unfold setOpcode
    refine Within.bind (Within.insn id) fun _ => ?_
    exact saves_modifyInsn (by intro i; rfl) (by intro i; rfl) id
  setTemplate id index t := by
    unfold setTemplate
    refine Within.bind (Within.insn id) fun _ => ?_
    split
    . exact saves_modifyInsn (by intro i; rfl) (by intro i; rfl) id
    . exact saves_modifyInsn (by intro i; rfl) (by intro i; rfl) id
    . exact Within.throw _

theorem saves_erase (id : InsnId) : Within Saves (erase id) := by
  intro r n htracked haffords
  cases hrun : erase id r with
  | error e r' =>
    rcases erase_run_cases htracked id with ⟨e', he'⟩ | ⟨i, r₁, -, -, hok, -⟩
    . rw [left_of_error he']
      exact ⟨htracked, haffords⟩
    . rw [hok] at hrun
      cases hrun
  | ok u r' =>
    have herased := erased_of_ok htracked hrun
    rw [left_of_ok hrun]
    refine ⟨herased.tracked, haffords.of_sizes herased.sizes ?_ (weight_erased herased)⟩
    rw [herased.size]
    exact haffords.uses

theorem saves_complete (b : BlockId) (m : Nat) (debug : Bool) : Within Saves (complete b m debug) :=
  Within.complete (Within.eraseIf saves_erase _ _ _) m debug

theorem saves_sweep {visit : InsnId → Edit Nat} (h : ∀ id, Within Saves (visit id)) (b : BlockId)
    (d : Direction) (debug : Bool)
    : Within Saves (sweep b d visit >>= fun m => complete b m debug) :=
  Within.bind (Within.sweep h b d) fun m => saves_complete b m debug

theorem Saves.of_ok {α : Type} {e : Edit α} {a : α} (h : Within Saves e) (hrun : e r = .ok a r')
    (htracked : r.Tracked) (haffords : r.Affords n) : r'.Tracked ∧ r'.Affords n := by
  have := h r n htracked haffords
  rwa [left_of_ok hrun] at this

theorem affords_insertBefore {c : InsnId} (htracked : r.Tracked) (haffords : r.Affords (n + 1))
    (hrun : insertBefore id i r = .ok c r') (hi : i.operands.length ≤ 1)
    : r'.Tracked ∧ r'.Affords n := by
  have hinsns := haffords.insns
  have hslots := haffords.slots
  have hinserted := inserted_of_size (by omega) hrun
  obtain ⟨hinsns', hblocks'⟩ := Prod.mk.inj hinserted.sizes
  have hsmall : r'.Small := by
    refine ⟨by omega, by rw [hblocks']; exact haffords.blocks, ?_⟩
    have huses := hinserted.uses
    have hlive := htracked.live_le_slotCount haffords.small
    have := haffords.uses
    omega
  have hkeeps := keeps_insertBefore id i r
  rw [left_of_ok hrun] at hkeeps
  refine ⟨hkeeps.tracked hsmall htracked, by omega, hsmall.blocks, hsmall.uses, ?_⟩
  have hweight : r'.weight (·.operands.length) [] ≤
      r.weight (·.operands.length) [] + i.operands.length :=
    weight_inserted (fun _ => rfl) hinserted
  rw [weight_nil hsmall, weight_nil haffords.small] at hweight
  unfold slotCount at hslots ⊢
  omega

theorem affords_forwardRead {p : Producer} {m : Nat} (htracked : r.Tracked)
    (haffords : r.Affords (n + 1)) (hrun : forwardRead id p r = .ok m r') : r'.Affords n := by
  have hreplaces := fun x => coversInPlace_saves.replaceUses (.insn id) x
  unfold forwardRead at hrun
  obtain ⟨content, r₁, hcontent, hmatch⟩ := of_bind_ok hrun
  obtain ⟨rfl, -⟩ := content?_run hcontent
  obtain ⟨e, he, hmatched⟩ := exists_run hmatch
  split at he
  . subst he
    cases hmatched
    exact haffords.mono (Nat.le_succ n)
  . next y t =>
    subst he
    obtain ⟨i, r₂, hi, hif⟩ := of_bind_ok hmatched
    obtain ⟨-, rfl⟩ := knownInsn_of_ok hi
    dsimp only at hif
    by_cases hty : t = i.ty
    . rw [if_pos hty] at hif
      obtain ⟨m, r₃, hreplace, hset⟩ := of_bind_ok hif
      obtain ⟨u, r₄, hset, hend⟩ := of_bind_ok hset
      cases hend
      obtain ⟨htracked₃, haffords₃⟩ :=
        Saves.of_ok (hreplaces y) hreplace htracked (haffords.mono (Nat.le_succ n))
      exact (Saves.of_ok (coversInPlace_saves.setOpcode id .nop) hset htracked₃ haffords₃).2
    . rw [if_neg hty] at hif
      obtain ⟨c, r₃, hinsert, hreplace⟩ := of_bind_ok hif
      obtain ⟨m, r₄, hreplace, hend⟩ := of_bind_ok hreplace
      cases hend
      obtain ⟨htracked₃, haffords₃⟩ := affords_insertBefore htracked haffords hinsert (Nat.le_refl 1)
      exact (Saves.of_ok (hreplaces (.insn c)) hreplace htracked₃ haffords₃).2

end Saves

end Edit

section Eases

open Routine Edit

variable {r r' : Routine} {b : BlockId} {id : InsnId} {gone gone' : List InsnId}

noncomputable def Routine.reads (gone : List InsnId) (r : Routine) : Nat :=
  r.weight Instruction.reads gone

/--
No read is new, and neither instructions nor slots are more than before by more than the number of
reads that are used up.
-/
structure Eases (p q : List InsnId × Routine) : Prop where
  reads : q.2.reads q.1 ≤ p.2.reads p.1
  insns : q.2.insns.size + q.2.reads q.1 ≤ p.2.insns.size + p.2.reads p.1
  slots : q.2.weight (·.operands.length) [] + q.2.reads q.1 ≤
    p.2.weight (·.operands.length) [] + p.2.reads p.1
  blocks : q.2.blocks.size = p.2.blocks.size

namespace Eases

theorem trans {p q s : List InsnId × Routine} (h : Eases p q) (h' : Eases q s) : Eases p s :=
  ⟨h'.reads.trans h.reads, h'.insns.trans h.insns, h'.slots.trans h.slots, h'.blocks.trans h.blocks⟩

theorem of_sizes (hsizes : r'.sizes = r.sizes) (hreads : r'.reads gone' ≤ r.reads gone)
    (hslots : r'.weight (·.operands.length) [] ≤ r.weight (·.operands.length) [])
    : Eases (gone, r) (gone', r') := by
  obtain ⟨hinsns, hblocks⟩ := Prod.mk.inj hsizes
  exact ⟨hreads, Nat.add_le_add (Nat.le_of_eq hinsns) hreads, Nat.add_le_add hslots hreads, hblocks⟩

theorem affords (h : Eases (gone, r) (gone', r')) (haffords : r.Affords (r.reads gone))
    (hsmall : r'.Small) : r'.Affords (r'.reads gone') := by
  have hinsns := h.insns
  have hslots := h.slots
  have hinsns' := haffords.insns
  have hslots' := haffords.slots
  dsimp only at hinsns hslots
  rw [weight_nil hsmall, weight_nil haffords.small] at hslots
  refine ⟨by omega, hsmall.blocks, hsmall.uses, ?_⟩
  unfold slotCount at hslots' ⊢
  omega

theorem nop (id : InsnId)
    : Eases (gone, r) (gone, r.modifyInsn id ({ · with opcode := .nop })) := by
  apply of_sizes (sizes_modifyInsn _ id)
  . apply weight_le
    intro j
    by_cases hj : j = id
    . unfold weightAt
      split
      . exact Nat.le_refl 0
      . rw [code?_modifyInsn, if_pos hj]
        cases r.insn? j with
        | none => exact Nat.zero_le _
        | some i => exact Nat.zero_le _
    . exact Nat.le_of_eq (weightAt_congr (by rw [code?_modifyInsn, if_neg hj]))
  . exact Nat.le_of_eq (weight_modifyInsn fun _ _ => rfl)

theorem replaced {x : Operand} (h : Replaced r r' (.insn id) x)
    : Eases (gone, r) (id :: gone, r') := by
  apply of_sizes h.sizes
  . rw [Routine.reads, weight_replaced (fun _ => rfl) h]
    exact weight_cons_le
  . exact Nat.le_of_eq (weight_replaced (fun _ => List.length_map _) h)

theorem erased (h : Erased r r' id) : Eases (gone, r) (gone, r') :=
  of_sizes h.sizes (weight_erased h) (weight_erased h)

end Eases

theorem Reduces.eases (h : Reduces b (gone, r) (gone', r')) : Eases (gone, r) (gone', r') := by
  cases h with
  | replace hr hid hnew hi hpure hx hgone hself h => exact .replaced h
  | @rewire _ _ _ id i s hr hid hi hrule hs h =>
    -- A rule keeps the opcode and the number of operands.
    apply Eases.of_sizes
    . rw [sizes_of_bare_eq h, sizes_modifyInsn]
    . refine Nat.le_of_eq ((weight_of_bare_eq h).trans (weight_modifyInsn ?_))
      intro i _
      cases s <;> rfl
    . refine Nat.le_of_eq ((weight_of_bare_eq h).trans (weight_modifyInsn ?_))
      intro i _
      cases s with
      | replace y => rfl
      | operands k y m z => simp [Simplification.applied, Insn.code, Insn.operands_withOperand]
      | source t y =>
        simp only [Simplification.applied, Insn.code, Insn.operands_withOperand, List.length_set]
        rfl
  | overwrite hr hid hnew h => exact .erased h
  | @retire _ _ id => exact .nop id
  | @forward _ _ _ id _ _ hr hr₁ hid hnew hi hread hx hgone hself h =>
    exact (Eases.replaced h).trans (.nop id)
  | @cast _ _ r₁ _ id c i t t' x hr hr₁ hid hnew hi hread hx hgone hinserted h =>
    -- The conversion is new, and the read that it replaces does not count any more.
    have hreads := weight_recast (w := Instruction.reads) (fun _ => rfl) hnew hi hinserted
    have hslots : r₁.weight (·.operands.length) [] ≤ r.weight (·.operands.length) [] + 1 :=
      weight_inserted (fun _ => rfl) hinserted
    have hcast : (Instruction.bitcast t t' x).reads = 0 := rfl
    rw [hcast, Instruction.reads, if_pos hread] at hreads
    obtain ⟨hinsns, hblocks⟩ := Prod.mk.inj (h.sizes.trans hinserted.sizes)
    have hreads' : r'.reads (id :: gone) + 1 ≤ r.reads gone := by
      rw [Routine.reads, Routine.reads, weight_replaced (fun _ => rfl) h]
      omega
    refine ⟨Nat.le_of_succ_le hreads', ?_, ?_, hblocks⟩
    . dsimp only
      omega
    . rw [weight_replaced (fun _ => List.length_map _) h]
      dsimp only
      omega

theorem eases_of_transGen {p q : List InsnId × Routine} (h : Relation.TransGen (Reduces b) p q)
    : Eases p q := by
  induction h with
  | single hstep => exact hstep.eases
  | tail _ hstep ih => exact ih.trans hstep.eases

theorem Routine.sizes_of_discards (h : Relation.ReflTransGen (Discards b) r r')
    : r'.sizes = r.sizes := by
  induction h with
  | refl => rfl
  | tail _ hstep ih =>
    obtain ⟨id, -, -, herased⟩ := hstep
    rw [herased.sizes, ih]

theorem Routine.Cleans.eases (h : r.Cleans b r') (hgone : ∀ id ∈ gone, r.Spent b id)
    : Eases (gone, r) ([], r') :=
  .of_sizes (sizes_of_discards h.discards) (h.weight_le hgone) (h.weight_le (by simp))

theorem eases_of_discards (h : Relation.TransGen (Discards b) r r') : Eases ([], r) ([], r') := by
  have hstep : ∀ {r r'}, Discards b r r' → Eases ([], r) ([], r') := by
    rintro r r' ⟨id, -, -, herased⟩
    exact .erased herased
  induction h with
  | single h => exact hstep h
  | tail _ h ih => exact ih.trans (hstep h)

theorem Routine.Reworked.eases (h : r.Reworked b r') : Eases ([], r) ([], r') := by
  rcases h with ⟨gone, r₁, hsteps, hgone, hcleans⟩ | hdiscards
  . exact (eases_of_transGen hsteps).trans (hcleans.eases hgone)
  . exact eases_of_discards hdiscards

end Eases

namespace Edit

open Routine

variable {r r' start : Routine} {b : BlockId} {id : InsnId} {gone todo : List InsnId}
  {known : Producers} {debug : Bool} {n : Nat}

section Registers

theorem Progress.affords (h : Progress b start gone todo known n r)
    (haffords : start.Affords (start.reads [])) (hsmall : r.Small) : r.Affords (r.reads gone) := by
  rcases h.steps with ⟨-, rfl, rfl⟩ | ⟨-, hsteps⟩
  . exact haffords
  . exact (eases_of_transGen hsteps).affords haffords hsmall

theorem exists_reads {i : Instruction} (hid : id ∉ gone) (hi : r.code? id = some i)
    (hread : i.opcode = .readReg) : ∃ m, r.reads gone = m + 1 := by
  have hle : r.weightAt Instruction.reads gone id ≤ r.reads gone := weightAt_le_weight id
  rw [weightAt_of_code hid hi, Instruction.reads, if_pos hread] at hle
  exact ⟨r.reads gone - 1, by omega⟩

theorem small_of_visitRegister {s s' : Producers × Nat} (hr : r.Intact) (hid : id ∉ gone)
    (haffords : r.Affords (r.reads gone)) (hrun : visitRegister s id r = .ok s' r') : r'.Small := by
  unfold visitRegister at hrun
  obtain ⟨i, r₁, hknown, hvisit⟩ := of_bind_ok hrun
  obtain ⟨hi, rfl⟩ := knownInsn_of_ok hknown
  obtain ⟨e, he, hvisit⟩ := exists_run hvisit
  split at he
  . subst he
    unfold visitWrite at hvisit
    obtain ⟨e, he, hvisit⟩ := exists_run hvisit
    split at he
    . subst he
      obtain ⟨u, r₂, herase, hend⟩ := of_bind_ok hvisit
      cases hend
      exact (erased_of_ok hr.tracked herase).small hr.small
    . subst he
      cases hvisit
      exact hr.small
  . next x hopcode hx =>
    subst he
    unfold visitRead at hvisit
    obtain ⟨e, he, hvisit⟩ := exists_run hvisit
    split at he
    . subst he
      obtain ⟨m, r₂, hforward, hend⟩ := of_bind_ok hvisit
      cases hend
      obtain ⟨k, hk⟩ := exists_reads hid (code?_of_insn? hi) hopcode
      rw [hk] at haffords
      exact (affords_forwardRead hr.tracked haffords hforward).small
    . subst he
      cases hvisit
      exact hr.small
  . subst he
    cases hvisit
    exact hr.small

theorem small_of_forwardRegisters (hr : r.Intact) (haffords : r.Affords (r.reads []))
    (hrun : forwardRegisters b debug r = .ok n r') : r'.Small := by
  rw [forwardRegisters_eq] at hrun
  obtain ⟨⟨known, m⟩, r₁, hsweep, hcomplete⟩ := of_bind_ok hrun
  have hb := block?_of_sweepWith hsweep
  have hvisits := (visitRegister_visits (b := b)
    (I := fun todo s r₁ => ∃ gone, Progress b r gone todo s.1 s.2 r₁)
    (fun hscanned ⟨gone, hprogress⟩ hforwards _ => hforwards.progress hscanned hprogress)).forward (by
      rintro id todo s r₁ s' r₂ ⟨hscanned, gone, hprogress⟩ hrun
      have hid : id ∉ gone := fun hmem => hprogress.behind id hmem List.mem_cons_self
      exact small_of_visitRegister hscanned.intact hid
        (Progress.affords hprogress haffords hscanned.intact.small) hrun)
  have hends := hvisits.ends (s := ([], 0)) (hr.arranged.holds_insnsOf hb).lists
    ⟨Scanned.start hr hb, [], nofun, nofun, nofun, Or.inl ⟨rfl, rfl, rfl⟩⟩ trivial
  rw [hsweep] at hends
  cases hends with
  | done h =>
    obtain ⟨hscanned, gone, hprogress⟩ := h
    exact (Saves.of_ok (saves_complete b m debug) hcomplete hscanned.intact.tracked
      (Progress.affords hprogress haffords hscanned.intact.small)).2.small

end Registers

section Passes

variable {e : BlockId → Edit Nat}

theorem saves_resolveLoads (b : BlockId) (debug : Bool) : Within Saves (resolveLoads b debug) := by
  unfold resolveLoads
  refine Within.bind Within.get fun r => ?_
  split
  . exact Within.pure _
  . exact saves_sweep (coversInPlace_saves.resolveLoad _) b .forward debug

theorem small_of_pass (he : e ∈ ofPasses debug) (hr : r.Intact) (haffords : r.Affords (r.reads []))
    (hrun : e b r = .ok n r') : r'.Small := by
  have hsaves : ∀ {e : Edit Nat}, Within Saves e → e r = .ok n r' → r'.Small :=
    fun h hrun => (Saves.of_ok h hrun hr.tracked haffords).2.small
  simp only [ofPasses, List.mem_cons, List.not_mem_nil, or_false] at he
  rcases he with rfl | rfl | rfl | rfl | rfl | rfl
  . exact hsaves (saves_sweep coversInPlace_saves.foldInsn b .forward debug) hrun
  . exact hsaves (saves_sweep coversInPlace_saves.mergeInsn b .backward debug) hrun
  . exact hsaves (saves_sweep coversInPlace_saves.combineInsn b .forward debug) hrun
  . exact hsaves (saves_resolveLoads b debug) hrun
  . exact small_of_forwardRegisters hr haffords hrun
  . exact hsaves (Within.eraseIf saves_erase _ _ _) hrun

theorem affords_of_pass (he : e ∈ ofPasses debug) (hr : r.Intact) (haffords : r.Affords (r.reads []))
    (hrun : e b r = .ok n r') : r'.Intact ∧ r'.Affords (r'.reads []) := by
  have hsmall := small_of_pass he hr haffords hrun
  obtain ⟨hr', hcases⟩ := ofPasses_cases he hr hrun hsmall
  rcases hcases with ⟨-, rfl⟩ | ⟨-, hreworked⟩
  . exact ⟨hr, haffords⟩
  . exact ⟨hr', hreworked.eases.affords haffords hsmall⟩

end Passes

end Edit

end MachineIR
