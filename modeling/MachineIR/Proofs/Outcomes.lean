import MachineIR.Proofs.Edges
import MachineIR.Proofs.Reductions

/-!
This module contains when the edits of a routine succeed and that they change nothing otherwise. An
edit checks what it is given before it begins to change something; what comes after that cannot fail
any more because of what holds of every routine: its uses are tracked, its instructions are arranged
in lists, its edges look the same from both ends, and all the handles that it holds are live.
-/

namespace MachineIR

namespace Edit

open Routine

variable {α β : Type} {r r' : Routine} {id : InsnId} {k : Nat} {x : Operand} {v : ValueId} {b : BlockId}

def Settles (e : Edit α) (r : Routine) (P : Prop) : Prop :=
  (P ∧ ∃ a r', e r = .ok a r') ∨ (¬ P ∧ ∃ err, e r = .error err r)

namespace Settles

variable {e : Edit α} {P Q : Prop}

theorem congr (h : Settles e r P) (hiff : P ↔ Q) : Settles e r Q := by
  unfold Settles at h ⊢
  rwa [← hiff]

theorem discard (h : Settles e r P) : Settles (discard e) r P := by
  rcases h with ⟨hP, a, r', hrun⟩ | ⟨hP, err, hrun⟩
  . exact Or.inl ⟨hP, (), r', discard_of_ok hrun⟩
  . exact Or.inr ⟨hP, err, discard_of_error hrun⟩

theorem bind {f : α → Edit β} (h : (P ∧ ∃ a, e r = .ok a r ∧ Settles (f a) r Q) ∨
    (¬ P ∧ ∃ err, e r = .error err r)) : Settles (e >>= f) r (P ∧ Q) := by
  rcases h with ⟨hP, a, hrun, ⟨hQ, c, r', hrun'⟩ | ⟨hQ, err, hrun'⟩⟩ | ⟨hP, err, hrun⟩
  . exact Or.inl ⟨⟨hP, hQ⟩, c, r', (bind_of_ok hrun).trans hrun'⟩
  . exact Or.inr ⟨fun h => hQ h.2, err, (bind_of_ok hrun).trans hrun'⟩
  . exact Or.inr ⟨fun h => hP h.1, err, bind_of_error hrun⟩

theorem bind_insn {f : Insn → Edit β} (h : ∀ i, r.insn? id = some i → Settles (f i) r Q)
    : Settles (insn id >>= f) r (r.insn? id ≠ none ∧ Q) := by
  apply bind
  cases hi : r.insn? id with
  | none => exact Or.inr ⟨by simp, _, insn_run_none hi⟩
  | some i => exact Or.inl ⟨by simp, i, insn_run_some hi, h i hi⟩

theorem bind_block {f : Block → Edit β} (h : ∀ found, r.block? b = some found → Settles (f found) r Q)
    : Settles (block b >>= f) r (r.block? b ≠ none ∧ Q) := by
  apply bind
  cases hb : r.block? b with
  | none => exact Or.inr ⟨by simp, _, block_run_none hb⟩
  | some found => exact Or.inl ⟨by simp, found, block_run_some hb, h found hb⟩

theorem of_ok {a : α} (h : e r = .ok a r') : Settles e r True := Or.inl ⟨trivial, a, r', h⟩

end Settles

section Operands

theorem settles_setOperand (h : r.Tracked) (id : InsnId) (k : Nat) (x : Operand)
    : Settles (setOperand id k x) r (r.slot? id k ≠ none ∧ r.Admits x) := by
  by_cases hx : r.Admits x
  . cases hs : r.slot? id k with
    | none => exact Or.inr ⟨by simp, setOperand_run_error (Or.inl hs)⟩
    | some s =>
      obtain ⟨r', hrun, -⟩ := setOperand_run hs (h.releasable hs) hx
      exact Or.inl ⟨⟨by simp, hx⟩, (), r', hrun⟩
  . exact Or.inr ⟨fun h => hx h.2, setOperand_run_error (Or.inr hx)⟩

theorem settles_pushOperand (id : InsnId) (x : Operand) (r : Routine)
    : Settles (pushOperand id x) r (r.insn? id ≠ none ∧ r.Admits x) := by
  refine Settles.congr (P := r.Admits x ∧ r.insn? id ≠ none ∧ True) ?_ (by simp [and_comm])
  unfold pushOperand
  apply Settles.bind
  rcases requireLive_run x r with ⟨hrun, hx⟩ | ⟨e, hrun⟩
  . refine Or.inl ⟨hx, (), hrun, Settles.bind_insn fun i hi => ?_⟩
    -- The new slot holds nothing yet, so it can be filled.
    have hslot := slot?_appendSlot hi ⟨.const .void, none⟩ id i.slots.length
    rw [if_pos ⟨rfl, rfl⟩] at hslot
    obtain ⟨r', hrun', -⟩ := setOperand_run (x := x) hslot (by intro use huse; cases huse) (by
      intro v hv
      obtain ⟨l, hl⟩ := hx v hv
      exact ⟨l, (useList?_modifyInsn (by intro i; rfl) id v).trans hl⟩)
    exact Settles.of_ok (bind_of_ok hrun')
  . refine Or.inr ⟨?_, e, hrun⟩
    intro hx
    rw [requireLive_run_ok hx] at hrun
    cases hrun

theorem settles_removeOperand (h : r.Tracked) (id : InsnId) (k : Nat)
    : Settles (removeOperand id k) r (r.slot? id k ≠ none) := by
  cases hs : r.slot? id k with
  | none =>
    obtain ⟨e, he⟩ := releaseOperand_run_none hs
    exact Or.inr ⟨by simp, e, bind_of_error he⟩
  | some s =>
    obtain ⟨y, r', hrun, -⟩ := removeOperand_run h hs
    exact Or.inl ⟨by simp, y, r', hrun⟩

theorem settles_setOpcode (id : InsnId) (opcode : Opcode) (r : Routine)
    : Settles (setOpcode id opcode) r (r.insn? id ≠ none) := by
  refine Settles.congr (P := r.insn? id ≠ none ∧ True) ?_ (by simp)
  exact Settles.bind_insn fun i hi => .of_ok rfl

theorem settles_setTemplate (id : InsnId) (index : Nat) (t : Ty) (r : Routine)
    : Settles (setTemplate id index t) r (r.insn? id ≠ none ∧ index < 2) := by
  refine Settles.bind_insn fun i hi => ?_
  rcases index with _ | _ | n
  . exact Or.inl ⟨by simp, _, _, rfl⟩
  . exact Or.inl ⟨by simp, _, _, rfl⟩
  . exact Or.inr ⟨by omega, _, rfl⟩

theorem settles_replaceUses (h : r.Tracked) (hsmall : r.Small) (v : ValueId) (x : Operand)
    : Settles (replaceUses v x) r (x = .value v ∨ r.contains v = true ∧ r.Admits x) := by
  by_cases hne : x = .value v
  . refine Or.inl ⟨Or.inl hne, 0, r, ?_⟩
    simp [replaceUses, hne]
  . by_cases hlive : r.contains v = true ∧ r.Admits x
    . obtain ⟨r', hrun, -⟩ := replaceUses_run h hsmall hlive.1 hlive.2 hne
      exact Or.inl ⟨Or.inr hlive, _, r', hrun⟩
    . refine Or.inr ⟨?_, replaceUses_run_error hne ?_⟩
      . rintro (heq | hand)
        . exact hne heq
        . exact hlive hand
      . by_cases hv : r.contains v = true
        . exact Or.inr fun hx => hlive ⟨hv, hx⟩
        . exact Or.inl (by simpa using hv)

end Operands

section Placement

theorem admits_congr (h : ∀ v, r'.useList? v = none ↔ r.useList? v = none)
    : r'.Admits x ↔ r.Admits x := by
  unfold Admits
  simp only [← Option.ne_none_iff_exists', ne_eq, h]

theorem useList?_eq_none_of_bare_eq (h : r'.bare = r.bare)
    : r'.useList? v = none ↔ r.useList? v = none := by
  have hcontains : r'.contains v = r.contains v := by
    rw [← contains_bare, h, contains_bare]
  rw [contains_eq, contains_eq] at hcontains
  rw [← Option.not_isSome_iff_eq_none, hcontains, Option.not_isSome_iff_eq_none]

theorem linkOperands_succeeds (id : InsnId) {operands : List Operand} (index : Nat)
    (hlive : ∀ x ∈ operands, r.Admits x) : ∃ r', linkOperands id operands index r = .ok () r' := by
  -- Linking uses takes nothing away, so the next operand can be linked as well.
  induction operands generalizing r index with
  | nil => exact ⟨r, rfl⟩
  | cons x rest ih =>
    have hrest : ∀ x ∈ rest, r.Admits x := fun x hx => hlive x (List.mem_cons_of_mem _ hx)
    cases x with
    | value v =>
      obtain ⟨l, hl⟩ := hlive (.value v) List.mem_cons_self v rfl
      have hbare := sameBare_linkUse v id index r
      rw [left_of_ok (linkUse_run hl id index)] at hbare
      unfold linkOperands
      rw [bind_of_ok (linkUse_run hl id index), modify_bind_run]
      apply ih
      intro x hx
      refine (admits_congr fun w => ?_).mpr (hrest x hx)
      rw [useList?_modifySlot]
      exact useList?_eq_none_of_bare_eq hbare
    | _ => exact ih (index + 1) hrest

theorem useList?_pushInsn_of_some (i : Insn) (h : ∃ l, r.useList? v = some l)
    : ∃ l, (pushInsn i r).useList? v = some l := by
  obtain ⟨l, hl⟩ := h
  cases v with
  | block b => exact ⟨l, hl⟩
  | insn id =>
    simp only [useList?, insn?, pushInsn, Store.get?_push] at hl ⊢
    split
    . exact ⟨_, rfl⟩
    . exact ⟨l, hl⟩

theorem settles_place (b : BlockId) (prev next : Option InsnId) (i : Instruction) (r : Routine)
    : Settles (place b prev next i) r (∀ x ∈ i.operands, r.Admits x) := by
  by_cases hlive : ∀ x ∈ i.operands, r.Admits x
  . have hpushed : ∀ x ∈ i.operands, (pushInsn (placed b prev next i r) r).Admits x := by
      intro x hx v hv
      exact useList?_pushInsn_of_some _ (hlive x hx v hv)
    obtain ⟨r', hrun⟩ := linkOperands_succeeds (.ofNat r.insns.size) 0 hpushed
    have hplace : place b prev next i r = _ := place_of_live (forM_requireLive_of_admits hlive)
    rw [bind_of_ok hrun] at hplace
    exact Or.inl ⟨hlive, _, _, hplace⟩
  . rcases forM_requireLive_run i.operands r with ⟨-, h⟩ | ⟨e, hrun⟩
    . exact absurd h hlive
    . exact Or.inr ⟨hlive, e, bind_of_error hrun⟩

theorem settles_pushBack (b : BlockId) (i : Instruction) (r : Routine)
    : Settles (pushBack b i) r (r.block? b ≠ none ∧ ∀ x ∈ i.operands, r.Admits x) :=
  Settles.bind_block fun found _ => settles_place b found.last none i r

theorem settles_pushFront (b : BlockId) (i : Instruction) (r : Routine)
    : Settles (pushFront b i) r (r.block? b ≠ none ∧ ∀ x ∈ i.operands, r.Admits x) :=
  Settles.bind_block fun found _ => settles_place b none found.first i r

theorem settles_insertBefore (id : InsnId) (i : Instruction) (r : Routine)
    : Settles (insertBefore id i) r (r.insn? id ≠ none ∧ ∀ x ∈ i.operands, r.Admits x) :=
  Settles.bind_insn fun n _ => settles_place n.block n.prev (some id) i r

theorem settles_insertAfter (id : InsnId) (i : Instruction) (r : Routine)
    : Settles (insertAfter id i) r (r.insn? id ≠ none ∧ ∀ x ∈ i.operands, r.Admits x) :=
  Settles.bind_insn fun n _ => settles_place n.block (some id) n.next i r

theorem settles_erase (h : r.Tracked) (id : InsnId)
    : Settles (erase id) r (r.insn? id ≠ none ∧ ∀ j, r.Refers j (.insn id) → j = id) := by
  have hfree : (∀ j, r.Refers j (.insn id) → j = id) ↔
      ∀ j k use, r.slot? j k = some ⟨.value (.insn id), use⟩ → j = id := by
    simp only [refers_iff_slot?, forall_exists_index]
  cases hi : r.insn? id with
  | none => exact Or.inr ⟨by simp, erase_run_error (Or.inl hi)⟩
  | some i =>
    by_cases hother : ∀ j, r.Refers j (.insn id) → j = id
    . obtain ⟨r', hrun, -⟩ := erase_run h hi (hfree.mp hother)
      exact Or.inl ⟨⟨by simp, hother⟩, (), r', hrun⟩
    . refine Or.inr ⟨fun hand => hother hand.2, erase_run_error (Or.inr ?_)⟩
      rw [hfree, ← lingering_eq_zero_iff h] at hother
      omega

end Placement

section Blocks

theorem settles_setBlockRange (b : BlockId) (ip : UInt64) (endIp : Option UInt64) (r : Routine)
    : Settles (setBlockRange b ip endIp) r (r.block? b ≠ none) := by
  refine Settles.congr (P := r.block? b ≠ none ∧ True) ?_ (by simp)
  exact Settles.bind_block fun found _ => .of_ok rfl

theorem settles_addJump (source target : BlockId) (r : Routine)
    : Settles (addJump source target) r (r.block? source ≠ none ∧ r.block? target ≠ none) := by
  rcases addJump_cases source target r with ⟨herror, hnone⟩ | ⟨hsource, htarget, hrun⟩
  . refine Or.inr ⟨?_, herror⟩
    rintro ⟨hsource, htarget⟩
    exact hnone.elim hsource htarget
  . exact Or.inl ⟨⟨hsource, htarget⟩, (), _, hrun⟩

theorem forM_run {f : α → Edit PUnit} {I : List α → Routine → Prop} {l : List α}
    (hstep : ∀ a rest r, I (a :: rest) r → ∃ r', f a r = .ok () r' ∧ I rest r') (h : I l r)
    : ∃ r', l.forM f r = .ok () r' ∧ I [] r' := by
  induction l generalizing r with
  | nil => exact ⟨r, rfl, h⟩
  | cons a rest ih =>
    obtain ⟨r₁, hrun, hrest⟩ := hstep a rest r h
    obtain ⟨r', hrun', hend⟩ := ih hrest
    exact ⟨r', (bind_of_ok hrun).trans hrun', hend⟩

theorem dropOperands_succeeds {phis : List InsnId} (h : r.Tracked)
    (hlive : ∀ id ∈ phis, r.insn? id ≠ none) (k : Nat) : ∃ r', dropOperands phis k r = .ok () r' := by
  obtain ⟨r', hrun, -⟩ := forM_run (l := phis) (f := fun phi => do
      if k < (← knownInsn phi).slots.length then discard (removeOperand phi k))
    (I := fun phis r => r.Tracked ∧ ∀ id ∈ phis, r.insn? id ≠ none) (by
      rintro id rest r ⟨htracked, hlive⟩
      obtain ⟨i, hi⟩ := Option.ne_none_iff_exists'.mp (hlive id List.mem_cons_self)
      have hknown : knownInsn id r = .ok i r := by simp [knownInsn, hi]
      have hrest : ∀ j ∈ rest, r.insn? j ≠ none := fun j hj => hlive j (List.mem_cons_of_mem id hj)
      rw [bind_of_ok hknown]
      split
      next hk =>
        have hs : r.slot? id k = some i.slots[k] := by
          rw [slot?_eq hi, List.getElem?_eq_getElem hk]
        obtain ⟨y, r₁, hrun, htracked₁, hsame⟩ := removeOperand_run htracked hs
        refine ⟨r₁, discard_of_ok hrun, htracked₁, fun j hj => ?_⟩
        rw [ne_eq, hsame]
        exact hrest j hj
      next => exact ⟨r, rfl, htracked, hrest⟩) ⟨h, hlive⟩
  exact ⟨r', hrun⟩

theorem live_of_mem_leadingPhis (h : id ∈ leadingPhis r b) : r.insn? id ≠ none := by
  have hphi := List.all_eq_true.mp List.all_takeWhile id h
  intro hnone
  simp [hnone] at hphi

theorem settles_deleteJump (h : r.Tracked) (hwired : r.Wired) (source target : BlockId)
    (fixPhis : Bool) : Settles (deleteJump source target fixPhis) r (target ∈ r.targets source) := by
  rcases deleteJump_cases source target fixPhis r with ⟨herror, hnone⟩ | ⟨p, k, hp, hk, hrun⟩
  . refine Or.inr ⟨?_, herror⟩
    intro hmem
    exact hnone.elim (fun hsource => hsource (hwired.mem_iff.mp hmem)) (fun htarget => htarget hmem)
  . have hdrop : ∃ r', (if fixPhis then dropOperands (leadingPhis r target) p else pure () : Edit Unit) r =
        .ok () r' := by
      split
      . exact dropOperands_succeeds h (fun id => live_of_mem_leadingPhis) p
      . exact ⟨r, rfl⟩
    obtain ⟨r', hrun'⟩ := hdrop
    refine Or.inl ⟨?_, (), _, hrun.trans (bind_of_ok hrun')⟩
    rw [← List.isSome_idxOf?, hk]
    rfl

def Loose (r : Routine) (ids : List InsnId) : Prop := ∀ id ∈ ids, r.insn? id ≠ none ∧ ¬ r.Used id

theorem replaceAll_run {ids : List InsnId} (h : r.Tracked) (hsmall : r.Small)
    (hlive : ∀ id ∈ ids, r.insn? id ≠ none)
    : ∃ r', ids.forM (fun id => discard (replaceUses (.insn id) (.const .void))) r = .ok () r' ∧
        r'.Tracked ∧ r'.Small ∧ Loose r' ids := by
  obtain ⟨r', hrun, htracked, hsmall', -, hfree⟩ := forM_run (l := ids)
    (f := fun id => discard (replaceUses (.insn id) (.const .void)))
    (I := fun rest r => r.Tracked ∧ r.Small ∧ (∀ id ∈ rest, r.insn? id ≠ none) ∧
      ∀ id ∈ ids, r.insn? id ≠ none ∧ (id ∈ rest ∨ ¬ r.Used id)) (by
      rintro id rest r ⟨htracked, hsmall, hrest, hfree⟩
      have hid : r.contains (.insn id) = true := by
        simpa [contains, Option.isSome_iff_ne_none] using hrest id List.mem_cons_self
      obtain ⟨r₁, hrun, hreplaced⟩ := replaceUses_run htracked hsmall hid (admits_const r .void)
        (by simp)
      have hsame : ∀ j, r₁.insn? j ≠ none ↔ r.insn? j ≠ none := by
        intro j
        rw [ne_eq, ← code?_eq_none_iff, hreplaced.code, Option.map_eq_none_iff, code?_eq_none_iff]
      refine ⟨r₁, discard_of_ok hrun, hreplaced.tracked, hreplaced.small hsmall, ?_, ?_⟩
      . intro j hj
        rw [hsame]
        exact hrest j (List.mem_cons_of_mem id hj)
      . intro j hj
        refine ⟨(hsame j).mpr (hfree j hj).1, ?_⟩
        by_cases hji : j = id
        . subst hji
          right
          rintro ⟨c, hc⟩
          exact hreplaced.not_refers (by simp) c hc
        . rcases (hfree j hj).2 with hmem | hunused
          . exact Or.inl ((List.mem_cons.mp hmem).resolve_left hji)
          . right
            rintro ⟨c, hc⟩
            rcases hreplaced.refers_iff.mp hc with ⟨-, hc⟩ | ⟨hvalue, -⟩
            . exact hunused ⟨c, hc⟩
            . cases hvalue) ⟨h, hsmall, hlive, fun id hid => ⟨hlive id hid, Or.inl hid⟩⟩
  refine ⟨r', hrun, htracked, hsmall', fun id hid => ⟨(hfree id hid).1, ?_⟩⟩
  simpa using (hfree id hid).2

theorem eraseAll_run {ids : List InsnId} (h : r.Tracked) (hsmall : r.Small) (hnodup : ids.Nodup)
    (hloose : Loose r ids) : ∃ r', ids.forM erase r = .ok () r' ∧ r'.Tracked ∧ r'.Small := by
  obtain ⟨r', hrun, htracked, hsmall', -⟩ := forM_run (l := ids) (f := erase)
    (I := fun rest r => r.Tracked ∧ r.Small ∧ rest.Nodup ∧ Loose r rest) (by
      rintro id rest r ⟨htracked, hsmall, hnodup, hloose⟩
      obtain ⟨hid, hnodup⟩ := List.nodup_cons.mp hnodup
      obtain ⟨hlive, hunused⟩ := hloose id List.mem_cons_self
      obtain ⟨i, hi⟩ := Option.ne_none_iff_exists'.mp hlive
      obtain ⟨r₁, hrun, -, -, htracked₁⟩ := erase_run htracked hi (by
        intro j k use hs
        exact absurd ⟨j, refers_iff_slot?.mpr ⟨k, use, hs⟩⟩ hunused)
      have herased := erased_of_ok htracked hrun
      refine ⟨r₁, hrun, htracked₁, herased.small hsmall, hnodup, ?_⟩
      intro j hj
      have hne : j ≠ id := by
        rintro rfl
        exact hid hj
      obtain ⟨hlive, hunused⟩ := hloose j (List.mem_cons_of_mem id hj)
      constructor
      . rwa [ne_eq, ← code?_eq_none_iff, herased.code, if_neg hne, code?_eq_none_iff]
      . rintro ⟨c, hc⟩
        exact hunused ⟨c, (herased.refers_iff.mp hc).2⟩) ⟨h, hsmall, hnodup, hloose⟩
  exact ⟨r', hrun, htracked, hsmall'⟩

theorem clearBlock_succeeds (h : r.Intact) (hb : r.block? b ≠ none)
    : ∃ r', clearBlock b (r.insnsOf b) r = .ok () r' := by
  have hlive : ∀ id ∈ r.insnsOf b, r.insn? id ≠ none := by
    intro id hid
    obtain ⟨i, hi, -⟩ := h.arranged.mem_insnsOf.mp hid
    simp [hi]
  obtain ⟨r₁, hrun₁, htracked₁, hsmall₁, hloose⟩ := replaceAll_run h.tracked h.small hlive
  obtain ⟨r₂, hrun₂, htracked₂, hsmall₂⟩ := eraseAll_run htracked₁ hsmall₁
    (List.nodup_reverse.mpr (h.arranged.nodup_insnsOf b)) (fun id hid => hloose id (by simpa using hid))
  have hb₂ : r₂.contains (.block b) = true := by
    have hedges₁ : r.SameEdges r₁ := by
      rw [← left_of_ok hrun₁]
      exact Within.forM (fun id _ => (covers_sameEdges.replaceUses _ _).discard) r
    have hedges₂ : r₁.SameEdges r₂ := by
      rw [← left_of_ok hrun₂]
      exact Within.forM (fun id _ => sameEdges_erase id) r₁
    simpa [contains, Option.isSome_iff_ne_none] using (hedges₁.trans hedges₂).live_iff.mpr hb
  obtain ⟨r₃, hrun₃, -⟩ := replaceUses_run htracked₂ hsmall₂ hb₂ (admits_const r₂ .void) (by simp)
  refine ⟨r₃, ?_⟩
  unfold clearBlock
  rw [bind_of_ok hrun₁, bind_of_ok hrun₂]
  exact discard_of_ok hrun₃

theorem settles_deleteBlock (h : r.Intact) (b : BlockId)
    : Settles (deleteBlock b) r (r.block? b ≠ none ∧ r.targets b = [] ∧ r.sources b = []) := by
  rcases deleteBlock_cases b r with ⟨herror, hnot⟩ | ⟨hb, htargets, hsources, hrun⟩
  . refine Or.inr ⟨?_, herror⟩
    rintro ⟨hb, htargets, hsources⟩
    rcases hnot with hnone | hsome | hsome
    . exact hb hnone
    . exact hsome htargets
    . exact hsome hsources
  . obtain ⟨r', hrun'⟩ := clearBlock_succeeds h hb
    exact Or.inl ⟨⟨hb, htargets, hsources⟩, (), _, hrun.trans (bind_of_ok hrun')⟩

theorem handOver_succeeds (hb : r.block? b ≠ none) (prev : InsnId) (ip : Option UInt64)
    (moved : List InsnId)
    : ∃ c r', (addBlock >>= handOver b prev id ip moved r.order) r = .ok c r' := by
  have hadd : addBlock r = .ok (.ofNat r.blocks.size) (pushBlock r) := rfl
  have hold : (severed b (.ofNat r.blocks.size) prev id moved r).block? b ≠ none := by
    unfold severed
    rw [block?_modifyInsn, block?_modifyInsn, block?_setBlocks]
    simp only [block?, pushBlock, Store.get?_push]
    split
    . simp
    . exact hb
  obtain ⟨found, hfound⟩ := Option.ne_none_iff_exists'.mp hold
  rw [bind_of_ok hadd]
  unfold handOver
  rw [modify_bind_run, modify_bind_run, modify_bind_run, modify_bind_run]
  exact ⟨_, _, (bind_of_ok (block_run_some hfound)).trans rfl⟩

theorem settles_split (h : r.Arranged) (b : BlockId) (id : InsnId)
    : Settles (split b id) r (∃ i, r.insn? id = some i ∧ i.block = b) := by
  rcases split_cases b id r with ⟨herror, hnot⟩ | ⟨i, hi, hb, ⟨-, hrun⟩ | ⟨prev, hprev, hrun⟩⟩
  . refine Or.inr ⟨?_, herror⟩
    rintro ⟨i, hi, hb⟩
    exact hnot i hi hb
  . exact Or.inl ⟨⟨i, hi, hb⟩, b, r, hrun⟩
  . have hlive : r.block? b ≠ none := by
      rw [← block?_ne_none_iff]
      exact h.home b id _ (neighbours?_of_insn? hi hb)
    obtain ⟨c, r', hrun'⟩ := handOver_succeeds hlive prev i.ip (r.insnsFrom (some id))
    exact Or.inl ⟨⟨i, hi, hb⟩, c, r', hrun.trans hrun'⟩

end Blocks

end Edit

namespace Routine

variable {r : Routine}

/-- Every handle that a routine holds names something that is live. -/
structure HandlesLive (r : Routine) : Prop where
  block : ∀ id i, r.insn? id = some i → r.block? i.block ≠ none
  neighbours : ∀ id i, r.insn? id = some i →
    ∀ j, i.prev = some j ∨ i.next = some j → r.insn? j ≠ none
  operands : ∀ id i, r.insn? id = some i → ∀ x ∈ i.operands, r.Admits x
  ends : ∀ b found, r.block? b = some found →
    ∀ j, found.first = some j ∨ found.last = some j → r.insn? j ≠ none
  edges : ∀ b found, r.block? b = some found →
    ∀ c, c ∈ found.successors ∨ c ∈ found.predecessors → r.block? c ≠ none
  order : ∀ b ∈ r.order, r.block? b ≠ none

theorem Intact.handlesLive (h : r.Intact) (hwired : r.Wired) : r.HandlesLive := by
  have hmem : ∀ {b ids j}, r.Holds b ids → j ∈ ids → r.insn? j ≠ none := by
    intro b ids j hids hj
    obtain ⟨i, hi, -⟩ := hids.mem_iff.mp hj
    simp [hi]
  constructor
  . intro id i hi
    rw [← block?_ne_none_iff]
    exact h.arranged.home _ id _ (neighbours?_of_insn? hi rfl)
  . intro id i hi j hj
    obtain ⟨front, back, hholds, hprev, hnext⟩ := h.arranged.holds_block hi
    apply hmem hholds
    rw [hprev, hnext] at hj
    rcases hj with hj | hj
    . exact List.mem_append_left _ (List.mem_of_getLast? hj)
    . exact List.mem_append_right _ (List.mem_cons_of_mem _ (List.mem_of_mem_head? hj))
  . intro id i hi x hx v hv
    obtain ⟨k, use, hs⟩ := refers_iff_slot?.mp ⟨i.code, code?_of_insn? hi, hv ▸ hx⟩
    exact h.tracked.live id k v use hs
  . intro b found hfound j hj
    have hholds := h.arranged.holds_insnsOf (b := b) (by simp [hfound])
    have hends := hholds.lists.extent
    simp only [extent?, hfound, Option.map_some, Option.some.injEq, Prod.mk.injEq] at hends
    apply hmem hholds
    rw [hends.1, hends.2.1] at hj
    rcases hj with hj | hj
    . exact List.mem_of_mem_head? hj
    . exact List.mem_of_getLast? hj
  . intro b found hfound c hc
    rw [← targets_of_block? hfound, ← sources_of_block? hfound] at hc
    exact hc.elim hwired.live_of_mem_targets hwired.live_of_mem_sources
  . intro b hb
    exact (hwired.laid b).mp hb

end Routine

namespace Action

open Routine

def Single : Action → Prop
  | eraseIf _ _ _ | foldConstants _ _ | deduplicate _ _ | combine _ _ | resolveLoads _ _
  | forwardRegisters _ _ | removeDeadCode _ => False
  | _ => True

def Applies (r : Routine) : Action → Prop
  | setBlockRange b _ _ => r.block? b ≠ none
  | deleteBlock b => r.block? b ≠ none ∧ r.targets b = [] ∧ r.sources b = []
  | addJump source target => r.block? source ≠ none ∧ r.block? target ≠ none
  | deleteJump source target _ => target ∈ r.targets source
  | split b id => ∃ i, r.insn? id = some i ∧ i.block = b
  | pushBack b i | pushFront b i => r.block? b ≠ none ∧ ∀ x ∈ i.operands, r.Admits x
  | insertBefore id i | insertAfter id i => r.insn? id ≠ none ∧ ∀ x ∈ i.operands, r.Admits x
  | setOperand id index x => r.slot? id index ≠ none ∧ r.Admits x
  | pushOperand id x => r.insn? id ≠ none ∧ r.Admits x
  | removeOperand id index => r.slot? id index ≠ none
  | setOpcode id _ => r.insn? id ≠ none
  | setTemplate id index _ => r.insn? id ≠ none ∧ index < 2
  | replaceUses v x => x = .value v ∨ r.contains v = true ∧ r.Admits x
  | erase id => r.insn? id ≠ none ∧ ∀ j, r.Refers j (.insn id) → j = id
  | _ => True

theorem settles {r : Routine} (h : r.Intact) (hwired : r.Wired) {a : Action} (ha : a.Single)
    : Edit.Settles a.run r (a.Applies r) := by
  cases a with
  | setBlockRange b ip endIp => exact Edit.settles_setBlockRange b ip endIp r
  | deleteBlock b => exact Edit.settles_deleteBlock h b
  | addJump source target => exact Edit.settles_addJump source target r
  | deleteJump source target fixPhis =>
    exact Edit.settles_deleteJump h.tracked hwired source target fixPhis
  | split b id => exact (Edit.settles_split h.arranged b id).discard
  | pushBack b i => exact (Edit.settles_pushBack b i r).discard
  | pushFront b i => exact (Edit.settles_pushFront b i r).discard
  | insertBefore id i => exact (Edit.settles_insertBefore id i r).discard
  | insertAfter id i => exact (Edit.settles_insertAfter id i r).discard
  | setOperand id index x => exact Edit.settles_setOperand h.tracked id index x
  | pushOperand id x => exact (Edit.settles_pushOperand id x r).discard
  | removeOperand id index => exact (Edit.settles_removeOperand h.tracked id index).discard
  | setOpcode id opcode => exact Edit.settles_setOpcode id opcode r
  | setTemplate id index t => exact Edit.settles_setTemplate id index t r
  | replaceUses v x => exact (Edit.settles_replaceUses h.tracked h.small v x).discard
  | erase id => exact Edit.settles_erase h.tracked id
  | setImage _ | setArch _ | setIp _ | addBlock | topologicalSort | renameInsns | renameBlocks =>
    exact Edit.Settles.of_ok rfl
  | eraseIf _ _ _ | foldConstants _ _ | deduplicate _ _ | combine _ _ | resolveLoads _ _
  | forwardRegisters _ _ | removeDeadCode _ => exact ha.elim

theorem unchanged_of_failed (actions : List Action) (hsmall : (after actions).Small) (a : Action)
    (ha : a.Single)
    : (after actions).HandlesLive ∧
        (a.Applies (after actions) → ∃ r', a.run (after actions) = .ok () r') ∧
        ∀ e r', a.run (after actions) = .error e r' →
          r' = after actions ∧ ¬ a.Applies (after actions) := by
  have hintact := intact_after actions hsmall
  have hwired := wired_after actions hsmall
  refine ⟨hintact.handlesLive hwired, ?_⟩
  rcases settles hintact hwired ha with ⟨hP, u, r', hrun⟩ | ⟨hP, err, hrun⟩
  . refine ⟨fun _ => ⟨r', hrun⟩, ?_⟩
    intro e r'' herror
    rw [hrun] at herror
    cases herror
  . refine ⟨fun hP' => absurd hP' hP, ?_⟩
    intro e r' herror
    rw [hrun] at herror
    cases herror
    exact ⟨rfl, hP⟩

def usedRead : List Action :=
  [.addBlock, .addBlock,
    .pushBack (.ofNat 0) (.readReg .i64 (.ofNat 1 1)),
    .pushBack (.ofNat 1) (.writeReg (.ofNat 1 1) (.insn (.ofNat 0)) .i64),
    .addJump (.ofNat 1) (.ofNat 1)]

theorem unchanged_of_failed_usedRead
    : (after usedRead).Small ∧ (erase (.ofNat 0)).Single ∧ (deleteBlock (.ofNat 0)).Single ∧
        (∃ e, (erase (.ofNat 0)).run (after usedRead) = .error e (after usedRead)) ∧
        ∃ r', (deleteBlock (.ofNat 0)).run (after usedRead) = .ok () r' := by
  have hsmall : (after usedRead).Small := by decide +kernel
  have herase := (unchanged_of_failed usedRead hsmall (erase (.ofNat 0)) trivial).2.2
  have hdelete := (unchanged_of_failed usedRead hsmall (deleteBlock (.ofNat 0)) trivial).2.1
  have hfails : EStateM.run' (erase (.ofNat 0)).run (after usedRead) = none := by decide +kernel
  unfold EStateM.run' EStateM.run at hfails
  refine ⟨hsmall, trivial, trivial, ?_, hdelete ?_⟩
  . cases hrun : (erase (.ofNat 0)).run (after usedRead) with
    | ok u r' =>
      rw [hrun] at hfails
      cases hfails
    | error e r' =>
      obtain ⟨rfl, -⟩ := herase e r' hrun
      exact ⟨e, rfl⟩
  . change (after usedRead).block? (.ofNat 0) ≠ none ∧ (after usedRead).targets (.ofNat 0) = [] ∧
      (after usedRead).sources (.ofNat 0) = []
    decide +kernel

end Action

end MachineIR
