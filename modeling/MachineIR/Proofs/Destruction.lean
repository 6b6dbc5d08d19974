import MachineIR.Proofs.Outcomes
import MachineIR.Proofs.RetiredHandles

/-!
This module contains what it takes to destroy an instruction and what comes of it. The list of uses
of a value has one entry for each operand slot that refers to it, so an instruction can be erased
exactly if no other instruction has such a slot; then all that is lost besides it are its own uses.
-/

namespace MachineIR

namespace Routine

variable {r r' : Routine} {id j : InsnId} {i : Insn} {k : Nat} {v : ValueId} {c : Instruction}

section References

def references (r : Routine) (v : ValueId) : List (InsnId × Nat) :=
  r.insns.entries.flatMap fun (n, i) =>
    (i.operands.zipIdx.filter (·.1 = .value v)).map fun (_, k) => (.ofNat n, k)

theorem mem_references (hsmall : r.Small)
    : (j, k) ∈ r.references v ↔ ∃ c, r.code? j = some c ∧ c.operands[k]? = some (.value v) := by
  unfold references
  rw [List.mem_flatMap]
  constructor
  . rintro ⟨⟨n, i⟩, hi, hmem⟩
    obtain ⟨⟨x, k'⟩, hx, heq⟩ := List.mem_map.mp hmem
    cases heq
    obtain ⟨hx, heq⟩ := List.mem_filter.mp hx
    cases of_decide_eq_true heq
    refine ⟨i.code, code?_of_insn? (insn?_ofNat hsmall (Store.mem_entries.mp hi)), ?_⟩
    exact List.mk_mem_zipIdx_iff_getElem?.mp hx
  . rintro ⟨c, hc, hk⟩
    obtain ⟨i, hi, rfl⟩ := exists_insn?_of_code? hc
    refine ⟨(j.toNat, i), Store.mem_entries.mpr hi, List.mem_map.mpr ⟨(.value v, k), ?_, ?_⟩⟩
    . exact List.mem_filter.mpr ⟨List.mk_mem_zipIdx_iff_getElem?.mpr hk, decide_eq_true rfl⟩
    . rw [InsnId.ofNat_toNat]

theorem nodup_ownReferences (l : List Operand) (v : ValueId) (id : InsnId)
    : ((l.zipIdx.filter (·.1 = .value v)).map fun (_, k) => (id, k)).Nodup := by
  -- The slots of one instruction are told apart by their numbers.
  apply List.Nodup.of_map Prod.snd
  rw [List.map_map]
  have hnodup : (l.zipIdx.map Prod.snd).Nodup := by
    rw [List.zipIdx_map_snd]
    exact List.nodup_range'
  exact hnodup.sublist (List.filter_sublist.map Prod.snd)

theorem nodup_references (hsmall : r.Small) (v : ValueId) : (r.references v).Nodup := by
  unfold references
  rw [List.nodup_flatMap]
  constructor
  . rintro ⟨n, i⟩ hi
    exact nodup_ownReferences i.operands v (.ofNat n)
  . apply r.insns.pairwise_entries.imp_of_mem
    rintro ⟨n, i⟩ ⟨m, j⟩ hi hj hne ref hn hm
    obtain ⟨p, -, rfl⟩ := List.mem_map.mp hn
    obtain ⟨q, -, heq⟩ := List.mem_map.mp hm
    have hn := Store.lt_size_of_get? (Store.mem_entries.mp hi)
    have hm := Store.lt_size_of_get? (Store.mem_entries.mp hj)
    have hsize := hsmall.insns
    have heq := congrArg InsnId.toNat (Prod.mk.inj heq).1
    rw [InsnId.toNat_ofNat (by omega), InsnId.toNat_ofNat (by omega)] at heq
    exact hne heq.symm

theorem countP_references (hsmall : r.Small) (hc : r.code? id = some c) (v : ValueId)
    : (r.references v).countP (·.1 = id) = c.operands.count (.value v) := by
  have hperm : ((r.references v).filter (·.1 = id)).Perm
      ((c.operands.zipIdx.filter (·.1 = .value v)).map fun (_, k) => (id, k)) := by
    rw [List.perm_ext_iff_of_nodup ((nodup_references hsmall v).filter _) (nodup_ownReferences _ _ _)]
    rintro ⟨j, k⟩
    simp only [List.mem_filter, mem_references hsmall, decide_eq_true_eq, List.mem_map, Prod.exists,
      List.mk_mem_zipIdx_iff_getElem?, Prod.mk.injEq]
    constructor
    . rintro ⟨⟨c', hc', hk⟩, rfl⟩
      rw [hc] at hc'
      cases hc'
      exact ⟨.value v, k, ⟨hk, rfl⟩, rfl, rfl⟩
    . rintro ⟨x, k', ⟨hk, rfl⟩, rfl, rfl⟩
      exact ⟨⟨c, hc, hk⟩, rfl⟩
  have hfst : c.operands.count (.value v) = (c.operands.zipIdx.map Prod.fst).count (.value v) := by
    rw [List.zipIdx_map_fst]
  rw [List.countP_eq_length_filter, hperm.length_eq, List.length_map, ← List.countP_eq_length_filter,
    hfst, List.count, List.countP_map]
  apply List.countP_congr
  rintro ⟨x, k⟩ -
  simp

theorem Tracks.nodup_usesOf (h : r.Tracked) (v : ValueId) : (r.usesOf v).Nodup := by
  cases hl : r.useList? v with
  | none => simp [usesOf, hl]
  | some l =>
    obtain ⟨ids, hnodup, -, heq, hmem⟩ := h.usesOf_eq hl
    apply List.Nodup.of_map some
    rw [heq]
    -- A slot has one record, so two records of the value belong to two slots.
    refine hnodup.map_on ?_
    intro use huse use' huse' hsame
    obtain ⟨j, k, href⟩ := (hmem use).mp huse
    obtain ⟨j', k', href'⟩ := (hmem use').mp huse'
    simp only [href, href', Option.map_some, Option.some.injEq, Prod.mk.injEq] at hsame
    obtain ⟨rfl, rfl⟩ := hsame
    have hs := (h.owner j k v use).mpr href
    rw [(h.owner j k v use').mpr href'] at hs
    cases hs
    rfl

theorem code?_operand_iff_slot?
    : (∃ c, r.code? j = some c ∧ c.operands[k]? = some (.value v)) ↔
        ∃ use, r.slot? j k = some ⟨.value v, use⟩ := by
  constructor
  . rintro ⟨c, hc, hk⟩
    obtain ⟨i, hi, rfl⟩ := exists_insn?_of_code? hc
    change (i.slots.map Slot.operand)[k]? = some (.value v) at hk
    rw [List.getElem?_map, Option.map_eq_some_iff] at hk
    obtain ⟨⟨x, use⟩, hs, rfl⟩ := hk
    exact ⟨use, by rw [slot?_eq hi, hs]⟩
  . rintro ⟨use, hs⟩
    obtain ⟨i, hi, hk⟩ := Option.bind_eq_some_iff.mp hs
    refine ⟨i.code, code?_of_insn? hi, ?_⟩
    change (i.slots.map Slot.operand)[k]? = some (.value v)
    rw [List.getElem?_map, hk]
    rfl

theorem Tracks.perm_references (h : r.Tracked) (hsmall : r.Small) (v : ValueId)
    : (r.usesOf v).Perm (r.references v) := by
  rw [List.perm_ext_iff_of_nodup (h.nodup_usesOf v) (nodup_references hsmall v)]
  rintro ⟨j, k⟩
  rw [h.mem_usesOf, mem_references hsmall, code?_operand_iff_slot?]
  constructor
  . rintro ⟨use, hs⟩
    exact ⟨some use, hs⟩
  . rintro ⟨use, hs⟩
    cases use with
    | none => exact (h.closed j k v hs).elim
    | some use => exact ⟨use, hs⟩

theorem Tracks.length_usesOf (h : r.Tracked) (v : ValueId) : (r.usesOf v).length = r.useCount v := by
  cases hl : r.useList? v with
  | none => simp [useCount, usesOf, hl]
  | some l =>
    obtain ⟨ids, -, hlength, heq, -⟩ := h.usesOf_eq hl
    have := congrArg List.length heq
    rw [List.length_map, List.length_map] at this
    rw [this, hlength, useCount, hl]
    rfl

theorem Tracks.useCount_eq (h : r.Tracked) (hsmall : r.Small) (v : ValueId)
    : r.useCount v = (r.references v).length := by
  rw [← h.length_usesOf, (h.perm_references hsmall v).length_eq]

end References

end Routine

namespace Edit

open Routine

variable {r r' : Routine} {id j : InsnId} {i : Insn} {k : Nat} {v : ValueId} {c : Instruction}

section Erase

def obstacles (r : Routine) (id : InsnId) : List (InsnId × Nat) :=
  (r.references (.insn id)).filter (·.1 ≠ id)

theorem length_obstacles (h : r.Tracked) (hsmall : r.Small) (id : InsnId)
    : ((r.usesOf (.insn id)).countP fun (user, _) => user ≠ id) = (obstacles r id).length := by
  rw [(h.perm_references hsmall (.insn id)).countP_eq, List.countP_eq_length_filter]
  rfl

theorem obstacles_eq_nil_iff (hsmall : r.Small)
    : obstacles r id = [] ↔ ∀ j, r.Refers j (.insn id) → j = id := by
  unfold obstacles
  rw [List.filter_eq_nil_iff]
  constructor
  . rintro hnone j ⟨c, hc, hmem⟩
    obtain ⟨k, hk⟩ := List.getElem?_of_mem hmem
    have := hnone (j, k) ((mem_references hsmall).mpr ⟨c, hc, hk⟩)
    simpa using this
  . rintro hfree ⟨j, k⟩ hmem
    obtain ⟨c, hc, hk⟩ := (mem_references hsmall).mp hmem
    simpa using hfree j ⟨c, hc, List.mem_of_getElem? hk⟩

theorem erase_of_obstacles (h : r.Tracked) (hsmall : r.Small) (hi : r.insn? id = some i)
    (hne : obstacles r id ≠ [])
    : erase id r = .error (.lingeringUses (.insn id) (obstacles r id).length) r := by
  have hpos := List.length_pos_iff.mpr hne
  rw [← length_obstacles h hsmall] at hpos ⊢
  unfold erase
  rw [bind_of_ok (insn_run_some hi), get_bind_run]
  simp only [if_pos hpos, throw_bind_run]

namespace Erased

theorem block (h : Erased r r' id) (hne : j ≠ id)
    : (r'.insn? j).map Insn.block = (r.insn? j).map Insn.block := by
  obtain ⟨i, -, hbare⟩ := h.detached
  have hinsn := congrArg (Option.map Insn.block) (congrArg (Routine.insn? · j) hbare)
  simp only [insn?_bare, insn?_detach, if_neg hne, Option.map_map] at hinsn
  exact hinsn

theorem perm_references (h : Erased r r' id) (hsmall : r.Small) (hsmall' : r'.Small) (v : ValueId)
    : (r'.references v).Perm ((r.references v).filter (·.1 ≠ id)) := by
  rw [List.perm_ext_iff_of_nodup (nodup_references hsmall' v) ((nodup_references hsmall v).filter _)]
  rintro ⟨j, k⟩
  rw [List.mem_filter, mem_references hsmall, mem_references hsmall', h.code]
  by_cases hj : j = id
  . simp [hj]
  . simp [hj]

theorem useCount (h : Erased r r' id) (htracked : r.Tracked) (hsmall : r.Small) (hsmall' : r'.Small)
    (hc : r.code? id = some c) (v : ValueId)
    : r'.useCount v + c.operands.count (.value v) = r.useCount v := by
  rw [h.tracked.useCount_eq hsmall', htracked.useCount_eq hsmall,
    (h.perm_references hsmall hsmall' v).length_eq, ← countP_references hsmall hc,
    ← List.countP_eq_length_filter, Nat.add_comm, List.length_eq_countP_add_countP (·.1 = id)]
  simp

end Erased

end Erase

theorem block?_of_deleteBlock {b : BlockId} {u : Unit} (h : deleteBlock b r = .ok u r')
    : r.block? b ≠ none ∧ r'.block? b = none := by
  rcases deleteBlock_cases b r with ⟨⟨e, he⟩, -⟩ | ⟨hb, -, -, hrun⟩
  . rw [he] at h
    cases h
  . rw [hrun] at h
    obtain ⟨_, r₁, -, hdrop⟩ := of_bind_ok h
    cases hdrop
    refine ⟨hb, ?_⟩
    simp [block?, dropBlock, Store.get?_erase]

end Edit

namespace Routine

open Edit

structure Loses (r r' : Routine) (id : InsnId) (c : Instruction) : Prop where
  gone : r'.insn? id = none
  code : ∀ j, j ≠ id → r'.code? j = r.code? j
  block : ∀ j, j ≠ id → (r'.insn? j).map Insn.block = (r.insn? j).map Insn.block
  order : ∀ b, r'.insnsOf b = (r.insnsOf b).filter (· ≠ id)
  uses : ∀ v, r'.useCount v + c.operands.count (.value v) = r.useCount v

theorem Intact.loses {r r' : Routine} {id : InsnId} {c : Instruction} {u : Unit} (h : r.Intact)
    (hc : r.code? id = some c) (hrun : erase id r = .ok u r') : r.Loses r' id c := by
  have herased := erased_of_ok h.tracked hrun
  constructor
  . rw [← code?_eq_none_iff, herased.code, if_pos rfl]
  . intro j hne
    rw [herased.code, if_neg hne]
  . intro j hne
    exact herased.block hne
  . exact herased.insnsOf h.arranged
  . exact herased.useCount h.tracked h.small (herased.small h.small) hc

theorem erase_is_final (actions : List Action) (hsmall : (after actions).Small) (id : InsnId)
    (c : Instruction) (hid : (after actions).code? id = some c)
    : ((∃ r', erase id (after actions) = .ok () r') ↔
          ∀ j, (after actions).Refers j (.insn id) → j = id) ∧
        ((∃ j, (after actions).Refers j (.insn id) ∧ j ≠ id) →
          erase id (after actions) =
            .error (.lingeringUses (.insn id) (obstacles (after actions) id).length)
              (after actions)) ∧
        (∀ r', erase id (after actions) = .ok () r' →
          (after actions).Loses r' id c ∧
            ∀ later, (after (actions ++ .erase id :: later)).insn? id = none) ∧
        ∀ b r', deleteBlock b (after actions) = .ok () r' →
          ∀ later, (after (actions ++ .deleteBlock b :: later)).block? b = none := by
  have hintact := intact_after actions hsmall
  obtain ⟨i, hi, rfl⟩ := exists_insn?_of_code? hid
  refine ⟨?_, ?_, ?_, ?_⟩
  . rcases settles_erase hintact.tracked id with ⟨⟨-, hfree⟩, u, r', hrun⟩ | ⟨hnot, e, he⟩
    . exact ⟨fun _ => hfree, fun _ => ⟨r', hrun⟩⟩
    . constructor
      . rintro ⟨r', hrun⟩
        rw [he] at hrun
        cases hrun
      . intro hfree
        exact (hnot ⟨by simp [hi], hfree⟩).elim
  . rintro ⟨j, hrefers, hne⟩
    apply erase_of_obstacles hintact.tracked hsmall hi
    intro hnone
    exact hne ((obstacles_eq_nil_iff hsmall).mp hnone j hrefers)
  . intro r' hrun
    have hloses := hintact.loses hid hrun
    refine ⟨hloses, fun later => ?_⟩
    -- The erasure is an action like the later ones, and none of them gives out a handle again.
    have hafter : after (actions ++ [.erase id]) = r' := by
      rw [after_append]
      exact left_of_ok hrun
    rw [List.append_cons]
    apply insn?_after_of_gone (by simp [hi])
    rw [hafter]
    exact hloses.gone
  . intro b r' hrun later
    obtain ⟨hlive, hgone⟩ := block?_of_deleteBlock hrun
    have hafter : after (actions ++ [.deleteBlock b]) = r' := by
      rw [after_append]
      exact left_of_ok hrun
    rw [List.append_cons]
    apply block?_after_of_gone hlive
    rw [hafter]
    exact hgone

def squaredRead : List Action :=
  [.addBlock, .addBlock,
    .pushBack (.ofNat 0) (.readReg .i64 (.ofNat 1 1)),
    .pushBack (.ofNat 0) (.binop .i64 .mul (.insn (.ofNat 0)) (.insn (.ofNat 0))),
    .pushBack (.ofNat 0) (.phi .i64 [.insn (.ofNat 1), .insn (.ofNat 1), .insn (.ofNat 0)]),
    .setOperand (.ofNat 2) 2 (.insn (.ofNat 2))]

theorem erase_is_final_squaredRead
    : (after squaredRead).Small ∧
        erase (.ofNat 0) (after squaredRead) =
          .error (.lingeringUses (.insn (.ofNat 0)) 2) (after squaredRead) ∧
        (∃ r', erase (.ofNat 2) (after squaredRead) = .ok () r' ∧
          r'.useCount (.insn (.ofNat 1)) = 0) ∧
        (∀ later, (after (squaredRead ++ .erase (.ofNat 2) :: later)).insn? (.ofNat 2) = none) ∧
        ∀ later,
          (after (squaredRead ++ .deleteBlock (.ofNat 1) :: later)).block? (.ofNat 1) = none := by
  have hsmall : (after squaredRead).Small := by decide +kernel
  have hread : (after squaredRead).code? (.ofNat 0) = some (.readReg .i64 (.ofNat 1 1)) := by
    decide +kernel
  have hphi : (after squaredRead).code? (.ofNat 2) = some (.phi .i64
      [.insn (.ofNat 1), .insn (.ofNat 1), .insn (.ofNat 2)]) := by decide +kernel
  have hlength : (obstacles (after squaredRead) (.ofNat 0)).length = 2 := by decide +kernel
  have hslots : (Instruction.phi .i64 [.insn (.ofNat 1), .insn (.ofNat 1),
      .insn (.ofNat 2)]).operands.count (.value (.insn (.ofNat 1))) = 2 := by decide +kernel
  have hcount : (after squaredRead).useCount (.insn (.ofNat 1)) = 2 := by decide +kernel
  have hrun := run_of_run' (e := erase (.ofNat 2)) (r := after squaredRead) (a := ()) (by decide +kernel)
  have hdelete := run_of_run' (e := deleteBlock (.ofNat 1)) (r := after squaredRead) (a := ())
    (by decide +kernel)
  obtain ⟨-, hfails, -, hblock⟩ := erase_is_final squaredRead hsmall (.ofNat 0) _ hread
  obtain ⟨-, -, hfinal, -⟩ := erase_is_final squaredRead hsmall (.ofNat 2) _ hphi
  obtain ⟨hloses, hgone⟩ := hfinal _ hrun
  refine ⟨hsmall, ?_, ⟨_, hrun, ?_⟩, hgone, hblock _ _ hdelete⟩
  . rw [← hlength]
    refine hfails ⟨.ofNat 1, ⟨.binop .i64 .mul (.insn (.ofNat 0)) (.insn (.ofNat 0)), ?_, ?_⟩, ?_⟩
    . decide +kernel
    . decide
    . decide
  . have huses := hloses.uses (.insn (.ofNat 1))
    rw [hcount, hslots] at huses
    omega

end Routine

end MachineIR
