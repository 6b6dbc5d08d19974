import MachineIR.Proofs.BlockEdits
import MachineIR.Proofs.PassEdits

/-!
This module contains the histories of routines: whatever edits and passes have been run on a routine
since it was empty, and whether they succeeded or failed, its operand slots, the records of uses and
the lists of uses agree.
-/

namespace MachineIR

inductive Action where
  | setImage (image : Option Image)
  | setArch (arch : Option Architecture)
  | setIp (ip : Option UInt64)
  | addBlock
  | setBlockRange (b : BlockId) (ip : UInt64) (endIp : Option UInt64)
  | deleteBlock (b : BlockId)
  | addJump (source target : BlockId)
  | deleteJump (source target : BlockId) (fixPhis : Bool)
  | split (b : BlockId) (id : InsnId)
  | pushBack (b : BlockId) (i : Instruction)
  | pushFront (b : BlockId) (i : Instruction)
  | insertBefore (id : InsnId) (i : Instruction)
  | insertAfter (id : InsnId) (i : Instruction)
  | setOperand (id : InsnId) (index : Nat) (x : Operand)
  | pushOperand (id : InsnId) (x : Operand)
  | removeOperand (id : InsnId) (index : Nat)
  | setOpcode (id : InsnId) (opcode : Opcode)
  | setTemplate (id : InsnId) (index : Nat) (t : Ty)
  | replaceUses (v : ValueId) (x : Operand)
  | erase (id : InsnId)
  | eraseIf (b : BlockId) (direction : Direction) (p : Routine → InsnId → Bool)
  | topologicalSort
  | renameInsns
  | renameBlocks
  | foldConstants (b : BlockId) (debug : Bool)
  | deduplicate (b : BlockId) (debug : Bool)
  | combine (b : BlockId) (debug : Bool)
  | resolveLoads (b : BlockId) (debug : Bool)
  | forwardRegisters (b : BlockId) (debug : Bool)
  | removeDeadCode (b : BlockId)

def Action.run : Action → Edit Unit
  | setImage image => modify ({ · with image })
  | setArch arch => modify ({ · with arch })
  | setIp ip => modify ({ · with ip })
  | addBlock => discard Edit.addBlock
  | setBlockRange b ip endIp => Edit.setBlockRange b ip endIp
  | deleteBlock b => Edit.deleteBlock b
  | addJump source target => Edit.addJump source target
  | deleteJump source target fixPhis => Edit.deleteJump source target fixPhis
  | split b id => discard (Edit.split b id)
  | pushBack b i => discard (Edit.pushBack b i)
  | pushFront b i => discard (Edit.pushFront b i)
  | insertBefore id i => discard (Edit.insertBefore id i)
  | insertAfter id i => discard (Edit.insertAfter id i)
  | setOperand id index x => Edit.setOperand id index x
  | pushOperand id x => discard (Edit.pushOperand id x)
  | removeOperand id index => discard (Edit.removeOperand id index)
  | setOpcode id opcode => Edit.setOpcode id opcode
  | setTemplate id index t => Edit.setTemplate id index t
  | replaceUses v x => discard (Edit.replaceUses v x)
  | erase id => Edit.erase id
  | eraseIf b direction p => discard (Edit.eraseIf b direction p)
  | topologicalSort => modify Routine.topologicalSort
  | renameInsns => modify Routine.renameInsns
  | renameBlocks => modify Routine.renameBlocks
  | foldConstants b debug => discard (Edit.foldConstants b debug)
  | deduplicate b debug => discard (Edit.deduplicate b debug)
  | combine b debug => discard (Edit.combine b debug)
  | resolveLoads b debug => discard (Edit.resolveLoads b debug)
  | forwardRegisters b debug => discard (Edit.forwardRegisters b debug)
  | removeDeadCode b => discard (Edit.removeDeadCode b)

namespace Routine

def after (actions : List Action) : Routine :=
  actions.foldl (fun r a => Edit.left a.run r) {}

theorem keeps_action (a : Action) : Edit.Within Keeps a.run := by
  have hfields : ∀ f : Routine → Routine, (∀ r, SameUses r (f r)) →
      Edit.Within Keeps (modify f : Edit Unit) := by
    intro f hf
    apply Edit.Within.modify
    intro r
    exact (hf r).keeps
  cases a with
  | setImage image => exact hfields _ fun r => ⟨rfl, rfl, fun _ _ => rfl, fun _ => rfl, rfl⟩
  | setArch arch => exact hfields _ fun r => ⟨rfl, rfl, fun _ _ => rfl, fun _ => rfl, rfl⟩
  | setIp ip => exact hfields _ fun r => ⟨rfl, rfl, fun _ _ => rfl, fun _ => rfl, rfl⟩
  | addBlock => exact Edit.keeps_addBlock.discard
  | setBlockRange b ip endIp => exact Edit.keeps_setBlockRange b ip endIp
  | deleteBlock b => exact Edit.keeps_deleteBlock b
  | addJump source target => exact Edit.keeps_addJump source target
  | deleteJump source target fixPhis => exact Edit.keeps_deleteJump source target fixPhis
  | split b id => exact (Edit.keeps_split b id).discard
  | pushBack b i => exact (Edit.keeps_pushBack b i).discard
  | pushFront b i => exact (Edit.keeps_pushFront b i).discard
  | insertBefore id i => exact (Edit.keeps_insertBefore id i).discard
  | insertAfter id i => exact (Edit.keeps_insertAfter id i).discard
  | setOperand id index x => exact Edit.keeps_setOperand id index x
  | pushOperand id x => exact (Edit.keeps_pushOperand id x).discard
  | removeOperand id index => exact (Edit.keeps_removeOperand id index).discard
  | setOpcode id opcode => exact Edit.keeps_setOpcode id opcode
  | setTemplate id index t => exact Edit.keeps_setTemplate id index t
  | replaceUses v x => exact (Edit.keeps_replaceUses v x).discard
  | erase id => exact Edit.keeps_erase id
  | eraseIf b direction p => exact (Edit.keeps_eraseIf b direction p).discard
  | topologicalSort => exact Edit.Within.modify keeps_topologicalSort
  | renameInsns => exact Edit.Within.modify keeps_renameInsns
  | renameBlocks => exact Edit.Within.modify keeps_renameBlocks
  | foldConstants b debug => exact (Edit.covers_keeps.foldConstants b debug).discard
  | deduplicate b debug => exact (Edit.covers_keeps.deduplicate b debug).discard
  | combine b debug => exact (Edit.covers_keeps.combine b debug).discard
  | resolveLoads b debug => exact (Edit.covers_keeps.resolveLoads b debug).discard
  | forwardRegisters b debug => exact (Edit.covers_keeps.forwardRegisters b debug).discard
  | removeDeadCode b => exact (Edit.covers_keeps.removeDeadCode b).discard

theorem keeps_actions (actions : List Action) (r : Routine)
    : r.Keeps (actions.foldl (fun r a => Edit.left a.run r) r) :=
  rel_foldl (fun r a => keeps_action a r) actions r

theorem tracked_empty : ({} : Routine).Tracked := by
  constructor
  . intro id k v use
    simp [slot?, insn?, Store.get?, UseTable.reference?, UseTable.get?]
  . intro id k x use hs
    simp [slot?, insn?, Store.get?] at hs
  . intro id k v hs
    simp [slot?, insn?, Store.get?] at hs
  . intro id k v use hs
    simp [slot?, insn?, Store.get?] at hs
  . intro v l hl
    cases v with
    | insn id => simp [useList?, insn?, Store.get?] at hl
    | block b => simp [useList?, block?, Store.get?] at hl
  . constructor
    . exact List.nodup_nil
    . intro id
      simp [Store.size]

theorem tracked_after (actions : List Action) (h : (after actions).Small)
    : (after actions).Tracked := (keeps_actions actions {}).tracked h tracked_empty

/--
The list of uses of `v` is what its two ends and the links of its records say, and it holds the
records of the slots that refer to `v`, each once.
-/
structure ListsUses (r : Routine) (v : ValueId) (l : UseList) : Prop where
  once : ((r.uses.listed l).map Prod.fst).Nodup
  length : (r.uses.listed l).length = l.len
  records : ∀ use u, (use, u) ∈ r.uses.listed l ↔
    r.uses.get? use = some u ∧ r.slot? u.user u.slot = some ⟨.value v, some use⟩
  head : l.head = (r.uses.listed l).head?.map Prod.fst
  tail : l.tail = (r.uses.listed l).getLast?.map Prod.fst
  links : ∀ n use u, (r.uses.listed l)[n]? = some (use, u) →
    u.next = (r.uses.listed l)[n + 1]?.map Prod.fst ∧
      u.prev = if n = 0 then none else (r.uses.listed l)[n - 1]?.map Prod.fst

structure UsesAgree (r : Routine) : Prop where
  reference : ∀ id k v use, r.slot? id k = some ⟨.value v, use⟩ →
    r.contains v = true ∧ ∃ own, use = some own ∧
      (∃ u, r.uses.get? own = some u ∧ u.value = v ∧ u.user = id ∧ u.slot = k) ∧
      ∀ other u, r.uses.get? other = some u → u.user = id → u.slot = k → other = own
  plain : ∀ id k s, r.slot? id k = some s → s.operand.value? = none → s.use = none
  lists : ∀ v l, r.useList? v = some l → r.ListsUses v l
  free : r.uses.free.Nodup ∧
    ∀ use, use ∈ r.uses.free ↔ use.toNat < r.uses.records.size ∧ r.uses.get? use = none

theorem Tracks.listsUses {r : Routine} {pending : InsnId → Nat → Prop} (h : r.Tracks pending)
    {v : ValueId} {l : UseList} (hl : r.useList? v = some l) : r.ListsUses v l := by
  obtain ⟨ids, hids, hmem⟩ := h.listed v l hl
  have hfst := hids.map_fst_listed
  constructor
  . rw [hfst]
    exact hids.nodup
  . rw [hids.len, ← hfst, List.length_map]
  . intro use u
    rw [hids.mem_listed, hmem]
    constructor
    . rintro ⟨⟨id, k, href⟩, hu⟩
      obtain ⟨u', hu', hvalue, huser, hslot⟩ := UseTable.reference?_eq_some.mp href
      rw [hu] at hu'
      cases hu'
      rw [huser, hslot]
      exact ⟨hu, (h.owner id k v use).mpr href⟩
    . rintro ⟨hu, hs⟩
      exact ⟨⟨u.user, u.slot, (h.owner _ _ v use).mp hs⟩, hu⟩
  . rw [hids.head, ← hfst, List.head?_map]
  . rw [hids.tail, ← hfst, List.getLast?_map]
  . intro n use u hn
    have hid : ids[n]? = some use := by
      rw [← hfst, List.getElem?_map, hn]
      rfl
    obtain ⟨hlt, hget⟩ := List.getElem?_eq_some_iff.mp hid
    -- The neighbours of a record are the ends of the two parts that the list has around it.
    have hcut : ids = ids.take n ++ use :: ids.drop (n + 1) := by
      rw [← hget, ← List.drop_eq_getElem_cons hlt, List.take_append_drop]
    have hlist := hids
    rw [hcut] at hlist
    obtain ⟨u', hu', -, hprev, hnext⟩ := hlist.get?_of_append
    have hu := (hids.mem_listed.mp (List.mem_of_getElem? hn)).2
    rw [hu] at hu'
    cases hu'
    rw [← List.getElem?_map, ← List.getElem?_map, hfst]
    constructor
    . rw [hnext, List.head?_drop]
    . rw [hprev, List.getLast?_take]
      split
      . rfl
      . have : n - 1 < ids.length := by omega
        simp [this]

theorem Tracks.usesAgree {r : Routine} (h : r.Tracked) : r.UsesAgree := by
  constructor
  . intro id k v use hs
    constructor
    . rw [contains_eq, Option.isSome_iff_exists]
      exact h.live id k v use hs
    . cases use with
      | none => exact (h.closed id k v hs).elim
      | some own =>
        refine ⟨own, rfl, ?_, ?_⟩
        . exact UseTable.reference?_eq_some.mp ((h.owner id k v own).mp hs)
        . rintro other u hu rfl rfl
          -- The slot that the other record names has it as its own.
          have href : r.uses.reference? other = some (u.value, u.user, u.slot) :=
            UseTable.reference?_eq_some.mpr ⟨u, hu, rfl, rfl, rfl⟩
          rw [← h.owner, hs] at href
          cases href
          rfl
  . rintro id k ⟨x, use⟩ hs hx
    cases use with
    | none => rfl
    | some use =>
      obtain ⟨v, rfl⟩ := h.plain id k x use hs
      cases hx
  . intro v l hl
    exact h.listsUses hl
  . exact ⟨h.free.nodup, h.free.mem_iff⟩

theorem usesAgree_after (actions : List Action) (h : (after actions).Small)
    : (after actions).UsesAgree := (tracked_after actions h).usesAgree

def sampleActions : List Action :=
  [.addBlock,
    .pushBack (.ofNat 0) (.readReg .i64 (.ofNat 1 1)),
    .pushBack (.ofNat 0) (.binop .i64 .add (.insn (.ofNat 0)) (.insn (.ofNat 0))),
    .pushBack (.ofNat 0) (.phi .i64 [.insn (.ofNat 0), .insn (.ofNat 1), .insn (.ofNat 1)]),
    .setOperand (.ofNat 2) 0 (.insn (.ofNat 2)),
    .erase (.ofNat 1),
    .removeOperand (.ofNat 2) 1,
    .replaceUses (.insn (.ofNat 1)) (.insn (.ofNat 0)),
    .erase (.ofNat 1),
    .pushFront (.ofNat 0) (.writeReg (.ofNat 1 1) (.insn (.ofNat 2)) .i64),
    .combine (.ofNat 0) true]

theorem usesAgree_after_sampleActions
    : (after sampleActions).Small ∧ (after sampleActions).UsesAgree := by
  have hsmall : (after sampleActions).Small := by
    constructor
    . decide +kernel
    . decide +kernel
    . decide +kernel
  exact ⟨hsmall, usesAgree_after sampleActions hsmall⟩

end Routine

end MachineIR
