import MachineIR.Proofs.Edit
import MachineIR.Proofs.UseTable
import MachineIR.Proofs.Views

/-!
This module contains the invariant that ties the operand slots of a routine, the records of uses and
the lists of uses together. While an edit is under way, some slots may be `pending`: they refer to a
value and have no record. Between edits none is.
-/

namespace MachineIR

namespace Routine

/-- Every reference to a value has one record, except for the pending ones, which have none. -/
structure Tracks (r : Routine) (pending : InsnId → Nat → Prop) : Prop where
  owner : ∀ id k v use,
    r.slot? id k = some ⟨.value v, some use⟩ ↔ r.uses.reference? use = some (v, id, k)
  plain : ∀ id k x use, r.slot? id k = some ⟨x, some use⟩ → ∃ v, x = .value v
  closed : ∀ id k v, r.slot? id k = some ⟨.value v, none⟩ → pending id k
  live : ∀ id k v use, r.slot? id k = some ⟨.value v, use⟩ → ∃ l, r.useList? v = some l
  listed : ∀ v l, r.useList? v = some l →
    ∃ ids, r.uses.IsList v l ids ∧
      ∀ use, use ∈ ids ↔ ∃ id k, r.uses.reference? use = some (v, id, k)
  free : r.uses.FreeSound

abbrev Tracked (r : Routine) : Prop := r.Tracks fun _ _ => False

namespace Tracks

variable {r r' : Routine} {pending : InsnId → Nat → Prop}

theorem mono {pending' : InsnId → Nat → Prop} (h : r.Tracks pending)
    (hsub : ∀ id k v, r.slot? id k = some ⟨.value v, none⟩ → pending id k → pending' id k)
    : r.Tracks pending' := by
  refine { h with closed := ?_ }
  intro id k v hslot
  exact hsub id k v hslot (h.closed id k v hslot)

theorem congr (h : r.Tracks pending) (hslot : ∀ id k, r'.slot? id k = r.slot? id k)
    (hlist : ∀ v, r'.useList? v = r.useList? v) (huses : r'.uses = r.uses)
    : r'.Tracks pending := by
  -- The invariant is about slots, lists of uses and records only.
  constructor
  . intro id k v use
    rw [hslot, huses]
    exact h.owner id k v use
  . intro id k x use
    rw [hslot]
    exact h.plain id k x use
  . intro id k v
    rw [hslot]
    exact h.closed id k v
  . intro id k v use
    rw [hslot, hlist]
    exact h.live id k v use
  . intro v l
    rw [hlist, huses]
    exact h.listed v l
  . rw [huses]
    exact h.free

theorem unlink (h : r.Tracks pending) {id : InsnId} {k : Nat} {v : ValueId} {use : UseId}
    {l l' : UseList} (hs : r.slot? id k = some ⟨.value v, some use⟩)
    (hl : r.useList? v = some l) (hunlink : r.uses.unlink? l use = some (r'.uses, l'))
    (hslot : ∀ j n, r'.slot? j n =
      if j = id ∧ n = k then some ⟨.value v, none⟩ else r.slot? j n)
    (hlist : ∀ w, r'.useList? w = if w = v then some l' else r.useList? w)
    : r'.Tracks fun j n => pending j n ∨ j = id ∧ n = k := by
  have href := (h.owner id k v use).mp hs
  obtain ⟨ids, hids, hmem⟩ := h.listed v l hl
  have huse : use ∈ ids := (hmem use).mpr ⟨id, k, href⟩
  have href' := UseTable.reference?_unlink hunlink
  -- The slot becomes pending, and the record leaves its list; all other slots keep their records.
  constructor
  . intro j n w use'
    rw [hslot, href']
    by_cases hjn : j = id ∧ n = k
    . rw [if_pos hjn]
      constructor
      . intro heq
        cases heq
      . intro heq
        split at heq
        . cases heq
        . next hne =>
          rw [← h.owner, hjn.1, hjn.2, hs] at heq
          cases heq
          exact absurd rfl hne
    . rw [if_neg hjn, h.owner]
      split
      . next heq =>
        rw [heq, href]
        constructor
        . intro heq
          cases heq
          exact absurd ⟨rfl, rfl⟩ hjn
        . intro heq
          cases heq
      . rfl
  . intro j n x use' heq
    rw [hslot] at heq
    split at heq
    . cases heq
    . exact h.plain j n x use' heq
  . intro j n w heq
    rw [hslot] at heq
    split at heq
    . next hjn => exact Or.inr hjn
    . exact Or.inl (h.closed j n w heq)
  . intro j n w use' heq
    have hlive : ∃ l, r.useList? w = some l := by
      rw [hslot] at heq
      split at heq
      . cases heq
        exact ⟨l, hl⟩
      . exact h.live j n w use' heq
    rw [hlist]
    split
    . exact ⟨l', rfl⟩
    . exact hlive
  . intro w l₂ hl₂
    rw [hlist] at hl₂
    split at hl₂
    . next hw =>
      cases hl₂
      subst hw
      refine ⟨ids.erase use, hids.unlink huse hunlink, ?_⟩
      intro use'
      rw [hids.nodup.mem_erase_iff, hmem, href']
      split
      . next heq => simp [heq]
      . next hne => simp [hne]
    . next hw =>
      obtain ⟨ids₂, hids₂, hmem₂⟩ := h.listed w l₂ hl₂
      refine ⟨ids₂, hids.unlink_of_ne huse hunlink hids₂ hw, ?_⟩
      intro use'
      rw [hmem₂, href']
      split
      . next heq =>
        rw [heq, href]
        simp
        intro heq
        exact absurd heq.symm hw
      . rfl
  . exact h.free.unlink hunlink

theorem link (h : r.Tracks pending) {id : InsnId} {k : Nat} {v : ValueId} {x : Operand}
    {l : UseList} (hs : r.slot? id k = some ⟨x, none⟩) (hl : r.useList? v = some l)
    (huses : r'.uses = (r.uses.link l v id k).1)
    (hslot : ∀ j n, r'.slot? j n =
      if j = id ∧ n = k then some ⟨.value v, some r.uses.nextCell⟩ else r.slot? j n)
    (hlist : ∀ w, r'.useList? w =
      if w = v then some (r.uses.link l v id k).2.1 else r.useList? w)
    (hsize : r'.uses.records.size ≤ UInt32.size)
    : r'.Tracks fun j n => pending j n ∧ ¬ (j = id ∧ n = k) := by
  rw [huses] at hsize
  obtain ⟨ids, hids, hmem⟩ := h.listed v l hl
  have href := h.free.reference?_link hsize
  -- No slot and no record knows of the new record yet.
  have hcell : r.uses.reference? r.uses.nextCell = none := by
    unfold UseTable.reference?
    rw [h.free.get?_nextCell_of_link hsize]
    rfl
  constructor
  . intro j n w use'
    rw [hslot, huses, href]
    by_cases hjn : j = id ∧ n = k
    . rw [if_pos hjn]
      obtain ⟨rfl, rfl⟩ := hjn
      constructor
      . intro heq
        cases heq
        rw [if_pos rfl]
      . intro heq
        split at heq
        . next hcell =>
          cases heq
          rw [hcell]
        . rw [← h.owner, hs] at heq
          cases heq
    . rw [if_neg hjn, h.owner]
      split
      . next heq =>
        rw [heq, hcell]
        constructor
        . intro heq
          cases heq
        . intro heq
          cases heq
          exact absurd ⟨rfl, rfl⟩ hjn
      . rfl
  . intro j n x' use' heq
    rw [hslot] at heq
    split at heq
    . cases heq
      exact ⟨v, rfl⟩
    . exact h.plain j n x' use' heq
  . intro j n w heq
    rw [hslot] at heq
    split at heq
    . cases heq
    . next hjn => exact ⟨h.closed j n w heq, hjn⟩
  . intro j n w use' heq
    rw [hlist]
    split
    . exact ⟨_, rfl⟩
    . next hw =>
      rw [hslot] at heq
      split at heq
      . cases heq
        exact absurd rfl hw
      . exact h.live j n w use' heq
  . intro w l₂ hl₂
    rw [hlist] at hl₂
    rw [huses]
    split at hl₂
    . next hw =>
      cases hl₂
      subst hw
      refine ⟨ids ++ [r.uses.nextCell], hids.link h.free hsize, ?_⟩
      intro use'
      rw [List.mem_append, List.mem_singleton, hmem, href]
      split
      . next heq => simp [heq]
      . next hne => simp [hne]
    . next hw =>
      obtain ⟨ids₂, hids₂, hmem₂⟩ := h.listed w l₂ hl₂
      refine ⟨ids₂, hids.link_of_ne h.free hsize hids₂ hw, ?_⟩
      intro use'
      rw [hmem₂, href]
      split
      . next heq =>
        rw [heq, hcell]
        simp
        intro heq
        exact absurd heq.symm hw
      . rfl
  . rw [huses]
    exact h.free.link hsize

theorem setPlain (h : r.Tracks pending) {id : InsnId} {k : Nat} {x y : Operand}
    (hs : r.slot? id k = some ⟨x, none⟩) (hy : ∀ v, y ≠ .value v) (huses : r'.uses = r.uses)
    (hslot : ∀ j n, r'.slot? j n = if j = id ∧ n = k then some ⟨y, none⟩ else r.slot? j n)
    (hlist : ∀ w, r'.useList? w = r.useList? w)
    : r'.Tracks fun j n => pending j n ∧ ¬ (j = id ∧ n = k) := by
  constructor
  . intro j n w use'
    rw [hslot, huses, ← h.owner]
    split
    . next hjn =>
      rw [hjn.1, hjn.2, hs]
      simp
    . rfl
  . intro j n x' use' heq
    rw [hslot] at heq
    split at heq
    . cases heq
    . exact h.plain j n x' use' heq
  . intro j n w heq
    rw [hslot] at heq
    split at heq
    . cases heq
      exact absurd rfl (hy w)
    . next hjn => exact ⟨h.closed j n w heq, hjn⟩
  . intro j n w use' heq
    rw [hlist]
    rw [hslot] at heq
    split at heq
    . cases heq
      exact absurd rfl (hy w)
    . exact h.live j n w use' heq
  . intro w l hl
    rw [hlist] at hl
    rw [huses]
    exact h.listed w l hl
  . rw [huses]
    exact h.free

theorem remove (h : r.Tracks pending) (gone : InsnId → Prop) (dead : ValueId → Prop)
    (hgone : ∀ id k use x, gone id → r.slot? id k ≠ some ⟨x, some use⟩)
    (hdead : ∀ id k use v, ¬ gone id → dead v → r.slot? id k ≠ some ⟨.value v, use⟩)
    (huses : r'.uses = r.uses)
    (hkept : ∀ id k, ¬ gone id → r'.slot? id k = r.slot? id k)
    (herased : ∀ id k, gone id → r'.slot? id k = none)
    (hlist : ∀ v, ¬ dead v → r'.useList? v = r.useList? v)
    (hlistDead : ∀ v, dead v → r'.useList? v = none)
    : r'.Tracks fun id k => pending id k ∧ ¬ gone id := by
  constructor
  . intro id k v use
    rw [huses, ← h.owner]
    by_cases hid : gone id
    . rw [herased id k hid]
      constructor
      . intro heq
        cases heq
      . intro heq
        exact absurd heq (hgone id k use _ hid)
    . rw [hkept id k hid]
  . intro id k x use heq
    by_cases hid : gone id
    . rw [herased id k hid] at heq
      cases heq
    . rw [hkept id k hid] at heq
      exact h.plain id k x use heq
  . intro id k v heq
    by_cases hid : gone id
    . rw [herased id k hid] at heq
      cases heq
    . rw [hkept id k hid] at heq
      exact ⟨h.closed id k v heq, hid⟩
  . intro id k v use heq
    by_cases hid : gone id
    . rw [herased id k hid] at heq
      cases heq
    . rw [hkept id k hid] at heq
      by_cases hv : dead v
      . exact absurd heq (hdead id k use v hid hv)
      . rw [hlist v hv]
        exact h.live id k v use heq
  . intro v l hl
    by_cases hv : dead v
    . rw [hlistDead v hv] at hl
      cases hl
    . rw [hlist v hv] at hl
      rw [huses]
      exact h.listed v l hl
  . rw [huses]
    exact h.free

theorem extend (h : r.Tracks pending) (fresh : InsnId → Nat → Prop) (born : ValueId → Prop)
    (hfresh : ∀ id k, fresh id k → r.slot? id k = none)
    (hborn : ∀ v, born v → r.useList? v = none)
    (huses : r'.uses = r.uses)
    (hkept : ∀ id k, ¬ fresh id k → r'.slot? id k = r.slot? id k)
    (hnew : ∀ id k s, fresh id k → r'.slot? id k = some s →
      s.use = none ∧ ∀ v, s.operand = .value v → ∃ l, r.useList? v = some l)
    (hlist : ∀ v, ¬ born v → r'.useList? v = r.useList? v)
    (hlistNew : ∀ v, born v → r'.useList? v = some {})
    : r'.Tracks fun id k => pending id k ∨ fresh id k := by
  -- What is live stays live.
  have hlive : ∀ v l, r.useList? v = some l → r'.useList? v = some l := by
    intro v l hl
    have hv : ¬ born v := by
      intro hv
      rw [hborn v hv] at hl
      cases hl
    rw [hlist v hv]
    exact hl
  constructor
  . intro id k v use
    rw [huses, ← h.owner]
    by_cases hid : fresh id k
    . rw [hfresh id k hid]
      constructor
      . intro heq
        have := (hnew id k _ hid heq).1
        cases this
      . intro heq
        cases heq
    . rw [hkept id k hid]
  . intro id k x use heq
    by_cases hid : fresh id k
    . have := (hnew id k _ hid heq).1
      cases this
    . rw [hkept id k hid] at heq
      exact h.plain id k x use heq
  . intro id k v heq
    by_cases hid : fresh id k
    . exact Or.inr hid
    . rw [hkept id k hid] at heq
      exact Or.inl (h.closed id k v heq)
  . intro id k v use heq
    have hold : ∃ l, r.useList? v = some l := by
      by_cases hid : fresh id k
      . exact (hnew id k _ hid heq).2 v rfl
      . rw [hkept id k hid] at heq
        exact h.live id k v use heq
    obtain ⟨l, hl⟩ := hold
    exact ⟨l, hlive v l hl⟩
  . intro v l hl
    rw [huses]
    by_cases hv : born v
    . rw [hlistNew v hv] at hl
      cases hl
      refine ⟨[], UseTable.isList_nil _ _, ?_⟩
      intro use
      constructor
      . intro hmem
        cases hmem
      . rintro ⟨id, k, href⟩
        rw [← h.owner] at href
        obtain ⟨l, hl⟩ := h.live id k v (some use) href
        rw [hborn v hv] at hl
        cases hl
    . rw [hlist v hv] at hl
      exact h.listed v l hl
  . rw [huses]
    exact h.free

end Tracks

structure Small (r : Routine) : Prop where
  insns : r.insns.size ≤ UInt32.size
  blocks : r.blocks.size ≤ UInt32.size
  uses : r.uses.records.size ≤ UInt32.size

instance (r : Routine) : Decidable r.Small :=
  decidable_of_iff
    (r.insns.size ≤ UInt32.size ∧ r.blocks.size ≤ UInt32.size ∧ r.uses.records.size ≤ UInt32.size)
    ⟨fun h => ⟨h.1, h.2.1, h.2.2⟩, fun h => ⟨h.insns, h.blocks, h.uses⟩⟩

theorem Small.of_sizes {r r' : Routine} (h : r.Small) (hsizes : r'.sizes = r.sizes)
    (huses : r'.uses.records.size = r.uses.records.size) : r'.Small := by
  obtain ⟨hinsns, hblocks⟩ := Prod.mk.inj hsizes
  exact ⟨hinsns ▸ h.insns, hblocks ▸ h.blocks, huses ▸ h.uses⟩

structure Roomy (r : Routine) : Prop where
  insns : r.insns.size ≤ UInt32.size
  blocks : r.blocks.size ≤ UInt32.size

theorem Small.roomy {r : Routine} (h : r.Small) : r.Roomy := ⟨h.insns, h.blocks⟩

structure Grows (r r' : Routine) : Prop where
  insns : r.insns.size ≤ r'.insns.size
  blocks : r.blocks.size ≤ r'.blocks.size
  uses : r.uses.records.size ≤ r'.uses.records.size

namespace Grows

variable {r r' r'' : Routine}

theorem refl (r : Routine) : r.Grows r := by
  constructor <;> apply Nat.le_refl

theorem trans (h : r.Grows r') (h' : r'.Grows r'') : r.Grows r'' := by
  constructor
  . exact Nat.le_trans h.insns h'.insns
  . exact Nat.le_trans h.blocks h'.blocks
  . exact Nat.le_trans h.uses h'.uses

instance : Std.Refl Grows := ⟨refl⟩

instance : Trans Grows Grows Grows := ⟨trans⟩

theorem small (h : r.Grows r') (h' : r'.Small) : r.Small := by
  constructor
  . exact Nat.le_trans h.insns h'.insns
  . exact Nat.le_trans h.blocks h'.blocks
  . exact Nat.le_trans h.uses h'.uses

theorem roomy (h : r.Grows r') (h' : r'.Roomy) : r.Roomy := by
  constructor
  . exact Nat.le_trans h.insns h'.insns
  . exact Nat.le_trans h.blocks h'.blocks

end Grows

structure Keeps (r r' : Routine) : Prop where
  grows : r.Grows r'
  tracked : r'.Small → r.Tracked → r'.Tracked

namespace Keeps

variable {r r' r'' : Routine}

theorem refl (r : Routine) : r.Keeps r := ⟨Grows.refl r, fun _ h => h⟩

theorem trans (h : r.Keeps r') (h' : r'.Keeps r'') : r.Keeps r'' := by
  refine ⟨h.grows.trans h'.grows, ?_⟩
  intro hsmall htracked
  apply h'.tracked hsmall
  exact h.tracked (h'.grows.small hsmall) htracked

instance : Std.Refl Keeps := ⟨refl⟩

instance : Trans Keeps Keeps Keeps := ⟨trans⟩

end Keeps

structure SameUses (r r' : Routine) : Prop where
  insns : r'.insns.size = r.insns.size
  blocks : r'.blocks.size = r.blocks.size
  slot : ∀ id k, r'.slot? id k = r.slot? id k
  list : ∀ v, r'.useList? v = r.useList? v
  uses : r'.uses = r.uses

namespace SameUses

variable {r r' r'' : Routine}

theorem refl (r : Routine) : r.SameUses r := ⟨rfl, rfl, fun _ _ => rfl, fun _ => rfl, rfl⟩

theorem trans (h : r.SameUses r') (h' : r'.SameUses r'') : r.SameUses r'' := by
  constructor
  . rw [h'.insns, h.insns]
  . rw [h'.blocks, h.blocks]
  . intro id k
    rw [h'.slot, h.slot]
  . intro v
    rw [h'.list, h.list]
  . rw [h'.uses, h.uses]

instance : Std.Refl SameUses := ⟨refl⟩

instance : Trans SameUses SameUses SameUses := ⟨trans⟩

theorem modifyInsn {f : Insn → Insn} (hslots : ∀ i, (f i).slots = i.slots)
    (huses : ∀ i, (f i).uses = i.uses) (r : Routine) (id : InsnId)
    : r.SameUses (r.modifyInsn id f) := by
  constructor
  . simp [Routine.modifyInsn]
  . rfl
  . exact slot?_modifyInsn hslots id
  . exact useList?_modifyInsn huses id
  . rfl

theorem modifyBlock {f : Block → Block} (huses : ∀ b, (f b).uses = b.uses) (r : Routine)
    (b : BlockId) : r.SameUses (r.modifyBlock b f) := by
  constructor
  . rfl
  . simp [Routine.modifyBlock]
  . intro id k
    rfl
  . exact useList?_modifyBlock huses b
  . rfl

theorem tracks (h : r.SameUses r') {pending : InsnId → Nat → Prop} (htracks : r.Tracks pending)
    : r'.Tracks pending := htracks.congr h.slot h.list h.uses

theorem keeps (h : r.SameUses r') : r.Keeps r' := by
  refine ⟨⟨?_, ?_, ?_⟩, ?_⟩
  . exact Nat.le_of_eq h.insns.symm
  . exact Nat.le_of_eq h.blocks.symm
  . exact Nat.le_of_eq (by rw [h.uses])
  . intro hsmall htracked
    exact h.tracks htracked

end SameUses

end Routine

namespace Edit

open Routine

variable {σ : Type} {I : Cursor → Routine → Prop} {r : Routine} {b : BlockId}

theorem visitAll_run {visit : σ → InsnId → Edit σ} (hkeeps : ∀ s id, Within Keeps (visit s id))
    (hstep : ∀ c c' r s id, r.Tracked → (left (visit s id) r).Small → I c r →
      c.next r = (some id, c') → ∃ s' r', visit s id r = .ok s' r' ∧ I c' r')
    (fuel : Nat) (c : Cursor) (s : σ) (htracked : r.Tracked) (hI : I c r)
    (hsmall : (left (visitAll visit fuel c s) r).Small)
    : ∃ c' s' r', visitAll visit fuel c s r = .ok s' r' ∧ I c' r' := by
  induction fuel generalizing c s r with
  | zero => exact ⟨c, s, r, rfl, hI⟩
  | succ fuel ih =>
    rw [visitAll, get_bind_run]
    rw [visitAll, left_bind_of_ok (get_run r)] at hsmall
    rcases hnext : c.next r with ⟨_ | id, c'⟩
    . exact ⟨c, s, r, rfl, hI⟩
    . rw [hnext] at hsmall
      dsimp only at hsmall ⊢
      have hvisit := (Within.left_bind (fun s => Within.visitAll hkeeps fuel c' s) (visit s id) r)
      have hsmall' := hvisit.grows.small hsmall
      obtain ⟨s', r', hrun, hI'⟩ := hstep c c' r s id htracked hsmall' hI hnext
      rw [left_of_ok hrun] at hsmall'
      have htracked' := (hkeeps s id r).tracked
      rw [left_of_ok hrun] at htracked'
      rw [left_bind_of_ok hrun] at hsmall
      rw [bind_of_ok hrun]
      exact ih c' s' (htracked' hsmall' htracked) hI' hsmall

theorem sweep_run {visit : InsnId → Edit Nat} {direction : Direction}
    (hkeeps : ∀ id, Within Keeps (visit id))
    (hstep : ∀ c c' r id, r.Tracked → (left (visit id) r).Small → I c r →
      c.next r = (some id, c') → ∃ n r', visit id r = .ok n r' ∧ I c' r')
    (htracked : r.Tracked) (hb : r.block? b ≠ none) (hI : I { block := b, direction } r)
    (hsmall : (left (sweep b direction visit) r).Small)
    : ∃ c n r', sweep b direction visit r = .ok n r' ∧ I c r' := by
  obtain ⟨found, hfound⟩ := Option.ne_none_iff_exists'.mp hb
  have hcursor : cursor b direction r = .ok { block := b, direction } r := by
    simp [cursor, block, hfound]
  unfold sweep sweepWith at hsmall ⊢
  rw [left_bind_of_ok hcursor, left_bind_of_ok (get_run r)] at hsmall
  rw [bind_of_ok hcursor, get_bind_run]
  refine visitAll_run ?_ ?_ _ _ _ htracked hI hsmall
  . intro total id
    refine Within.bind (hkeeps id) fun n => ?_
    exact Within.pure _
  . intro c c' r total id htracked hsmall hI hnext
    rw [left_bind_pure] at hsmall
    obtain ⟨n, r', hrun, hI'⟩ := hstep c c' r id htracked hsmall hI hnext
    exact ⟨total + n, r', bind_of_ok hrun, hI'⟩

end Edit

end MachineIR
