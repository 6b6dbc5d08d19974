import MachineIR.Proofs.OperandEdits

/-!
This module contains the replacement of a value by an operand. The records of the value are worked
off from the head of its list, while every step takes the head off the list and puts its cell to a
new use; what is left in the end is the routine with the operand substituted throughout.
-/

namespace MachineIR

namespace Store

variable {α : Type}

theorem ext_get? {s t : Store α} (hsize : s.size = t.size) (h : ∀ i, s.get? i = t.get? i)
    : s = t := by
  obtain ⟨cells⟩ := s
  obtain ⟨cells'⟩ := t
  simp only [size] at hsize
  congr 1
  apply Array.ext
  . exact hsize
  . intro i hi hi'
    specialize h i
    simpa [get?, hi, hi'] using h

end Store

def Slot.substitute (v : ValueId) (x : Operand) (s : Slot) : Slot :=
  if s.operand = .value v then ⟨x, none⟩ else s

def Insn.substitute (v : ValueId) (x : Operand) (i : Insn) : Insn :=
  { i with slots := i.slots.map (Slot.substitute v x) }

namespace Routine

def substitute (v : ValueId) (x : Operand) (r : Routine) : Routine :=
  { r with insns := r.insns.map (Insn.substitute v x) }

variable {r r' : Routine} {id : InsnId} {k : Nat} {v : ValueId} {x : Operand}

@[simp]
theorem insn?_substitute (id : InsnId)
    : (r.substitute v x).insn? id = (r.insn? id).map (Insn.substitute v x) := by
  unfold insn? substitute
  rw [Store.get?_map]

@[simp]
theorem slot?_substitute (id : InsnId) (k : Nat)
    : (r.substitute v x).slot? id k = (r.slot? id k).map (Slot.substitute v x) := by
  unfold slot?
  rw [insn?_substitute]
  cases r.insn? id with
  | none => rfl
  | some i => simp [Insn.substitute]

section UsesOf

theorem usesOf_of_isList {l : UseList} {ids : List UseId} (hl : r.useList? v = some l)
    (hids : r.uses.IsList v l ids)
    : r.usesOf v = ids.filterMap fun use => (r.uses.reference? use).map Prod.snd := by
  unfold usesOf
  rw [hl]
  dsimp only
  rw [hids.listed_eq, List.map_filterMap]
  congr 1
  funext use
  unfold UseTable.reference?
  rw [Option.map_map, Option.map_map]
  rfl

theorem Tracks.usesOf_eq {pending : InsnId → Nat → Prop} (h : r.Tracks pending) {l : UseList}
    (hl : r.useList? v = some l)
    : ∃ ids : List UseId, ids.Nodup ∧ ids.length = l.len ∧
        (r.usesOf v).map some = ids.map (fun use => (r.uses.reference? use).map Prod.snd) ∧
        ∀ use, use ∈ ids ↔ ∃ id k, r.uses.reference? use = some (v, id, k) := by
  obtain ⟨ids, hids, hmem⟩ := h.listed v l hl
  refine ⟨ids, hids.nodup, hids.len.symm, ?_, hmem⟩
  rw [usesOf_of_isList hl hids]
  have hsome : ∀ use ∈ ids, ∃ u, r.uses.get? use = some u := by
    intro use huse
    obtain ⟨u, hu, -⟩ := hids.get?_of_mem huse
    exact ⟨u, hu⟩
  clear hids hmem
  induction ids with
  | nil => rfl
  | cons use rest ih =>
    obtain ⟨u, hu⟩ := hsome use (by simp)
    simp only [List.filterMap_cons, hu, Option.map_some, List.map_cons, UseTable.reference?]
    congr 1
    apply ih
    intro use' huse'
    exact hsome use' (by simp [huse'])

theorem Tracks.mem_usesOf {pending : InsnId → Nat → Prop} (h : r.Tracks pending)
    : (id, k) ∈ r.usesOf v ↔ ∃ use, r.slot? id k = some ⟨.value v, some use⟩ := by
  cases hl : r.useList? v with
  | none =>
    unfold usesOf
    rw [hl]
    constructor
    . intro hmem
      cases hmem
    . rintro ⟨use, hs⟩
      obtain ⟨l, hl'⟩ := h.live id k v (some use) hs
      rw [hl] at hl'
      cases hl'
  | some l =>
    obtain ⟨ids, -, -, heq, hmem⟩ := h.usesOf_eq hl
    have : (id, k) ∈ r.usesOf v ↔ some (id, k) ∈ (r.usesOf v).map some := by simp
    rw [this, heq, List.mem_map]
    constructor
    . rintro ⟨use, huse, href⟩
      obtain ⟨j, n, hjn⟩ := (hmem use).mp huse
      rw [hjn] at href
      cases href
      exact ⟨use, (h.owner id k v use).mpr hjn⟩
    . rintro ⟨use, hs⟩
      have href := (h.owner id k v use).mp hs
      exact ⟨use, (hmem use).mpr ⟨id, k, href⟩, by rw [href]; rfl⟩

end UsesOf

section Substitute

theorem substitute_modifySlot {s : Slot} (hs : r.slot? id k = some s) (hv : s.operand = .value v)
    : (r.modifySlot id k fun _ => ⟨x, none⟩).substitute v x = r.substitute v x := by
  unfold substitute modifySlot modifyInsn
  dsimp only
  congr 1
  apply Store.ext_get?
  . simp
  . intro n
    simp only [Store.get?_map, Store.get?_modify]
    split
    . next hn =>
      subst hn
      obtain ⟨i, hi, hk⟩ := Option.bind_eq_some_iff.mp hs
      change ((r.insn? id).map _).map _ = (r.insn? id).map _
      rw [hi]
      simp only [Option.map_some, Option.some.injEq, Insn.substitute]
      congr 1
      apply List.ext_getElem?
      intro m
      simp only [List.getElem?_map, List.getElem?_modify]
      by_cases hm : k = m
      . subst hm
        simp [hk, Slot.substitute, hv]
      . simp [hm]
    . rfl

theorem substitute_eq_self (hsize : r.insns.size ≤ UInt32.size)
    (h : ∀ id k s, r.slot? id k = some s → s.operand ≠ .value v) : r.substitute v x = r := by
  unfold substitute
  have : r.insns.map (Insn.substitute v x) = r.insns := by
    apply Store.ext_get?
    . simp
    . intro n
      rw [Store.get?_map]
      cases hi : r.insns.get? n with
      | none => rfl
      | some i =>
        have hn := Store.lt_size_of_get? hi
        have hid : r.insn? (.ofNat n) = some i := by
          unfold insn?
          rw [InsnId.toNat_ofNat (by omega), hi]
        have hslots : i.slots.map (Slot.substitute v x) = i.slots := by
          apply List.ext_getElem?
          intro k
          rw [List.getElem?_map]
          cases hs : i.slots[k]? with
          | none => rfl
          | some s =>
            rw [← slot?_eq hid] at hs
            simp [Slot.substitute, h _ _ _ hs]
        simp only [Option.map_some, Insn.substitute, hslots]
  rw [this]

end Substitute

end Routine

namespace Edit

open Routine

variable {r r' : Routine} {id : InsnId} {k : Nat} {v : ValueId} {x : Operand}

structure Replaced (r r' : Routine) (v : ValueId) (x : Operand) : Prop where
  bare : r'.bare = r.bare.substitute v x
  size : r'.uses.records.size = r.uses.records.size
  tracked : r'.Tracked

theorem admits_of_bare_eq (h : r'.bare = r.bare.modifySlot id k fun _ => ⟨x, none⟩)
    {y : Operand} (hy : r.Admits y) : r'.Admits y := by
  intro w heq
  have hw := hy w heq
  rw [← Option.isSome_iff_exists, ← contains_eq, ← contains_bare] at hw ⊢
  rw [h]
  cases w with
  | insn j =>
    simp only [contains, modifySlot, insn?_modifyInsn] at hw ⊢
    split
    . simpa using hw
    . exact hw
  | block b => exact hw

theorem replaced_of_unused {l : UseList} (h : r.Tracked) (hsmall : r.Small)
    (hl : r.useList? v = some l) (hlen : l.len = 0) : l.head = none ∧ Replaced r r v x := by
  obtain ⟨ids, hids, hmem⟩ := h.listed v l hl
  have hnil : ids = [] := by
    rw [← List.length_eq_zero_iff, ← hids.len, hlen]
  subst hnil
  refine ⟨hids.head, ?_, rfl, h⟩
  symm
  apply substitute_eq_self
  . simpa [bare] using hsmall.insns
  . intro id k s hs hv
    rw [slot?_bare, Option.map_eq_some_iff] at hs
    obtain ⟨⟨y, use⟩, hs, rfl⟩ := hs
    cases hv
    cases use with
    | none => exact h.closed id k v hs
    | some use =>
      have := (hmem use).mpr ⟨id, k, (h.owner id k v use).mp hs⟩
      cases this

theorem small_of_bare_eq (hsmall : r.Small) (h : r'.bare = r.bare.modifySlot id k fun _ => ⟨x, none⟩)
    (hsize : r'.uses.records.size = r.uses.records.size) : r'.Small := by
  apply hsmall.of_sizes _ hsize
  rw [← sizes_bare, h, modifySlot, sizes_modifyInsn, sizes_bare]

theorem replaceFrom_step {l : UseList} {use : UseId} {rest : List UseId} (h : r.Tracked)
    (hsmall : r.Small) (hx : r.Admits x) (hne : x ≠ .value v) (hl : r.useList? v = some l)
    (hids : r.uses.IsList v l (use :: rest))
    : ∃ id k r₁ l', r.slot? id k = some ⟨.value v, some use⟩ ∧ setOperand id k x r = .ok () r₁ ∧
        OperandSet r r₁ id k ⟨.value v, some use⟩ x ∧ r₁.Tracked ∧ r₁.Small ∧
        r₁.useList? v = some l' ∧ l'.len = rest.length ∧
        ∀ fuel, replaceFrom v x (fuel + 1) l.head r =
          (replaceFrom v x fuel l'.head >>= fun n => pure (n + 1)) r₁ := by
  obtain ⟨⟨u, hu, hvalue, hprev, -⟩, -⟩ := hids.chain
  have hs : r.slot? u.user u.slot = some ⟨.value v, some use⟩ := by
    rw [h.owner, UseTable.reference?_eq_some]
    exact ⟨u, hu, hvalue, rfl, rfl⟩
  obtain ⟨r₁, hrun, hset, htracked⟩ := setOperand_run hs (h.releasable hs) hx
  have hsmall₁ := small_of_bare_eq hsmall hset.bare (hset.reuse (Option.some_ne_none use))
  obtain ⟨t, l', hunlink, hl'⟩ := hset.list v use l rfl hne hl
  obtain ⟨hhead, hlen⟩ := UseTable.head_unlink hu hunlink hprev
  have hlen' : l.len = rest.length + 1 := hids.len
  refine ⟨u.user, u.slot, r₁, l', hs, hrun, hset, htracked h hsmall₁.uses, hsmall₁, hl', by omega, ?_⟩
  intro fuel
  have hfirst : l.head = some use := hids.head
  rw [hfirst, hhead, replaceFrom, get_bind_run, hu]
  dsimp only
  rw [bind_of_ok hrun]

theorem replaceFrom_run {fuel : Nat} {l : UseList} (h : r.Tracked) (hsmall : r.Small)
    (hx : r.Admits x) (hne : x ≠ .value v) (hl : r.useList? v = some l) (hfuel : l.len ≤ fuel)
    : ∃ r', replaceFrom v x fuel l.head r = .ok l.len r' ∧ Replaced r r' v x := by
  -- Every step leaves one reference less.
  induction fuel generalizing r l with
  | zero =>
    have hlen : l.len = 0 := by omega
    obtain ⟨-, hreplaced⟩ := replaced_of_unused h hsmall hl hlen (x := x)
    refine ⟨r, ?_, hreplaced⟩
    rw [hlen]
    rfl
  | succ fuel ih =>
    obtain ⟨ids, hids, -⟩ := h.listed v l hl
    cases ids with
    | nil =>
      have hlen : l.len = 0 := hids.len
      obtain ⟨hhead, hreplaced⟩ := replaced_of_unused h hsmall hl hlen (x := x)
      refine ⟨r, ?_, hreplaced⟩
      rw [hhead, hlen]
      rfl
    | cons use rest =>
      obtain ⟨id, k, r₁, l', hs, -, hset, htracked, hsmall₁, hl', hlen, hstep⟩ :=
        replaceFrom_step h hsmall hx hne hl hids
      have hlen' : l.len = rest.length + 1 := hids.len
      obtain ⟨r₂, hrun₂, hreplaced⟩ :=
        ih htracked hsmall₁ (admits_of_bare_eq hset.bare hx) hl' (by omega)
      have hslot : r.bare.slot? id k = some ⟨.value v, none⟩ := by
        rw [slot?_bare, hs]
        rfl
      refine ⟨r₂, ?_, ?_, ?_, hreplaced.tracked⟩
      . rw [hstep, bind_of_ok hrun₂, pure_run, hlen, hlen']
      . rw [hreplaced.bare, hset.bare, substitute_modifySlot hslot rfl]
      . rw [hreplaced.size, hset.reuse (Option.some_ne_none use)]

theorem replaceUses_run (h : r.Tracked) (hsmall : r.Small) (hv : r.contains v = true)
    (hx : r.Admits x) (hne : x ≠ .value v)
    : ∃ r', replaceUses v x r = .ok (r.useCount v) r' ∧ Replaced r r' v x := by
  rw [contains_eq, Option.isSome_iff_exists] at hv
  obtain ⟨l, hl⟩ := hv
  obtain ⟨ids, hids, -⟩ := h.listed v l hl
  have hfuel : l.len ≤ r.uses.records.size := by
    rw [hids.len]
    exact hids.length_le
  obtain ⟨r', hrun, hreplaced⟩ := replaceFrom_run h hsmall hx hne hl hfuel
  refine ⟨r', ?_, hreplaced⟩
  unfold replaceUses
  rw [if_neg hne, bind_of_ok (requireLive_run_ok hx), get_bind_run, hl]
  simpa [useCount, hl] using hrun

theorem replaceUses_run_error (hne : x ≠ .value v) (h : r.contains v = false ∨ ¬ r.Admits x)
    : ∃ e, replaceUses v x r = .error e r := by
  unfold replaceUses
  rw [if_neg hne]
  cases requireLive_run x r with
  | inl hlive =>
    have hnone : r.contains v = false := by
      cases h with
      | inl h => exact h
      | inr h => exact absurd hlive.2 h
    rw [contains_eq, Option.isSome_eq_false_iff, Option.isNone_iff_eq_none] at hnone
    rw [bind_of_ok hlive.1, get_bind_run, hnone]
    exact ⟨.invalidHandle v, rfl⟩
  | inr herror =>
    obtain ⟨e, he⟩ := herror
    exact ⟨e, bind_of_error he⟩

theorem Replaced.sizes (h : Replaced r r' v x) : r'.sizes = r.sizes := by
  have hsubstitute : (r.bare.substitute v x).sizes = r.bare.sizes := by
    simp [Routine.sizes, substitute]
  rw [← sizes_bare, h.bare, hsubstitute, sizes_bare]

theorem Replaced.small (h : Replaced r r' v x) (hsmall : r.Small) : r'.Small :=
  hsmall.of_sizes h.sizes h.size

theorem Replaced.slot_ne (h : Replaced r r' v x) (hne : x ≠ .value v) {use : Option UseId}
    : r'.slot? id k ≠ some ⟨.value v, use⟩ := by
  intro hs
  have hbare : r'.bare.slot? id k = some ⟨.value v, none⟩ := by
    rw [slot?_bare, hs]
    rfl
  rw [h.bare, slot?_substitute, Option.map_eq_some_iff] at hbare
  obtain ⟨s, -, heq⟩ := hbare
  unfold Slot.substitute at heq
  split at heq
  . cases heq
    exact hne rfl
  . next hs =>
    rw [heq] at hs
    exact hs rfl

end Edit

end MachineIR
