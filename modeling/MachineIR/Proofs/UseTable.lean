import MachineIR.Proofs.Chain
import MachineIR.Use

/-!
This module contains the theory of the table of uses: which cells are free, which records form a
list, and what linking and unlinking a record does to both.
-/

namespace MachineIR

namespace UseId

@[simp]
theorem ofNat_toNat (id : UseId) : ofNat id.toNat = id := by
  simp [ofNat, toNat]

theorem toNat_ofNat {n : Nat} (h : n < UInt32.size) : (ofNat n).toNat = n := by
  unfold ofNat toNat
  rw [UInt32.toNat_ofNat']
  exact Nat.mod_eq_of_lt h

theorem toNat_inj {a b : UseId} : a.toNat = b.toNat ↔ a = b := by
  constructor
  . intro h
    rw [← ofNat_toNat a, ← ofNat_toNat b, h]
  . intro h
    rw [h]

end UseId

def Use.reference (u : Use) : ValueId × InsnId × Nat := (u.value, u.user, u.slot)

namespace UseTable

def reference? (t : UseTable) (id : UseId) : Option (ValueId × InsnId × Nat) :=
  (t.get? id).map Use.reference

theorem reference?_eq_some {t : UseTable} {id : UseId} {v : ValueId} {user : InsnId} {slot : Nat}
    : t.reference? id = some (v, user, slot) ↔
        ∃ u, t.get? id = some u ∧ u.value = v ∧ u.user = user ∧ u.slot = slot := by
  unfold reference? Use.reference
  cases t.get? id with
  | none => simp
  | some u => simp

section Cells

theorem get?_modify (t : UseTable) (id j : UseId) (f : Use → Use)
    : (t.modify id f).get? j = if j = id then (t.get? j).map f else t.get? j := by
  unfold modify get?
  rw [Store.get?_modify]
  simp only [UseId.toNat_inj, eq_comm]

theorem reference?_modify (t : UseTable) (id j : UseId) (f : Use → Use)
    (hf : ∀ u, (f u).reference = u.reference)
    : (t.modify id f).reference? j = t.reference? j := by
  unfold reference?
  rw [get?_modify]
  split
  . cases t.get? j with
    | none => rfl
    | some u => simp [hf]
  . rfl

structure FreeSound (t : UseTable) : Prop where
  nodup : t.free.Nodup
  mem_iff : ∀ id, id ∈ t.free ↔ id.toNat < t.records.size ∧ t.get? id = none

theorem FreeSound.modify {t : UseTable} (h : t.FreeSound) (id : UseId) (f : Use → Use)
    : (t.modify id f).FreeSound := by
  constructor
  . exact h.nodup
  . intro j
    rw [get?_modify]
    have := h.mem_iff j
    split
    . simpa [UseTable.modify] using this
    . simpa [UseTable.modify] using this

theorem lt_size_of_get? {t : UseTable} {id : UseId} {u : Use} (h : t.get? id = some u)
    : id.toNat < t.records.size :=
  Store.lt_size_of_get? h

def nextCell (t : UseTable) : UseId := t.free.head?.getD (UseId.ofNat t.records.size)

theorem size_le_allocate (t : UseTable) (u : Use)
    : t.records.size ≤ (t.allocate u).1.records.size := by
  unfold allocate
  split
  . simp
  . simp

theorem allocate_snd (t : UseTable) (u : Use) : (t.allocate u).2 = t.nextCell := by
  unfold nextCell allocate
  cases t.free with
  | nil => rfl
  | cons id free => rfl

theorem FreeSound.get?_nextCell {t : UseTable} (h : t.FreeSound) (u : Use)
    (hsize : (t.allocate u).1.records.size ≤ UInt32.size) : t.get? t.nextCell = none := by
  rw [← t.allocate_snd u]
  unfold allocate at hsize ⊢
  split
  . next id free heq =>
    have hmem : id ∈ t.free := by simp [heq]
    exact ((h.mem_iff id).mp hmem).2
  . next heq =>
    simp only [heq, Store.size_push] at hsize
    unfold get?
    rw [UseId.toNat_ofNat (by omega)]
    cases hget : t.records.get? t.records.size with
    | none => rfl
    | some u =>
      have := Store.lt_size_of_get? hget
      omega

theorem FreeSound.get?_allocate {t : UseTable} (h : t.FreeSound) (u : Use)
    (hsize : (t.allocate u).1.records.size ≤ UInt32.size) (j : UseId)
    : (t.allocate u).1.get? j = if j = t.nextCell then some u else t.get? j := by
  rw [← t.allocate_snd u]
  unfold allocate at hsize ⊢
  split
  . next id free heq =>
    have hmem : id ∈ t.free := by simp [heq]
    have hlt := ((h.mem_iff id).mp hmem).1
    unfold get?
    dsimp only
    rw [Store.get?_put]
    by_cases hj : j = id
    . subst hj
      simp [hlt]
    . have : ¬ id.toNat = j.toNat := by
        rw [UseId.toNat_inj]
        exact fun heq => hj heq.symm
      simp [hj, this]
  . next heq =>
    simp only [heq, Store.size_push] at hsize
    unfold get?
    dsimp only
    rw [Store.get?_push]
    have hto := UseId.toNat_ofNat (n := t.records.size) (by omega)
    by_cases hj : j = UseId.ofNat t.records.size
    . simp [hj, hto]
    . have : ¬ j.toNat = t.records.size := by
        rw [← hto, UseId.toNat_inj]
        exact hj
      simp [hj, this]

theorem FreeSound.allocate {t : UseTable} (h : t.FreeSound) (u : Use)
    (hsize : (t.allocate u).1.records.size ≤ UInt32.size) : (t.allocate u).1.FreeSound := by
  have hget := h.get?_allocate u hsize
  rw [← t.allocate_snd u] at hget
  unfold UseTable.allocate at hget hsize ⊢
  -- The new record takes the cell on top of the free ones, or else a new one.
  split
  . next id free heq =>
    simp only [heq] at hget
    have hnodup := h.nodup
    rw [heq, List.nodup_cons] at hnodup
    refine ⟨hnodup.2, ?_⟩
    intro j
    rw [hget]
    have := h.mem_iff j
    rw [heq] at this
    by_cases hj : j = id
    . subst hj
      simp [hnodup.1]
    . simpa [hj] using this
  . next heq =>
    simp only [heq] at hget hsize
    rw [Store.size_push] at hsize
    refine ⟨by simp, ?_⟩
    intro j
    rw [hget]
    have := h.mem_iff j
    rw [heq] at this
    have hto := UseId.toNat_ofNat (n := t.records.size) (by omega)
    by_cases hj : j = UseId.ofNat t.records.size
    . simp [hj]
    . have hne : ¬ j.toNat = t.records.size := by
        rw [← hto, UseId.toNat_inj]
        exact hj
      simp only [List.not_mem_nil, false_iff, not_and] at this
      simp only [List.not_mem_nil, Store.size_push, hj, ↓reduceIte, false_iff, not_and]
      intro hlt
      apply this
      omega

def release (t : UseTable) (id : UseId) : UseTable := ⟨t.records.erase id.toNat, id :: t.free⟩

theorem get?_release (t : UseTable) (id j : UseId)
    : (t.release id).get? j = if j = id then none else t.get? j := by
  unfold release get?
  rw [Store.get?_erase]
  simp only [UseId.toNat_inj, eq_comm]

theorem FreeSound.release {t : UseTable} (h : t.FreeSound) {id : UseId} {u : Use}
    (hid : t.get? id = some u) : (t.release id).FreeSound := by
  have hnot : id ∉ t.free := by
    rw [h.mem_iff]
    simp [hid]
  constructor
  . simp only [UseTable.release, List.nodup_cons]
    exact ⟨hnot, h.nodup⟩
  . intro j
    rw [get?_release]
    have := h.mem_iff j
    simp only [UseTable.release, List.mem_cons, Store.size_erase]
    by_cases hj : j = id
    . simp [hj, lt_size_of_get? hid]
    . simpa [hj] using this

end Cells

section Lists

/--
The records `ids` refer to `v` and are linked with each other in this order, the first one behind
`prev` and the last one in front of `next`.
-/
def Chain (t : UseTable) (v : ValueId) : Option UseId → List UseId → Option UseId → Prop
  | _, [], _ => True
  | prev, id :: rest, next =>
    (∃ u, t.get? id = some u ∧ u.value = v ∧ u.prev = prev ∧ u.next = rest.head?.or next) ∧
      Chain t v (some id) rest next

variable {t t' : UseTable} {v : ValueId} {id : UseId} {l : UseList} {ids : List UseId}

def links (t : UseTable) (v : ValueId) (id : UseId) : Option (Option UseId × Option UseId) :=
  (t.get? id).bind fun u => if u.value = v then some (u.prev, u.next) else none

theorem links_eq_some {n : Option UseId × Option UseId}
    : t.links v id = some n ↔ ∃ u, t.get? id = some u ∧ u.value = v ∧ (u.prev, u.next) = n := by
  unfold links
  simp only [Option.bind_eq_some_iff, Option.ite_none_right_eq_some, Option.some.injEq]

theorem links_congr (h : t'.get? id = t.get? id) : t'.links v id = t.links v id := by
  unfold links
  rw [h]

theorem chain_iff {prev next : Option UseId}
    : t.Chain v prev ids next ↔ MachineIR.Chain (t.links v) prev ids next := by
  induction ids generalizing prev with
  | nil => exact Iff.rfl
  | cons id rest ih =>
    unfold Chain MachineIR.Chain
    simp only [links_eq_some, Prod.mk.injEq, ih]

structure IsList (t : UseTable) (v : ValueId) (l : UseList) (ids : List UseId) : Prop where
  head : l.head = ids.head?
  tail : l.tail = ids.getLast?
  len : l.len = ids.length
  nodup : ids.Nodup
  chain : t.Chain v none ids none

theorem IsList.linked (h : t.IsList v l ids) : MachineIR.Chain (t.links v) none ids none :=
  chain_iff.mp h.chain

theorem isList_of_linked (hhead : l.head = ids.head?) (htail : l.tail = ids.getLast?)
    (hlen : l.len = ids.length) (hlinked : MachineIR.Chain (t.links v) none ids none)
    : t.IsList v l ids :=
  ⟨hhead, htail, hlen, hlinked.nodup, chain_iff.mpr hlinked⟩

theorem IsList.congr (h : t.IsList v l ids) (heq : ∀ id ∈ ids, t'.links v id = t.links v id)
    : t'.IsList v l ids :=
  { h with chain := chain_iff.mpr (h.linked.congr heq) }

theorem isList_nil (t : UseTable) (v : ValueId) : t.IsList v {} [] :=
  isList_of_linked rfl rfl rfl trivial

theorem IsList.get?_of_mem (h : t.IsList v l ids) (hid : id ∈ ids)
    : ∃ u, t.get? id = some u ∧ u.value = v := by
  obtain ⟨n, hn⟩ := h.linked.isSome_of_mem hid
  obtain ⟨u, hu, hv, -⟩ := links_eq_some.mp hn
  exact ⟨u, hu, hv⟩

theorem IsList.get?_of_append {front back : List UseId} (h : t.IsList v l (front ++ id :: back))
    : ∃ u, t.get? id = some u ∧ u.value = v ∧ u.prev = front.getLast? ∧ u.next = back.head? := by
  obtain ⟨u, hu, hv, heq⟩ := links_eq_some.mp h.linked.links_eq
  exact ⟨u, hu, hv, (Prod.mk.inj heq).1, (Prod.mk.inj heq).2⟩

end Lists

section Relinking

def relinkNext (t : UseTable) (id next : Option UseId) : UseTable :=
  match id with
  | some id => t.modify id ({ · with next })
  | none => t

def relinkPrev (t : UseTable) (id prev : Option UseId) : UseTable :=
  match id with
  | some id => t.modify id ({ · with prev })
  | none => t

@[simp]
theorem size_relinkNext (t : UseTable) (id next : Option UseId)
    : (t.relinkNext id next).records.size = t.records.size := by
  unfold relinkNext
  split
  . simp [modify]
  . rfl

@[simp]
theorem size_relinkPrev (t : UseTable) (id prev : Option UseId)
    : (t.relinkPrev id prev).records.size = t.records.size := by
  unfold relinkPrev
  split
  . simp [modify]
  . rfl

@[simp]
theorem free_relinkNext (t : UseTable) (id next : Option UseId)
    : (t.relinkNext id next).free = t.free := by
  unfold relinkNext
  split <;> rfl

@[simp]
theorem free_relinkPrev (t : UseTable) (id prev : Option UseId)
    : (t.relinkPrev id prev).free = t.free := by
  unfold relinkPrev
  split <;> rfl

theorem links_relinkNext {t : UseTable} {v : ValueId} {id next : Option UseId} {j : UseId}
    : (t.relinkNext id next).links v j =
        (t.links v j).map fun n => (n.1, if id = some j then next else n.2) := by
  cases id with
  | none => simp [relinkNext]
  | some id =>
    unfold relinkNext links
    dsimp only
    rw [get?_modify]
    cases t.get? j with
    | none => simp
    | some u => by_cases hj : j = id <;> by_cases hv : u.value = v <;> simp [hj, hv, eq_comm]

theorem links_relinkPrev {t : UseTable} {v : ValueId} {id prev : Option UseId} {j : UseId}
    : (t.relinkPrev id prev).links v j =
        (t.links v j).map fun n => (if id = some j then prev else n.1, n.2) := by
  cases id with
  | none => simp [relinkPrev]
  | some id =>
    unfold relinkPrev links
    dsimp only
    rw [get?_modify]
    cases t.get? j with
    | none => simp
    | some u => by_cases hj : j = id <;> by_cases hv : u.value = v <;> simp [hj, hv, eq_comm]

@[simp]
theorem reference?_relinkNext (t : UseTable) (id next : Option UseId) (j : UseId)
    : (t.relinkNext id next).reference? j = t.reference? j := by
  unfold relinkNext
  split
  . apply reference?_modify
    intro u
    rfl
  . rfl

@[simp]
theorem reference?_relinkPrev (t : UseTable) (id prev : Option UseId) (j : UseId)
    : (t.relinkPrev id prev).reference? j = t.reference? j := by
  unfold relinkPrev
  split
  . apply reference?_modify
    intro u
    rfl
  . rfl

theorem FreeSound.relinkNext {t : UseTable} (h : t.FreeSound) (id next : Option UseId)
    : (t.relinkNext id next).FreeSound := by
  unfold UseTable.relinkNext
  split
  . apply h.modify
  . exact h

theorem FreeSound.relinkPrev {t : UseTable} (h : t.FreeSound) (id prev : Option UseId)
    : (t.relinkPrev id prev).FreeSound := by
  unfold UseTable.relinkPrev
  split
  . apply h.modify
  . exact h

end Relinking

section Link

def linkedRecord (l : UseList) (v : ValueId) (user : InsnId) (slot : Nat) : Use :=
  { value := v, user, slot, prev := l.tail, next := none }

theorem link_eq (t : UseTable) (l : UseList) (v : ValueId) (user : InsnId) (slot : Nat)
    : t.link l v user slot =
        ((t.allocate (linkedRecord l v user slot)).1.relinkNext l.tail (some t.nextCell),
          { head := if l.tail.isSome then l.head else some t.nextCell
            tail := some t.nextCell
            len := l.len + 1 },
          t.nextCell) := by
  rw [← t.allocate_snd (linkedRecord l v user slot)]
  unfold link relinkNext linkedRecord
  cases l.tail with
  | none => rfl
  | some tail => rfl

theorem size_le_link (t : UseTable) (l : UseList) (v : ValueId) (user : InsnId) (slot : Nat)
    : t.records.size ≤ (t.link l v user slot).1.records.size := by
  rw [link_eq]
  simp only [size_relinkNext]
  apply size_le_allocate

variable {t : UseTable} {v : ValueId} {l : UseList} {ids : List UseId} {user : InsnId} {slot : Nat}

theorem size_link_of_free (h : t.free ≠ [])
    : (t.link l v user slot).1.records.size = t.records.size := by
  rw [link_eq]
  simp only [size_relinkNext]
  unfold allocate
  split
  . simp
  . next heq => exact absurd heq h

theorem size_link_le : (t.link l v user slot).1.records.size ≤ max t.records.size (t.live + 1) := by
  rw [link_eq]
  simp only [size_relinkNext]
  unfold allocate live
  split
  . rw [Store.size_put]
    exact Nat.le_max_left _ _
  . next heq => simp [heq]

theorem live_link_le : (t.link l v user slot).1.live ≤ t.live + 1 := by
  rw [link_eq]
  unfold live
  simp only [size_relinkNext, free_relinkNext]
  unfold allocate
  split
  . next heq =>
    simp only [heq, Store.size_put, List.length_cons]
    omega
  . next heq => simp [heq]

theorem reference?_link_ne_none {j : UseId} (h : t.reference? j ≠ none)
    : (t.link l v user slot).1.reference? j ≠ none := by
  -- No cell is emptied, whatever the list of free cells says.
  rw [link_eq]
  simp only [reference?_relinkNext]
  unfold reference? get? at h ⊢
  unfold allocate
  split
  . rw [Store.get?_put]
    split
    . simp
    . exact h
  . rw [Store.get?_push]
    split
    . simp
    . exact h

theorem FreeSound.get?_nextCell_of_link (h : t.FreeSound)
    (hsize : (t.link l v user slot).1.records.size ≤ UInt32.size) : t.get? t.nextCell = none := by
  rw [link_eq] at hsize
  simp only [size_relinkNext] at hsize
  exact h.get?_nextCell _ hsize

theorem FreeSound.link (h : t.FreeSound)
    (hsize : (t.link l v user slot).1.records.size ≤ UInt32.size)
    : (t.link l v user slot).1.FreeSound := by
  rw [link_eq] at hsize ⊢
  simp only [size_relinkNext] at hsize
  apply FreeSound.relinkNext
  exact h.allocate _ hsize

theorem FreeSound.reference?_link (h : t.FreeSound)
    (hsize : (t.link l v user slot).1.records.size ≤ UInt32.size) (j : UseId)
    : (t.link l v user slot).1.reference? j =
        if j = t.nextCell then some (v, user, slot) else t.reference? j := by
  rw [link_eq] at hsize ⊢
  simp only [size_relinkNext] at hsize
  simp only [reference?_relinkNext]
  unfold reference?
  rw [h.get?_allocate _ hsize]
  split
  . rfl
  . rfl

theorem FreeSound.links_link (h : t.FreeSound)
    (hsize : (t.link l v user slot).1.records.size ≤ UInt32.size) {v' : ValueId} {j : UseId}
    (hne : j ≠ t.nextCell)
    : (t.link l v user slot).1.links v' j =
        (t.links v' j).map fun n => (n.1, if l.tail = some j then some t.nextCell else n.2) := by
  rw [link_eq] at hsize ⊢
  simp only [size_relinkNext] at hsize
  have hold : (t.allocate (linkedRecord l v user slot)).1.links v' j = t.links v' j := by
    apply links_congr
    rw [h.get?_allocate _ hsize, if_neg hne]
  rw [links_relinkNext, hold]

theorem IsList.ne_nextCell (hlist : t.IsList v l ids) (h : t.FreeSound) {v' : ValueId}
    {l' : UseList} (hsize : (t.link l' v' user slot).1.records.size ≤ UInt32.size) {j : UseId}
    (hj : j ∈ ids) : j ≠ t.nextCell := by
  intro heq
  obtain ⟨u, hu, -⟩ := hlist.get?_of_mem hj
  rw [heq, h.get?_nextCell_of_link hsize] at hu
  cases hu

theorem IsList.link_of_ne (hlist : t.IsList v l ids) (h : t.FreeSound)
    (hsize : (t.link l v user slot).1.records.size ≤ UInt32.size) {v' : ValueId} {l' : UseList}
    {ids' : List UseId} (hlist' : t.IsList v' l' ids') (hne : v' ≠ v)
    : (t.link l v user slot).1.IsList v' l' ids' := by
  apply hlist'.congr
  intro j hj
  -- Of the old records only the tail changes, and it does not refer to `v'`.
  have htail : l.tail ≠ some j := by
    intro heq
    rw [hlist.tail] at heq
    obtain ⟨u, hu, hv⟩ := hlist.get?_of_mem (List.mem_of_getLast? heq)
    obtain ⟨u', hu', hv'⟩ := hlist'.get?_of_mem hj
    rw [hu] at hu'
    cases hu'
    exact hne (hv'.symm.trans hv)
  rw [h.links_link hsize (hlist'.ne_nextCell h hsize hj)]
  simp [htail]

theorem IsList.link (hlist : t.IsList v l ids) (h : t.FreeSound)
    (hsize : (t.link l v user slot).1.records.size ≤ UInt32.size)
    : (t.link l v user slot).1.IsList v (t.link l v user slot).2.1 (ids ++ [t.nextCell]) := by
  have hlinked : MachineIR.Chain ((t.link l v user slot).1.links v) none (ids ++ [t.nextCell])
      none := by
    rw [MachineIR.Chain.append]
    constructor
    . apply hlist.linked.setNext hlist.nodup
      . intro j hj hlast
        rw [h.links_link hsize (hlist.ne_nextCell h hsize hj), hlist.tail]
        simp [hlast]
      . intro j hlast
        have hj := List.mem_of_getLast? hlast
        rw [h.links_link hsize (hlist.ne_nextCell h hsize hj), hlist.tail]
        simp [hlast]
    . refine ⟨?_, trivial⟩
      have hlast : ids.getLast? ≠ some t.nextCell := by
        intro heq
        exact hlist.ne_nextCell h hsize (List.mem_of_getLast? heq) rfl
      rw [link_eq] at hsize ⊢
      simp only [size_relinkNext] at hsize
      rw [links_relinkNext, links, h.get?_allocate _ hsize]
      simp [hlast, linkedRecord, hlist.tail]
  rw [link_eq] at hlinked ⊢
  refine isList_of_linked ?_ (by simp) (by simp [hlist.len]) hlinked
  dsimp only
  rw [hlist.tail, hlist.head]
  cases ids with
  | nil => rfl
  | cons first rest => simp [List.getLast?_cons]

end Link

section Unlink

variable {t : UseTable} {v : ValueId} {l : UseList} {ids : List UseId} {id : UseId} {u : Use}

theorem unlink?_eq (hid : t.get? id = some u) (l : UseList)
    : t.unlink? l id =
        some (((t.release id).relinkNext u.prev u.next).relinkPrev u.next u.prev,
          { head := if u.prev.isSome then l.head else u.next
            tail := if u.next.isSome then l.tail else u.prev
            len := l.len - 1 }) := by
  unfold unlink? relinkNext relinkPrev release
  rw [hid]
  cases hprev : u.prev with
  | none =>
    cases hnext : u.next with
    | none => simp [hprev, hnext]
    | some next => simp [hprev, hnext]
  | some prev =>
    cases hnext : u.next with
    | none => simp [hprev, hnext]
    | some next => simp [hprev, hnext]

theorem unlink?_isSome (hid : t.get? id = some u) (l : UseList)
    : ∃ t' l', t.unlink? l id = some (t', l') := by
  rw [unlink?_eq hid]
  exact ⟨_, _, rfl⟩

variable {t' : UseTable} {l' : UseList}

theorem head_unlink (hid : t.get? id = some u) (h : t.unlink? l id = some (t', l'))
    (hprev : u.prev = none) : l'.head = u.next ∧ l'.len = l.len - 1 := by
  rw [unlink?_eq hid] at h
  cases h
  simp [hprev]

theorem get?_of_unlink? (h : t.unlink? l id = some (t', l')) : ∃ u, t.get? id = some u := by
  unfold unlink? at h
  rw [Option.map_eq_some_iff] at h
  obtain ⟨u, hu, -⟩ := h
  exact ⟨u, hu⟩

theorem size_unlink (h : t.unlink? l id = some (t', l'))
    : t'.records.size = t.records.size := by
  obtain ⟨u, hu⟩ := get?_of_unlink? h
  rw [unlink?_eq hu] at h
  cases h
  simp [release]

theorem free_unlink (h : t.unlink? l id = some (t', l')) : t'.free = id :: t.free := by
  obtain ⟨u, hu⟩ := get?_of_unlink? h
  rw [unlink?_eq hu] at h
  cases h
  simp [release]

theorem live_unlink_le (h : t.unlink? l id = some (t', l')) : t'.live ≤ t.live := by
  unfold live
  rw [size_unlink h, free_unlink h, List.length_cons]
  omega

theorem FreeSound.unlink (hfree : t.FreeSound) (h : t.unlink? l id = some (t', l'))
    : t'.FreeSound := by
  obtain ⟨u, hu⟩ := get?_of_unlink? h
  rw [unlink?_eq hu] at h
  cases h
  apply FreeSound.relinkPrev
  apply FreeSound.relinkNext
  exact hfree.release hu

theorem reference?_unlink (h : t.unlink? l id = some (t', l')) (j : UseId)
    : t'.reference? j = if j = id then none else t.reference? j := by
  obtain ⟨u, hu⟩ := get?_of_unlink? h
  rw [unlink?_eq hu] at h
  cases h
  simp only [reference?_relinkPrev, reference?_relinkNext]
  unfold reference?
  rw [get?_release]
  split
  . rfl
  . rfl

theorem links_unlink (hu : t.get? id = some u) (h : t.unlink? l id = some (t', l')) {j : UseId}
    (hne : j ≠ id)
    : t'.links v j =
        (t.links v j).map fun n =>
          (if u.next = some j then u.prev else n.1, if u.prev = some j then u.next else n.2) := by
  rw [unlink?_eq hu] at h
  cases h
  have hold : (t.release id).links v j = t.links v j := by
    apply links_congr
    rw [get?_release, if_neg hne]
  rw [links_relinkPrev, links_relinkNext, hold, Option.map_map]
  rfl

theorem IsList.unlink (hlist : t.IsList v l ids) (hmem : id ∈ ids)
    (h : t.unlink? l id = some (t', l')) : t'.IsList v l' (ids.erase id) := by
  obtain ⟨front, back, rfl⟩ := List.append_of_mem hmem
  obtain ⟨u, hu, -, hprev, hnext⟩ := hlist.get?_of_append
  have hnodup := hlist.nodup
  simp only [List.nodup_append, List.nodup_cons, List.mem_cons] at hnodup
  obtain ⟨-, ⟨hback, -⟩, hdisj⟩ := hnodup
  have hfront : id ∉ front := by
    intro hm
    exact hdisj id hm id (Or.inl rfl) rfl
  rw [List.erase_append_right _ hfront, List.erase_cons_head]
  have hlinked : MachineIR.Chain (t'.links v) none (front ++ back) none := by
    apply hlist.linked.remove hlist.nodup
    intro j hj
    rw [links_unlink hu h, hprev, hnext]
    rintro rfl
    rcases List.mem_append.mp hj with hj | hj
    . exact hfront hj
    . exact hback hj
  rw [unlink?_eq hu, hprev, hnext] at h
  cases h
  refine isList_of_linked ?_ ?_ (by simp [hlist.len]) hlinked
  . dsimp only
    rw [hlist.head]
    cases front with
    | nil => simp
    | cons first rest => simp [List.getLast?_cons]
  . dsimp only
    rw [hlist.tail]
    cases back with
    | nil => simp
    | cons first rest => simp [List.getLast?_append, List.getLast?_cons]

theorem IsList.unlink_of_ne (hlist : t.IsList v l ids) (hmem : id ∈ ids)
    (h : t.unlink? l id = some (t', l')) {v' : ValueId} {l₂ : UseList} {ids' : List UseId}
    (hlist' : t.IsList v' l₂ ids') (hne : v' ≠ v) : t'.IsList v' l₂ ids' := by
  obtain ⟨front, back, rfl⟩ := List.append_of_mem hmem
  obtain ⟨u, hu, -, hprev, hnext⟩ := hlist.get?_of_append
  apply hlist'.congr
  intro j hj
  -- What changes are records of the list of `v`.
  have hout : j ∉ front ++ id :: back := by
    intro hm
    obtain ⟨w, hw, hv⟩ := hlist'.get?_of_mem hj
    obtain ⟨w', hw', hv'⟩ := hlist.get?_of_mem hm
    rw [hw] at hw'
    cases hw'
    exact hne (hv.symm.trans hv')
  simp only [List.mem_append, List.mem_cons, not_or] at hout
  have hjprev : front.getLast? ≠ some j := by
    intro heq
    exact hout.1 (List.mem_of_getLast? heq)
  have hjnext : back.head? ≠ some j := by
    intro heq
    exact hout.2.2 (List.mem_of_head? heq)
  rw [links_unlink hu h hout.2.1, hprev, hnext]
  simp [hjprev, hjnext]

end Unlink

section Closed

def Closed (t : UseTable) (held : InsnId → Nat → Prop) (reached : UseId → Prop) : Prop :=
  ∀ id u, reached id → t.get? id = some u →
    held u.user u.slot ∧ ∀ next, u.next = some next → reached next

variable {t t' : UseTable} {held : InsnId → Nat → Prop} {reached : UseId → Prop}

theorem Closed.modify (h : t.Closed held reached) (id : UseId) {f : Use → Use}
    (hslot : ∀ u, (f u).user = u.user ∧ (f u).slot = u.slot)
    (hnext : ∀ u next, (f u).next = some next → u.next = some next ∨ reached next)
    : (t.modify id f).Closed held reached := by
  intro j u' hj hu'
  rw [get?_modify] at hu'
  split at hu'
  . obtain ⟨u, hu, rfl⟩ := Option.map_eq_some_iff.mp hu'
    obtain ⟨hheld, hreached⟩ := h j u hj hu
    rw [(hslot u).1, (hslot u).2]
    refine ⟨hheld, ?_⟩
    intro next heq
    rcases hnext u next heq with heq | hreach
    . exact hreached next heq
    . exact hreach
  . exact h j u' hj hu'

theorem Closed.relinkNext (h : t.Closed held reached) (id : Option UseId) {next : Option UseId}
    (hnext : ∀ n, next = some n → reached n) : (t.relinkNext id next).Closed held reached := by
  cases id with
  | none => exact h
  | some id =>
    apply h.modify id
    . intro u
      exact ⟨rfl, rfl⟩
    . intro u n heq
      exact Or.inr (hnext n heq)

theorem Closed.relinkPrev (h : t.Closed held reached) (id prev : Option UseId)
    : (t.relinkPrev id prev).Closed held reached := by
  cases id with
  | none => exact h
  | some id =>
    apply h.modify id
    . intro u
      exact ⟨rfl, rfl⟩
    . intro u n heq
      exact Or.inl heq

theorem Closed.unlink {l l' : UseList} {id : UseId} (h : t.Closed held reached)
    (hid : reached id) (hunlink : t.unlink? l id = some (t', l')) : t'.Closed held reached := by
  obtain ⟨u, hu⟩ := get?_of_unlink? hunlink
  rw [unlink?_eq hu] at hunlink
  cases hunlink
  apply Closed.relinkPrev
  apply Closed.relinkNext
  . intro j u' hj hu'
    rw [get?_release] at hu'
    split at hu'
    . cases hu'
    . exact h j u' hj hu'
  . exact (h id u hid hu).2

theorem Closed.link (h : t.Closed held reached) {user : InsnId} {slot : Nat}
    (hheld : held user slot) (hcell : reached t.nextCell) (l : UseList) (v : ValueId)
    : (t.link l v user slot).1.Closed held reached := by
  rw [link_eq]
  apply Closed.relinkNext
  . intro j u' hj hu'
    have hcases : u' = linkedRecord l v user slot ∨ t.get? j = some u' := by
      unfold get? allocate at *
      split at hu'
      . rw [Store.get?_put] at hu'
        split at hu'
        . cases hu'
          exact Or.inl rfl
        . exact Or.inr hu'
      . rw [Store.get?_push] at hu'
        split at hu'
        . cases hu'
          exact Or.inl rfl
        . exact Or.inr hu'
    rcases hcases with rfl | hu
    . refine ⟨hheld, ?_⟩
      intro next heq
      cases heq
    . exact h j u' hj hu
  . intro n heq
    cases heq
    exact hcell

end Closed

section Slots

variable {t : UseTable} {v : ValueId}

theorem reference?_setSlot (t : UseTable) (id : UseId) (slot : Nat) (j : UseId)
    : (t.setSlot id slot).reference? j =
        if j = id then (t.reference? j).map fun (v, user, _) => (v, user, slot)
        else t.reference? j := by
  unfold setSlot reference?
  rw [get?_modify]
  split
  . cases t.get? j with
    | none => rfl
    | some u => rfl
  . rfl

theorem links_setSlot (id : UseId) (slot : Nat) (j : UseId)
    : (t.setSlot id slot).links v j = t.links v j := by
  unfold setSlot links
  rw [get?_modify]
  split
  . rw [Option.bind_map]
    rfl
  . rfl

theorem IsList.setSlot {l : UseList} {ids : List UseId} (h : t.IsList v l ids) (id : UseId)
    (slot : Nat) : (t.setSlot id slot).IsList v l ids :=
  h.congr fun j _ => links_setSlot id slot j

end Slots

section Listed

variable {t : UseTable} {v : ValueId} {l : UseList} {ids : List UseId}

theorem IsList.length_le (h : t.IsList v l ids) : ids.length ≤ t.records.size := by
  have hnodup : (ids.map UseId.toNat).Nodup := by
    unfold List.Nodup
    rw [List.pairwise_map]
    apply h.nodup.imp
    intro a b hne heq
    exact hne (UseId.toNat_inj.mp heq)
  have hsub : ids.map UseId.toNat ⊆ List.range t.records.size := by
    intro n hn
    obtain ⟨id, hid, rfl⟩ := List.mem_map.mp hn
    obtain ⟨u, hu, -⟩ := h.get?_of_mem hid
    rw [List.mem_range]
    exact lt_size_of_get? hu
  have hle := hnodup.length_le_of_subset hsub
  simpa using hle

theorem Chain.walk_eq {prev : Option UseId} (h : t.Chain v prev ids none) {n : Nat}
    (hn : ids.length ≤ n)
    : walk (fun id => (t.get? id).map fun u => ((id, u), u.next)) n ids.head? =
        ids.filterMap fun id => (t.get? id).map (id, ·) := by
  induction ids generalizing prev n with
  | nil => cases n <;> rfl
  | cons id rest ih =>
    obtain ⟨⟨u, hu, -, -, hnext⟩, hrest⟩ := h
    cases n with
    | zero => simp at hn
    | succ n =>
      have hn : rest.length ≤ n := by simpa using hn
      simp only [List.head?_cons, walk, hu, Option.map_some, List.filterMap_cons]
      rw [hnext, Option.or_none, ih hrest hn]

theorem IsList.listed_eq (h : t.IsList v l ids)
    : t.listed l = ids.filterMap fun id => (t.get? id).map (id, ·) := by
  unfold listed
  rw [h.head]
  exact h.chain.walk_eq h.length_le

theorem IsList.mem_listed (h : t.IsList v l ids) {id : UseId} {u : Use}
    : (id, u) ∈ t.listed l ↔ id ∈ ids ∧ t.get? id = some u := by
  rw [h.listed_eq, List.mem_filterMap]
  constructor
  . rintro ⟨j, hj, heq⟩
    rw [Option.map_eq_some_iff] at heq
    obtain ⟨w, hw, heq⟩ := heq
    cases heq
    exact ⟨hj, hw⟩
  . rintro ⟨hid, hu⟩
    exact ⟨id, hid, by simp [hu]⟩

theorem IsList.map_fst_listed (h : t.IsList v l ids) : (t.listed l).map Prod.fst = ids := by
  have hlive : ∀ id ∈ ids, ∃ u, t.get? id = some u := by
    intro id hid
    obtain ⟨u, hu, -⟩ := h.get?_of_mem hid
    exact ⟨u, hu⟩
  rw [h.listed_eq]
  clear h
  induction ids with
  | nil => rfl
  | cons id rest ih =>
    obtain ⟨u, hu⟩ := hlive id List.mem_cons_self
    simp only [List.filterMap_cons, hu, Option.map_some, List.map_cons]
    rw [ih fun j hj => hlive j (List.mem_cons_of_mem id hj)]

end Listed

end UseTable

end MachineIR
