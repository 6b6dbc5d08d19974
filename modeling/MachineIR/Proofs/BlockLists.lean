import MachineIR.Proofs.Chain
import MachineIR.Proofs.Checks
import MachineIR.Proofs.PlacementEdits

/-!
This module contains the lists of instructions that the blocks of a routine hold: what the check of
the links finds out about them, what is left of them when an instruction has been taken out, and how
a cursor walks along them.
-/

namespace MachineIR

namespace Routine

variable {r r' : Routine} {b c : BlockId} {ids front back : List InsnId} {id j : InsnId} {i : Insn}

def neighbours? (r : Routine) (b : BlockId) (id : InsnId) :
    Option (Option InsnId × Option InsnId) :=
  (r.insn? id).bind fun i => if i.block = b then some (i.prev, i.next) else none

def extent? (r : Routine) (b : BlockId) : Option (Option InsnId × Option InsnId × Nat) :=
  (r.block? b).map fun found => (found.first, found.last, found.len)

structure Lists (r : Routine) (b : BlockId) (ids : List InsnId) : Prop where
  extent : r.extent? b = some (ids.head?, ids.getLast?, ids.length)
  chain : Chain (r.neighbours? b) none ids none

theorem Lists.congr (h : r.Lists b ids) (hextent : r'.extent? b = r.extent? b)
    (hneighbours : ∀ id ∈ ids, r'.neighbours? b id = r.neighbours? b id) : r'.Lists b ids :=
  ⟨hextent.trans h.extent, h.chain.congr hneighbours⟩

theorem Lists.block?_ne_none (h : r.Lists b ids) : r.block? b ≠ none := by
  intro hnone
  have := h.extent
  simp [extent?, hnone] at this

theorem neighbours?_eq_some {n : Option InsnId × Option InsnId}
    : r.neighbours? b id = some n ↔
        ∃ i, r.insn? id = some i ∧ i.block = b ∧ (i.prev, i.next) = n := by
  unfold neighbours?
  simp only [Option.bind_eq_some_iff, Option.ite_none_right_eq_some, Option.some.injEq]

theorem neighbours?_of_insn? (hi : r.insn? id = some i) (hb : i.block = b)
    : r.neighbours? b id = some (i.prev, i.next) :=
  neighbours?_eq_some.mpr ⟨i, hi, hb, rfl⟩

@[simp]
theorem neighbours?_bare : r.bare.neighbours? b id = r.neighbours? b id := by
  unfold neighbours?
  rw [insn?_bare, Option.bind_map]
  rfl

@[simp]
theorem extent?_bare : r.bare.extent? b = r.extent? b := by
  unfold extent?
  rw [block?_bare, Option.map_map]
  rfl

theorem Lists.of_bare_eq (h : r.Lists b ids) (hbare : r'.bare = r.bare) : r'.Lists b ids := by
  -- The lists do not depend on the records of uses.
  apply h.congr
  . rw [← extent?_bare, hbare, extent?_bare]
  . intro id hid
    rw [← neighbours?_bare, hbare, neighbours?_bare]

section Check

variable {found : Block} {room : Nat} {next prev : Option InsnId}

theorem checkLink_eq_ok : checkLink b id i prev = .ok () ↔ i.block = b ∧ i.prev = prev := by
  unfold checkLink
  dsimp only [defect]
  rw [Check.require_eq_ok]
  simp only [ne_eq, not_or, Decidable.not_not]

theorem checkLinksFrom_eq_ok
    : r.checkLinksFrom b found room next prev = .ok () ↔
        ∃ ids, next = ids.head? ∧ found.last = ids.getLast?.or prev ∧ room = ids.length ∧
          Chain (r.neighbours? b) prev ids none := by
  -- The room counts the instructions to come, so that it is used up exactly where the list ends.
  induction room generalizing next prev with
  | zero =>
    cases next with
    | none =>
      rw [checkLinksFrom]
      dsimp only [defect]
      rw [Check.require_eq_ok]
      constructor
      . intro h
        refine ⟨[], rfl, ?_, rfl, trivial⟩
        simpa using h
      . rintro ⟨ids, -, hlast, hlen, -⟩
        cases List.eq_nil_of_length_eq_zero hlen.symm
        simpa using hlast
    | some id =>
      constructor
      . intro h
        rw [checkLinksFrom] at h
        cases hi : r.insn? id with
        | none => simp [hi] at h
        | some i =>
          rw [hi] at h
          dsimp only [defect] at h
          rw [Check.seq_eq_ok] at h
          exact absurd h.2 Check.throw_ne_ok
      . rintro ⟨ids, hhead, -, hlen, -⟩
        cases List.eq_nil_of_length_eq_zero hlen.symm
        cases hhead
  | succ room ih =>
    cases next with
    | none =>
      rw [checkLinksFrom]
      dsimp only [defect]
      rw [Check.require_eq_ok]
      constructor
      . intro h
        simp at h
      . rintro ⟨ids, hhead, -, hlen, -⟩
        cases ids with
        | nil => cases hlen
        | cons id rest => cases hhead
    | some id =>
      rw [checkLinksFrom]
      cases hi : r.insn? id with
      | none =>
        constructor
        . intro h
          exact absurd h Check.throw_ne_ok
        . rintro ⟨ids, hhead, -, -, hchain⟩
          cases ids with
          | nil => cases hhead
          | cons id' rest =>
            cases hhead
            have := hchain.1
            simp [neighbours?, hi] at this
      | some i =>
        dsimp only
        -- The check of one link is what a chain says of its first element.
        rw [Check.seq_eq_ok, checkLink_eq_ok, ih]
        constructor
        . rintro ⟨⟨hblock, hprev⟩, rest, hnext, hlast, hlen, hchain⟩
          refine ⟨id :: rest, rfl, ?_, by rw [hlen, List.length_cons], ?_, hchain⟩
          . rw [Chain.getLast?_cons_or, hlast]
          . rw [neighbours?_of_insn? hi hblock, hprev, hnext, Option.or_none]
        . rintro ⟨ids, hhead, hlast, hlen, hchain⟩
          cases ids with
          | nil => cases hhead
          | cons id' rest =>
            cases hhead
            obtain ⟨i', hi', hblock, hlinks⟩ := neighbours?_eq_some.mp hchain.1
            rw [hi] at hi'
            cases hi'
            rw [Prod.mk.injEq, Option.or_none] at hlinks
            rw [Chain.getLast?_cons_or] at hlast
            rw [List.length_cons, Nat.add_right_cancel_iff] at hlen
            exact ⟨⟨hblock, hlinks.1⟩, rest, hlinks.2, hlast, hlen, hchain.2⟩

theorem checkLinks_eq_ok : r.checkLinks b = .ok () ↔ ∃ ids, r.Lists b ids := by
  unfold checkLinks
  cases hb : r.block? b with
  | none =>
    constructor
    . intro h
      exact absurd h Check.throw_ne_ok
    . rintro ⟨ids, hids⟩
      exact absurd hb hids.block?_ne_none
  | some found =>
    dsimp only
    rw [checkLinksFrom_eq_ok]
    refine exists_congr fun ids => ?_
    have hextent : r.extent? b = some (found.first, found.last, found.len) := by
      simp [extent?, hb]
    constructor
    . rintro ⟨hfirst, hlast, hlen, hchain⟩
      rw [Option.or_none] at hlast
      exact ⟨by rw [hextent, hfirst, hlast, hlen], hchain⟩
    . rintro ⟨hext, hchain⟩
      rw [hextent, Option.some.injEq, Prod.mk.injEq, Prod.mk.injEq] at hext
      rw [Option.or_none]
      exact ⟨hext.1, hext.2.1, hext.2.2, hchain⟩

theorem mem_of_mem_insnsFrom {n : Nat} (h : Chain (r.neighbours? b) prev ids none)
    (hid : id ∈ walk (fun id => some (id, (r.insn? id).bind Insn.next)) n ids.head?) : id ∈ ids := by
  induction n generalizing prev ids with
  | zero => cases hid
  | succ n ih =>
    cases ids with
    | nil => cases hid
    | cons a rest =>
      obtain ⟨i, hi, -, hlinks⟩ := neighbours?_eq_some.mp h.1
      rw [Prod.mk.injEq, Option.or_none] at hlinks
      rw [List.head?_cons, walk] at hid
      dsimp only at hid
      rw [hi, Option.bind_some, hlinks.2] at hid
      rcases List.mem_cons.mp hid with rfl | hid
      . exact List.mem_cons_self
      . exact List.mem_cons_of_mem a (ih h.2 hid)

theorem Lists.mem_of_mem_insnsOf (h : r.Lists b ids) (hid : id ∈ r.insnsOf b) : id ∈ ids := by
  apply mem_of_mem_insnsFrom h.chain
  obtain ⟨found, hfound, heq⟩ := Option.map_eq_some_iff.mp h.extent
  unfold insnsOf insnsFrom at hid
  rw [hfound, Option.bind_some, (Prod.mk.inj heq).1] at hid
  exact hid

end Check

section Detach

open Edit

variable {p next prev : Option InsnId}

theorem insn?_setNext
    : (setNext c p next r).insn? j =
        (r.insn? j).map fun x => { x with next := if p = some j then next else x.next } := by
  cases p with
  | none =>
    change r.insn? j = _
    simp
  | some q =>
    unfold setNext
    dsimp only
    rw [insn?_modifyInsn]
    by_cases hj : j = q <;> simp [hj, eq_comm]

theorem insn?_setPrev
    : (setPrev c p prev r).insn? j =
        (r.insn? j).map fun x => { x with prev := if p = some j then prev else x.prev } := by
  cases p with
  | none =>
    change r.insn? j = _
    simp
  | some q =>
    unfold setPrev
    dsimp only
    rw [insn?_modifyInsn]
    by_cases hj : j = q <;> simp [hj, eq_comm]

theorem insn?_detach
    : (detach id i r).insn? j =
        if j = id then none
        else (r.insn? j).map fun x =>
          { x with
            prev := if i.next = some j then i.prev else x.prev
            next := if i.prev = some j then i.next else x.next } := by
  unfold detach joinNeighbours
  rw [insn?_eraseInsn, insn?_modifyBlock, insn?_setPrev, insn?_setNext, Option.map_map]
  rfl

theorem extent?_setNext
    : (setNext c p next r).extent? b =
        (r.extent? b).map fun e => (if p = none ∧ b = c then next else e.1, e.2) := by
  cases p with
  | some q =>
    change r.extent? b = _
    simp
  | none =>
    unfold setNext extent?
    dsimp only
    rw [block?_modifyBlock]
    cases r.block? b with
    | none => simp
    | some found => by_cases hb : b = c <;> simp [hb]

theorem extent?_setPrev
    : (setPrev c p prev r).extent? b =
        (r.extent? b).map fun e => (e.1, if p = none ∧ b = c then prev else e.2.1, e.2.2) := by
  cases p with
  | some q =>
    change r.extent? b = _
    simp
  | none =>
    unfold setPrev extent?
    dsimp only
    rw [block?_modifyBlock]
    cases r.block? b with
    | none => simp
    | some found => by_cases hb : b = c <;> simp [hb]

theorem neighbours?_detach (hne : j ≠ id)
    : (detach id i r).neighbours? b j =
        (r.neighbours? b j).map fun n =>
          (if i.next = some j then i.prev else n.1, if i.prev = some j then i.next else n.2) := by
  unfold neighbours?
  rw [insn?_detach, if_neg hne]
  cases r.insn? j with
  | none => rfl
  | some x => by_cases hb : x.block = b <;> simp [hb]

theorem extent?_detach
    : (detach id i r).extent? b =
        (r.extent? b).map fun e =>
          if b = i.block then
            (if i.prev = none then i.next else e.1, if i.next = none then i.prev else e.2.1,
              e.2.2 - 1)
          else e := by
  have hblock : (detach id i r).extent? b =
      ((joinNeighbours i.block i.prev i.next r).extent? b).map fun e =>
        (e.1, e.2.1, if b = i.block then e.2.2 - 1 else e.2.2) := by
    unfold detach extent?
    change Option.map _ (((joinNeighbours i.block i.prev i.next r).modifyBlock i.block _).block? b) = _
    rw [block?_modifyBlock]
    cases (joinNeighbours i.block i.prev i.next r).block? b with
    | none => simp
    | some found => by_cases hb : b = i.block <;> simp [hb]
  rw [hblock]
  unfold joinNeighbours
  rw [extent?_setPrev, extent?_setNext, Option.map_map, Option.map_map]
  congr 1
  funext e
  by_cases hb : b = i.block <;> simp [hb]

theorem Lists.detach (h : r.Lists b (front ++ id :: back)) (hi : r.insn? id = some i)
    : (detach id i r).Lists b (front ++ back) := by
  have hlinks := h.chain.links_eq
  obtain ⟨i', hi', hblock, heq⟩ := neighbours?_eq_some.mp hlinks
  rw [hi] at hi'
  cases hi'
  obtain ⟨hprev, hnext⟩ := Prod.mk.inj heq
  have hnodup := h.chain.nodup
  constructor
  . rw [extent?_detach, h.extent, Option.map_some, if_pos hblock.symm, hprev, hnext,
      List.length_append, List.length_append, List.length_cons]
    congr 2
    . cases front with
      | nil => simp
      | cons a front => simp [List.getLast?_cons]
    . congr 1
      cases back with
      | nil => simp
      | cons a back => simp [List.getLast?_append, List.getLast?_cons]
  . apply h.chain.remove hnodup
    intro j hj
    rw [neighbours?_detach, hprev, hnext]
    intro heq
    rw [heq] at hj
    rw [List.nodup_append, List.nodup_cons] at hnodup
    rcases List.mem_append.mp hj with hj | hj
    . exact hnodup.2.2 id hj id List.mem_cons_self rfl
    . exact hnodup.2.1.1 hj

theorem Lists.detach_of_ne (h : r.Lists c ids) (hb : r.Lists b (front ++ id :: back))
    (hi : r.insn? id = some i) (hne : c ≠ b) : (Edit.detach id i r).Lists c ids := by
  obtain ⟨i', hi', hblock, heq⟩ := neighbours?_eq_some.mp hb.chain.links_eq
  rw [hi] at hi'
  cases hi'
  obtain ⟨hprev, hnext⟩ := Prod.mk.inj heq
  -- An instruction is in one block only.
  have hforeign : ∀ j ∈ ids, j ∉ front ++ id :: back := by
    intro j hj hj'
    obtain ⟨n, hn⟩ := h.chain.isSome_of_mem hj
    obtain ⟨n', hn'⟩ := hb.chain.isSome_of_mem hj'
    obtain ⟨x, hx, hxc, -⟩ := neighbours?_eq_some.mp hn
    obtain ⟨y, hy, hyb, -⟩ := neighbours?_eq_some.mp hn'
    rw [hx] at hy
    cases hy
    exact hne (hxc.symm.trans hyb)
  apply h.congr
  . rw [extent?_detach]
    cases r.extent? c with
    | none => rfl
    | some e => rw [Option.map_some, if_neg (by rw [hblock]; exact hne)]
  . intro j hj
    have hout := hforeign j hj
    have hjid : j ≠ id := by
      intro heq
      apply hout
      simp [heq]
    have hjprev : front.getLast? ≠ some j := by
      intro heq
      exact hout (List.mem_append_left _ (List.mem_of_getLast? heq))
    have hjnext : back.head? ≠ some j := by
      intro heq
      exact hout (List.mem_append_right _ (List.mem_cons_of_mem _ (List.mem_of_head? heq)))
    rw [neighbours?_detach hjid, hprev, hnext]
    simp [hjprev, hjnext]

end Detach

end Routine

namespace Cursor

open Routine

variable {c c' : Cursor} {r : Routine} {b : BlockId} {ids front back : List InsnId} {id : InsnId}

theorem isMember_eq : c.isMember r id = (r.neighbours? c.block id).isSome := by
  unfold isMember neighbours?
  cases r.insn? id with
  | none => rfl
  | some i => by_cases hb : i.block = c.block <;> simp [hb]

theorem filter_isMember (h : r.Lists c.block ids) {target : Option InsnId}
    (htarget : ∀ id, target = some id → id ∈ ids) : target.filter (c.isMember r) = target := by
  cases target with
  | none => rfl
  | some id =>
    obtain ⟨n, hn⟩ := h.chain.isSome_of_mem (htarget id rfl)
    rw [Option.filter_some, isMember_eq, hn]
    rfl

structure Faces (c : Cursor) (r : Routine) (front back : List InsnId) : Prop where
  direction : c.direction = .backward
  lists : r.Lists c.block (front ++ back)
  target : c.target? r = front.getLast?

theorem faces_start (h : r.Lists b ids)
    : Faces { block := b, direction := .backward } r ids [] := by
  refine ⟨rfl, by rwa [List.append_nil], ?_⟩
  have hlast : (r.block? b).bind Block.last = ids.getLast? := by
    have := h.extent
    unfold extent? at this
    obtain ⟨found, hfound, heq⟩ := Option.map_eq_some_iff.mp this
    rw [hfound, Option.bind_some]
    exact (Prod.mk.inj (Prod.mk.inj heq).2).1
  unfold target? start?
  dsimp only
  rw [if_neg Bool.false_ne_true, hlast]
  apply filter_isMember h
  intro id hid
  exact List.mem_of_getLast? hid

structure Stands (c : Cursor) (id : InsnId) (front : List InsnId) : Prop where
  direction : c.direction = .backward
  current : c.current = some id
  lookahead : c.lookahead = front.getLast?

theorem Faces.next (h : c.Faces r front back) (hnext : c.next r = (some id, c'))
    : ∃ rest, front = rest ++ [id] ∧ c'.block = c.block ∧ c'.Stands id rest := by
  unfold Cursor.next at hnext
  obtain ⟨htarget, hc'⟩ := Prod.mk.inj hnext
  rw [h.target] at htarget
  obtain ⟨rest, rfl⟩ := List.getLast?_eq_some_iff.mp htarget
  refine ⟨rest, rfl, by rw [← hc'], ?_⟩
  have hlinks := h.lists.chain
  rw [List.append_assoc, List.singleton_append] at hlinks
  obtain ⟨i, hi, -, heq⟩ := neighbours?_eq_some.mp hlinks.links_eq
  subst hc'
  constructor
  . exact h.direction
  . rw [← htarget, ← h.target]
  . dsimp only
    rw [h.target, htarget, Option.bind_some]
    unfold neighbour?
    rw [h.direction]
    dsimp only
    rw [hi, Option.bind_some]
    exact (Prod.mk.inj heq).1

theorem Stands.faces (h : c.Stands id front) (hlists : r.Lists c.block (front ++ id :: back))
    : c.Faces r front (id :: back) := by
  refine ⟨h.direction, hlists, ?_⟩
  have hlinks := hlists.chain.links_eq
  obtain ⟨i, hi, -, heq⟩ := neighbours?_eq_some.mp hlinks
  have hneighbour : c.neighbour? r id = front.getLast? := by
    unfold neighbour?
    rw [h.direction]
    dsimp only
    rw [hi, Option.bind_some]
    exact (Prod.mk.inj heq).1
  unfold target?
  rw [h.current]
  dsimp only
  rw [isMember_eq, hlinks, Option.isSome_some, if_pos rfl, hneighbour]
  apply filter_isMember hlists
  intro j hj
  exact List.mem_append_left _ (List.mem_of_getLast? hj)

theorem Stands.faces_of_erased (h : c.Stands id front) (hlists : r.Lists c.block (front ++ back))
    (hgone : r.insn? id = none) : c.Faces r front back := by
  refine ⟨h.direction, hlists, ?_⟩
  unfold target?
  rw [h.current]
  dsimp only
  rw [isMember_eq, neighbours?, hgone, Option.bind_none, Option.isSome_none,
    if_neg Bool.false_ne_true, h.lookahead]
  apply filter_isMember hlists
  intro j hj
  exact List.mem_append_left _ (List.mem_of_getLast? hj)

end Cursor

end MachineIR
