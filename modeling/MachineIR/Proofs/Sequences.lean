import MachineIR.Proofs.Outcomes

/-!
This module contains that the blocks of a routine are sequences of instructions. Whichever way the
links of a block are followed, and whatever has been done to the routine before, the same sequence is
seen; and what the edits of places do to the links comes down to what they do to the sequences.
-/

namespace MachineIR

namespace Routine

variable {r r' : Routine} {b c : BlockId} {ids front back : List InsnId} {id : InsnId}

structure Shows (r : Routine) (b : BlockId) (ids : List InsnId) : Prop where
  once : ids.Nodup
  members : ∀ id, id ∈ ids ↔ ∃ i, r.insn? id = some i ∧ i.block = b
  listed : r.insnsOf b = ids
  forward : ∀ n, ids.length ≤ n → Cursor.rest r n { block := b, direction := .forward } = ids
  backward : ∀ n, ids.length ≤ n →
    Cursor.rest r n { block := b, direction := .backward } = ids.reverse
  before : ∀ front id back, ids = front ++ id :: back → r.insnsBefore id = front.reverse
  ends : ∃ found, r.block? b = some found ∧ found.first = ids.head? ∧ found.last = ids.getLast? ∧
    found.len = ids.length

theorem Lists.rest_eq (h : r.Lists b ids) (d : Direction) {n : Nat} (hn : ids.length ≤ n)
    : Cursor.rest r n { block := b, direction := d } = d.along ids := by
  apply Cursor.rest_eq
  . exact h.path_along
  . exact Cursor.target?_start h
  . rwa [Direction.length_along]

theorem Holds.shows (h : r.Holds b ids) : r.Shows b ids where
  once := h.lists.chain.nodup
  members _ := h.mem_iff
  listed := h.lists.insnsOf_eq
  forward _ hn := h.lists.rest_eq .forward hn
  backward _ hn := h.lists.rest_eq .backward hn
  before front id back hids := by
    subst hids
    exact Cursor.insnsBefore_eq h.lists
  ends := by
    obtain ⟨found, hfound, hends⟩ := Option.map_eq_some_iff.mp h.lists.extent
    simp only [Prod.mk.injEq] at hends
    exact ⟨found, hfound, hends⟩

theorem Arranged.existsUnique_block (h : r.Arranged) {i : Insn} (hi : r.insn? id = some i)
    : ∃! b, r.block? b ≠ none ∧ id ∈ r.insnsOf b := by
  refine ⟨i.block, ⟨?_, h.mem_insnsOf.mpr ⟨i, hi, rfl⟩⟩, ?_⟩
  . rw [← block?_ne_none_iff]
    exact h.home _ id _ (neighbours?_of_insn? hi rfl)
  . rintro b ⟨-, hmem⟩
    obtain ⟨j, hj, hb⟩ := h.mem_insnsOf.mp hmem
    rw [hi] at hj
    cases hj
    exact hb.symm

end Routine

namespace Edit

open Routine

variable {α : Type} {r r' : Routine} {b c new : BlockId} {ids front back : List InsnId}
  {id j : InsnId} {i : Instruction}

def Ensures (e : Edit α) (r : Routine) (P : Prop) (Q : α → Routine → Prop) : Prop :=
  (P → ∃ a r', e r = .ok a r') ∧ ∀ a r', e r = .ok a r' → Q a r'

theorem Settles.ensures {e : Edit α} {P : Prop} {Q : α → Routine → Prop} (h : Settles e r P)
    (hQ : ∀ a r', P → e r = .ok a r' → Q a r') : Ensures e r P Q := by
  rcases h with ⟨hP, a, r', hrun⟩ | ⟨hP, err, hrun⟩
  . refine ⟨fun _ => ⟨a, r', hrun⟩, ?_⟩
    intro a' r'' hrun'
    exact hQ a' r'' hP hrun'
  . refine ⟨fun hP' => absurd hP' hP, ?_⟩
    intro a' r'' hrun'
    rw [hrun] at hrun'
    cases hrun'

def Puts (r r' : Routine) (b : BlockId) (ids : List InsnId) : Prop :=
  ∀ c, r'.insnsOf c = if c = b then ids else r.insnsOf c

theorem puts_of_holds (harranged : r.Arranged) (hids : r'.Holds b ids)
    (hlive : ∀ c, r'.block? c ≠ none ↔ r.block? c ≠ none)
    (hother : ∀ c ids, c ≠ b → r.Holds c ids → r'.Holds c ids) : Puts r r' b ids := by
  intro c
  split
  next hc => rw [hc, hids.lists.insnsOf_eq]
  next hc =>
    by_cases hnone : r.block? c = none
    . have hnone' : r'.block? c = none := by
        by_contra h
        exact (hlive c).mp h hnone
      rw [insnsOf_of_none hnone, insnsOf_of_none hnone']
    . exact (hother c _ hc (harranged.holds_insnsOf hnone)).lists.insnsOf_eq

section Place

structure Adds (r r' : Routine) (i : Instruction) (id : InsnId) : Prop where
  fresh : r.insn? id = none
  code : ∃ ip, r'.code? id = some { i with ip }

theorem place_puts (front back : List InsnId) (harranged : r.Arranged) (hsize : r.insns.size < UInt32.size)
    (hb : r.Holds b (front ++ back))
    (hrun : place b front.getLast? back.head? i r = .ok id r')
    : Adds r r' i id ∧ Puts r r' b (front ++ id :: back) := by
  have hlive : ∀ x ∈ i.operands, r.Admits x := by
    rcases settles_place b front.getLast? back.head? i r with ⟨hlive, -⟩ | ⟨-, e, herror⟩
    . exact hlive
    . rw [herror] at hrun
      cases hrun
  obtain ⟨r₁, hrun₁, hbare, -⟩ := place_run b front.getLast? back.head? hsize hlive
  rw [hrun₁] at hrun
  cases hrun
  have hsame := SamePlaces.of_bare_eq hbare
  constructor
  . refine ⟨insn?_ofNat_size hsize, (placed b front.getLast? back.head? i r).ip, ?_⟩
    rw [code?_of_bare_eq hbare, code?_attach, code?_pushInsn hsize, if_pos rfl]
    unfold Insn.code Insn.operands placed
    simp [Function.comp_def]
  . apply puts_of_holds harranged
    . exact hsame.holds (holds_place front back hsize hb rfl rfl rfl)
    . intro c
      rw [← left_of_ok hrun₁]
      exact (sameEdges_place b _ _ i r).live_iff
    . intro c ids hc hids
      exact hsame.holds (holds_place_of_ne front back hsize hids hb rfl hc)

theorem ensures_pushBack (harranged : r.Arranged) (hsize : r.insns.size < UInt32.size) (b : BlockId)
    (i : Instruction)
    : Ensures (pushBack b i) r ((Action.pushBack b i).Applies r) fun id r' =>
        Adds r r' i id ∧ Puts r r' b (r.insnsOf b ++ [id]) := by
  refine (settles_pushBack b i r).ensures ?_
  rintro id r' ⟨hb, -⟩ hrun
  obtain ⟨found, hfound, -, hlast, -⟩ := (harranged.holds_insnsOf hb).shows.ends
  unfold pushBack at hrun
  rw [bind_of_ok (block_run_some hfound), hlast] at hrun
  apply place_puts (r.insnsOf b) [] harranged hsize _ hrun
  rw [List.append_nil]
  exact harranged.holds_insnsOf hb

theorem ensures_pushFront (harranged : r.Arranged) (hsize : r.insns.size < UInt32.size) (b : BlockId)
    (i : Instruction)
    : Ensures (pushFront b i) r ((Action.pushFront b i).Applies r) fun id r' =>
        Adds r r' i id ∧ Puts r r' b (id :: r.insnsOf b) := by
  refine (settles_pushFront b i r).ensures ?_
  rintro id r' ⟨hb, -⟩ hrun
  obtain ⟨found, hfound, hfirst, -⟩ := (harranged.holds_insnsOf hb).shows.ends
  unfold pushFront at hrun
  rw [bind_of_ok (block_run_some hfound), hfirst] at hrun
  exact place_puts [] (r.insnsOf b) harranged hsize (harranged.holds_insnsOf hb) hrun

theorem ensures_insertBefore (harranged : r.Arranged) (hsize : r.insns.size < UInt32.size)
    (at_ : InsnId) (i : Instruction)
    : Ensures (insertBefore at_ i) r ((Action.insertBefore at_ i).Applies r) fun id r' =>
        Adds r r' i id ∧ ∃ b front back, r.insnsOf b = front ++ at_ :: back ∧
          Puts r r' b (front ++ id :: at_ :: back) := by
  refine (settles_insertBefore at_ i r).ensures ?_
  rintro id r' ⟨hat, -⟩ hrun
  obtain ⟨n, hn⟩ := Option.ne_none_iff_exists'.mp hat
  obtain ⟨front, back, hholds, hprev, -⟩ := harranged.holds_block hn
  unfold insertBefore at hrun
  rw [bind_of_ok (insn_run_some hn), hprev] at hrun
  obtain ⟨hadds, hputs⟩ := place_puts front (at_ :: back) harranged hsize hholds hrun
  exact ⟨hadds, n.block, front, back, hholds.lists.insnsOf_eq, hputs⟩

theorem ensures_insertAfter (harranged : r.Arranged) (hsize : r.insns.size < UInt32.size)
    (at_ : InsnId) (i : Instruction)
    : Ensures (insertAfter at_ i) r ((Action.insertAfter at_ i).Applies r) fun id r' =>
        Adds r r' i id ∧ ∃ b front back, r.insnsOf b = front ++ at_ :: back ∧
          Puts r r' b (front ++ at_ :: id :: back) := by
  refine (settles_insertAfter at_ i r).ensures ?_
  rintro id r' ⟨hat, -⟩ hrun
  obtain ⟨n, hn⟩ := Option.ne_none_iff_exists'.mp hat
  obtain ⟨front, back, hholds, -, hnext⟩ := harranged.holds_block hn
  have hlast : some at_ = (front ++ [at_]).getLast? := by simp
  have hsplit : front ++ at_ :: back = (front ++ [at_]) ++ back := by simp
  unfold insertAfter at hrun
  rw [bind_of_ok (insn_run_some hn), hlast, hnext] at hrun
  obtain ⟨hadds, hputs⟩ := place_puts (front ++ [at_]) back harranged hsize (hsplit ▸ hholds) hrun
  rw [List.append_assoc] at hputs
  exact ⟨hadds, n.block, front, back, hholds.lists.insnsOf_eq, hputs⟩

end Place

theorem ensures_erase (h : r.Intact) (id : InsnId)
    : Ensures (erase id) r ((Action.erase id).Applies r) fun _ r' =>
        ∃ b front back, r.insnsOf b = front ++ id :: back ∧ Puts r r' b (front ++ back) := by
  refine (settles_erase h.tracked id).ensures ?_
  rintro ⟨⟩ r' ⟨hid, -⟩ hrun
  obtain ⟨i, hi⟩ := Option.ne_none_iff_exists'.mp hid
  obtain ⟨front, back, hholds, -⟩ := h.arranged.holds_block hi
  have herased := erased_of_ok h.tracked hrun
  refine ⟨i.block, front, back, hholds.lists.insnsOf_eq, ?_⟩
  apply puts_of_holds h.arranged (herased.holds hholds)
  . intro c
    exact herased.block?_ne_none
  . intro c ids hc hids
    exact herased.holds_of_ne hholds hids hc

theorem Cut.insnsOf_eq {new : BlockId} {front back : List InsnId} {prev : InsnId}
    (hcut : Cut r r' b new front prev id back) (harranged : r.Arranged)
    (hholds : r.Holds b (front ++ id :: back)) (hlast : front.getLast? = some prev) (hne : b ≠ new)
    (c : BlockId)
    : r'.insnsOf c = if c = new then id :: back else if c = b then front else r.insnsOf c := by
  split
  next hc => rw [hc, (Cut.lists_back hholds hlast hcut).insnsOf_eq]
  next hc =>
    split
    next hcb => rw [hcb, (Cut.lists_front hholds hlast hcut hne).insnsOf_eq]
    next hcb =>
      by_cases hnone : r.block? c = none
      . have hnone' : r'.block? c = none := by
          by_contra h
          rw [← ne_eq, ← block?_ne_none_iff, hcut.extent, if_neg hc, if_neg hcb,
            block?_ne_none_iff] at h
          exact h hnone
        rw [insnsOf_of_none hnone, insnsOf_of_none hnone']
      . exact (Cut.holds_of_ne hholds hlast hcut (harranged.holds_insnsOf hnone) hcb
          hc).lists.insnsOf_eq

theorem ensures_split (harranged : r.Arranged) (hsize : r.blocks.size < UInt32.size) (b : BlockId)
    (id : InsnId)
    : Ensures (split b id) r ((Action.split b id).Applies r) fun new r' =>
        ∃ front back, r.insnsOf b = front ++ id :: back ∧
          (front = [] ∧ new = b ∧ r' = r ∨
            front ≠ [] ∧ r.block? new = none ∧ r'.block? new ≠ none ∧
              ∀ c, r'.insnsOf c =
                if c = new then id :: back else if c = b then front else r.insnsOf c) := by
  -- A cut in front of the first instruction of a block is none.
  refine (settles_split harranged b id).ensures ?_
  rintro new r' ⟨i, hi, rfl⟩ hrun
  obtain ⟨front, back, hholds, hprev, -⟩ := harranged.holds_block hi
  refine ⟨front, back, hholds.lists.insnsOf_eq, ?_⟩
  cases hlast : front.getLast? with
  | none =>
    rcases split_cases i.block id r with ⟨⟨e, herror⟩, -⟩ | ⟨j, hj, -, ⟨-, hrun'⟩ | ⟨prev, hprev', -⟩⟩
    . rw [herror] at hrun
      cases hrun
    . rw [hrun'] at hrun
      cases hrun
      exact Or.inl ⟨List.getLast?_eq_none_iff.mp hlast, rfl, rfl⟩
    . rw [hi] at hj
      cases hj
      rw [hprev, hlast] at hprev'
      cases hprev'
  | some prev =>
    obtain ⟨r₁, hrun₁, hcut⟩ := split_run hsize hholds hi (hprev.trans hlast) hlast
    rw [hrun₁] at hrun
    cases hrun
    have hnew := block?_ofNat_size (r := r) hsize
    have hne : i.block ≠ .ofNat r.blocks.size := by
      intro heq
      exact hholds.lists.block?_ne_none (heq ▸ hnew)
    refine Or.inr ⟨?_, hnew, ?_, ?_⟩
    . rintro rfl
      cases hlast
    . rw [← block?_ne_none_iff, hcut.extent, if_pos rfl]
      simp
    . exact hcut.insnsOf_eq harranged hholds hlast hne

end Edit

namespace Routine

/-- The blocks of a routine are sequences, and the edits of places are edits of these sequences. -/
structure Sequenced (r : Routine) : Prop where
  shows : ∀ b, r.block? b ≠ none → r.Shows b (r.insnsOf b)
  home : ∀ id i, r.insn? id = some i → ∃! b, r.block? b ≠ none ∧ id ∈ r.insnsOf b
  pushBack : r.insns.size < UInt32.size → ∀ b i,
    Edit.Ensures (Edit.pushBack b i) r ((Action.pushBack b i).Applies r) fun id r' =>
      Edit.Adds r r' i id ∧ Edit.Puts r r' b (r.insnsOf b ++ [id])
  pushFront : r.insns.size < UInt32.size → ∀ b i,
    Edit.Ensures (Edit.pushFront b i) r ((Action.pushFront b i).Applies r) fun id r' =>
      Edit.Adds r r' i id ∧ Edit.Puts r r' b (id :: r.insnsOf b)
  insertBefore : r.insns.size < UInt32.size → ∀ at_ i,
    Edit.Ensures (Edit.insertBefore at_ i) r ((Action.insertBefore at_ i).Applies r) fun id r' =>
      Edit.Adds r r' i id ∧ ∃ b front back, r.insnsOf b = front ++ at_ :: back ∧
        Edit.Puts r r' b (front ++ id :: at_ :: back)
  insertAfter : r.insns.size < UInt32.size → ∀ at_ i,
    Edit.Ensures (Edit.insertAfter at_ i) r ((Action.insertAfter at_ i).Applies r) fun id r' =>
      Edit.Adds r r' i id ∧ ∃ b front back, r.insnsOf b = front ++ at_ :: back ∧
        Edit.Puts r r' b (front ++ at_ :: id :: back)
  erase : ∀ id,
    Edit.Ensures (Edit.erase id) r ((Action.erase id).Applies r) fun _ r' =>
      ∃ b front back, r.insnsOf b = front ++ id :: back ∧ Edit.Puts r r' b (front ++ back)
  split : r.blocks.size < UInt32.size → ∀ b id,
    Edit.Ensures (Edit.split b id) r ((Action.split b id).Applies r) fun new r' =>
      ∃ front back, r.insnsOf b = front ++ id :: back ∧
        (front = [] ∧ new = b ∧ r' = r ∨
          front ≠ [] ∧ r.block? new = none ∧ r'.block? new ≠ none ∧
            ∀ c, r'.insnsOf c =
              if c = new then id :: back else if c = b then front else r.insnsOf c)

theorem sequenced_after (actions : List Action) (h : (after actions).Small)
    : (after actions).Sequenced := by
  have hintact := intact_after actions h
  have harranged := hintact.arranged
  constructor
  . intro b hb
    exact (harranged.holds_insnsOf hb).shows
  . intro id i hi
    exact harranged.existsUnique_block hi
  . intro hsize b i
    exact Edit.ensures_pushBack harranged hsize b i
  . intro hsize b i
    exact Edit.ensures_pushFront harranged hsize b i
  . intro hsize at_ i
    exact Edit.ensures_insertBefore harranged hsize at_ i
  . intro hsize at_ i
    exact Edit.ensures_insertAfter harranged hsize at_ i
  . intro id
    exact Edit.ensures_erase hintact id
  . intro hsize b id
    exact Edit.ensures_split harranged hsize b id

def cutActions : List Action :=
  [.addBlock, .addBlock,
    .pushBack (.ofNat 0) (.readReg .i64 (.ofNat 1 1)),
    .pushBack (.ofNat 0) (.writeReg (.ofNat 1 1) (.insn (.ofNat 0)) .i64),
    .pushFront (.ofNat 0) (.readReg .i64 (.ofNat 2 1)),
    .insertAfter (.ofNat 0) (.readReg .i64 (.ofNat 3 1)),
    .insertBefore (.ofNat 0) (.readReg .i64 (.ofNat 4 1)),
    .pushBack (.ofNat 1) (.readReg .i64 (.ofNat 5 1)),
    .erase (.ofNat 2),
    .split (.ofNat 0) (.ofNat 0)]

theorem sequenced_after_cutActions
    : (after cutActions).Small ∧ (after cutActions).Sequenced ∧
        (after cutActions).insnsOf (.ofNat 0) = [.ofNat 4] ∧
        (after cutActions).insnsOf (.ofNat 1) = [.ofNat 5] ∧
        (after cutActions).insnsOf (.ofNat 2) = [.ofNat 0, .ofNat 3, .ofNat 1] := by
  have hsmall : (after cutActions).Small := by decide +kernel
  exact ⟨hsmall, sequenced_after cutActions hsmall, by decide +kernel⟩

end Routine

end MachineIR
