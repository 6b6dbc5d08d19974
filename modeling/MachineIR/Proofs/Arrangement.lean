import MachineIR.Proofs.Places
import MachineIR.Proofs.UseSoundness

/-!
This module contains that every routine is arranged, whatever has been done to it: its blocks hold
their instructions in lists, and no instruction is on none of them. An instruction is put between two
neighbours, taken out from between them, or moves to a new block with all that follow.
-/

namespace MachineIR

namespace Routine

variable {r r' r'' : Routine}

structure Arranges (r r' : Routine) : Prop where
  grows : r.Grows r'
  arranged : r'.Roomy → r.Arranged → r'.Arranged

namespace Arranges

theorem refl (r : Routine) : r.Arranges r := ⟨Grows.refl r, fun _ h => h⟩

theorem trans (h : r.Arranges r') (h' : r'.Arranges r'') : r.Arranges r'' := by
  refine ⟨h.grows.trans h'.grows, ?_⟩
  intro hroomy harranged
  apply h'.arranged hroomy
  exact h.arranged (h'.grows.roomy hroomy) harranged

instance : Std.Refl Arranges := ⟨refl⟩

instance : Trans Arranges Arranges Arranges := ⟨trans⟩

end Arranges

end Routine

namespace Edit

open Routine

variable {r r' : Routine} {b c : BlockId} {front back ids : List InsnId} {id j : InsnId} {i : Insn}

theorem arranges_of_samePlaces {α : Type} {e : Edit α} (hgrows : Within Grows e)
    (h : Within SamePlaces e) : Within Arranges e := by
  intro r
  exact ⟨hgrows r, fun _ harranged => (h r).arranged harranged⟩

theorem arranges_of_keeps {α : Type} {e : Edit α} (hkeeps : Within Keeps e)
    (h : Within SamePlaces e) : Within Arranges e :=
  arranges_of_samePlaces (hkeeps.mono fun _ _ h => h.grows) h

section Place

variable {prev next : Option InsnId}

def attach (b : BlockId) (prev next : Option InsnId) (id : InsnId) (r : Routine) : Routine :=
  (joinBetween b prev next id r).modifyBlock b fun b => { b with len := b.len + 1 }

theorem bare_attach
    : (attach b prev next id r).bare = attach b prev next id r.bare := by
  unfold attach joinBetween
  rw [bare_modifyBlock (g := fun b => { b with len := b.len + 1 }), bare_setPrev, bare_setNext]
  intro b
  rfl

theorem sameUses_attach (b : BlockId) (prev next : Option InsnId) (id : InsnId) (r : Routine)
    : r.SameUses (attach b prev next id r) := by
  apply SameUses.trans
  . apply SameUses.trans
    . exact sameUses_setNext b prev (some id) r
    . exact sameUses_setPrev b next (some id) _
  . apply SameUses.modifyBlock
    intro b
    rfl

theorem insn?_attach
    : (attach b prev next id r).insn? j =
        (r.insn? j).map fun x =>
          { x with
            prev := if next = some j then some id else x.prev
            next := if prev = some j then some id else x.next } := by
  unfold attach joinBetween
  rw [insn?_modifyBlock, insn?_setPrev, insn?_setNext, Option.map_map]
  rfl

theorem neighbours?_attach
    : (attach b prev next id r).neighbours? c j =
        (r.neighbours? c j).map fun n =>
          (if next = some j then some id else n.1, if prev = some j then some id else n.2) := by
  unfold neighbours?
  rw [insn?_attach]
  cases r.insn? j with
  | none => rfl
  | some x => by_cases hc : x.block = c <;> simp [hc]

theorem extent?_attach
    : (attach b prev next id r).extent? c =
        (r.extent? c).map fun e =>
          if c = b then
            (if prev = none then some id else e.1, if next = none then some id else e.2.1, e.2.2 + 1)
          else e := by
  have hlen : (attach b prev next id r).extent? c =
      ((joinBetween b prev next id r).extent? c).map fun e =>
        (e.1, e.2.1, if c = b then e.2.2 + 1 else e.2.2) := by
    unfold attach extent?
    rw [block?_modifyBlock]
    cases (joinBetween b prev next id r).block? c with
    | none => simp
    | some found => by_cases hc : c = b <;> simp [hc]
  rw [hlen]
  unfold joinBetween
  rw [extent?_setPrev, extent?_setNext, Option.map_map, Option.map_map]
  congr 1
  funext e
  by_cases hc : c = b <;> simp [hc]

theorem extent?_attach_ne_none : (attach b prev next id r).extent? c ≠ none ↔ r.extent? c ≠ none := by
  rw [extent?_attach]
  simp

theorem lists_attach (h : r.Lists b (front ++ back)) (hnew : id ∉ front ++ back)
    (hid : r.neighbours? b id = some (front.getLast?, back.head?))
    : (attach b front.getLast? back.head? id r).Lists b (front ++ id :: back) := by
  have hprev : front.getLast? ≠ some id := by
    intro heq
    exact hnew (List.mem_append_left _ (List.mem_of_getLast? heq))
  have hnext : back.head? ≠ some id := by
    intro heq
    exact hnew (List.mem_append_right _ (List.mem_of_head? heq))
  constructor
  . rw [extent?_attach, h.extent, Option.map_some, if_pos rfl, List.length_append,
      List.length_append, List.length_cons]
    congr 2
    . cases front with
      | nil => simp
      | cons a front => simp [List.getLast?_cons]
    . congr 1
      cases back with
      | nil => simp
      | cons a back => simp [List.getLast?_append, List.getLast?_cons]
  . apply h.chain.insert h.chain.nodup
    . rw [neighbours?_attach, hid, Option.map_some, if_neg hnext, if_neg hprev]
    . intro j hj
      rw [neighbours?_attach]

theorem lists_attach_of_ne (h : r.Lists c ids) (hb : r.Lists b (front ++ back)) (hne : c ≠ b)
    : (attach b front.getLast? back.head? id r).Lists c ids := by
  have hforeign : ∀ j ∈ ids, j ∉ front ++ back := by
    intro j hj hj'
    exact hb.disjoint h hne hj' hj
  apply h.congr
  . rw [extent?_attach]
    simp [hne]
  . intro j hj
    have hjprev : front.getLast? ≠ some j := by
      intro heq
      exact hforeign j hj (List.mem_append_left _ (List.mem_of_getLast? heq))
    have hjnext : back.head? ≠ some j := by
      intro heq
      exact hforeign j hj (List.mem_append_right _ (List.mem_of_head? heq))
    rw [neighbours?_attach]
    simp [hjprev, hjnext]

theorem neighbours?_pushInsn (hsize : r.insns.size < UInt32.size)
    : (pushInsn i r).neighbours? c j =
        if j = .ofNat r.insns.size then if i.block = c then some (i.prev, i.next) else none
        else r.neighbours? c j := by
  unfold neighbours?
  rw [insn?_pushInsn hsize]
  split <;> rfl

theorem insn?_ofNat_size (hsize : r.insns.size < UInt32.size) : r.insn? (.ofNat r.insns.size) = none := by
  unfold insn?
  rw [InsnId.toNat_ofNat hsize]
  cases hget : r.insns.get? r.insns.size with
  | none => rfl
  | some j =>
    have := Store.lt_size_of_get? hget
    omega

theorem neighbours?_ofNat_size (hsize : r.insns.size < UInt32.size)
    : r.neighbours? c (.ofNat r.insns.size) = none := by
  rw [neighbours?, insn?_ofNat_size hsize, Option.bind_none]

theorem lists_pushInsn (hsize : r.insns.size < UInt32.size) (h : r.Lists c ids)
    : (pushInsn i r).Lists c ids := by
  apply h.congr
  . rfl
  intro j hj
  rw [neighbours?_pushInsn hsize, if_neg]
  rintro rfl
  obtain ⟨n, hn⟩ := h.chain.isSome_of_mem hj
  rw [neighbours?_ofNat_size hsize] at hn
  cases hn

theorem forM_requireLive_of_admits {operands : List Operand} (h : ∀ x ∈ operands, r.Admits x)
    : operands.forM requireLive r = .ok () r := by
  induction operands with
  | nil => rfl
  | cons x rest ih =>
    unfold List.forM
    rw [bind_of_ok (requireLive_run_ok (h x List.mem_cons_self))]
    exact ih fun y hy => h y (List.mem_cons_of_mem x hy)

theorem place_run {i : Instruction} (b : BlockId) (prev next : Option InsnId)
    (hsize : r.insns.size < UInt32.size)
    (hlive : ∀ x ∈ i.operands, r.Admits x)
    : ∃ r', place b prev next i r = .ok (.ofNat r.insns.size) r' ∧
        r'.bare =
          (attach b prev next (.ofNat r.insns.size) (pushInsn (placed b prev next i r) r)).bare ∧
        r'.uses.records.size ≤ max r.uses.records.size (r.uses.live + i.operands.length) := by
  have hinsn : (pushInsn (placed b prev next i r) r).insn? (.ofNat r.insns.size) =
      some (placed b prev next i r) := by
    rw [insn?_pushInsn hsize, if_pos rfl]
  obtain ⟨r₁, hrun, hbare, -, hsize', -⟩ :=
    linkOperands_run (r := pushInsn (placed b prev next i r) r) (.ofNat r.insns.size) i.operands 0
      (by
        intro n
        rw [slot?_eq hinsn, Nat.zero_add]
        simp [placed])
      (by
        intro x hx w hw
        obtain ⟨l, hl⟩ := hlive x hx w hw
        cases w with
        | insn j =>
          simp only [useList?, insn?_pushInsn hsize]
          split
          . exact ⟨_, rfl⟩
          . exact ⟨l, hl⟩
        | block c => exact ⟨l, hl⟩)
  refine ⟨attach b prev next (.ofNat r.insns.size) r₁, ?_, ?_, ?_⟩
  . rw [place_of_live (forM_requireLive_of_admits hlive), bind_of_ok hrun]
    rfl
  . rw [bare_attach, hbare, bare_attach]
  . rw [(sameUses_attach b prev next _ r₁).uses]
    exact hsize'

theorem holds_place (front back : List InsnId) (hsize : r.insns.size < UInt32.size)
    (h : r.Holds b (front ++ back))
    (hblock : i.block = b) (hprev : i.prev = front.getLast?) (hnext : i.next = back.head?)
    : (attach b front.getLast? back.head? (.ofNat r.insns.size) (pushInsn i r)).Holds b
        (front ++ .ofNat r.insns.size :: back) := by
  have hnew : InsnId.ofNat r.insns.size ∉ front ++ back := by
    intro hmem
    obtain ⟨n, hn⟩ := h.lists.chain.isSome_of_mem hmem
    rw [neighbours?_ofNat_size hsize] at hn
    cases hn
  constructor
  . apply lists_attach (lists_pushInsn hsize h.lists) hnew
    rw [neighbours?_pushInsn hsize, if_pos rfl, if_pos hblock, hprev, hnext]
  . intro j n hn
    rw [neighbours?_attach, neighbours?_pushInsn hsize] at hn
    by_cases hj : j = .ofNat r.insns.size
    . simp [hj]
    . rw [if_neg hj, Option.map_eq_some_iff] at hn
      obtain ⟨n', hn', -⟩ := hn
      have := h.whole j n' hn'
      simp only [List.mem_append, List.mem_cons, hj, false_or] at this ⊢
      exact this

theorem holds_place_of_ne (front back : List InsnId) (hsize : r.insns.size < UInt32.size)
    (h : r.Holds c ids)
    (hb : r.Holds b (front ++ back)) (hblock : i.block = b) (hne : c ≠ b)
    : (attach b front.getLast? back.head? (.ofNat r.insns.size) (pushInsn i r)).Holds c ids := by
  constructor
  . exact lists_attach_of_ne (lists_pushInsn hsize h.lists) (lists_pushInsn hsize hb.lists) hne
  . intro j n hn
    rw [neighbours?_attach, neighbours?_pushInsn hsize] at hn
    by_cases hj : j = .ofNat r.insns.size
    . rw [if_pos hj, hblock, if_neg hne.symm] at hn
      cases hn
    . rw [if_neg hj, Option.map_eq_some_iff] at hn
      obtain ⟨n', hn', -⟩ := hn
      exact h.whole j n' hn'

theorem arranged_attach (hsize : r.insns.size < UInt32.size) (h : r.Arranged)
    (hb : r.Holds b (front ++ back)) (hblock : i.block = b) (hprev : i.prev = front.getLast?)
    (hnext : i.next = back.head?)
    : (attach b front.getLast? back.head? (.ofNat r.insns.size) (pushInsn i r)).Arranged := by
  constructor
  . intro c j n hn
    rw [extent?_attach_ne_none]
    change r.extent? c ≠ none
    rw [neighbours?_attach, neighbours?_pushInsn hsize] at hn
    by_cases hj : j = .ofNat r.insns.size
    . rw [if_pos hj] at hn
      by_cases hc : i.block = c
      . rw [← hc, hblock, hb.lists.extent]
        simp
      . rw [if_neg hc] at hn
        cases hn
    . rw [if_neg hj, Option.map_eq_some_iff] at hn
      obtain ⟨n', hn', -⟩ := hn
      exact h.home c j n' hn'
  . intro c hc
    rw [extent?_attach_ne_none] at hc
    by_cases hcb : c = b
    . subst hcb
      exact ⟨_, holds_place front back hsize hb hblock hprev hnext⟩
    . obtain ⟨ids, hids⟩ := h.holds c hc
      exact ⟨ids, holds_place_of_ne front back hsize hids hb hblock hcb⟩

theorem arranged_place {i : Instruction} (front back : List InsnId) (h : r.Arranged)
    (hb : r.Holds b (front ++ back))
    (hroomy : (left (place b front.getLast? back.head? i) r).Roomy)
    : (left (place b front.getLast? back.head? i) r).Arranged := by
  rcases forM_requireLive_run i.operands r with ⟨hrun, hlive⟩ | ⟨e, he⟩
  . have hsize : r.insns.size < UInt32.size := by
      have hgrows : (pushInsn (placed b front.getLast? back.head? i r) r).Grows
          (left (place b front.getLast? back.head? i) r) := by
        unfold left
        rw [place_of_live hrun]
        apply Within.bind (grows_linkOperands _ _ _)
        intro u
        exact (keeps_join _ _ _ _).mono fun _ _ h => h.grows
      have := (hgrows.roomy hroomy).insns
      simp only [pushInsn, Store.size_push] at this
      omega
    obtain ⟨r', hrun', hbare, -⟩ := place_run b front.getLast? back.head? hsize hlive
    rw [left_of_ok hrun']
    exact (SamePlaces.of_bare_eq hbare).arranged (arranged_attach hsize h hb rfl rfl rfl)
  . have hrun : place b front.getLast? back.head? i r = .error e r := by
      unfold place
      rw [bind_of_error he]
    rw [left_of_error hrun]
    exact h

theorem block_run_some {found : Block} (h : r.block? b = some found) : block b r = .ok found r := by
  simp [block, h]

theorem block_run_none (h : r.block? b = none)
    : block b r = .error (.invalidHandle (.block b)) r := by
  simp [block, h]

theorem arranges_pushBack (b : BlockId) (i : Instruction) : Within Arranges (pushBack b i) := by
  intro r
  refine ⟨(keeps_pushBack b i r).grows, ?_⟩
  intro hroomy h
  unfold pushBack at hroomy ⊢
  cases hb : r.block? b with
  | none =>
    rw [left_bind_of_error (block_run_none hb)]
    exact h
  | some found =>
    obtain ⟨ids, hids⟩ := h.holds b (block?_ne_none_iff.mpr (by simp [hb]))
    have hextent := hids.lists.extent
    simp only [extent?, hb, Option.map_some, Option.some.injEq, Prod.mk.injEq] at hextent
    rw [left_bind_of_ok (block_run_some hb), hextent.2.1] at hroomy ⊢
    exact arranged_place ids [] h (by rwa [List.append_nil]) hroomy

theorem arranges_pushFront (b : BlockId) (i : Instruction) : Within Arranges (pushFront b i) := by
  intro r
  refine ⟨(keeps_pushFront b i r).grows, ?_⟩
  intro hroomy h
  unfold pushFront at hroomy ⊢
  cases hb : r.block? b with
  | none =>
    rw [left_bind_of_error (block_run_none hb)]
    exact h
  | some found =>
    obtain ⟨ids, hids⟩ := h.holds b (block?_ne_none_iff.mpr (by simp [hb]))
    have hextent := hids.lists.extent
    simp only [extent?, hb, Option.map_some, Option.some.injEq, Prod.mk.injEq] at hextent
    rw [left_bind_of_ok (block_run_some hb), hextent.1] at hroomy ⊢
    exact arranged_place [] ids h hids hroomy

theorem arranges_insertBefore (id : InsnId) (i : Instruction)
    : Within Arranges (insertBefore id i) := by
  intro r
  refine ⟨(keeps_insertBefore id i r).grows, ?_⟩
  intro hroomy h
  unfold insertBefore at hroomy ⊢
  cases hid : r.insn? id with
  | none =>
    rw [left_bind_of_error (insn_run_none hid)]
    exact h
  | some neighbour =>
    obtain ⟨front, back, hholds, hprev, hnext⟩ := h.holds_block hid
    rw [left_bind_of_ok (insn_run_some hid), hprev] at hroomy ⊢
    exact arranged_place front (id :: back) h hholds hroomy

theorem arranges_insertAfter (id : InsnId) (i : Instruction)
    : Within Arranges (insertAfter id i) := by
  intro r
  refine ⟨(keeps_insertAfter id i r).grows, ?_⟩
  intro hroomy h
  unfold insertAfter at hroomy ⊢
  cases hid : r.insn? id with
  | none =>
    rw [left_bind_of_error (insn_run_none hid)]
    exact h
  | some neighbour =>
    obtain ⟨front, back, hholds, hprev, hnext⟩ := h.holds_block hid
    have hlast : some id = (front ++ [id]).getLast? := by simp
    rw [left_bind_of_ok (insn_run_some hid), hnext, hlast] at hroomy ⊢
    exact arranged_place (front ++ [id]) back h (by simpa using hholds) hroomy

end Place

section Erase

theorem erase_cases (id : InsnId) (r : Routine)
    : (∃ e r₁, erase id r = .error e r₁ ∧ r.SameBare r₁) ∨
        ∃ i r₁, r₁.insn? id = some i ∧ r.SameBare r₁ ∧ erase id r = .ok () (detach id i r₁) := by
  unfold erase
  cases hi : r.insn? id with
  | none =>
    left
    exact ⟨_, r, bind_of_error (insn_run_none hi), SameBare.refl r⟩
  | some i =>
    rw [bind_of_ok (insn_run_some hi), get_bind_run]
    dsimp only
    split
    . left
      exact ⟨_, r, rfl, SameBare.refl r⟩
    . have hrelease : Within SameBare ((List.range i.slots.length).forM (releaseOperand id)) :=
        Within.forM fun k _ => sameBare_releaseOperand id k
      -- To give up uses changes nothing but records, even if it fails halfway.
      specialize hrelease r
      cases hrun : (List.range i.slots.length).forM (releaseOperand id) r with
      | error e r₁ =>
        rw [left_of_error hrun] at hrelease
        left
        exact ⟨e, r₁, bind_of_error hrun, hrelease⟩
      | ok u r₁ =>
        rw [left_of_ok hrun] at hrelease
        rw [bind_of_ok hrun]
        unfold unlinkInsn
        rw [bind_assoc]
        cases hi₁ : r₁.insn? id with
        | none =>
          left
          exact ⟨_, r₁, bind_of_error (insn_run_none hi₁), hrelease⟩
        | some i₁ =>
          right
          refine ⟨i₁, r₁, hi₁, hrelease, ?_⟩
          rw [bind_of_ok (insn_run_some hi₁)]
          rfl

theorem extent?_detach_ne_none : (detach id i r).extent? c ≠ none ↔ r.extent? c ≠ none := by
  rw [extent?_detach]
  simp

theorem neighbours?_of_detach {n : Option InsnId × Option InsnId}
    (h : (detach id i r).neighbours? c j = some n) : j ≠ id ∧ ∃ n', r.neighbours? c j = some n' := by
  have hne : j ≠ id := by
    rintro rfl
    rw [neighbours?, insn?_detach, if_pos rfl, Option.bind_none] at h
    cases h
  rw [neighbours?_detach hne, Option.map_eq_some_iff] at h
  obtain ⟨n', hn', -⟩ := h
  exact ⟨hne, n', hn'⟩

theorem holds_detach (h : r.Holds b (front ++ id :: back)) (hi : r.insn? id = some i)
    : (detach id i r).Holds b (front ++ back) := by
  refine ⟨h.lists.detach hi, ?_⟩
  intro j n hn
  obtain ⟨hne, n', hn'⟩ := neighbours?_of_detach hn
  have := h.whole j n' hn'
  simp only [List.mem_append, List.mem_cons, hne, false_or] at this ⊢
  exact this

theorem holds_detach_of_ne (h : r.Holds c ids) (hb : r.Holds b (front ++ id :: back))
    (hi : r.insn? id = some i) (hne : c ≠ b) : (detach id i r).Holds c ids := by
  refine ⟨h.lists.detach_of_ne hb.lists hi hne, ?_⟩
  intro j n hn
  obtain ⟨-, n', hn'⟩ := neighbours?_of_detach hn
  exact h.whole j n' hn'

theorem arranged_detach (h : r.Arranged) (hi : r.insn? id = some i)
    : (detach id i r).Arranged := by
  obtain ⟨front, back, hholds, -⟩ := h.holds_block hi
  constructor
  . intro c j n hn
    rw [extent?_detach_ne_none]
    obtain ⟨-, n', hn'⟩ := neighbours?_of_detach hn
    exact h.home c j n' hn'
  . intro c hc
    rw [extent?_detach_ne_none] at hc
    by_cases hcb : c = i.block
    . subst hcb
      exact ⟨_, holds_detach hholds hi⟩
    . obtain ⟨ids, hids⟩ := h.holds c hc
      exact ⟨ids, holds_detach_of_ne hids hholds hi hcb⟩

theorem arranged_erase (h : r.Arranged) (id : InsnId) : (left (erase id) r).Arranged := by
  rcases erase_cases id r with ⟨e, r₁, hrun, hsame⟩ | ⟨i, r₁, hi, hsame, hrun⟩
  . rw [left_of_error hrun]
    exact (SamePlaces.of_bare_eq hsame).arranged h
  . rw [left_of_ok hrun]
    exact arranged_detach ((SamePlaces.of_bare_eq hsame).arranged h) hi

theorem arranges_erase (id : InsnId) : Within Arranges (erase id) := by
  intro r
  exact ⟨grows_erase id r, fun _ h => arranged_erase h id⟩

theorem coversInPlace_samePlaces : CoversInPlace SamePlaces where
  setOperand := samePlaces_setOperand
  setOpcode := samePlaces_setOpcode
  setTemplate := samePlaces_setTemplate

theorem covers_arranges : Covers Arranges where
  setOperand := fun id k x => arranges_of_keeps (keeps_setOperand id k x) (samePlaces_setOperand id k x)
  setOpcode := fun id o => arranges_of_keeps (keeps_setOpcode id o) (samePlaces_setOpcode id o)
  setTemplate := fun id k t =>
    arranges_of_keeps (keeps_setTemplate id k t) (samePlaces_setTemplate id k t)
  insertBefore := arranges_insertBefore
  erase := arranges_erase

end Erase

section Blocks

theorem block?_pushBlock (hsize : r.blocks.size < UInt32.size)
    : (pushBlock r).block? c =
        if c = .ofNat r.blocks.size then some { name := r.nextBlockName } else r.block? c := by
  unfold pushBlock block?
  dsimp only
  rw [Store.get?_push]
  simp only [← BlockId.toNat_inj, BlockId.toNat_ofNat hsize]

theorem block?_ofNat_size (hsize : r.blocks.size < UInt32.size)
    : r.block? (.ofNat r.blocks.size) = none := by
  unfold block?
  rw [BlockId.toNat_ofNat hsize]
  cases hget : r.blocks.get? r.blocks.size with
  | none => rfl
  | some found =>
    have := Store.lt_size_of_get? hget
    omega

theorem extent?_pushBlock (hsize : r.blocks.size < UInt32.size)
    : (pushBlock r).extent? c =
        if c = .ofNat r.blocks.size then some (none, none, 0) else r.extent? c := by
  unfold extent?
  rw [block?_pushBlock hsize]
  split <;> rfl

theorem arranges_addBlock : Within Arranges addBlock := by
  intro r
  refine ⟨(keeps_addBlock r).grows, ?_⟩
  intro hroomy h
  change (pushBlock r).Roomy at hroomy
  change (pushBlock r).Arranged
  have hsize : r.blocks.size < UInt32.size := by
    have := hroomy.blocks
    simp only [pushBlock, Store.size_push] at this
    omega
  constructor
  . intro c j n hn
    rw [extent?_pushBlock hsize]
    split
    . simp
    . exact h.home c j n hn
  . intro c hc
    rw [extent?_pushBlock hsize] at hc
    by_cases hnew : c = .ofNat r.blocks.size
    . -- No instruction belongs to a block that there was not.
      refine ⟨[], ⟨?_, trivial⟩, ?_⟩
      . rw [extent?_pushBlock hsize, if_pos hnew]
        rfl
      . intro j n hn
        exfalso
        apply h.home c j n hn
        rw [hnew, extent?, block?_ofNat_size hsize, Option.map_none]
    . rw [if_neg hnew] at hc
      obtain ⟨ids, hids⟩ := h.holds c hc
      refine ⟨ids, hids.lists.congr ?_ fun _ _ => rfl, hids.whole⟩
      rw [extent?_pushBlock hsize, if_neg hnew]

theorem extent?_dropBlock
    : (dropBlock b r).extent? c = if c = b then none else r.extent? c := by
  have hblock : (dropBlock b r).block? c = if c = b then none else r.block? c := by
    simp only [dropBlock, block?, Store.get?_erase, BlockId.toNat_inj, eq_comm]
  unfold extent?
  rw [hblock]
  split <;> rfl

theorem arranged_dropBlock (h : r.Arranged) (hb : r.Holds b []) : (dropBlock b r).Arranged := by
  constructor
  . intro c j n hn
    rw [extent?_dropBlock, if_neg]
    . exact h.home c j n hn
    . rintro rfl
      exact List.not_mem_nil (hb.whole j n hn)
  . intro c hc
    rw [extent?_dropBlock] at hc
    by_cases hcb : c = b
    . rw [if_pos hcb] at hc
      exact absurd rfl hc
    . rw [if_neg hcb] at hc
      obtain ⟨ids, hids⟩ := h.holds c hc
      refine ⟨ids, hids.lists.congr ?_ fun _ _ => rfl, hids.whole⟩
      rw [extent?_dropBlock, if_neg hcb]

theorem holds_nil_of_forM_erase (hb : r.Holds b ids.reverse) {u : PUnit}
    (h : ids.forM erase r = .ok u r') : r'.Holds b [] := by
  induction ids generalizing r with
  | nil =>
    cases h
    exact hb
  | cons id rest ih =>
    unfold List.forM at h
    rcases erase_cases id r with ⟨e, r₁, hrun, -⟩ | ⟨i, r₁, hi, hsame, hrun⟩
    . rw [bind_of_error hrun] at h
      cases h
    . rw [bind_of_ok hrun] at h
      apply ih _ h
      rw [List.reverse_cons] at hb
      have := holds_detach ((SamePlaces.of_bare_eq hsame).holds hb) hi
      rwa [List.append_nil] at this

theorem arranged_forM_erase (h : r.Arranged) (ids : List InsnId)
    : (left (ids.forM erase) r).Arranged := by
  induction ids generalizing r with
  | nil => exact h
  | cons id rest ih =>
    have herase := arranged_erase h id
    unfold List.forM
    cases hrun : erase id r with
    | error e r₁ =>
      rw [left_of_error hrun] at herase
      rw [left_bind_of_error hrun]
      exact herase
    | ok u r₁ =>
      rw [left_of_ok hrun] at herase
      rw [left_bind_of_ok hrun]
      exact ih herase

theorem samePlaces_replaceUses (v : ValueId) (x : Operand) : Within SamePlaces (replaceUses v x) :=
  Within.replaceUses samePlaces_setOperand v x

theorem arranged_replaceUses_dropBlock (h : r.Arranged) (hb : r.Holds b [])
    : (left (discard (replaceUses (.block b) (.const .void)) >>= fun _ =>
        modify (dropBlock b) : Edit PUnit) r).Arranged := by
  have hvoid : Within SamePlaces (discard (replaceUses (.block b) (.const .void))) :=
    (samePlaces_replaceUses _ _).discard
  specialize hvoid r
  cases hrun : discard (replaceUses (.block b) (.const .void)) r with
  | error e r₁ =>
    rw [left_of_error hrun] at hvoid
    rw [left_bind_of_error hrun]
    exact hvoid.arranged h
  | ok u r₁ =>
    rw [left_of_ok hrun] at hvoid
    rw [left_bind_of_ok hrun]
    exact arranged_dropBlock (hvoid.arranged h) (hvoid.holds hb)

theorem arranges_deleteBlock (b : BlockId) : Within Arranges (deleteBlock b) := by
  intro r
  refine ⟨(keeps_deleteBlock b r).grows, ?_⟩
  intro _ h
  unfold deleteBlock
  cases hb : r.block? b with
  | none =>
    rw [left_bind_of_error (block_run_none hb)]
    exact h
  | some found =>
    rw [left_bind_of_ok (block_run_some hb)]
    split
    . exact h
    . rw [left_bind_of_ok (get_run r)]
      -- Each of the loops can fail, and whatever they have done until then keeps the arrangement.
      obtain ⟨ids, hids⟩ := h.holds b (block?_ne_none_iff.mpr (by simp [hb]))
      rw [hids.lists.insnsOf_eq]
      have hvoid : Within SamePlaces
          (ids.forM fun id => discard (replaceUses (.insn id) (.const .void))) :=
        Within.forM fun id _ => (samePlaces_replaceUses _ _).discard
      specialize hvoid r
      cases hrun : ids.forM (fun id => discard (replaceUses (.insn id) (.const .void))) r with
      | error e r₁ =>
        rw [left_of_error hrun] at hvoid
        rw [left_bind_of_error hrun]
        exact hvoid.arranged h
      | ok u r₁ =>
        rw [left_of_ok hrun] at hvoid
        rw [left_bind_of_ok hrun]
        have harranged := arranged_forM_erase (hvoid.arranged h) ids.reverse
        cases herase : ids.reverse.forM erase r₁ with
        | error e r₂ =>
          rw [left_of_error herase] at harranged
          rw [left_bind_of_error herase]
          exact harranged
        | ok u r₂ =>
          rw [left_of_ok herase] at harranged
          rw [left_bind_of_ok herase]
          -- The block is empty now, so no instruction is left without a place.
          apply arranged_replaceUses_dropBlock harranged
          exact holds_nil_of_forM_erase (by simpa using hvoid.holds hids) herase

end Blocks

section Split

variable {new : BlockId}

theorem insn?_setBlocks (moved : List InsnId)
    : (moved.foldl (fun r id => r.modifyInsn id ({ · with block := new })) r).insn? j =
        (r.insn? j).map fun x => { x with block := if j ∈ moved then new else x.block } := by
  induction moved generalizing r with
  | nil =>
    rw [List.foldl_nil]
    cases r.insn? j <;> simp
  | cons id rest ih =>
    rw [List.foldl_cons, ih, insn?_modifyInsn]
    cases r.insn? j with
    | none => simp
    | some x =>
      by_cases hj : j = id
      . simp [hj]
      . simp [hj]

theorem block?_setBlocks (moved : List InsnId)
    : (moved.foldl (fun r id => r.modifyInsn id ({ · with block := new })) r).block? c =
        r.block? c := by
  induction moved generalizing r with
  | nil => rfl
  | cons id rest ih => rw [List.foldl_cons, ih, block?_modifyInsn]

structure Cut (r r' : Routine) (b new : BlockId) (front : List InsnId) (prev id : InsnId)
    (back : List InsnId) : Prop where
  neighbours : ∀ c j, r'.neighbours? c j = (r.insn? j).bind fun x =>
    if (if j ∈ id :: back then new else x.block) = c then
      some (if j = id then none else x.prev, if j = prev then none else x.next)
    else none
  extent : ∀ c, r'.extent? c =
    if c = new then some (some id, (id :: back).getLast?, (id :: back).length)
    else if c = b then some (front.head?, some prev, front.length)
    else r.extent? c

section Cut

variable {prev : InsnId} (hb : r.Holds b (front ++ id :: back)) (hlast : front.getLast? = some prev)
  (hcut : Cut r r' b new front prev id back)

include hb hlast hcut

theorem Cut.lists_front (hne : b ≠ new) : r'.Lists b front := by
  have hnodup := List.nodup_append.mp hb.lists.chain.nodup
  constructor
  . rw [hcut.extent, if_neg hne, if_pos rfl, hlast]
  . have hlinks : ∀ j ∈ front, r'.neighbours? b j =
        (r.neighbours? b j).map fun n => (n.1, if j = prev then none else n.2) := by
      intro j hj
      have hmoved : j ∉ id :: back := fun hj' => hnodup.2.2 j hj j hj' rfl
      have hid : j ≠ id := fun heq => hmoved (heq ▸ List.mem_cons_self)
      rw [hcut.neighbours, neighbours?]
      cases r.insn? j with
      | none => rfl
      | some x => by_cases hx : x.block = b <;> simp [hmoved, hid, hx]
    apply (Chain.append.mp hb.lists.chain).1.setNext hnodup.1
    . intro j hj hne
      have hprev : j ≠ prev := by
        rintro rfl
        exact hne hlast
      rw [hlinks j hj]
      simp [hprev]
    . intro j hj
      rw [hlast] at hj
      cases hj
      rw [hlinks prev (List.mem_of_getLast? hlast)]
      simp

theorem Cut.lists_back : r'.Lists new (id :: back) := by
  have hnodup := List.nodup_append.mp hb.lists.chain.nodup
  have hprev : prev ∉ id :: back := fun h => hnodup.2.2 prev (List.mem_of_getLast? hlast) prev h rfl
  constructor
  . rw [hcut.extent, if_pos rfl]
    rfl
  . have hlinks : ∀ j ∈ id :: back, r'.neighbours? new j =
        (r.neighbours? b j).map fun n => (if j = id then none else n.1, n.2) := by
      intro j hj
      have hne : j ≠ prev := fun heq => hprev (heq ▸ hj)
      obtain ⟨x, hx, hblock⟩ := hb.mem_iff.mp (List.mem_append_right front hj)
      rw [hcut.neighbours, neighbours?, hx, Option.bind_some, Option.bind_some, if_pos hblock,
        if_pos hj, if_pos rfl, if_neg hne]
      rfl
    apply (Chain.append.mp hb.lists.chain).2.setPrev hnodup.2.1
    . intro j hj hhead
      have hne : j ≠ id := by
        rintro rfl
        exact hhead rfl
      rw [hlinks j hj]
      simp [hne]
    . intro j hj
      cases hj
      rw [hlinks id List.mem_cons_self]
      simp

theorem Cut.holds_of_ne (h : r.Holds c ids) (hcb : c ≠ b) (hcnew : c ≠ new) : r'.Holds c ids := by
  have hforeign : ∀ j ∈ ids, j ∉ front ++ id :: back := fun j hj hj' =>
    hb.lists.disjoint h.lists hcb hj' hj
  have hlinks : ∀ j ∉ front ++ id :: back, r'.neighbours? c j = r.neighbours? c j := by
    intro j hj
    have hmoved : j ∉ id :: back := fun hj' => hj (List.mem_append_right _ hj')
    have hid : j ≠ id := fun heq => hmoved (heq ▸ List.mem_cons_self)
    have hprev : j ≠ prev := fun heq =>
      hj (List.mem_append_left _ (heq ▸ List.mem_of_getLast? hlast))
    rw [hcut.neighbours, neighbours?]
    simp only [if_neg hmoved, if_neg hid, if_neg hprev]
  constructor
  . apply h.lists.congr
    . rw [hcut.extent, if_neg hcnew, if_neg hcb]
    . intro j hj
      exact hlinks j (hforeign j hj)
  . intro j n hn
    by_cases hj : j ∈ front ++ id :: back
    . -- The instructions of the block that is cut do not come into `c`.
      obtain ⟨x, hx, hblock⟩ := hb.mem_iff.mp hj
      rw [hcut.neighbours, hx, Option.bind_some, if_neg] at hn
      . cases hn
      . split
        . exact hcnew.symm
        . rw [hblock]
          exact hcb.symm
    . rw [hlinks j hj] at hn
      exact h.whole j n hn

theorem Cut.arranged (h : r.Arranged) (hnew : r.extent? new = none) : r'.Arranged := by
  have hne : b ≠ new := by
    rintro rfl
    rw [hb.lists.extent] at hnew
    cases hnew
  -- An instruction that is not moved stays in its block, which is not the new one.
  have hstays : ∀ c j n, r'.neighbours? c j = some n → j ∉ id :: back →
      ∃ n', r.neighbours? c j = some n' := by
    intro c j n hn hj
    rw [hcut.neighbours] at hn
    simp only [if_neg hj] at hn
    obtain ⟨x, hx, hblock⟩ := Option.bind_eq_some_iff.mp hn
    rw [Option.ite_none_right_eq_some] at hblock
    exact ⟨_, neighbours?_of_insn? hx hblock.1⟩
  have hmoves : ∀ c j n, r'.neighbours? c j = some n → j ∈ id :: back → c = new := by
    intro c j n hn hj
    rw [hcut.neighbours] at hn
    simp only [if_pos hj] at hn
    obtain ⟨x, hx, hblock⟩ := Option.bind_eq_some_iff.mp hn
    rw [Option.ite_none_right_eq_some] at hblock
    exact hblock.1.symm
  constructor
  . intro c j n hn
    rw [hcut.extent]
    split
    . simp
    . next hcnew =>
      split
      . simp
      . obtain ⟨n', hn'⟩ := hstays c j n hn fun hj => hcnew (hmoves c j n hn hj)
        exact h.home c j n' hn'
  . intro c hc
    by_cases hcnew : c = new
    . subst hcnew
      refine ⟨id :: back, Cut.lists_back hb hlast hcut, ?_⟩
      intro j n hn
      apply Classical.byContradiction
      intro hj
      obtain ⟨n', hn'⟩ := hstays c j n hn hj
      exact h.home c j n' hn' hnew
    . by_cases hcb : c = b
      . subst hcb
        refine ⟨front, Cut.lists_front hb hlast hcut hne, ?_⟩
        intro j n hn
        have hj : j ∉ id :: back := fun hj => hne (hmoves c j n hn hj)
        obtain ⟨n', hn'⟩ := hstays c j n hn hj
        rcases List.mem_append.mp (hb.whole j n' hn') with hfront | hback
        . exact hfront
        . exact absurd hback hj
      . rw [hcut.extent, if_neg hcnew, if_neg hcb] at hc
        obtain ⟨ids, hids⟩ := h.holds c hc
        exact ⟨ids, Cut.holds_of_ne hb hlast hcut hids hcb hcnew⟩

end Cut

theorem extent?_modifyBlock (f : Block → Block)
    : (r.modifyBlock b f).extent? c =
        if c = b then (r.block? c).map fun found => ((f found).first, (f found).last, (f found).len)
        else r.extent? c := by
  unfold extent?
  rw [block?_modifyBlock]
  split
  . rw [Option.map_map]
    rfl
  . rfl

def severed (b new : BlockId) (prev id : InsnId) (moved : List InsnId) (r : Routine) : Routine :=
  let r := { pushBlock r with order := insertBehind b new r.order }
  let r := moved.foldl (fun r id => r.modifyInsn id ({ · with block := new })) r
  (r.modifyInsn id ({ · with prev := none })).modifyInsn prev ({ · with next := none })

theorem insn?_severed {prev : InsnId} {moved : List InsnId}
    : (severed b new prev id moved r).insn? j =
        (r.insn? j).map fun x =>
          { x with
            block := if j ∈ moved then new else x.block
            prev := if j = id then none else x.prev
            next := if j = prev then none else x.next } := by
  have hpush : { pushBlock r with order := insertBehind b new r.order }.insn? j = r.insn? j := rfl
  unfold severed
  rw [insn?_modifyInsn, insn?_modifyInsn, insn?_setBlocks, hpush]
  cases r.insn? j with
  | none => simp
  | some x =>
    by_cases hj : j = prev
    . by_cases hid : j = id
      . simp only [if_pos hj, if_pos hid, Option.map_some]
      . simp only [if_pos hj, if_neg hid, Option.map_some]
    . by_cases hid : j = id
      . simp only [if_neg hj, if_pos hid, Option.map_some]
      . simp only [if_neg hj, if_neg hid, Option.map_some]

theorem block?_severed {prev : InsnId} {moved : List InsnId} (hsize : r.blocks.size < UInt32.size)
    : (severed b new prev id moved r).block? c =
        if c = .ofNat r.blocks.size then some { name := r.nextBlockName } else r.block? c := by
  unfold severed
  rw [block?_modifyInsn, block?_modifyInsn, block?_setBlocks]
  exact block?_pushBlock hsize

theorem cut_of_severed {prev : InsnId} {f g : Block → Block} (hsize : r.blocks.size < UInt32.size)
    (hb : r.Holds b (front ++ id :: back)) (hlast : front.getLast? = some prev)
    (hplaces : SamePlaces
      ((severed b (.ofNat r.blocks.size) prev id (id :: back) r).modifyBlock b f) r')
    (hf : ∀ d, (f d).first = d.first ∧ (f d).last = some prev ∧
      (f d).len = d.len - (id :: back).length)
    (hg : ∀ d, (g d).first = some id ∧ (g d).last = (id :: back).getLast? ∧
      (g d).len = (id :: back).length)
    : Cut r (r'.modifyBlock (.ofNat r.blocks.size) g) b (.ofNat r.blocks.size) front prev id back := by
  -- The cut is complete when both blocks know their ends.
  obtain ⟨found, hfound, hends⟩ := Option.map_eq_some_iff.mp hb.lists.extent
  simp only [Prod.mk.injEq] at hends
  have hne : b ≠ .ofNat r.blocks.size := by
    rintro rfl
    rw [block?_ofNat_size hsize] at hfound
    cases hfound
  constructor
  . intro c j
    refine (hplaces.neighbours c j).trans ?_
    change (severed b (.ofNat r.blocks.size) prev id (id :: back) r).neighbours? c j = _
    unfold neighbours?
    rw [insn?_severed, Option.bind_map]
    rfl
  . intro c
    rw [extent?_modifyBlock, hplaces.extent, extent?_modifyBlock]
    by_cases hnew : c = .ofNat r.blocks.size
    . have hlive : r'.block? c ≠ none := by
        rw [← block?_ne_none_iff, hplaces.extent, extent?_modifyBlock, if_neg (hnew ▸ hne.symm),
          block?_ne_none_iff, block?_severed hsize, if_pos hnew]
        simp
      obtain ⟨d, hd⟩ := Option.ne_none_iff_exists'.mp hlive
      obtain ⟨hfirst, hend, hlen⟩ := hg d
      rw [if_pos hnew, if_pos hnew, hd, Option.map_some, hfirst, hend, hlen]
    . rw [if_neg hnew, if_neg hnew, block?_severed hsize, if_neg hnew]
      by_cases hcb : c = b
      . obtain ⟨hfirst, hend, hlen⟩ := hf found
        rw [if_pos hcb, if_pos hcb, hcb, hfound, Option.map_some, hfirst, hend, hlen, hends.1,
          hends.2.2, List.length_append, Nat.add_sub_cancel]
        cases front with
        | nil => cases hlast
        | cons a front => rfl
      . rw [if_neg hcb, if_neg hcb, extent?, block?_severed hsize, if_neg hnew]
        rfl

theorem split_run {prev : InsnId} (hsize : r.blocks.size < UInt32.size)
    (hb : r.Holds b (front ++ id :: back)) (hi : r.insn? id = some i) (hprev : i.prev = some prev)
    (hlast : front.getLast? = some prev)
    : ∃ r', split b id r = .ok (.ofNat r.blocks.size) r' ∧
        Cut r r' b (.ofNat r.blocks.size) front prev id back := by
  have hblock : i.block = b := by
    obtain ⟨x, hx, hblock⟩ := hb.mem_iff.mp (List.mem_append_right front List.mem_cons_self)
    rw [hi] at hx
    cases hx
    exact hblock
  have hmoved : r.insnsFrom (some id) = id :: back := hb.lists.insnsFrom_eq front
  obtain ⟨found, hfound, hends⟩ := Option.map_eq_some_iff.mp hb.lists.extent
  simp only [Prod.mk.injEq] at hends
  have hold : (severed b (.ofNat r.blocks.size) prev id (id :: back) r).block? b = some found := by
    rw [block?_severed hsize, if_neg, hfound]
    rintro rfl
    rw [block?_ofNat_size hsize] at hfound
    cases hfound
  have hadd : addBlock r = .ok (.ofNat r.blocks.size) (pushBlock r) := rfl
  rw [split_of_prev hi hblock hprev, hmoved, bind_of_ok hadd]
  unfold handOver
  rw [modify_bind_run, modify_bind_run, modify_bind_run, modify_bind_run]
  refine ⟨_, (bind_of_ok (block_run_some hold)).trans rfl,
    cut_of_severed hsize hb hlast (rel_foldl ?_ _ _) ?_ ?_⟩
  . intro r₁ c
    apply SamePlaces.modifyBlock
    intro d
    exact ⟨rfl, rfl, rfl⟩
  . intro d
    exact ⟨rfl, rfl, rfl⟩
  . intro d
    refine ⟨rfl, ?_, rfl⟩
    dsimp only
    rw [hends.2.1]
    simp [List.getLast?_append, List.getLast?_cons]

theorem arranges_split (b : BlockId) (id : InsnId) : Within Arranges (split b id) := by
  intro r
  refine ⟨(keeps_split b id r).grows, ?_⟩
  intro hroomy h
  cases hi : r.insn? id with
  | none =>
    unfold split
    rw [left_bind_of_error (insn_run_none hi)]
    exact h
  | some i =>
    by_cases hb : i.block ≠ b
    . unfold split
      rw [left_bind_of_ok (insn_run_some hi)]
      dsimp only
      simp only [if_pos hb]
      exact h
    . obtain ⟨front, back, hholds, hprev, hnext⟩ := h.holds_block hi
      rw [Classical.not_not.mp hb] at hholds
      cases hlast : i.prev with
      | none =>
        unfold split
        rw [left_bind_of_ok (insn_run_some hi)]
        dsimp only
        simp only [if_neg hb, hlast]
        exact h
      | some prev =>
        -- There is a handle for the new block, since there are enough for what is left behind.
        have hsize : r.blocks.size < UInt32.size := by
          have hgrows : (pushBlock r).Grows (left (split b id) r) := by
            unfold left
            rw [split_of_prev hi (Classical.not_not.mp hb) hlast]
            exact (keeps_handOver b prev id i.ip _ _ _ _).grows
          have := (hgrows.roomy hroomy).blocks
          simp only [pushBlock, Store.size_push] at this
          omega
        obtain ⟨r', hrun, hcut⟩ := split_run hsize hholds hi hlast (hprev.symm.trans hlast)
        rw [left_of_ok hrun]
        apply Cut.arranged hholds (hprev.symm.trans hlast) hcut h
        rw [extent?, block?_ofNat_size hsize, Option.map_none]

end Split

theorem samePlaces_addJump (source target : BlockId)
    : Within SamePlaces (addJump source target) := by
  unfold addJump
  refine Within.bind (Within.block target) fun _ => ?_
  refine Within.bind (Within.block source) fun _ => ?_
  refine Within.bind (samePlaces_modifyBlock (by intro b; exact ⟨rfl, rfl, rfl⟩) _) fun _ => ?_
  exact samePlaces_modifyBlock (by intro b; exact ⟨rfl, rfl, rfl⟩) _

theorem samePlaces_deleteJump (source target : BlockId) (fixPhis : Bool)
    : Within SamePlaces (deleteJump source target fixPhis) := by
  have hphi : ∀ k phi, Within SamePlaces (do
      if k < (← knownInsn phi).slots.length then
        discard (removeOperand phi k) : Edit PUnit) := by
    intro k phi
    refine Within.bind (Within.knownInsn phi) fun i => ?_
    split
    . exact (samePlaces_removeOperand _ _).discard
    . exact Within.pure _
  have hrest : ∀ p s : Nat, Within SamePlaces (do
      modify (·.modifyBlock target fun b => { b with predecessors := b.predecessors.eraseIdx p })
      modify (·.modifyBlock source fun b => { b with successors := b.successors.eraseIdx s }) :
        Edit PUnit) := by
    intro p s
    refine Within.bind (samePlaces_modifyBlock (by intro b; exact ⟨rfl, rfl, rfl⟩) _) fun _ => ?_
    exact samePlaces_modifyBlock (by intro b; exact ⟨rfl, rfl, rfl⟩) _
  unfold deleteJump
  refine Within.bind (Within.block target) fun _ => ?_
  split
  . exact Within.throw _
  . refine Within.bind (Within.block source) fun _ => ?_
    split
    . exact Within.throw _
    . split
      . refine Within.bind Within.get fun r => ?_
        refine Within.bind (Within.forM fun phi _ => hphi _ phi) fun _ => ?_
        apply hrest
      . apply hrest

theorem samePlaces_setBlockRange (b : BlockId) (ip : UInt64) (endIp : Option UInt64)
    : Within SamePlaces (setBlockRange b ip endIp) := by
  unfold setBlockRange
  refine Within.bind (Within.block b) fun _ => ?_
  exact samePlaces_modifyBlock (by intro b; exact ⟨rfl, rfl, rfl⟩) _

end Edit

namespace Routine

section Layout

theorem samePlaces_renameInsns (r : Routine) : r.SamePlaces r.renameInsns := by
  unfold renameInsns
  refine SamePlaces.trans (rel_foldl ?_ _ r) ⟨fun _ _ => rfl, fun _ => rfl⟩
  rintro r ⟨id, name⟩
  apply SamePlaces.modifyInsn
  intro i
  exact ⟨rfl, rfl, rfl⟩

theorem samePlaces_renameBlocks (r : Routine) : r.SamePlaces r.renameBlocks := by
  unfold renameBlocks
  refine SamePlaces.trans (rel_foldl ?_ _ r) ⟨fun _ _ => rfl, fun _ => rfl⟩
  rintro r ⟨id, name⟩
  apply SamePlaces.modifyBlock
  intro b
  exact ⟨rfl, rfl, rfl⟩

theorem samePlaces_topologicalSort (r : Routine) : r.SamePlaces r.topologicalSort := by
  unfold topologicalSort
  split
  . exact SamePlaces.refl r
  . refine SamePlaces.trans ?_ (samePlaces_renameBlocks _)
    exact ⟨fun _ _ => rfl, fun _ => rfl⟩

end Layout

theorem arranges_action (a : Action) : Edit.Within Arranges a.run := by
  have hsame : ∀ a : Action, Edit.Within SamePlaces a.run → Edit.Within Arranges a.run :=
    fun a => Edit.arranges_of_keeps (keeps_action a)
  have hfields : ∀ f : Routine → Routine, (∀ r, SamePlaces r (f r)) →
      Edit.Within SamePlaces (modify f : Edit Unit) := fun f hf => Edit.Within.modify hf
  cases a with
  | setImage image => exact hsame (.setImage image) (hfields _ fun r => ⟨fun _ _ => rfl, fun _ => rfl⟩)
  | setArch arch => exact hsame (.setArch arch) (hfields _ fun r => ⟨fun _ _ => rfl, fun _ => rfl⟩)
  | setIp ip => exact hsame (.setIp ip) (hfields _ fun r => ⟨fun _ _ => rfl, fun _ => rfl⟩)
  | addBlock => exact Edit.arranges_addBlock.discard
  | setBlockRange b ip endIp =>
    exact hsame (.setBlockRange b ip endIp) (Edit.samePlaces_setBlockRange b ip endIp)
  | deleteBlock b => exact Edit.arranges_deleteBlock b
  | addJump source target => exact hsame (.addJump source target) (Edit.samePlaces_addJump _ _)
  | deleteJump source target fixPhis =>
    exact hsame (.deleteJump source target fixPhis) (Edit.samePlaces_deleteJump _ _ _)
  | split b id => exact (Edit.arranges_split b id).discard
  | pushBack b i => exact (Edit.arranges_pushBack b i).discard
  | pushFront b i => exact (Edit.arranges_pushFront b i).discard
  | insertBefore id i => exact (Edit.arranges_insertBefore id i).discard
  | insertAfter id i => exact (Edit.arranges_insertAfter id i).discard
  | setOperand id index x => exact hsame (.setOperand id index x) (Edit.samePlaces_setOperand _ _ _)
  | pushOperand id x => exact hsame (.pushOperand id x) (Edit.samePlaces_pushOperand _ _).discard
  | removeOperand id index =>
    exact hsame (.removeOperand id index) (Edit.samePlaces_removeOperand _ _).discard
  | setOpcode id opcode => exact hsame (.setOpcode id opcode) (Edit.samePlaces_setOpcode _ _)
  | setTemplate id index t => exact hsame (.setTemplate id index t) (Edit.samePlaces_setTemplate _ _ _)
  | replaceUses v x => exact hsame (.replaceUses v x) (Edit.samePlaces_replaceUses _ _).discard
  | erase id => exact Edit.arranges_erase id
  | eraseIf b direction p => exact (Edit.Within.eraseIf Edit.arranges_erase b direction p).discard
  | topologicalSort => exact hsame .topologicalSort (hfields _ samePlaces_topologicalSort)
  | renameInsns => exact hsame .renameInsns (hfields _ samePlaces_renameInsns)
  | renameBlocks => exact hsame .renameBlocks (hfields _ samePlaces_renameBlocks)
  | foldConstants b debug => exact (Edit.covers_arranges.foldConstants b debug).discard
  | deduplicate b debug => exact (Edit.covers_arranges.deduplicate b debug).discard
  | combine b debug => exact (Edit.covers_arranges.combine b debug).discard
  | resolveLoads b debug => exact (Edit.covers_arranges.resolveLoads b debug).discard
  | forwardRegisters b debug => exact (Edit.covers_arranges.forwardRegisters b debug).discard
  | removeDeadCode b => exact (Edit.covers_arranges.removeDeadCode b).discard

theorem arranges_actions (actions : List Action) (r : Routine)
    : r.Arranges (actions.foldl (fun r a => Edit.left a.run r) r) :=
  rel_foldl (fun r a => arranges_action a r) actions r

theorem arranged_empty : ({} : Routine).Arranged := by
  constructor
  . intro b id n hn
    simp [neighbours?, insn?, Store.get?] at hn
  . intro b hb
    simp [extent?, block?, Store.get?] at hb

theorem arranged_of_roomy (actions : List Action) (h : (after actions).Roomy)
    : (after actions).Arranged := (arranges_actions actions {}).arranged h arranged_empty

theorem arranged_after (actions : List Action) (h : (after actions).Small)
    : (after actions).Arranged := arranged_of_roomy actions h.roomy

end Routine

end MachineIR
