import MachineIR.Proofs.Replacement

/-!
This module contains what the placing and erasing of instructions does to a routine that tracks its
uses. An instruction is placed with slots that are still without records, which are then linked one
by one; before it is erased, its slots give up their records one by one.
-/

namespace MachineIR

namespace Edit

open Routine

variable {r r' : Routine} {id : InsnId} {k : Nat} {x : Operand} {v : ValueId}

section Place

theorem sameUses_setNext (b : BlockId) (id next : Option InsnId) (r : Routine)
    : r.SameUses (setNext b id next r) := by
  unfold setNext
  split
  . apply SameUses.modifyInsn <;> intro i <;> rfl
  . apply SameUses.modifyBlock
    intro b
    rfl

theorem sameUses_setPrev (b : BlockId) (id prev : Option InsnId) (r : Routine)
    : r.SameUses (setPrev b id prev r) := by
  unfold setPrev
  split
  . apply SameUses.modifyInsn <;> intro i <;> rfl
  . apply SameUses.modifyBlock
    intro b
    rfl

theorem grows_linkOperands (id : InsnId) (operands : List Operand) (index : Nat)
    : Within Grows (linkOperands id operands index) := by
  induction operands generalizing index with
  | nil => exact Within.pure _
  | cons x rest ih =>
    unfold linkOperands
    split
    . next heq => cases heq
    . next heq =>
      cases heq
      apply Within.bind
      . apply grows_linkUse
      . intro use
        apply Within.bind
        . apply Within.modify
          intro r
          apply grows_modifyInsn
        . intro u
          apply ih
    . next heq =>
      cases heq
      apply ih

theorem modifySlot_id (r : Routine) (id : InsnId) (k : Nat)
    : r.modifySlot id k (fun s => s) = r := by
  have hslots : ∀ l : List Slot, l.modify k (fun s => s) = l := by
    intro l
    apply List.ext_getElem?
    intro n
    rw [List.getElem?_modify]
    simp
  unfold modifySlot modifyInsn
  simp only [hslots]
  congr 1
  apply Store.ext_get?
  . simp
  . intro n
    rw [Store.get?_modify]
    split
    . simp
    . rfl

theorem linkOperands_plain (hx : ∀ v, x ≠ .value v) (id : InsnId) (rest : List Operand) (index : Nat)
    : linkOperands id (x :: rest) index = linkOperands id rest (index + 1) := by
  cases x with
  | value v => exact absurd rfl (hx v)
  | _ => rfl

theorem linkOperands_run (id : InsnId) (operands : List Operand) (index : Nat)
    (hslots : ∀ n, r.slot? id (index + n) = operands[n]?.map fun x => ⟨x, none⟩)
    (hlive : ∀ x ∈ operands, r.Admits x)
    : ∃ r', linkOperands id operands index r = .ok () r' ∧ r'.bare = r.bare ∧
        r.uses.records.size ≤ r'.uses.records.size ∧
        r'.uses.records.size ≤ max r.uses.records.size (r.uses.live + operands.length) ∧
        (r.Tracks (fun j n => j = id ∧ index ≤ n) → r'.uses.records.size ≤ UInt32.size →
          r'.Tracked) := by
  induction operands generalizing r index with
  | nil =>
    refine ⟨r, rfl, rfl, Nat.le_refl _, Nat.le_max_left _ _, ?_⟩
    intro h hsize
    apply h.mono
    rintro j n w hs ⟨rfl, hn⟩
    have := hslots (n - index)
    rw [Nat.add_sub_cancel' hn, hs] at this
    cases this
  | cons x rest ih =>
    have hrest : ∀ n, r.slot? id (index + 1 + n) = rest[n]?.map fun x => ⟨x, none⟩ := by
      intro n
      rw [Nat.add_assoc, Nat.add_comm 1 n, hslots]
      rfl
    have hx : r.slot? id index = some ⟨x, none⟩ := hslots 0
    by_cases hvalue : ∃ v, x = .value v
    . obtain ⟨v, rfl⟩ := hvalue
      obtain ⟨r₁, hrun, hlinked, htracks⟩ := linkSlot_run hx (hlive _ (by simp) v rfl)
        (f := fun use s => { s with use := some use }) (g := fun s => s)
        (by intro use; rfl) (by intro use s; rfl)
      have hbare : r₁.bare = r.bare := by
        rw [hlinked.bare, modifySlot_id]
      have hrest₁ : ∀ n, r₁.slot? id (index + 1 + n) = rest[n]?.map fun x => ⟨x, none⟩ := by
        intro n
        rw [hlinked.slot, if_neg (by omega), hrest]
      have hlive₁ : ∀ y ∈ rest, r₁.Admits y := by
        intro y hy w heq
        exact isSome_useList?_of_bare_eq hbare (hlive y (by simp [hy]) w heq)
      obtain ⟨r₂, hrun₂, hbare₂, hsize₂, hgrown₂, htracked₂⟩ := ih (index + 1) hrest₁ hlive₁
      refine ⟨r₂, ?_, by rw [hbare₂, hbare], Nat.le_trans hlinked.size hsize₂, ?_, ?_⟩
      . unfold linkOperands
        rw [← bind_assoc, bind_of_ok hrun]
        exact hrun₂
      . have hsize := hlinked.size_le
        have hlive := hlinked.live
        rw [List.length_cons]
        omega
      . intro h hsize
        apply htracked₂ _ hsize
        apply (htracks _ h (by omega)).mono
        rintro j n w hs ⟨⟨rfl, hn⟩, hne⟩
        have : n ≠ index := fun heq => hne ⟨rfl, heq⟩
        exact ⟨rfl, by omega⟩
    . have hplain : ∀ v, x ≠ .value v := fun v heq => hvalue ⟨v, heq⟩
      obtain ⟨r', hrun, hbare, hsize, hgrown, htracked⟩ :=
        ih (index + 1) hrest fun y hy => hlive y (by simp [hy])
      refine ⟨r', by rw [linkOperands_plain hplain, hrun], hbare, hsize, ?_, ?_⟩
      . rw [List.length_cons]
        omega
      . intro h hsize'
        apply htracked _ hsize'
        apply h.mono
        rintro j n w hs ⟨rfl, hn⟩
        refine ⟨rfl, ?_⟩
        -- The slot `index` itself refers to no value.
        rcases Nat.lt_or_eq_of_le hn with hlt | rfl
        . omega
        . rw [hx] at hs
          cases hs
          exact absurd rfl (hplain w)

theorem forM_requireLive_run (operands : List Operand) (r : Routine)
    : (operands.forM requireLive r = .ok () r ∧ ∀ x ∈ operands, r.Admits x) ∨
        ∃ e, operands.forM requireLive r = .error e r := by
  induction operands with
  | nil =>
    left
    refine ⟨rfl, ?_⟩
    intro x hx
    cases hx
  | cons x rest ih =>
    unfold List.forM
    cases requireLive_run x r with
    | inl hlive =>
      rw [bind_of_ok hlive.1]
      cases ih with
      | inl ih =>
        left
        refine ⟨ih.1, ?_⟩
        intro y hy
        cases List.mem_cons.mp hy with
        | inl heq => exact heq ▸ hlive.2
        | inr hy => exact ih.2 y hy
      | inr ih => exact Or.inr ih
    | inr herror =>
      obtain ⟨e, he⟩ := herror
      right
      exact ⟨e, bind_of_error he⟩

def pushInsn (i : Insn) (r : Routine) : Routine :=
  { r with insns := r.insns.push i, nextInsnName := r.nextInsnName + 1 }

theorem insn?_pushInsn (hsize : r.insns.size < UInt32.size) (i : Insn) (j : InsnId)
    : (pushInsn i r).insn? j = if j = .ofNat r.insns.size then some i else r.insn? j := by
  unfold pushInsn insn?
  dsimp only
  rw [Store.get?_push]
  simp only [← InsnId.toNat_inj, InsnId.toNat_ofNat hsize]

theorem tracks_pushInsn {i : Insn} (h : r.Tracked) (hsize : r.insns.size < UInt32.size)
    (hslots : ∀ s ∈ i.slots, s.use = none ∧ r.Admits s.operand) (huses : i.uses = {})
    : (pushInsn i r).Tracks fun j _ => j = .ofNat r.insns.size := by
  have hfresh : r.insn? (.ofNat r.insns.size) = none := by
    unfold insn?
    rw [InsnId.toNat_ofNat hsize]
    cases hget : r.insns.get? r.insns.size with
    | none => rfl
    | some j =>
      have := Store.lt_size_of_get? hget
      omega
  have hslot : ∀ j n, (pushInsn i r).slot? j n =
      if j = .ofNat r.insns.size then i.slots[n]? else r.slot? j n := by
    intro j n
    unfold slot?
    rw [insn?_pushInsn hsize]
    split
    . rfl
    . rfl
  have hlist : ∀ w, (pushInsn i r).useList? w =
      if w = .insn (.ofNat r.insns.size) then some {} else r.useList? w := by
    intro w
    cases w with
    | insn j =>
      simp only [useList?, insn?_pushInsn hsize, ValueId.insn.injEq]
      split
      . rw [Option.map_some, huses]
      . rfl
    | block b => simp [useList?, pushInsn, block?]
  have hpending : (pushInsn i r).Tracks fun j _ => False ∨ j = .ofNat r.insns.size := by
    apply h.extend (fun j _ => j = .ofNat r.insns.size) fun w => w = .insn (.ofNat r.insns.size)
    . rintro j n rfl
      simp [slot?, hfresh]
    . rintro w rfl
      simp [useList?, hfresh]
    . rfl
    . intro j n hj
      rw [hslot, if_neg hj]
    . intro j n s hj hs
      rw [hslot, if_pos hj] at hs
      exact hslots s (List.mem_of_getElem? hs)
    . intro w hw
      rw [hlist, if_neg hw]
    . intro w hw
      rw [hlist, if_pos hw]
  apply hpending.mono
  rintro j n w hs (hfalse | hj)
  . exact hfalse.elim
  . exact hj

def placed (b : BlockId) (prev next : Option InsnId) (i : Instruction) (r : Routine) : Insn where
  opcode := i.opcode
  templates := i.templates
  slots := i.operands.map fun x => { operand := x }
  ip := i.ip <|> (prev.bind r.insn?).bind Insn.ip
  block := b
  prev
  next
  name := r.nextInsnName

def join (b : BlockId) (prev next : Option InsnId) (id : InsnId) : Edit InsnId := do
  modify (joinBetween b prev next id)
  modify (·.modifyBlock b fun b => { b with len := b.len + 1 })
  pure id

theorem keeps_join (b : BlockId) (prev next : Option InsnId) (id : InsnId)
    : Within Keeps (join b prev next id) := by
  unfold join
  apply Within.bind
  . apply Within.modify
    intro r
    apply SameUses.keeps
    apply SameUses.trans
    . exact sameUses_setNext b prev (some id) r
    . exact sameUses_setPrev b next (some id) _
  . intro u
    apply Within.bind
    . exact keeps_modifyBlock (by intro b; rfl) _
    . intro u
      exact Within.pure _

theorem place_of_live {b : BlockId} {prev next : Option InsnId} {i : Instruction}
    (hlive : i.operands.forM requireLive r = .ok () r)
    : place b prev next i r =
        (linkOperands (.ofNat r.insns.size) i.operands 0 >>= fun _ =>
          join b prev next (.ofNat r.insns.size)) (pushInsn (placed b prev next i r) r) := by
  unfold place
  rw [bind_of_ok hlive]
  rfl

theorem keeps_place (b : BlockId) (prev next : Option InsnId) (i : Instruction)
    : Within Keeps (place b prev next i) := by
  intro r
  cases forM_requireLive_run i.operands r with
  | inr herror =>
    obtain ⟨e, he⟩ := herror
    unfold place
    rw [left_bind_of_error he]
    apply Keeps.refl
  | inl hlive =>
    have hleft : left (place b prev next i) r =
        left (linkOperands (.ofNat r.insns.size) i.operands 0 >>= fun _ =>
          join b prev next (.ofNat r.insns.size)) (pushInsn (placed b prev next i r) r) := by
      unfold left
      rw [place_of_live hlive.1]
    rw [hleft]
    have hlinkGrows := grows_linkOperands (.ofNat r.insns.size) i.operands 0
    have hjoin := keeps_join b prev next (.ofNat r.insns.size)
    have hpush : r.Grows (pushInsn (placed b prev next i r) r) := by
      refine ⟨?_, Nat.le_refl _, Nat.le_refl _⟩
      simp [pushInsn]
    have hgrows : (pushInsn (placed b prev next i r) r).Grows
        (left (linkOperands (.ofNat r.insns.size) i.operands 0 >>= fun _ =>
          join b prev next (.ofNat r.insns.size)) (pushInsn (placed b prev next i r) r)) := by
      apply Within.bind hlinkGrows
      intro u
      exact hjoin.mono fun r r' h => h.grows
    refine ⟨hpush.trans hgrows, ?_⟩
    intro hsmall htracked
    have hsize : r.insns.size < UInt32.size := by
      have := (hgrows.small hsmall).insns
      simp only [pushInsn, Store.size_push] at this
      omega
    have hinsn : (pushInsn (placed b prev next i r) r).insn? (.ofNat r.insns.size) =
        some (placed b prev next i r) := by
      rw [insn?_pushInsn hsize, if_pos rfl]
    -- The new instruction comes without records, so all of its slots are pending until they are
    -- linked.
    have htracks : (pushInsn (placed b prev next i r) r).Tracks
        fun j _ => j = .ofNat r.insns.size := by
      apply tracks_pushInsn htracked hsize
      . intro s hs
        simp only [placed, List.mem_map] at hs
        obtain ⟨x, hx, rfl⟩ := hs
        exact ⟨rfl, hlive.2 x hx⟩
      . rfl
    obtain ⟨r₂, hrun, -, -, -, htracked₂⟩ :=
      linkOperands_run (r := pushInsn (placed b prev next i r) r) (.ofNat r.insns.size)
        i.operands 0
        (by
          intro n
          rw [slot?_eq hinsn, Nat.zero_add]
          simp [placed])
        (by
          intro x hx w heq
          obtain ⟨n, hn⟩ := List.mem_iff_getElem?.mp hx
          apply htracks.live (.ofNat r.insns.size) n w none
          rw [slot?_eq hinsn]
          simp [placed, hn, heq])
    rw [left_bind_of_ok hrun] at hsmall ⊢
    apply (hjoin r₂).tracked hsmall
    apply htracked₂
    . exact htracks.mono fun j n w hs hj => ⟨hj, Nat.zero_le n⟩
    . exact ((hjoin r₂).grows.small hsmall).uses

theorem keeps_pushBack (b : BlockId) (i : Instruction) : Within Keeps (pushBack b i) := by
  unfold pushBack
  apply Within.bind
  . exact Within.block b
  . intro found
    apply keeps_place

theorem keeps_pushFront (b : BlockId) (i : Instruction) : Within Keeps (pushFront b i) := by
  unfold pushFront
  apply Within.bind
  . exact Within.block b
  . intro found
    apply keeps_place

theorem keeps_insertBefore (id : InsnId) (i : Instruction) : Within Keeps (insertBefore id i) := by
  unfold insertBefore
  apply Within.bind
  . exact Within.insn id
  . intro neighbour
    apply keeps_place

theorem keeps_insertAfter (id : InsnId) (i : Instruction) : Within Keeps (insertAfter id i) := by
  unfold insertAfter
  apply Within.bind
  . exact Within.insn id
  . intro neighbour
    apply keeps_place

end Place

section Erase

theorem releaseOperands_run (id : InsnId) (ks : List Nat) {pending : InsnId → Nat → Prop}
    (h : r.Tracks pending) (hks : ∀ k ∈ ks, ∃ s, r.slot? id k = some s)
    : ∃ r', ks.forM (releaseOperand id) r = .ok () r' ∧ r'.bare = r.bare ∧
        r'.uses.records.size = r.uses.records.size ∧
        (∀ j n, r'.slot? j n =
          if j = id ∧ n ∈ ks then (r.slot? j n).map Slot.bare else r.slot? j n) ∧
        r'.Tracks fun j n => pending j n ∨ j = id ∧ n ∈ ks := by
  -- A slot that has given up its record joins those that are pending.
  induction ks generalizing r pending with
  | nil =>
    refine ⟨r, rfl, rfl, rfl, ?_, ?_⟩
    . intro j n
      simp
    . exact h.mono fun j n w hs hp => Or.inl hp
  | cons k rest ih =>
    obtain ⟨s, hs⟩ := hks k (by simp)
    obtain ⟨r₁, hrun, hrel, htracks⟩ := releaseOperand_run hs (h.releasable hs)
    have hks₁ : ∀ n ∈ rest, ∃ s, r₁.slot? id n = some s := by
      intro n hn
      rw [hrel.slot]
      split
      . exact ⟨_, rfl⟩
      . exact hks n (by simp [hn])
    obtain ⟨r₂, hrun₂, hbare, hsize, hslot, htracks₂⟩ := ih (htracks _ h) hks₁
    refine ⟨r₂, ?_, by rw [hbare, hrel.bare], by rw [hsize, hrel.size], ?_, ?_⟩
    . unfold List.forM
      rw [bind_of_ok hrun]
      exact hrun₂
    . intro j n
      rw [hslot, hrel.slot]
      by_cases hjn : j = id ∧ n = k
      . obtain ⟨rfl, rfl⟩ := hjn
        simp [hs, Slot.bare]
      . rw [if_neg hjn]
        have : (j = id ∧ n ∈ k :: rest) ↔ (j = id ∧ n ∈ rest) := by
          rw [List.mem_cons]
          constructor
          . rintro ⟨hj, rfl | hn⟩
            . exact absurd ⟨hj, rfl⟩ hjn
            . exact ⟨hj, hn⟩
          . rintro ⟨hj, hn⟩
            exact ⟨hj, Or.inr hn⟩
        simp only [this]
    . apply htracks₂.mono
      rintro j n w hs ((hp | ⟨hj, hn⟩) | ⟨hj, hn⟩)
      . exact Or.inl hp
      . exact Or.inr ⟨hj, by simp [hn]⟩
      . exact Or.inr ⟨hj, by simp [hn]⟩

def detach (id : InsnId) (i : Insn) (r : Routine) : Routine :=
  let r := (joinNeighbours i.block i.prev i.next r).modifyBlock i.block fun b =>
    { b with len := b.len - 1 }
  { r with insns := r.insns.erase id.toNat }

theorem sameUses_unlinked (i : Insn) (r : Routine)
    : r.SameUses ((joinNeighbours i.block i.prev i.next r).modifyBlock i.block fun b =>
        { b with len := b.len - 1 }) := by
  apply SameUses.trans
  . apply SameUses.trans
    . exact sameUses_setNext i.block i.prev i.next r
    . exact sameUses_setPrev i.block i.next i.prev _
  . apply SameUses.modifyBlock
    intro b
    rfl

theorem insn?_eraseInsn (r : Routine) (id j : InsnId)
    : { r with insns := r.insns.erase id.toNat }.insn? j = if j = id then none else r.insn? j := by
  unfold insn?
  dsimp only
  rw [Store.get?_erase]
  simp only [InsnId.toNat_inj, eq_comm]

theorem tracked_detach {i : Insn} (h : r.Tracks fun j _ => j = id)
    (hslots : ∀ k x use, r.slot? id k ≠ some ⟨x, some use⟩)
    (hfree : ∀ j k use, r.slot? j k = some ⟨.value (.insn id), use⟩ → j = id)
    : (detach id i r).Tracked := by
  have hsame := sameUses_unlinked i r
  unfold detach
  dsimp only
  generalize (joinNeighbours i.block i.prev i.next r).modifyBlock i.block
    (fun b => { b with len := b.len - 1 }) = r₁ at hsame ⊢
  have hslot : ∀ j n, { r₁ with insns := r₁.insns.erase id.toNat }.slot? j n =
      if j = id then none else r₁.slot? j n := by
    intro j n
    unfold slot?
    rw [insn?_eraseInsn]
    split
    . rfl
    . rfl
  have hlist : ∀ w, { r₁ with insns := r₁.insns.erase id.toNat }.useList? w =
      if w = .insn id then none else r₁.useList? w := by
    intro w
    cases w with
    | insn j =>
      simp only [useList?, insn?_eraseInsn, ValueId.insn.injEq]
      split
      . rfl
      . rfl
    | block b => simp [useList?, block?]
  have huses : { r₁ with insns := r₁.insns.erase id.toNat }.uses = r₁.uses := rfl
  generalize { r₁ with insns := r₁.insns.erase id.toNat } = r₂ at hslot hlist huses ⊢
  have hremoved : r₂.Tracks fun j n => j = id ∧ ¬ j = id := by
    apply (hsame.tracks h).remove (fun j => j = id) (fun w => w = .insn id)
    . rintro j n use x rfl hs
      rw [hsame.slot] at hs
      exact hslots n x use hs
    . rintro j n use w hj rfl hs
      rw [hsame.slot] at hs
      exact hj (hfree j n use hs)
    . exact huses
    . intro j n hj
      rw [hslot, if_neg hj]
    . intro j n hj
      rw [hslot, if_pos hj]
    . intro w hw
      rw [hlist, if_neg hw]
    . intro w hw
      rw [hlist, if_pos hw]
  apply hremoved.mono
  rintro j n w hs ⟨hj, hne⟩
  exact hne hj

theorem detach_congr {i i' : Insn} (h : i'.bare = i.bare) (id : InsnId) (r : Routine)
    : detach id i' r = detach id i r := by
  have hblock : i'.bare.block = i.bare.block := by rw [h]
  have hprev : i'.bare.prev = i.bare.prev := by rw [h]
  have hnext : i'.bare.next = i.bare.next := by rw [h]
  simp only [Insn.bare] at hblock hprev hnext
  unfold detach
  rw [hblock, hprev, hnext]

theorem bare_setNext (b : BlockId) (id next : Option InsnId) (r : Routine)
    : (setNext b id next r).bare = setNext b id next r.bare := by
  unfold setNext
  split
  . apply bare_modifyInsn
    intro i
    rfl
  . apply bare_modifyBlock
    intro b
    rfl

theorem bare_setPrev (b : BlockId) (id prev : Option InsnId) (r : Routine)
    : (setPrev b id prev r).bare = setPrev b id prev r.bare := by
  unfold setPrev
  split
  . apply bare_modifyInsn
    intro i
    rfl
  . apply bare_modifyBlock
    intro b
    rfl

theorem bare_detach (id : InsnId) (i : Insn) (r : Routine)
    : (detach id i r).bare = detach id i r.bare := by
  have herase : ∀ r : Routine, { r with insns := r.insns.erase id.toNat }.bare =
      { r.bare with insns := r.bare.insns.erase id.toNat } := by
    intro r
    unfold bare
    dsimp only
    rw [Store.map_erase]
  unfold detach joinNeighbours
  dsimp only
  rw [herase, bare_modifyBlock (g := fun b => { b with len := b.len - 1 }), bare_setPrev,
    bare_setNext]
  intro b
  rfl

theorem lingering_eq_zero_iff (h : r.Tracked) (id : InsnId)
    : ((r.usesOf (.insn id)).countP fun (user, _) => user ≠ id) = 0 ↔
        ∀ j k use, r.slot? j k = some ⟨.value (.insn id), use⟩ → j = id := by
  rw [List.countP_eq_zero]
  constructor
  . intro hall j k use hs
    cases use with
    | none => exact (h.closed j k _ hs).elim
    | some use =>
      have := hall (j, k) (h.mem_usesOf.mpr ⟨use, hs⟩)
      simpa using this
  . rintro hfree ⟨j, k⟩ hmem
    obtain ⟨use, hs⟩ := h.mem_usesOf.mp hmem
    simpa using hfree j k _ hs

theorem erase_run {i : Insn} (h : r.Tracked) (hi : r.insn? id = some i)
    (hfree : ∀ j k use, r.slot? j k = some ⟨.value (.insn id), use⟩ → j = id)
    : ∃ r', erase id r = .ok () r' ∧ r'.bare = detach id i r.bare ∧
        r'.uses.records.size = r.uses.records.size ∧ r'.Tracked := by
  have hlingering := (lingering_eq_zero_iff h id).mpr hfree
  obtain ⟨r₁, hrun, hbare, hsize, hslot, htracks⟩ :=
    releaseOperands_run id (List.range i.slots.length) h (by
      intro k hk
      rw [List.mem_range] at hk
      rw [slot?_eq hi]
      exact ⟨_, List.getElem?_eq_getElem hk⟩)
  have hi₁ : (r₁.insn? id).map Insn.bare = some i.bare := by
    rw [← insn?_bare, hbare, insn?_bare, hi]
    rfl
  obtain ⟨i₁, hi₁, hsame⟩ := Option.map_eq_some_iff.mp hi₁
  refine ⟨detach id i₁ r₁, ?_, ?_, ?_, ?_⟩
  . unfold erase
    rw [bind_of_ok (insn_run_some hi), get_bind_run]
    dsimp only
    rw [hlingering]
    rw [if_neg (Nat.lt_irrefl 0), bind_of_ok hrun]
    unfold unlinkInsn
    rw [bind_assoc, bind_of_ok (insn_run_some hi₁)]
    rfl
  . rw [detach_congr hsame, bare_detach, hbare]
  . rw [← hsize]
    exact congrArg (·.records.size) (sameUses_unlinked i₁ r₁).uses
  . -- The slots of the instruction have no records, and the other ones are as they were.
    have hslots : ∀ k x use, r₁.slot? id k ≠ some ⟨x, some use⟩ := by
      intro k x use hs
      rw [hslot] at hs
      split at hs
      . rw [Option.map_eq_some_iff] at hs
        obtain ⟨s, -, heq⟩ := hs
        cases heq
      . next hk =>
        rw [slot?_eq hi] at hs
        have := (List.getElem?_eq_some_iff.mp hs).1
        exact hk ⟨rfl, List.mem_range.mpr this⟩
    apply tracked_detach _ hslots
    . intro j k use hs
      have hbare' : r₁.bare.slot? j k = some ⟨.value (.insn id), none⟩ := by
        rw [slot?_bare, hs]
        rfl
      rw [hbare, slot?_bare, Option.map_eq_some_iff] at hbare'
      obtain ⟨⟨x, use'⟩, hs', heq⟩ := hbare'
      cases heq
      exact hfree j k use' hs'
    . apply htracks.mono
      rintro j n w hs (hfalse | ⟨hj, hn⟩)
      . exact hfalse.elim
      . exact hj

theorem erase_run_error (h : r.insn? id = none ∨
    0 < (r.usesOf (.insn id)).countP fun (user, _) => user ≠ id)
    : ∃ e, erase id r = .error e r := by
  unfold erase
  cases hi : r.insn? id with
  | none => exact ⟨_, bind_of_error (insn_run_none hi)⟩
  | some i =>
    rw [hi] at h
    rw [bind_of_ok (insn_run_some hi), get_bind_run]
    dsimp only
    cases h with
    | inl h => cases h
    | inr h =>
      rw [if_pos h]
      exact ⟨_, rfl⟩

theorem erase_run_cases (h : r.Tracked) (id : InsnId)
    : (∃ e, erase id r = .error e r) ∨
        ∃ i r', r.insn? id = some i ∧
          (∀ j k use, r.slot? j k = some ⟨.value (.insn id), use⟩ → j = id) ∧
          erase id r = .ok () r' ∧ r'.bare = detach id i r.bare ∧
          r'.uses.records.size = r.uses.records.size ∧ r'.Tracked := by
  cases hi : r.insn? id with
  | none => exact Or.inl (erase_run_error (Or.inl hi))
  | some i =>
    rcases Nat.eq_zero_or_pos ((r.usesOf (.insn id)).countP fun (user, _) => user ≠ id) with hz | hpos
    . have hfree := (lingering_eq_zero_iff h id).mp hz
      obtain ⟨r', hrun, hrest⟩ := erase_run h hi hfree
      exact Or.inr ⟨i, r', rfl, hfree, hrun, hrest⟩
    . exact Or.inl (erase_run_error (Or.inr hpos))

theorem grows_erase (id : InsnId) : Within Grows (erase id) := by
  have hrest : ∀ ks : List Nat, Within Grows (do
      ks.forM (releaseOperand id)
      unlinkInsn id
      modify fun r => { r with insns := r.insns.erase id.toNat } : Edit PUnit) := by
    intro ks
    apply Within.bind
    . apply Within.forM
      intro k hk
      apply grows_releaseOperand
    . intro u
      apply Within.bind
      . unfold unlinkInsn
        apply Within.bind
        . exact Within.insn id
        . intro i
          apply Within.bind
          . apply Within.modify
            intro r
            apply Grows.trans
            . exact (sameUses_setNext i.block i.prev i.next r).keeps.grows
            . exact (sameUses_setPrev i.block i.next i.prev _).keeps.grows
          . intro u
            apply Within.modify
            intro r
            refine ⟨Nat.le_refl _, ?_, Nat.le_refl _⟩
            simp [modifyBlock]
      . intro u
        apply Within.modify
        intro r
        refine ⟨?_, Nat.le_refl _, Nat.le_refl _⟩
        simp
  unfold erase
  apply Within.bind
  . exact Within.insn id
  . intro i
    apply Within.bind
    . exact Within.get
    . intro r
      dsimp only
      split
      . exact Within.throw _
      . exact hrest _

theorem keeps_erase (id : InsnId) : Within Keeps (erase id) := by
  intro r
  refine ⟨grows_erase id r, ?_⟩
  intro hsmall htracked
  rcases erase_run_cases htracked id with ⟨e, he⟩ | ⟨i, r', -, -, hrun, -, -, htracked'⟩
  . rw [left_of_error he]
    exact htracked
  . rw [left_of_ok hrun]
    exact htracked'

theorem Within.eraseWhen {R : Routine → Routine → Prop} [Std.Refl R] [Trans R R R]
    (h : ∀ id, Within R (erase id)) (p : Routine → InsnId → Bool) (id : InsnId)
    : Within R (eraseWhen p id) := by
  unfold Edit.eraseWhen
  refine Within.bind Within.get fun r => ?_
  split
  . refine Within.bind (h id) fun _ => ?_
    exact Within.pure _
  . exact Within.pure _

theorem Within.eraseIf {R : Routine → Routine → Prop} [Std.Refl R] [Trans R R R]
    (h : ∀ id, Within R (erase id)) (b : BlockId) (direction : Direction)
    (p : Routine → InsnId → Bool) : Within R (eraseIf b direction p) :=
  Within.sweep (Within.eraseWhen h p) b direction

theorem keeps_eraseWhen (p : Routine → InsnId → Bool) (id : InsnId)
    : Within Keeps (eraseWhen p id) := Within.eraseWhen keeps_erase p id

theorem keeps_eraseIf (b : BlockId) (direction : Direction) (p : Routine → InsnId → Bool)
    : Within Keeps (eraseIf b direction p) := Within.eraseIf keeps_erase b direction p

end Erase

end Edit

end MachineIR
