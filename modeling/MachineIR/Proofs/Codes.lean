import MachineIR.Proofs.Arrangement
import MachineIR.Proofs.Rewiring

/-!
This module contains the code of a routine, which is its instructions without their places and
records, and what the edits that the passes are made of do to it.
-/

namespace MachineIR

def Instruction.substitute (v : ValueId) (x : Operand) (c : Instruction) : Instruction :=
  { c with operands := c.operands.map fun y => if y = .value v then x else y }

theorem Insn.code_substitute (v : ValueId) (x : Operand) (i : Insn)
    : (i.substitute v x).code = i.code.substitute v x := by
  unfold code Instruction.substitute operands Insn.substitute
  simp only [List.map_map, Instruction.mk.injEq, true_and, and_true]
  apply List.map_congr_left
  intro s hs
  simp only [Function.comp_apply, Slot.substitute]
  split
  . rfl
  . rfl

namespace Routine

variable {r r' : Routine} {b : BlockId} {id j : InsnId} {i : Insn} {c : Instruction} {v : ValueId}
  {x : Operand}

def code? (r : Routine) (id : InsnId) : Option Instruction := (r.insn? id).map Insn.code

theorem code?_of_insn? (hi : r.insn? id = some i) : r.code? id = some i.code := by
  simp [code?, hi]

theorem exists_insn?_of_code? (h : r.code? id = some c) : ∃ i, r.insn? id = some i ∧ i.code = c :=
  Option.map_eq_some_iff.mp h

theorem code?_eq_none_iff : r.code? id = none ↔ r.insn? id = none := by
  simp [code?]

@[simp]
theorem code?_bare : r.bare.code? id = r.code? id := by
  unfold code?
  rw [insn?_bare, Option.map_map]
  congr 1
  funext i
  exact i.code_bare

theorem code?_of_bare_eq (h : r'.bare = r.bare) (id : InsnId) : r'.code? id = r.code? id := by
  rw [← code?_bare, h, code?_bare]

theorem operand?_eq_code? {k : Nat} : r.operand? id k = (r.code? id).bind (·.operands[k]?) := by
  cases hi : r.insn? id with
  | none => simp [operand?, slot?, code?, hi]
  | some i => simp [operand?, slot?, code?, hi, Insn.code, Insn.operands]

theorem code?_substitute : (r.substitute v x).code? id = (r.code? id).map (·.substitute v x) := by
  unfold code?
  rw [insn?_substitute, Option.map_map, Option.map_map]
  congr 1
  funext i
  exact i.code_substitute v x

theorem code?_detach
    : (Edit.detach id i r).code? j = if j = id then none else r.code? j := by
  unfold code?
  rw [insn?_detach]
  split
  . rfl
  . rw [Option.map_map]
    rfl

theorem code?_attach {prev next : Option InsnId}
    : (Edit.attach b prev next id r).code? j = r.code? j := by
  unfold code?
  rw [Edit.insn?_attach, Option.map_map]
  rfl

theorem code?_pushInsn (hsize : r.insns.size < UInt32.size)
    : (Edit.pushInsn i r).code? j = if j = .ofNat r.insns.size then some i.code else r.code? j := by
  unfold code?
  rw [Edit.insn?_pushInsn hsize]
  split <;> rfl

def Refers (r : Routine) (id : InsnId) (v : ValueId) : Prop :=
  ∃ c, r.code? id = some c ∧ .value v ∈ c.operands

theorem refers_iff_slot? : r.Refers id v ↔ ∃ k use, r.slot? id k = some ⟨.value v, use⟩ := by
  constructor
  . rintro ⟨c, hc, hmem⟩
    obtain ⟨i, hi, rfl⟩ := exists_insn?_of_code? hc
    obtain ⟨s, hs, hv⟩ := List.mem_map.mp hmem
    obtain ⟨k, hk⟩ := List.mem_iff_getElem?.mp hs
    refine ⟨k, s.use, ?_⟩
    rw [slot?_eq hi, hk, ← hv]
  . rintro ⟨k, use, hs⟩
    obtain ⟨i, hi, hk⟩ := Option.bind_eq_some_iff.mp hs
    exact ⟨i.code, code?_of_insn? hi, List.mem_map.mpr ⟨_, List.mem_of_getElem? hk, rfl⟩⟩

theorem Tracks.useCount_eq_zero_iff (h : r.Tracked) (hv : r.contains v = true)
    : r.useCount v = 0 ↔ ∀ id, ¬ r.Refers id v := by
  rw [contains_eq, Option.isSome_iff_exists] at hv
  obtain ⟨l, hl⟩ := hv
  obtain ⟨ids, hids, hmem⟩ := h.listed v l hl
  have hcount : r.useCount v = ids.length := by
    rw [useCount, hl, Option.map_some, Option.getD_some, hids.len]
  rw [hcount, List.length_eq_zero_iff]
  constructor
  . rintro rfl id hrefers
    obtain ⟨k, use, hs⟩ := refers_iff_slot?.mp hrefers
    cases use with
    | none => exact h.closed id k v hs
    | some use =>
      have := (hmem use).mpr ⟨id, k, (h.owner id k v use).mp hs⟩
      cases this
  . intro hfree
    rw [List.eq_nil_iff_forall_not_mem]
    intro use huse
    obtain ⟨id, k, href⟩ := (hmem use).mp huse
    exact hfree id (refers_iff_slot?.mpr ⟨k, some use, (h.owner id k v use).mpr href⟩)

theorem Tracks.contains_of_refers (h : r.Tracked) (hrefers : r.Refers id v) : r.contains v = true := by
  obtain ⟨k, use, hs⟩ := refers_iff_slot?.mp hrefers
  rw [contains_eq, Option.isSome_iff_exists]
  exact h.live id k v use hs

section Listing

theorem insnsOf_of_none (h : r.block? b = none) : r.insnsOf b = [] := by
  unfold insnsOf insnsFrom
  rw [h, Option.bind_none]
  cases r.insns.size <;> rfl

theorem Arranged.holds_insnsOf (h : r.Arranged) (hb : r.block? b ≠ none)
    : r.Holds b (r.insnsOf b) := by
  obtain ⟨ids, hids⟩ := h.holds b (block?_ne_none_iff.mpr hb)
  rw [hids.lists.insnsOf_eq]
  exact hids

theorem Arranged.mem_insnsOf (h : r.Arranged)
    : id ∈ r.insnsOf b ↔ ∃ i, r.insn? id = some i ∧ i.block = b := by
  by_cases hb : r.block? b = none
  . rw [insnsOf_of_none hb]
    constructor
    . intro hid
      cases hid
    . rintro ⟨i, hi, hblock⟩
      exact absurd hb (block?_ne_none_iff.mp (h.home b id _ (neighbours?_of_insn? hi hblock)))
  . exact (h.holds_insnsOf hb).mem_iff

theorem Arranged.nodup_insnsOf (h : r.Arranged) (b : BlockId) : (r.insnsOf b).Nodup := by
  by_cases hb : r.block? b = none
  . rw [insnsOf_of_none hb]
    exact List.nodup_nil
  . exact (h.holds_insnsOf hb).lists.chain.nodup

theorem SamePlaces.block?_ne_none (h : r.SamePlaces r') : r'.block? b ≠ none ↔ r.block? b ≠ none := by
  rw [← block?_ne_none_iff, h.extent, block?_ne_none_iff]

theorem SamePlaces.insnsOf (h : r.SamePlaces r') (harranged : r.Arranged) (b : BlockId)
    : r'.insnsOf b = r.insnsOf b := by
  by_cases hb : r.block? b = none
  . have hb' : r'.block? b = none := Classical.not_not.mp fun hne => h.block?_ne_none.mp hne hb
    rw [insnsOf_of_none hb, insnsOf_of_none hb']
  . exact (h.holds (harranged.holds_insnsOf hb)).lists.insnsOf_eq

end Listing

end Routine

namespace Edit

open Routine

variable {r r' : Routine} {b : BlockId} {id j : InsnId} {i : Insn} {v : ValueId} {x : Operand}
  {front back ids : List InsnId}

section Erased

structure Erased (r r' : Routine) (id : InsnId) : Prop where
  free : ∀ j, r.Refers j (.insn id) → j = id
  detached : ∃ i, r.insn? id = some i ∧ r'.bare = (detach id i r).bare
  size : r'.uses.records.size = r.uses.records.size
  tracked : r'.Tracked

theorem erased_of_ok {u : Unit} (htracked : r.Tracked) (h : erase id r = .ok u r')
    : Erased r r' id := by
  rcases erase_run_cases htracked id with ⟨e, he⟩ | ⟨i, r₁, hi, hfree, hrun, hbare, hsize, htracked₁⟩
  . rw [he] at h
    cases h
  . rw [hrun] at h
    cases h
    refine ⟨?_, ⟨i, hi, ?_⟩, hsize, htracked₁⟩
    . intro j hrefers
      obtain ⟨k, use, hs⟩ := refers_iff_slot?.mp hrefers
      exact hfree j k use hs
    . rw [hbare, bare_detach]

namespace Erased

theorem sizes (h : Erased r r' id) : r'.sizes = r.sizes := by
  obtain ⟨i, -, hbare⟩ := h.detached
  have hsame := sameUses_unlinked i r
  rw [sizes_of_bare_eq hbare, Routine.sizes, Routine.sizes, ← hsame.insns, ← hsame.blocks]
  simp [detach]

theorem small (h : Erased r r' id) (hsmall : r.Small) : r'.Small := hsmall.of_sizes h.sizes h.size

theorem code (h : Erased r r' id) (j : InsnId)
    : r'.code? j = if j = id then none else r.code? j := by
  obtain ⟨i, hi, hbare⟩ := h.detached
  rw [code?_of_bare_eq hbare, code?_detach]

theorem refers_iff (h : Erased r r' id) : r'.Refers j v ↔ j ≠ id ∧ r.Refers j v := by
  unfold Refers
  rw [h.code]
  by_cases hj : j = id
  . simp [hj]
  . simp [hj]

theorem holds (h : Erased r r' id) (hb : r.Holds b (front ++ id :: back))
    : r'.Holds b (front ++ back) := by
  obtain ⟨i, hi, hbare⟩ := h.detached
  exact (SamePlaces.of_bare_eq hbare).holds (holds_detach hb hi)

theorem holds_of_ne {c : BlockId} (h : Erased r r' id) (hb : r.Holds b (front ++ id :: back))
    (hids : r.Holds c ids) (hne : c ≠ b) : r'.Holds c ids := by
  obtain ⟨i, hi, hbare⟩ := h.detached
  exact (SamePlaces.of_bare_eq hbare).holds (holds_detach_of_ne hids hb hi hne)

theorem arranged (h : Erased r r' id) (harranged : r.Arranged) : r'.Arranged := by
  obtain ⟨i, hi, hbare⟩ := h.detached
  exact (SamePlaces.of_bare_eq hbare).arranged (arranged_detach harranged hi)

theorem block?_ne_none (h : Erased r r' id) : r'.block? b ≠ none ↔ r.block? b ≠ none := by
  obtain ⟨i, hi, hbare⟩ := h.detached
  rw [← block?_ne_none_iff, (SamePlaces.of_bare_eq hbare).extent, extent?_detach_ne_none,
    block?_ne_none_iff]

theorem insnsOf (h : Erased r r' id) (harranged : r.Arranged) (b : BlockId)
    : r'.insnsOf b = (r.insnsOf b).filter (· ≠ id) := by
  obtain ⟨i, hi, hbare⟩ := h.detached
  obtain ⟨front, back, hholds, -⟩ := harranged.holds_block hi
  by_cases hb : r.block? b = none
  . have hb' : r'.block? b = none := Classical.not_not.mp fun hne => h.block?_ne_none.mp hne hb
    rw [insnsOf_of_none hb, insnsOf_of_none hb']
    rfl
  . by_cases hne : b = i.block
    . subst hne
      have hnodup := hholds.lists.chain.nodup
      rw [(h.holds hholds).lists.insnsOf_eq, hholds.lists.insnsOf_eq, List.filter_append,
        List.filter_cons_of_neg (by simp), List.filter_eq_self.mpr, List.filter_eq_self.mpr]
      . intro j hj
        have := (List.nodup_cons.mp (List.nodup_append.mp hnodup).2.1).1
        simp only [ne_eq, decide_not, Bool.not_eq_true', decide_eq_false_iff_not]
        rintro rfl
        exact this hj
      . intro j hj
        have := (List.nodup_append.mp hnodup).2.2 j hj id List.mem_cons_self
        simpa using this
    . have hids := harranged.holds_insnsOf hb
      rw [(h.holds_of_ne hholds hids hne).lists.insnsOf_eq, List.filter_eq_self.mpr]
      intro j hj
      have := hids.lists.disjoint hholds.lists (fun heq => hne heq.symm) hj
      simp only [ne_eq, decide_not, Bool.not_eq_true', decide_eq_false_iff_not]
      rintro rfl
      exact this (by simp)

end Erased

end Erased

section Replaced

theorem replaced_of_ok {n : Nat} (htracked : r.Tracked) (hsmall : r.Small)
    (h : replaceUses v x r = .ok n r')
    : (x = .value v ∧ n = 0 ∧ r' = r) ∨
        (x ≠ .value v ∧ n = r.useCount v ∧ r.contains v = true ∧ Replaced r r' v x) := by
  by_cases hx : x = .value v
  . left
    unfold replaceUses at h
    rw [if_pos hx] at h
    cases h
    exact ⟨hx, rfl, rfl⟩
  . right
    by_cases hlive : r.contains v = true ∧ r.Admits x
    . obtain ⟨r₁, hrun, hreplaced⟩ := replaceUses_run htracked hsmall hlive.1 hlive.2 hx
      rw [hrun] at h
      cases h
      exact ⟨hx, rfl, hlive.1, hreplaced⟩
    . have hdead : r.contains v = false ∨ ¬ r.Admits x := by
        cases hv : r.contains v with
        | false => exact Or.inl rfl
        | true => exact Or.inr fun hadmits => hlive ⟨hv, hadmits⟩
      obtain ⟨e, he⟩ := replaceUses_run_error hx hdead
      rw [he] at h
      cases h

namespace Replaced

theorem code (h : Replaced r r' v x) (j : InsnId)
    : r'.code? j = (r.code? j).map (·.substitute v x) := by
  rw [← code?_bare, h.bare, code?_substitute, code?_bare]

theorem samePlaces (h : Replaced r r' v x) : r.SamePlaces r' := by
  constructor
  . intro b id
    rw [← neighbours?_bare, h.bare]
    unfold neighbours?
    rw [insn?_substitute, insn?_bare, Option.map_map, Option.bind_map]
    rfl
  . intro b
    rw [← extent?_bare, h.bare]
    exact extent?_bare

theorem refers_iff {w : ValueId} (h : Replaced r r' v x)
    : r'.Refers j w ↔ (w ≠ v ∧ r.Refers j w) ∨ (x = .value w ∧ r.Refers j v) := by
  unfold Refers
  rw [h.code]
  cases r.code? j with
  | none => simp
  | some c =>
    simp only [Option.map_some, Option.some.injEq, exists_eq_left', Instruction.substitute,
      List.mem_map]
    constructor
    . rintro ⟨y, hy, heq⟩
      split at heq
      . next hv => exact Or.inr ⟨heq, hv ▸ hy⟩
      . next hv =>
        subst heq
        exact Or.inl ⟨fun hw => hv (hw ▸ rfl), hy⟩
    . rintro (⟨hne, hw⟩ | ⟨rfl, hv⟩)
      . exact ⟨_, hw, if_neg fun heq => hne (Operand.value.inj heq)⟩
      . exact ⟨_, hv, if_pos rfl⟩

theorem operand? (h : Replaced r r' v x) (j : InsnId) (k : Nat)
    : r'.operand? j k = (r.operand? j k).map fun y => if y = .value v then x else y := by
  rw [operand?_eq_code?, operand?_eq_code?, h.code]
  cases r.code? j with
  | none => rfl
  | some c => simp [Instruction.substitute]

theorem not_refers (h : Replaced r r' v x) (hne : x ≠ .value v) (j : InsnId) : ¬ r'.Refers j v := by
  intro hrefers
  rcases h.refers_iff.mp hrefers with ⟨hv, -⟩ | ⟨hx, -⟩
  . exact hv rfl
  . exact hne hx

end Replaced

end Replaced

section Inserted

/-- The instruction `c` stands in front of `id`, and nothing else has changed but links and records. -/
structure Inserted (r r' : Routine) (id : InsnId) (i : Instruction) (c : InsnId) : Prop where
  size : r.insns.size < UInt32.size
  fresh : c = .ofNat r.insns.size
  admits : ∀ x ∈ i.operands, r.Admits x
  uses : r'.uses.records.size ≤ max r.uses.records.size (r.uses.live + i.operands.length)
  attached : ∃ n, r.insn? id = some n ∧
    r'.bare = (attach n.block n.prev (some id) c (pushInsn (placed n.block n.prev (some id) i r) r)).bare

theorem insertBefore_run (id : InsnId) (i : Instruction) (hsize : r.insns.size < UInt32.size)
    : (∃ e, insertBefore id i r = .error e r) ∨
        ∃ c r', insertBefore id i r = .ok c r' ∧ Inserted r r' id i c := by
  unfold insertBefore
  cases hid : r.insn? id with
  | none => exact Or.inl ⟨_, bind_of_error (insn_run_none hid)⟩
  | some n =>
    rw [bind_of_ok (insn_run_some hid)]
    rcases forM_requireLive_run i.operands r with ⟨-, hlive⟩ | ⟨e, he⟩
    . obtain ⟨r₁, hplace, hbare, huses⟩ := place_run n.block n.prev (some id) hsize hlive
      exact Or.inr ⟨_, r₁, hplace, hsize, rfl, hlive, huses, n, hid, hbare⟩
    . left
      refine ⟨e, ?_⟩
      unfold place
      rw [bind_of_error he]

theorem size_of_insertBefore {i : Instruction} (hsmall : (left (insertBefore id i) r).Small)
    : (∃ e, insertBefore id i r = .error e r) ∨ r.insns.size < UInt32.size := by
  unfold insertBefore at hsmall ⊢
  cases hid : r.insn? id with
  | none => exact Or.inl ⟨_, bind_of_error (insn_run_none hid)⟩
  | some n =>
    rw [left_bind_of_ok (insn_run_some hid)] at hsmall
    rw [bind_of_ok (insn_run_some hid)]
    rcases forM_requireLive_run i.operands r with ⟨hrun, -⟩ | ⟨e, he⟩
    . right
      have hgrows : (pushInsn (placed n.block n.prev (some id) i r) r).Grows
          (left (place n.block n.prev (some id) i) r) := by
        unfold left
        rw [place_of_live hrun]
        apply Within.bind (grows_linkOperands _ _ _)
        intro u
        exact (keeps_join _ _ _ _).mono fun _ _ h => h.grows
      have := (hgrows.small hsmall).insns
      simp only [pushInsn, Store.size_push] at this
      omega
    . left
      refine ⟨e, ?_⟩
      unfold place
      rw [bind_of_error he]

theorem insertBefore_cases {i : Instruction} (hsmall : (left (insertBefore id i) r).Small)
    : (∃ e, insertBefore id i r = .error e r) ∨
        ∃ c r', insertBefore id i r = .ok c r' ∧ Inserted r r' id i c := by
  rcases size_of_insertBefore hsmall with he | hsize
  . exact Or.inl he
  . exact insertBefore_run id i hsize

theorem inserted_of_size {i : Instruction} {c : InsnId} (hsize : r.insns.size < UInt32.size)
    (h : insertBefore id i r = .ok c r') : Inserted r r' id i c := by
  have hcases := insertBefore_run id i hsize
  rw [h] at hcases
  rcases hcases with ⟨e, he⟩ | ⟨c', r₁, heq, hinserted⟩
  . cases he
  . cases heq
    exact hinserted

theorem inserted_of_ok {i : Instruction} {c : InsnId} (hsmall : r'.Small)
    (h : insertBefore id i r = .ok c r') : Inserted r r' id i c := by
  rcases size_of_insertBefore (i := i) (by rwa [left_of_ok h]) with ⟨e, he⟩ | hsize
  . rw [h] at he
    cases he
  . exact inserted_of_size hsize h

namespace Inserted

variable {i : Instruction} {c : InsnId}

theorem sizes (h : Inserted r r' id i c) : r'.sizes = (r.insns.size + 1, r.blocks.size) := by
  obtain ⟨n, -, hbare⟩ := h.attached
  have hsame := sameUses_attach n.block n.prev (some id) c
    (pushInsn (placed n.block n.prev (some id) i r) r)
  rw [sizes_of_bare_eq hbare, Routine.sizes, hsame.insns, hsame.blocks]
  simp [pushInsn]

theorem code (h : Inserted r r' id i c)
    : ∃ ip, ∀ j, r'.code? j = if j = c then some { i with ip } else r.code? j := by
  obtain ⟨n, hn, hbare⟩ := h.attached
  refine ⟨(placed n.block n.prev (some id) i r).ip, ?_⟩
  intro j
  rw [code?_of_bare_eq hbare, code?_attach, code?_pushInsn h.size, h.fresh]
  split
  . unfold Insn.code Insn.operands placed
    simp [Function.comp_def]
  . rfl

theorem refers_iff (h : Inserted r r' id i c)
    : r'.Refers j v ↔ (j ≠ c ∧ r.Refers j v) ∨ (j = c ∧ .value v ∈ i.operands) := by
  obtain ⟨ip, hcode⟩ := h.code
  unfold Refers
  rw [hcode]
  by_cases hj : j = c
  . simp [hj]
  . simp [hj]

theorem holds (h : Inserted r r' id i c) (hb : r.Holds b (front ++ id :: back))
    : r'.Holds b (front ++ c :: id :: back) := by
  obtain ⟨n, hn, hbare⟩ := h.attached
  have hlinks := hb.lists.chain.links_eq
  obtain ⟨n', hn', hblock, heq⟩ := neighbours?_eq_some.mp hlinks
  rw [hn] at hn'
  cases hn'
  obtain ⟨hprev, -⟩ := Prod.mk.inj heq
  apply (SamePlaces.of_bare_eq hbare).holds
  rw [hprev, h.fresh, hblock]
  exact holds_place front (id :: back) h.size hb rfl rfl rfl

theorem holds_of_ne {d : BlockId} (h : Inserted r r' id i c) (hb : r.Holds b (front ++ id :: back))
    (hids : r.Holds d ids) (hne : d ≠ b) : r'.Holds d ids := by
  obtain ⟨n, hn, hbare⟩ := h.attached
  have hlinks := hb.lists.chain.links_eq
  obtain ⟨n', hn', hblock, heq⟩ := neighbours?_eq_some.mp hlinks
  rw [hn] at hn'
  cases hn'
  obtain ⟨hprev, -⟩ := Prod.mk.inj heq
  apply (SamePlaces.of_bare_eq hbare).holds
  rw [hprev, h.fresh, hblock]
  exact holds_place_of_ne front (id :: back) h.size hids hb rfl hne

def putBefore (c id : InsnId) (ids : List InsnId) : List InsnId :=
  ids.flatMap fun j => if j = id then [c, id] else [j]

theorem putBefore_eq_self (hid : id ∉ ids) : putBefore c id ids = ids := by
  unfold putBefore
  induction ids with
  | nil => rfl
  | cons j rest ih =>
    rw [List.mem_cons, not_or] at hid
    rw [List.flatMap_cons, if_neg (Ne.symm hid.1), ih hid.2]
    rfl

theorem mem_putBefore : j ∈ putBefore c id ids ↔ (j = c ∧ id ∈ ids) ∨ j ∈ ids := by
  unfold putBefore
  rw [List.mem_flatMap]
  constructor
  . rintro ⟨a, ha, hj⟩
    split at hj
    . next heq =>
      simp only [List.mem_cons, List.not_mem_nil, or_false] at hj
      rw [heq] at ha
      exact hj.imp (fun hj => ⟨hj, ha⟩) fun hj => by rwa [hj]
    . exact Or.inr (List.mem_singleton.mp hj ▸ ha)
  . rintro (⟨rfl, hid⟩ | hj)
    . exact ⟨id, hid, by simp⟩
    . refine ⟨j, hj, ?_⟩
      split
      . next heq => simp [heq]
      . simp

theorem putBefore_append (hfront : id ∉ front) (hback : id ∉ back)
    : putBefore c id (front ++ id :: back) = front ++ c :: id :: back := by
  have hf : putBefore c id front = front := putBefore_eq_self hfront
  have hb : putBefore c id back = back := putBefore_eq_self hback
  unfold putBefore at hf hb ⊢
  rw [List.flatMap_append, List.flatMap_cons, if_pos rfl, hf, hb]
  rfl

theorem block?_ne_none (h : Inserted r r' id i c) : r'.block? b ≠ none ↔ r.block? b ≠ none := by
  obtain ⟨n, hn, hbare⟩ := h.attached
  rw [← block?_ne_none_iff, (SamePlaces.of_bare_eq hbare).extent, extent?_attach_ne_none,
    block?_ne_none_iff]
  rfl

theorem insnsOf (h : Inserted r r' id i c) (harranged : r.Arranged) (b : BlockId)
    : r'.insnsOf b = putBefore c id (r.insnsOf b) := by
  obtain ⟨n, hn, hbare⟩ := h.attached
  obtain ⟨front, back, hholds, -⟩ := harranged.holds_block hn
  by_cases hb : r.block? b = none
  . have hb' : r'.block? b = none := Classical.not_not.mp fun hne => h.block?_ne_none.mp hne hb
    rw [insnsOf_of_none hb, insnsOf_of_none hb']
    rfl
  . by_cases hne : b = n.block
    . subst hne
      have hnodup := List.nodup_append.mp hholds.lists.chain.nodup
      rw [(h.holds hholds).lists.insnsOf_eq, hholds.lists.insnsOf_eq, putBefore_append]
      . intro hid
        exact hnodup.2.2 id hid id List.mem_cons_self rfl
      . exact (List.nodup_cons.mp hnodup.2.1).1
    . have hids := harranged.holds_insnsOf hb
      rw [(h.holds_of_ne hholds hids hne).lists.insnsOf_eq, putBefore_eq_self]
      exact fun hid => hids.lists.disjoint hholds.lists (fun heq => hne heq.symm) hid (by simp)

theorem not_live (h : Inserted r r' id i c) : r.code? c = none := by
  rw [code?_eq_none_iff, h.fresh]
  exact insn?_ofNat_size h.size

theorem not_refers (h : Inserted r r' id i c) (htracked : r.Tracked) (j : InsnId)
    : ¬ r'.Refers j (.insn c) := by
  have hnone : r.contains (.insn c) = false := by
    rw [contains, code?_eq_none_iff.mp h.not_live]
    rfl
  intro hrefers
  rcases h.refers_iff.mp hrefers with ⟨-, hrefers⟩ | ⟨-, hmem⟩
  . rw [htracked.contains_of_refers hrefers] at hnone
    cases hnone
  . have hadmits := h.admits _ hmem (.insn c) rfl
    rw [← Option.isSome_iff_exists, ← contains_eq, hnone] at hadmits
    cases hadmits

theorem ne {k : Instruction} (h : Inserted r r' id i c) (hj : r.code? j = some k) : j ≠ c := by
  rintro rfl
  rw [h.not_live] at hj
  cases hj

end Inserted

end Inserted

end Edit

end MachineIR
