import MachineIR.Proofs.DeadWrites
import MachineIR.Proofs.PassTypes
import MachineIR.Proofs.Settling

/-!
This module contains when a second run of the register forwarding finds nothing to do. If nothing in
between touches the registers, then of two instructions that access the same register the first one has
to read it and the second one to write it, or the second one is a read of what a write without content
hides. A run brings this about in a block whose writes all have something to write. A write without it
is erased once it has been overwritten, although the reads behind it could not be forwarded, and then a
second run can forward them.
-/

namespace MachineIR

open Routine Edit

theorem Opcode.hasSideEffect_of_touches {o : Opcode} (h : o.touchesRegisters = true)
    : o.hasSideEffect = true := by
  cases o <;> first | rfl | cases h

theorem Opcode.ne_of_access {o : Opcode} (h : o = .readReg ∨ o = .writeReg)
    : o ≠ .nop ∧ o ≠ .bitcast ∧ o ≠ .phi := by
  rcases h with rfl | rfl
  . decide
  . decide

namespace Routine

variable {r r' : Routine} {b : BlockId} {id a c : InsnId} {x : Register} {ids more : List InsnId}
  {keep : InsnId → Bool}

def Involves (r : Routine) (id : InsnId) (x : Register) : Prop := r.Reads id x ∨ r.Writes id x

def Recent (r : Routine) (ids : List InsnId) (a : InsnId) : Prop :=
  ∃ front mid, ids = front ++ a :: mid ∧ ∀ j ∈ mid, ¬ r.Touches j

def Follows (r : Routine) (ids : List InsnId) (a c : InsnId) : Prop :=
  ∃ front back, ids = front ++ c :: back ∧ r.Recent front a

def Blank (r : Routine) (id : InsnId) : Prop :=
  ∃ i, r.code? id = some i ∧ i.opcode = .writeReg ∧ i.operands.length = 1

def Filled (r : Routine) (b : BlockId) : Prop := ∀ id ∈ r.insnsOf b, ¬ r.Blank id

instance : Decidable (r.Blank id) :=
  decidable_of_iff ((r.code? id).any fun i => i.opcode = .writeReg ∧ i.operands.length = 1)
    (by cases h : r.code? id <;> simp [Blank, h])

instance : Decidable (r.Filled b) := inferInstanceAs (Decidable (∀ id ∈ r.insnsOf b, ¬ r.Blank id))

def Tidy (r : Routine) (b : BlockId) : Prop :=
  ∀ a c x, r.Follows (r.insnsOf b) a c → r.Involves a x → r.Involves c x →
    r.Reads a x ∧ r.Writes c x

/-- Of the register `x` the last thing that is known at `c` is a write without content. -/
def Hidden (r : Routine) (b : BlockId) (c : InsnId) (x : Register) : Prop :=
  ∃ w, r.Blank w ∧ r.Writes w x ∧ r.Follows (r.insnsOf b) w c

def Quiet (r : Routine) (b : BlockId) : Prop :=
  ∀ a c x, r.Follows (r.insnsOf b) a c → r.Involves a x → r.Involves c x →
    (r.Reads a x ∧ r.Writes c x) ∨ (r.Reads c x ∧ r.Hidden b c x)

theorem Involves.code (h : r.Involves id x)
    : ∃ i, r.code? id = some i ∧ (i.opcode = .readReg ∨ i.opcode = .writeReg) := by
  rcases h with ⟨i, hi, ho, -⟩ | ⟨i, hi, ho, -⟩
  . exact ⟨i, hi, Or.inl ho⟩
  . exact ⟨i, hi, Or.inr ho⟩

theorem Accesses.of_code {o : Opcode} (h : r'.Accesses o id x) (hcode : r.code? id = r'.code? id)
    : r.Accesses o id x := by
  obtain ⟨i, hi, hrest⟩ := h
  exact ⟨i, hcode.trans hi, hrest⟩

theorem Involves.of_code (h : r'.Involves id x) (hcode : r.code? id = r'.code? id)
    : r.Involves id x := h.imp (·.of_code hcode) (·.of_code hcode)

section Lists

theorem Recent.mem (h : r.Recent ids a) : a ∈ ids := by
  obtain ⟨front, mid, rfl, -⟩ := h
  simp

theorem Follows.mem_left (h : r.Follows ids a c) : a ∈ ids := by
  obtain ⟨front, back, rfl, hrecent⟩ := h
  exact List.mem_append_left _ hrecent.mem

theorem Follows.mem_right (h : r.Follows ids a c) : c ∈ ids := by
  obtain ⟨front, back, rfl, -⟩ := h
  simp

theorem Tidy.quiet (h : r.Tidy b) : r.Quiet b := fun a c x hac ha hc => Or.inl (h a c x hac ha hc)

theorem Quiet.tidy (h : r.Quiet b) (hfilled : r.Filled b) : r.Tidy b := by
  intro a c x hac ha hc
  rcases h a c x hac ha hc with hboth | ⟨-, w, hblank, -, hw⟩
  . exact hboth
  . exact absurd hblank (hfilled w hw.mem_left)

theorem Recent.append (h : r.Recent ids a) (hmore : ∀ j ∈ more, ¬ r.Touches j)
    : r.Recent (ids ++ more) a := by
  obtain ⟨front, mid, rfl, hmid⟩ := h
  refine ⟨front, mid ++ more, by simp, ?_⟩
  intro j hj
  rcases List.mem_append.mp hj with hj | hj
  . exact hmid j hj
  . exact hmore j hj

theorem recent_concat
    : r.Recent (ids ++ [id]) a ↔ a = id ∨ (r.Recent ids a ∧ ¬ r.Touches id) := exists_split_concat

theorem follows_concat
    : r.Follows (ids ++ [id]) a c ↔ r.Follows ids a c ∨ (c = id ∧ r.Recent ids a) := by
  constructor
  . rintro ⟨front, back, hlist, hfront⟩
    rcases List.eq_nil_or_concat back with rfl | ⟨back, last, rfl⟩
    . obtain ⟨rfl, heq⟩ := List.append_inj' hlist rfl
      cases heq
      exact Or.inr ⟨rfl, hfront⟩
    . rw [List.concat_eq_append, ← List.cons_append, ← List.append_assoc] at hlist
      exact Or.inl ⟨front, back, (List.append_inj' hlist rfl).1, hfront⟩
  . rintro (⟨front, back, rfl, hfront⟩ | ⟨rfl, hrecent⟩)
    . exact ⟨front, back ++ [id], by simp, hfront⟩
    . exact ⟨ids, [], rfl, hrecent⟩

section

variable (htouches : ∀ j, r.Touches j → r'.Touches j)

include htouches

theorem Recent.mono (h : r'.Recent ids a) : r.Recent ids a := by
  obtain ⟨front, mid, hlist, hmid⟩ := h
  exact ⟨front, mid, hlist, fun j hj htouch => hmid j hj (htouches j htouch)⟩

theorem Follows.mono (h : r'.Follows ids a c) : r.Follows ids a c := by
  obtain ⟨front, back, hlist, hfront⟩ := h
  exact ⟨front, back, hlist, hfront.mono htouches⟩

variable (hkeep : ∀ j, r'.Touches j → keep j = true)

include hkeep

theorem Recent.of_filter (h : r'.Recent (ids.filter keep) a) : r.Recent ids a := by
  obtain ⟨front, mid, hlist, hmid⟩ := h
  obtain ⟨before, rest, rfl, -, hrest⟩ := List.filter_eq_append_iff.mp hlist
  obtain ⟨skipped, behind, rfl, -, -, rfl⟩ := List.filter_eq_cons_iff.mp hrest
  refine ⟨before ++ skipped, behind, by simp, ?_⟩
  intro j hj htouch
  have htouch' := htouches j htouch
  exact hmid j (List.mem_filter.mpr ⟨hj, hkeep j htouch'⟩) htouch'

theorem Follows.of_filter (h : r'.Follows (ids.filter keep) a c) : r.Follows ids a c := by
  obtain ⟨front, back, hlist, hfront⟩ := h
  obtain ⟨before, rest, rfl, rfl, hrest⟩ := List.filter_eq_append_iff.mp hlist
  obtain ⟨skipped, behind, rfl, hskipped, -, -⟩ := List.filter_eq_cons_iff.mp hrest
  refine ⟨before ++ skipped, behind, by simp, (hfront.of_filter htouches hkeep).append ?_⟩
  intro j hj htouch
  exact hskipped j hj (hkeep j (htouches j htouch))

end

end Lists

end Routine

namespace Trims

variable {r r' : Routine} {id a c : InsnId} {x : Register} {front front' : List InsnId}

theorem mem {i : Instruction} (h : Trims r' front front') (hmem : id ∈ front')
    (hi : r'.code? id = some i) (hopcode : i.opcode ≠ .bitcast) : id ∈ front := by
  cases h with
  | same => exact hmem
  | without hp => exact (List.mem_filter.mp hmem).1
  | cast hc hcast =>
    rcases List.mem_append.mp hmem with hmem | hmem
    . exact hmem
    . cases List.mem_singleton.mp hmem
      rw [hi] at hc
      cases hc
      exact absurd hcast hopcode

theorem not_involves {i : Instruction} (hi : r'.code? id = some i) (hopcode : i.opcode = .bitcast)
    : ¬ r'.Involves id x := by
  intro hx
  obtain ⟨k, hk, haccess⟩ := hx.code
  rw [hi] at hk
  cases hk
  exact absurd hopcode (Opcode.ne_of_access haccess).2.1

theorem keeps {p : InsnId} (hp : r'.code? p = none) (htouch : r'.Touches id)
    : decide (id ≠ p) = true := by
  apply decide_eq_true
  rintro rfl
  obtain ⟨i, hi, -⟩ := htouch
  rw [hp] at hi
  cases hi

theorem recent (h : Trims r' front front') (htouches : ∀ j, r.Touches j → r'.Touches j)
    (ha : r'.Recent front' a) (hx : r'.Involves a x) : r.Recent front a := by
  cases h with
  | same => exact ha.mono htouches
  | without hp => exact ha.of_filter htouches fun j => keeps hp
  | cast hc hcast =>
    rcases recent_concat.mp ha with rfl | ⟨ha, -⟩
    . exact absurd hx (not_involves hc hcast)
    . exact ha.mono htouches

theorem follows (h : Trims r' front front') (htouches : ∀ j, r.Touches j → r'.Touches j)
    (hac : r'.Follows front' a c) (hx : r'.Involves c x) : r.Follows front a c := by
  cases h with
  | same => exact hac.mono htouches
  | without hp => exact hac.of_filter htouches fun j => keeps hp
  | cast hc hcast =>
    rcases follows_concat.mp hac with hac | ⟨rfl, -⟩
    . exact hac.mono htouches
    . exact absurd hx (not_involves hc hcast)

end Trims

namespace Forwards

variable {r r' : Routine} {b : BlockId} {id j : InsnId} {known known' : Producers} {n : Nat}
  {x : Register} {i' : Instruction} {ρ : InsnId → Nat}

theorem traces_back (h : Forwards r known id known' n r') (hi' : r'.code? j = some i')
    (hopcode : i'.opcode = .readReg ∨ i'.opcode = .writeReg)
    : ∃ i, r.code? j = some i ∧ i.Becomes i' ∧ (.insn id ∉ i.operands → i' = i) := by
  have hsame : r.code? j = some i' →
      ∃ i, r.code? j = some i ∧ i.Becomes i' ∧ (.insn id ∉ i.operands → i' = i) :=
    fun hi => ⟨i', hi, .refl i', fun _ => rfl⟩
  have hsubstituted : ∀ {y : Operand}, (r.code? j).map (·.substitute (.insn id) y) = some i' →
      ∃ i, r.code? j = some i ∧ i.Becomes i' ∧ (.insn id ∉ i.operands → i' = i) := by
    intro y hy
    obtain ⟨i, hi, rfl⟩ := Option.map_eq_some_iff.mp hy
    exact ⟨i, hi, .substitute i _ _, Instruction.substitute_eq_self⟩
  cases h with
  | skip hi hother => exact hsame hi'
  | learn hread hnone => exact hsame hi'
  | write hwrite hother => exact hsame hi'
  | overwrite hwrite hlookup herased =>
    rw [herased.code] at hi'
    split at hi'
    . cases hi'
    . exact hsame hi'
  | blank hread hlookup hcontent => exact hsame hi'
  | forward hread hlookup hcontent hr₁ h =>
    rw [code?_modifyInsn] at hi'
    split at hi'
    . obtain ⟨k, -, rfl⟩ := Option.map_eq_some_iff.mp hi'
      exact absurd rfl (Opcode.ne_of_access hopcode).1
    . rcases h with ⟨-, rfl⟩ | ⟨-, h⟩
      . exact hsame hi'
      . rw [h.code] at hi'
        exact hsubstituted hi'
  | cast hread hlookup hcontent hr₁ hinserted h =>
    obtain ⟨ip, hcode⟩ := hinserted.code
    rw [h.code, hcode] at hi'
    split at hi'
    . cases hi'
      exact absurd rfl (Opcode.ne_of_access hopcode).2.1
    . exact hsubstituted hi'

theorem code?_eq (h : Forwards r known id known' n r') (hranked : r.Ranked ρ) (hj : ρ j ≤ ρ id)
    (hx : r'.Involves j x) : r.code? j = r'.code? j := by
  -- What a visit leaves of the accesses in front of it is as it was, because they do not refer to
  -- it.
  obtain ⟨i', hi', hopcode⟩ := hx.code
  obtain ⟨i, hi, hbecomes, hsame⟩ := h.traces_back hi' hopcode
  have hphi : i.opcode ≠ .phi := by
    rw [← hbecomes.opcode]
    exact (Opcode.ne_of_access hopcode).2.2
  have hfree : .insn id ∉ i.operands := by
    intro hmem
    exact absurd (hranked.operand j i id hi hphi hmem) (Nat.not_lt.mpr hj)
  rw [hi, hi', hsame hfree]

theorem touches (h : Forwards r known id known' n r')
    (hknown : ∀ x p, known.lookup x = some p → r.Accesses p.opcode p.insn x) (hj : r.Touches j)
    : r'.Touches j := by
  obtain ⟨i, hi, htouch⟩ := hj
  have hopcode : i.opcode ≠ .readReg := by
    intro heq
    rw [heq] at htouch
    cases htouch
  rcases h.becomes hi (Or.inr hopcode) with ⟨i', hi', hbecomes⟩ | ⟨x, -, hlookup⟩
  . exact ⟨i', hi', by rw [hbecomes.opcode, htouch]⟩
  . have hwrite : r.Writes j x := hknown x _ hlookup
    exact absurd ⟨i, hi, htouch⟩ (hwrite.not_touches rfl)

theorem lookup_ne_none (h : Forwards r known id known' n r')
    (hx : r.Involves id x ∨ (known.lookup x ≠ none ∧ ¬ r.Touches id)) : known'.lookup x ≠ none := by
  have hsome : ∀ {o y}, r.Accesses o id y → x = y ∨ known.lookup x ≠ none := by
    intro o y hy
    rcases hx with hx | ⟨hx, -⟩
    . left
      rcases hx with hx | hx
      . exact (hy.unique hx).2
      . exact (hy.unique hx).2
    . exact Or.inr hx
  have hcons : ∀ {o y q}, r.Accesses o id y → List.lookup x ((y, q) :: known) ≠ none := by
    intro o y q hy
    rw [lookup_cons_eq]
    split
    . exact Option.some_ne_none q
    . next hne => exact (hsome hy).resolve_left hne
  have hkept : ∀ {o y p}, r.Accesses o id y → known.lookup y = some p → known.lookup x ≠ none := by
    intro o y p hy hp
    rcases hsome hy with rfl | hx
    . simp [hp]
    . exact hx
  cases h with
  | @skip i hi hother =>
    obtain ⟨hx, htouch⟩ := hx.resolve_left fun hx => hx.elim (hother x).2 (hother x).1
    rwa [if_neg fun h => htouch ⟨i, hi, h⟩]
  | learn hread hnone => exact hcons hread
  | write hwrite hother => exact hcons hwrite
  | overwrite hwrite hlookup herased => exact hcons hwrite
  | blank hread hlookup hcontent => exact hkept hread hlookup
  | forward hread hlookup hcontent hr₁ h => exact hkept hread hlookup
  | cast hread hlookup hcontent hr₁ hinserted h => exact hkept hread hlookup

theorem content?_eq_none (h : Forwards r known id known' 0 r') (hread : r.Reads id x)
    (hlookup : known.lookup x ≠ none) : ∃ p, known.lookup x = some p ∧ r.content? p = none := by
  cases h with
  | skip hi hother => exact absurd hread (hother x).2
  | learn hread' hnone =>
    cases (hread.unique hread').2
    exact absurd hnone hlookup
  | write hwrite hother => cases (hread.unique hwrite).1
  | @blank y p hread' hlookup' hcontent =>
    cases (hread.unique hread').2
    exact ⟨p, hlookup', hcontent⟩

end Forwards

namespace Routine

variable {r r' : Routine} {b : BlockId} {id a c : InsnId} {x : Register}

theorem blank_of_content? {p : Producer} (haccess : r.Accesses p.opcode p.insn x)
    (hcontent : r.content? p = none) : r.Blank p.insn := by
  obtain ⟨i, hi, hopcode, hx⟩ := haccess
  unfold content? at hcontent
  rw [hi, Option.bind_some] at hcontent
  split at hcontent
  . next hwrite =>
    refine ⟨i, hi, ?_, ?_⟩
    . rw [hopcode, Producer.opcode, if_pos hwrite]
    . rw [Option.map_eq_none_iff] at hcontent
      have hsome := (List.getElem?_eq_some_iff.mp hx).1
      have hnone := List.getElem?_eq_none_iff.mp hcontent
      omega
  . cases hcontent

theorem Blank.content? (h : r.Blank id) : r.content? ⟨id, true⟩ = none := by
  obtain ⟨i, hi, -, hlength⟩ := h
  simp [Routine.content?, hi, Instruction.operand?, hlength]

theorem Filled.of_checkBlock (h : r.checkBlock b = .ok ()) : r.Filled b := by
  rintro id hid ⟨c, hc, hopcode, hlength⟩
  obtain ⟨i, hi, rfl⟩ := exists_insn?_of_code? hc
  have hfits := (checkInsn_eq_ok hi).mp (Check.forM_eq_ok.mp (Check.seq_eq_ok.mp h).2 id hid)
  have hexact := hfits.exact
  change i.opcode = .writeReg at hopcode
  rw [hopcode] at hexact
  have htwo : i.slots.length = 2 := hexact rfl
  have hone : i.slots.length = 1 := by simpa [Insn.code, Insn.operands] using hlength
  omega

section Discards

variable (h : Relation.ReflTransGen (Discards b) r r')

include h

theorem code?_eq_of_discards {i : Instruction} (hi : r'.code? id = some i)
    : r.code? id = r'.code? id := by
  rcases code?_of_discards h id with hnone | hsame
  . rw [hi] at hnone
    cases hnone
  . exact hsame.symm

theorem Involves.of_discards (hx : r'.Involves id x) : r.code? id = r'.code? id := by
  obtain ⟨i, hi, -⟩ := hx.code
  exact code?_eq_of_discards h hi

theorem Touches.of_discards (hid : r.Touches id) : r'.Touches id := by
  induction h with
  | refl => exact hid
  | tail _ hlast ih =>
    obtain ⟨dead, -, hspent, herased⟩ := hlast
    obtain ⟨i, hi, htouch⟩ := ih
    refine ⟨i, ?_, htouch⟩
    rw [herased.code, if_neg, hi]
    rintro rfl
    obtain ⟨i', hi', heffect⟩ := hspent.code
    rw [hi] at hi'
    cases hi'
    rw [Opcode.hasSideEffect_of_touches htouch] at heffect
    cases heffect

theorem Follows.of_discards (hr : r.Arranged) (hac : r'.Follows (r'.insnsOf b) a c)
    : r.Follows (r.insnsOf b) a c := by
  rw [insnsOf_of_discards hr h] at hac
  apply hac.of_filter fun j => Touches.of_discards h
  rintro j ⟨i, hi, -⟩
  rw [hi]
  rfl

theorem Filled.of_discards (hr : r.Arranged) (hfilled : r.Filled b) : r'.Filled b := by
  rintro id hid ⟨i, hi, hrest⟩
  rw [insnsOf_of_discards hr h] at hid
  exact hfilled id (List.mem_filter.mp hid).1 ⟨i, (code?_eq_of_discards h hi).trans hi, hrest⟩

end Discards

end Routine

/--
The sweep that began at `start` has passed `front`. What is recent in it is known. There are no two
writes in it, and no read behind another access, unless it has been replaced or there was a write without
content.
-/
structure Cleared (b : BlockId) (start : Routine) (gone front todo : List InsnId) (known : Producers)
    (r : Routine) : Prop where
  listed : r.insnsOf b = front ++ todo
  filled : start.Filled b → r.Filled b
  written : ∀ a x, r.Recent front a → r.Writes a x → known.lookup x = some ⟨a, true⟩
  read : ∀ a x, r.Recent front a → r.Reads a x → known.lookup x ≠ none
  overwritten : ∀ a c x, r.Follows front a c → r.Writes a x → ¬ r.Writes c x
  forwarded : ∀ a c x, r.Follows front a c → r.Involves a x → r.Reads c x → c ∉ gone →
    ¬ start.Filled b ∧ (r.Writes a x → r.Blank a)

namespace Cleared

variable {start r r' : Routine} {b : BlockId} {id : InsnId} {known known' : Producers} {n m : Nat}
  {gone gone' front todo : List InsnId} {ρ : InsnId → Nat}

theorem begin (b : BlockId) (r : Routine) : Cleared b r [] [] (r.insnsOf b) [] r where
  listed := rfl
  filled := fun h => h
  written a x ha := by cases ha.mem
  read a x ha := by cases ha.mem
  overwritten a c x hac := by cases hac.mem_left
  forwarded a c x hac := by cases hac.mem_left

theorem known_ne_none {a : InsnId} {x : Register} (h : Cleared b start gone front todo known r)
    (ha : r.Recent front a) (hx : r.Involves a x) : known.lookup x ≠ none := by
  rcases hx with hx | hx
  . exact h.read a x ha hx
  . rw [h.written a x ha hx]
    exact Option.some_ne_none _

theorem rank_lt (hlist : r.insnsOf b = front ++ id :: todo) (hranked : r.Ranked ρ) {a : InsnId}
    (ha : a ∈ front) : ρ a < ρ id := by
  have hpairwise := hranked.listed b
  rw [hlist] at hpairwise
  exact (List.pairwise_append.mp hpairwise).2.2 a ha id List.mem_cons_self

theorem trimmed (h : Cleared b start gone front (id :: todo) known r)
    (hscanned : Scanned b known (id :: todo) r) (hranked : r.Ranked ρ)
    (hforwards : Forwards r known id known' m r') (hgone : gone ⊆ gone')
    : ∃ front', Cleared b start gone' front' (id :: todo) known r' := by
  have hlist := h.listed
  obtain ⟨_, hlist', hknown⟩ := hscanned.rest
  cases List.append_cancel_right (hlist'.symm.trans hlist)
  obtain ⟨-, front', htrims, hlist', -⟩ := hforwards.scans hscanned.intact hlist hknown
  have htouches : ∀ j, r.Touches j → r'.Touches j := fun j =>
    hforwards.touches fun x p hp => (hknown x p hp).2
  -- The accesses in front of `id` keep their code, so what is recent among them was so before.
  have hcode : ∀ {a x}, a ∈ front → r'.Involves a x → r.code? a = r'.code? a := fun ha =>
    hforwards.code?_eq hranked (Nat.le_of_lt (rank_lt hlist hranked ha))
  refine ⟨front', hlist', ?_, ?_, ?_, ?_, ?_⟩
  . rintro hfilled j hj ⟨i', hi', hopcode, hlength⟩
    obtain ⟨i, hi, hbecomes, -⟩ := hforwards.traces_back hi' (Or.inr hopcode)
    have hmem : j ∈ r.insnsOf b := by
      rw [hlist'] at hj
      rw [hlist]
      rcases List.mem_append.mp hj with hj | hj
      . exact List.mem_append_left _ (htrims.mem hj hi' (by rw [hopcode]; decide))
      . exact List.mem_append_right _ hj
    exact h.filled hfilled j hmem
      ⟨i, hi, hbecomes.opcode.symm.trans hopcode, hbecomes.length.symm.trans hlength⟩
  . intro a x ha hx
    have hrecent := htrims.recent htouches ha (Or.inr hx)
    exact h.written a x hrecent (hx.of_code (hcode hrecent.mem (Or.inr hx)))
  . intro a x ha hx
    have hrecent := htrims.recent htouches ha (Or.inl hx)
    exact h.read a x hrecent (hx.of_code (hcode hrecent.mem (Or.inl hx)))
  . intro a c x hac ha hc
    have hfollows := htrims.follows htouches hac (Or.inr hc)
    exact h.overwritten a c x hfollows (ha.of_code (hcode hfollows.mem_left (Or.inr ha)))
      (hc.of_code (hcode hfollows.mem_right (Or.inr hc)))
  . intro a c x hac ha hc hnew
    have hfollows := htrims.follows htouches hac (Or.inl hc)
    have heq := hcode hfollows.mem_left ha
    obtain ⟨hfilled, hblank⟩ := h.forwarded a c x hfollows (ha.of_code heq)
      (hc.of_code (hcode hfollows.mem_right (Or.inl hc))) fun hmem => hnew (hgone hmem)
    refine ⟨hfilled, ?_⟩
    intro hwrite
    obtain ⟨i, hi, hrest⟩ := hblank (hwrite.of_code heq)
    exact ⟨i, heq.symm.trans hi, hrest⟩

theorem visited (h : Cleared b start gone front (id :: todo) known r')
    (hscanned : Scanned b known (id :: todo) r) (hranked : r.Ranked ρ)
    (hforwards : Forwards r known id known' m r')
    (hread : (m = 0 ∧ r' = r) ∨ id ∈ gone ∨ ∀ x, ¬ r'.Reads id x)
    : Cleared b start gone (front ++ [id]) todo known' r' := by
  obtain ⟨front₀, hlist, hknown⟩ := hscanned.rest
  have hcode : ∀ {x}, r'.Involves id x → r.code? id = r'.code? id :=
    hforwards.code?_eq hranked (Nat.le_refl _)
  have htouches : r.Touches id → r'.Touches id :=
    hforwards.touches fun x p hp => (hknown x p hp).2
  -- A recent write of the register would have been taken out.
  have hfirst : ∀ {a x}, r'.Recent front a → r'.Writes a x → ¬ r.Writes id x := by
    intro a x ha hx hwrite
    have hnone := hforwards.erases hwrite (h.written a x ha hx)
    obtain ⟨i, hi, -⟩ := hx
    rw [hnone] at hi
    cases hi
  refine ⟨by simpa using h.listed, h.filled, ?_, ?_, ?_, ?_⟩
  . intro a x ha hx
    rw [hforwards.lookup_write_iff]
    rcases recent_concat.mp ha with rfl | ⟨ha, htouch⟩
    . exact Or.inl ⟨rfl, hx.of_code (hcode (Or.inr hx))⟩
    . exact Or.inr ⟨h.written a x ha hx, fun h => htouch (htouches h), hfirst ha hx⟩
  . intro a x ha hx
    apply hforwards.lookup_ne_none
    rcases recent_concat.mp ha with rfl | ⟨ha, htouch⟩
    . exact Or.inl (Or.inl (hx.of_code (hcode (Or.inl hx))))
    . exact Or.inr ⟨h.read a x ha hx, fun h => htouch (htouches h)⟩
  . intro a c x hac ha hc
    rcases follows_concat.mp hac with hac | ⟨rfl, hrecent⟩
    . exact h.overwritten a c x hac ha hc
    . exact hfirst hrecent ha (hc.of_code (hcode (Or.inr hc)))
  . intro a c x hac ha hc hnew
    rcases follows_concat.mp hac with hac | ⟨rfl, hrecent⟩
    . exact h.forwarded a c x hac ha hc hnew
    . -- The read has not been replaced, so that the write that is known has no content.
      obtain ⟨rfl, rfl⟩ := hread.resolve_right (not_or.mpr ⟨hnew, fun hnone => hnone x hc⟩)
      obtain ⟨p, hp, hcontent⟩ := hforwards.content?_eq_none hc (h.known_ne_none hrecent ha)
      obtain ⟨hmem, haccess⟩ := hknown x p hp
      have hblank := blank_of_content? haccess hcontent
      constructor
      . intro hfilled
        refine h.filled hfilled p.insn ?_ hblank
        rw [hlist]
        exact List.mem_append_left _ hmem
      . intro hwrite
        rw [h.written a x hrecent hwrite] at hp
        cases hp
        exact hblank

theorem cleaned (h : Cleared b start gone (r.insnsOf b) [] known r) (hr : r.Arranged)
    (hgone : ∀ j ∈ gone, r.Spent b j) (hcleans : r.Cleans b r') {a c : InsnId} {x : Register}
    (hac : r'.Follows (r'.insnsOf b) a c) (ha : r'.Involves a x) (hc : r'.Involves c x)
    : (r'.Writes a x → ¬ r'.Writes c x) ∧
        (r'.Reads c x → ¬ start.Filled b ∧ (r'.Writes a x → r'.Blank a)) := by
  have hdiscards := hcleans.discards
  have hfollows := hac.of_discards hdiscards hr
  have hcode := ha.of_discards hdiscards
  have hcode' := hc.of_discards hdiscards
  have hnew : c ∉ gone := by
    intro hmem
    obtain ⟨i, hi, -⟩ := hc.code
    rw [hcleans.thorough c (hgone c hmem)] at hi
    cases hi
  constructor
  . intro hwrite hwrite'
    exact h.overwritten a c x hfollows (hwrite.of_code hcode) (hwrite'.of_code hcode')
  . intro hread
    obtain ⟨hfilled, hblank⟩ :=
      h.forwarded a c x hfollows (ha.of_code hcode) (hread.of_code hcode') hnew
    refine ⟨hfilled, ?_⟩
    intro hwrite
    obtain ⟨i, hi, hrest⟩ := hblank (hwrite.of_code hcode)
    exact ⟨i, hcode.symm.trans hi, hrest⟩

end Cleared

def Routine.Backs (r : Routine) (ids : List InsnId) (known : Producers) : Prop :=
  ∀ x p, known.lookup x = some p → r.Recent ids p.insn ∧ r.Accesses p.opcode p.insn x

namespace Routine.Backs

variable {r : Routine} {ids : List InsnId} {known known' : Producers} {id : InsnId}

theorem nil : r.Backs ids [] := nofun

theorem concat (h : r.Backs ids known) (hid : ¬ r.Touches id) : r.Backs (ids ++ [id]) known := by
  intro x p hp
  exact (h x p hp).imp_left fun hrecent => recent_concat.mpr (Or.inr ⟨hrecent, hid⟩)

theorem cons {x : Register} {w : Bool} (h : r.Backs ids known) (hid : ¬ r.Touches id)
    (hx : r.Accesses (Producer.mk id w).opcode id x)
    : r.Backs (ids ++ [id]) ((x, ⟨id, w⟩) :: known) := by
  intro y p hp
  rw [Forwards.lookup_cons_eq] at hp
  split at hp
  . next hyx =>
    cases hp
    exact ⟨recent_concat.mpr (Or.inl rfl), hyx ▸ hx⟩
  . exact h.concat hid y p hp

theorem involves {x : Register} {p : Producer} (h : r.Backs ids known)
    (hp : known.lookup x = some p) : r.Involves p.insn x := by
  obtain ⟨-, haccess⟩ := h x p hp
  unfold Producer.opcode at haccess
  split at haccess
  . exact Or.inr haccess
  . exact Or.inl haccess

theorem step (h : r.Backs ids known) (hforwards : Forwards r known id known' 0 r)
    : r.Backs (ids ++ [id]) known' := by
  cases hforwards with
  | @skip i hi hother =>
    split
    . exact .nil
    . next htouch =>
      apply h.concat
      rintro ⟨i', hi', htouch'⟩
      rw [hi] at hi'
      cases hi'
      exact htouch htouch'
  | learn hread hnone => exact h.cons (hread.not_touches rfl) hread
  | write hwrite hother => exact h.cons (hwrite.not_touches rfl) hwrite
  | blank hread hlookup hcontent => exact h.concat (hread.not_touches rfl)

end Routine.Backs

structure Routine.Knows (r : Routine) (ids : List InsnId) (known : Producers) : Prop where
  backed : r.Backs ids known
  written : ∀ a x, r.Recent ids a → r.Writes a x → known.lookup x = some ⟨a, true⟩
  read : ∀ a x, r.Recent ids a → r.Reads a x → known.lookup x ≠ none

namespace Routine.Knows

variable {r : Routine} {b : BlockId} {front todo : List InsnId} {known known' : Producers} {a id : InsnId}
  {x : Register}

theorem nil (r : Routine) : r.Knows [] [] where
  backed := .nil
  written a x ha := by cases ha.mem
  read a x ha := by cases ha.mem

theorem ne_none (h : r.Knows front known) (ha : r.Recent front a) (hx : r.Involves a x)
    : known.lookup x ≠ none := by
  rcases hx with hx | hx
  . exact h.read a x ha hx
  . rw [h.written a x ha hx]
    exact Option.some_ne_none _

theorem not_writes (h : r.Knows front known) (hforwards : Forwards r known id known' 0 r)
    (ha : r.Recent front a) (hx : r.Writes a x) : ¬ r.Writes id x := by
  intro hwrite
  have hnone := hforwards.erases hwrite (h.written a x ha hx)
  obtain ⟨i, hi, -⟩ := hx
  rw [hnone] at hi
  cases hi

theorem step (h : r.Knows front known) (hforwards : Forwards r known id known' 0 r)
    : r.Knows (front ++ [id]) known' where
  backed := h.backed.step hforwards
  written a x ha hx := by
    rw [hforwards.lookup_write_iff]
    rcases recent_concat.mp ha with rfl | ⟨ha, htouch⟩
    . exact Or.inl ⟨rfl, hx⟩
    . exact Or.inr ⟨h.written a x ha hx, htouch, h.not_writes hforwards ha hx⟩
  read a x ha hx := by
    apply hforwards.lookup_ne_none
    rcases recent_concat.mp ha with rfl | ⟨ha, htouch⟩
    . exact Or.inl (Or.inl hx)
    . exact Or.inr ⟨h.read a x ha hx, htouch⟩

theorem hidden (h : r.Knows front known) (hforwards : Forwards r known id known' 0 r)
    (hlist : r.insnsOf b = front ++ id :: todo) (ha : r.Recent front a) (hx : r.Involves a x)
    (hread : r.Reads id x) : r.Hidden b id x := by
  obtain ⟨p, hp, hcontent⟩ := hforwards.content?_eq_none hread (h.ne_none ha hx)
  obtain ⟨hrecent, haccess⟩ := h.backed x p hp
  have hblank := blank_of_content? haccess hcontent
  refine ⟨p.insn, hblank, ?_, front, todo, hlist, hrecent⟩
  obtain ⟨i, hi, hopcode, -⟩ := hblank
  obtain ⟨i', hi', -, hx'⟩ := haccess
  rw [hi] at hi'
  cases hi'
  exact ⟨i, hi, hopcode, hx'⟩

end Routine.Knows

namespace Routine.Quiet

variable {r : Routine} {b : BlockId} {id : InsnId} {known : Producers} {front todo : List InsnId}

theorem step (h : r.Quiet b) (hr : r.Arranged) (hlist : r.insnsOf b = front ++ id :: todo)
    (hknows : r.Knows front known) : ∃ known', Forwards r known id known' 0 r := by
  have hfollows : ∀ {x p}, known.lookup x = some p → r.Follows (r.insnsOf b) p.insn id :=
    fun {x p} hp => ⟨front, todo, hlist, (hknows.backed x p hp).1⟩
  have hquiet : ∀ {x p}, known.lookup x = some p → r.Involves id x →
      (r.Reads p.insn x ∧ r.Writes id x) ∨ (r.Reads id x ∧ r.Hidden b id x) := fun {x p} hp hx =>
    h p.insn id x (hfollows hp) (hknows.backed.involves hp) hx
  by_cases hwrite : ∃ x, r.Writes id x
  . obtain ⟨x, hx⟩ := hwrite
    refine ⟨_, .write hx ?_⟩
    intro p hp
    have hp' : r.Writes p x := (hknows.backed x _ hp).2
    rcases hquiet hp (Or.inr hx) with ⟨hread, -⟩ | ⟨hread, -⟩
    . cases (hp'.unique hread).1
    . cases (hx.unique hread).1
  by_cases hread : ∃ x, r.Reads id x
  . obtain ⟨x, hx⟩ := hread
    cases hp : known.lookup x with
    | none => exact ⟨_, .learn hx hp⟩
    | some p =>
      rcases hquiet hp (Or.inl hx) with ⟨-, hx'⟩ | ⟨-, w, hblank, hw, front', back', hlist', hrecent⟩
      . exact absurd ⟨x, hx'⟩ hwrite
      . -- No instruction is listed twice, so that the write stands in the part that has been passed.
        have hnodup := hr.nodup_insnsOf b
        rw [hlist] at hlist' hnodup
        obtain ⟨-, hid, hdisjoint⟩ := List.nodup_append.mp hnodup
        obtain ⟨rfl, -, -⟩ := (List.append_cons_inj_of_notMem
          (fun hmem => hdisjoint id hmem id List.mem_cons_self rfl) (List.nodup_cons.mp hid).1).mp hlist'
        exact ⟨_, .blank hx (hknows.written w x hrecent hw) hblank.content?⟩
  . obtain ⟨i, hi, -⟩ := hr.mem_insnsOf.mp (show id ∈ r.insnsOf b by simp [hlist])
    refine ⟨_, .skip (code?_of_insn? hi) fun x => ⟨?_, ?_⟩⟩
    . exact fun hx => hwrite ⟨x, hx⟩
    . exact fun hx => hread ⟨x, hx⟩

theorem rests (h : r.Quiet b) (hr : r.Arranged) (hlist : r.insnsOf b = front ++ todo)
    (hknows : r.Knows front known)
    : ∃ known', Rests visitRegister r (known, 0) todo (known', 0) := by
  induction todo generalizing front known with
  | nil => exact ⟨known, .nil⟩
  | cons id todo ih =>
    obtain ⟨known₁, hforwards⟩ := h.step hr hlist hknows
    obtain ⟨known', hrests⟩ := ih (by simpa using hlist) (hknows.step hforwards)
    refine ⟨known', .cons (visitRegister_of_forwards hforwards ?_) hrests⟩
    intro x p hp
    obtain ⟨-, i, hi, -⟩ := hknows.backed x p hp
    rw [hi]
    exact Option.some_ne_none i

end Routine.Quiet

namespace Edit

variable {start r r' : Routine} {b : BlockId} {debug : Bool} {known : Producers} {n : Nat}

theorem cleared_of_sweep (hr : start.Intact) (hordered : start.DefOrdered)
    (hsweep : sweepWith b .forward ([], 0) visitRegister start = .ok (known, n) r)
    (hsmall : r.Small)
    : r.Intact ∧ ∃ gone, Progress b start gone [] known n r ∧
        Cleared b start gone (r.insnsOf b) [] known r := by
  have hends := visitRegister_ends
    (I := fun todo s r₁ => ∃ gone front, Progress b start gone todo s.1 s.2 r₁ ∧
      Cleared b start gone front todo s.1 r₁)
    (fun hscanned ⟨gone, front, hprogress, hcleared⟩ hforwards _ => by
      obtain ⟨ρ, hranked⟩ := hprogress.defOrdered hordered
      obtain ⟨gone', hprogress', hgone, hread⟩ := hforwards.advances hscanned hprogress
      obtain ⟨front', htrimmed⟩ := hcleared.trimmed hscanned hranked hforwards hgone
      exact ⟨gone', _, hprogress', htrimmed.visited hscanned hranked hforwards hread⟩)
    hr (block?_of_sweepWith hsweep)
    ⟨[], [], ⟨nofun, nofun, nofun, Or.inl ⟨rfl, rfl, rfl⟩⟩, .begin b start⟩
    (by rwa [left_of_ok hsweep])
  rw [hsweep] at hends
  cases hends with
  | done h =>
    obtain ⟨hscanned, gone, front, hprogress, hcleared⟩ := h
    have hfront : front = r.insnsOf b := by rw [hcleared.listed, List.append_nil]
    exact ⟨hscanned.intact, gone, hprogress, hfront ▸ hcleared⟩

theorem forwards_of_rests {id : InsnId} {todo : List InsnId} {known' : Producers} (hr : r.Intact)
    (h : Rests visitRegister r (known, 0) (id :: todo) (known', 0))
    : ∃ known₁, Forwards r known id known₁ 0 r ∧ Rests visitRegister r (known₁, 0) todo (known', 0) := by
  cases h with
  | @cons _ _ _ s _ hvisit hrest =>
    obtain ⟨known₁, m⟩ := s
    have hle : m ≤ 0 := hrest.le Prod.snd counts_visitRegister.le
    cases Nat.le_zero.mp hle
    obtain ⟨m, hm, hforwards⟩ := forwards_of_ok hr hvisit hr.small
    cases (Nat.zero_add m ▸ hm)
    exact ⟨known₁, hforwards, hrest⟩

theorem knows_of_rests {front mid back : List InsnId} {known' : Producers} {c : InsnId} (hr : r.Intact)
    (hknows : r.Knows front known)
    (hrests : Rests visitRegister r (known, 0) (mid ++ c :: back) (known', 0))
    : ∃ known₁ known₂, r.Knows (front ++ mid) known₁ ∧ Forwards r known₁ c known₂ 0 r := by
  induction mid generalizing front known with
  | nil =>
    obtain ⟨known₂, hforwards, -⟩ := forwards_of_rests hr hrests
    exact ⟨known, known₂, by simpa using hknows, hforwards⟩
  | cons id mid ih =>
    obtain ⟨known₁, hforwards, hrest⟩ := forwards_of_rests hr hrests
    simpa using ih (hknows.step hforwards) hrest

theorem forwardRegisters_idle_iff (hr : r.Intact)
    : forwardRegisters b debug r = .ok 0 r ↔ r.block? b ≠ none ∧ r.Quiet b := by
  rw [forwardRegisters_eq_zero_iff hr.arranged]
  refine and_congr_right fun hb => ⟨?_, ?_⟩
  . rintro ⟨known, hrests⟩ a c x ⟨front, back, hlist, hrecent⟩ ha hc
    rw [hlist] at hrests
    obtain ⟨known₁, known₂, hknows, hforwards⟩ := knows_of_rests hr (.nil r) hrests
    rcases hc with hc | hc
    . exact Or.inr ⟨hc, hknows.hidden hforwards hlist hrecent ha hc⟩
    . exact Or.inl ⟨ha.resolve_right fun ha => hknows.not_writes hforwards hrecent ha hc, hc⟩
  . intro hquiet
    have hlist : r.insnsOf b = [] ++ r.insnsOf b := rfl
    exact hquiet.rests hr.arranged hlist (.nil r)

theorem forwardRegisters_changed (hr : r.Intact) (hordered : r.DefOrdered)
    (hrun : forwardRegisters b debug r = .ok n r') (hn : n ≠ 0) (hsmall : r'.Small)
    : r'.Intact ∧ r'.block? b ≠ none ∧ (debug = true → r'.Filled b) ∧
        ∀ a c x, r'.Follows (r'.insnsOf b) a c → r'.Involves a x → r'.Involves c x →
          (r'.Writes a x → ¬ r'.Writes c x) ∧
            (r'.Reads c x → ¬ r.Filled b ∧ (r'.Writes a x → r'.Blank a)) := by
  rw [forwardRegisters_eq] at hrun
  obtain ⟨⟨known, m⟩, r₁, hsweep, hcomplete⟩ := of_bind_ok hrun
  have hsmall₁ : r₁.Small := by
    have := keeps_complete b m debug r₁
    rw [left_of_ok hcomplete] at this
    exact this.grows.small hsmall
  obtain ⟨hr₁, gone, hprogress, hcleared⟩ := cleared_of_sweep hr hordered hsweep hsmall₁
  obtain ⟨-, hcheck, k, -, hremove⟩ := (complete_eq_ok hcomplete).resolve_left fun hzero => hn hzero.2.1
  have hcleaning := cleaning_of_removeDeadCode hr₁ hremove
  have hcleans := (removeDeadCode_cleans hr₁ hremove hsmall).1
  refine ⟨hcleaning.intact, hcleaning.live, ?_, ?_⟩
  . intro hdebug
    exact (Filled.of_checkBlock (hcheck hdebug)).of_discards hcleans.discards hr₁.arranged
  . intro a c x
    exact hcleared.cleaned hr₁.arranged hprogress.spent hcleans

theorem forwardRegisters_again (actions : List Action) (b : BlockId) (debug : Bool) (n : Nat)
    (r' : Routine) (hordered : (after actions).DefOrdered)
    (hrun : forwardRegisters b debug (after actions) = .ok n r') (hsmall : r'.Small)
    : (forwardRegisters b debug r' = .ok 0 r' ↔
        n = 0 ∨ ∀ a c x, r'.Follows (r'.insnsOf b) a c → r'.Reads a x → r'.Reads c x →
          r'.Hidden b c x) ∧
      (debug = true → n ≠ 0 → r'.Filled b) ∧
      ((after actions).Filled b → forwardRegisters b debug r' = .ok 0 r' ∧ r'.Tidy b) := by
  have hgrows := (covers_keeps.forwardRegisters b debug (after actions)).grows
  rw [left_of_ok hrun] at hgrows
  have hr := intact_after actions (hgrows.small hsmall)
  -- A run that has changed nothing can be made again, whatever accesses it has found.
  by_cases hn : n = 0
  . subst hn
    rcases forwardRegisters_reduced hr hrun hsmall with ⟨-, rfl⟩ | ⟨hne, -⟩
    . have hquiet := ((forwardRegisters_idle_iff hr).mp hrun).2
      exact ⟨⟨fun _ => Or.inl rfl, fun _ => hrun⟩, fun _ hne => absurd rfl hne,
        fun hfilled => ⟨hrun, hquiet.tidy hfilled⟩⟩
    . exact absurd rfl hne
  . obtain ⟨hr', hb', hfilled', hleft⟩ := forwardRegisters_changed hr hordered hrun hn hsmall
    have hidle : r'.Quiet b → forwardRegisters b debug r' = .ok 0 r' := fun hquiet =>
      (forwardRegisters_idle_iff hr').mpr ⟨hb', hquiet⟩
    refine ⟨⟨?_, ?_⟩, fun hdebug _ => hfilled' hdebug, ?_⟩
    . intro hagain
      right
      intro a c x hac ha hc
      rcases ((forwardRegisters_idle_iff hr').mp hagain).2 a c x hac (Or.inl ha) (Or.inl hc) with
        ⟨-, hwrite⟩ | ⟨-, hhidden⟩
      . cases (hc.unique hwrite).1
      . exact hhidden
    . rintro (hzero | hreads)
      . exact absurd hzero hn
      . apply hidle
        intro a c x hac ha hc
        obtain ⟨hoverwritten, hforwarded⟩ := hleft a c x hac ha hc
        rcases ha, hc with ⟨ha | ha, hc | hc⟩
        . exact Or.inr ⟨hc, hreads a c x hac ha hc⟩
        . exact Or.inl ⟨ha, hc⟩
        . exact Or.inr ⟨hc, a, (hforwarded hc).2 ha, ha, hac⟩
        . exact absurd hc (hoverwritten ha)
    . intro hfilled
      have htidy : r'.Tidy b := by
        intro a c x hac ha hc
        obtain ⟨hoverwritten, hforwarded⟩ := hleft a c x hac ha hc
        have hwrite := hc.resolve_left fun hread => (hforwarded hread).1 hfilled
        exact ⟨ha.resolve_right fun ha => hoverwritten ha hwrite, hwrite⟩
      exact ⟨hidle htidy.quiet, htidy⟩

def accessesAroundCall : List Action :=
  [.addBlock,
    .pushBack (.ofNat 0) (.readReg .i64 (.ofNat 0 1)),
    .pushBack (.ofNat 0) (.readReg .i64 (.ofNat 0 1)),
    .pushBack (.ofNat 0) (.writeReg (.ofNat 1 1) (.insn (.ofNat 1)) .i64),
    .pushBack (.ofNat 0) (.readReg .i32 (.ofNat 1 1)),
    .pushBack (.ofNat 0) (.writeReg (.ofNat 2 1) (.const (.scalar .i32 7)) .i32),
    .pushBack (.ofNat 0) (.writeReg (.ofNat 2 1) (.insn (.ofNat 3)) .i32),
    .pushBack (.ofNat 0) (.xcall (.const (.pointer 4096))),
    .pushBack (.ofNat 0) (.readReg .i64 (.ofNat 0 1)),
    .pushBack (.ofNat 0) (.writeReg (.ofNat 3 1) (.insn (.ofNat 7)) .i64)]

theorem forwardRegisters_again_accessesAroundCall
    : (after accessesAroundCall).DefOrdered ∧ (after accessesAroundCall).Filled (.ofNat 0) ∧
        EStateM.run' (forwardRegisters (.ofNat 0) true) (after accessesAroundCall) = some 7 ∧
        forwardRegisters (.ofNat 0) true
            (left (forwardRegisters (.ofNat 0) true) (after accessesAroundCall)) =
          .ok 0 (left (forwardRegisters (.ofNat 0) true) (after accessesAroundCall)) ∧
        (left (forwardRegisters (.ofNat 0) true) (after accessesAroundCall)).Tidy (.ofNat 0) := by
  have hordered : (after accessesAroundCall).DefOrdered :=
    defOrdered_of_handles (by decide +kernel) (by decide +kernel)
  have hfilled : (after accessesAroundCall).Filled (.ofNat 0) := by decide +kernel
  have hrun : EStateM.run' (forwardRegisters (.ofNat 0) true) (after accessesAroundCall) = some 7 := by
    decide +kernel
  have hsmall : (left (forwardRegisters (.ofNat 0) true) (after accessesAroundCall)).Small := by
    decide +kernel
  obtain ⟨-, -, hsettled⟩ := forwardRegisters_again accessesAroundCall (.ofNat 0) true 7 _ hordered
    (run_of_run' hrun) hsmall
  exact ⟨hordered, hfilled, hrun, hsettled hfilled⟩

def readsBehindBlank : List Action :=
  [.addBlock,
    .pushBack (.ofNat 0) (.make .writeReg [.i64] [.reg (.ofNat 0 1)]),
    .pushBack (.ofNat 0) (.readReg .i64 (.ofNat 0 1)),
    .pushBack (.ofNat 0) (.readReg .i64 (.ofNat 0 1)),
    .pushBack (.ofNat 0) (.writeReg (.ofNat 0 1) (.const (.scalar .i64 1)) .i64),
    .pushBack (.ofNat 0) (.writeReg (.ofNat 1 1) (.insn (.ofNat 1)) .i64),
    .pushBack (.ofNat 0) (.writeReg (.ofNat 2 1) (.insn (.ofNat 2)) .i64)]

theorem forwardRegisters_twice_readsBehindBlank
    : (after readsBehindBlank).DefOrdered ∧
        ∀ debug, (left (forwardRegisters (.ofNat 0) debug) (after readsBehindBlank)).Small ∧
          EStateM.run' (forwardRegisters (.ofNat 0) debug) (after readsBehindBlank) = some 1 ∧
          (left (forwardRegisters (.ofNat 0) debug) (after readsBehindBlank)).insnsOf (.ofNat 0) =
            [.ofNat 1, .ofNat 2, .ofNat 3, .ofNat 4, .ofNat 5] ∧
          EStateM.run' (forwardRegisters (.ofNat 0) debug)
            (left (forwardRegisters (.ofNat 0) debug) (after readsBehindBlank)) = some 3 :=
  ⟨defOrdered_of_handles (by decide +kernel) (by decide +kernel), by decide +kernel⟩

end Edit

end MachineIR
