import MachineIR.Proofs.RegisterSweep

/-!
This module contains which writes the register forwarding takes out: those that a later write of the
same register overwrites, with no instruction in between that touches registers. Addresses that depend
on the register are not looked at.
-/

namespace MachineIR

structure Instruction.Becomes (i i' : Instruction) : Prop where
  opcode : i'.opcode = i.opcode
  length : i'.operands.length = i.operands.length
  operand : ∀ (k : Nat) (x : Operand), i.operands[k]? = some x → (∀ v, x ≠ .value v) →
    i'.operands[k]? = some x

namespace Instruction.Becomes

variable {i i' i'' : Instruction}

theorem refl (i : Instruction) : i.Becomes i := ⟨rfl, rfl, fun _ _ h _ => h⟩

theorem trans (h : i.Becomes i') (h' : i'.Becomes i'') : i.Becomes i'' := by
  refine ⟨h'.opcode.trans h.opcode, h'.length.trans h.length, ?_⟩
  intro k x hx hvalue
  exact h'.operand k x (h.operand k x hx hvalue) hvalue

theorem substitute (i : Instruction) (v : ValueId) (x : Operand) : i.Becomes (i.substitute v x) := by
  refine ⟨rfl, by simp [Instruction.substitute], ?_⟩
  intro k y hy hvalue
  simp [Instruction.substitute, hy, hvalue v]

end Instruction.Becomes

namespace Routine

variable {r r' : Routine} {b : BlockId} {id w w' : InsnId} {x : Register}
  {ids done mid : List InsnId}

def MayWrite (r : Routine) (id : InsnId) (x : Register) : Prop :=
  ∃ i, r.code? id = some i ∧ i.opcode = .writeReg ∧
    (i.operands[0]? = some (.reg x) ∨ ∃ v, i.operands[0]? = some (.value v))

def Touches (r : Routine) (id : InsnId) : Prop :=
  ∃ i, r.code? id = some i ∧ i.opcode.touchesRegisters = true

instance {o : Opcode} : Decidable (r.Accesses o id x) :=
  decidable_of_iff ((r.code? id).any fun i => i.opcode = o ∧ i.operands[0]? = some (.reg x))
    (by cases h : r.code? id <;> simp [Accesses, h])

instance : Decidable (r.Touches id) :=
  decidable_of_iff ((r.code? id).any fun i => i.opcode.touchesRegisters)
    (by cases h : r.code? id <;> simp [Touches, h])

theorem Accesses.mayWrite (h : r.Writes id x) : r.MayWrite id x := by
  obtain ⟨i, hi, ho, hx⟩ := h
  exact ⟨i, hi, ho, Or.inl hx⟩

theorem Accesses.not_touches {o : Opcode} (h : r.Accesses o id x) (ho : o.touchesRegisters = false)
    : ¬ r.Touches id := by
  rintro ⟨i', hi', htouch⟩
  obtain ⟨i, hi, rfl, -⟩ := h
  rw [hi] at hi'
  cases hi'
  rw [ho] at htouch
  cases htouch

def Addresses (r : Routine) (id : InsnId) (x : Register) : Prop :=
  ∃ i m, r.code? id = some i ∧ .mem m ∈ i.operands ∧ x ∈ m.registers

def Observes (r : Routine) (id : InsnId) (x : Register) : Prop := r.Touches id ∨ r.Addresses id x

def Plain (r : Routine) (b : BlockId) : Prop :=
  ∀ id ∈ r.insnsOf b, ∀ i ∈ r.code? id, i.opcode = .writeReg →
    (i.operands[0]?.bind Operand.value?) = none

instance : Decidable (r.Plain b) :=
  inferInstanceAs (Decidable (∀ id ∈ r.insnsOf b, ∀ i ∈ r.code? id, i.opcode = .writeReg →
    (i.operands[0]?.bind Operand.value?) = none))

theorem Plain.writes (h : r.Plain b) (hid : id ∈ r.insnsOf b) (hx : r.MayWrite id x)
    : r.Writes id x := by
  obtain ⟨i, hi, ho, hx⟩ := hx
  rcases hx with hx | ⟨v, hv⟩
  . exact ⟨i, hi, ho, hx⟩
  . have := h id hid i hi ho
    rw [hv] at this
    cases this

structure Overwrites (r : Routine) (ids : List InsnId) (x : Register) (w : InsnId)
    (mid : List InsnId) (w' : InsnId) : Prop where
  listed : ∃ front back, ids = front ++ w :: (mid ++ w' :: back)
  first : r.MayWrite w x
  second : r.MayWrite w' x
  untouched : ∀ j ∈ mid, ¬ r.Touches j
  unwritten : ∀ j ∈ mid, ¬ r.Writes j x

def Overwritten (r : Routine) (ids : List InsnId) (x : Register) (w : InsnId) : Prop :=
  ∃ mid w', r.Overwrites ids x w mid w'

def Latest (r : Routine) (ids : List InsnId) (x : Register) (w : InsnId) : Prop :=
  r.MayWrite w x ∧ ∃ front mid, ids = front ++ w :: mid ∧
    ∀ j ∈ mid, ¬ r.Touches j ∧ ¬ r.Writes j x

theorem Overwrites.observes_iff (h : r.Overwrites ids x w mid w')
    : (∀ j ∈ mid, ¬ r.Observes j x) ↔ ∀ j ∈ mid, ¬ r.Addresses j x := by
  constructor
  . intro hnone j hj haddress
    exact hnone j hj (Or.inr haddress)
  . rintro hnone j hj (htouch | haddress)
    . exact h.untouched j hj htouch
    . exact hnone j hj haddress

theorem Overwritten.append (h : r.Overwritten done x w) (rest : List InsnId)
    : r.Overwritten (done ++ rest) x w := by
  obtain ⟨mid, w', h⟩ := h
  obtain ⟨front, back, rfl⟩ := h.listed
  exact ⟨mid, w', ⟨front, back ++ rest, by simp⟩, h.first, h.second, h.untouched, h.unwritten⟩

theorem exists_split_concat {P : InsnId → Prop}
    : (∃ front mid, done ++ [id] = front ++ w :: mid ∧ ∀ j ∈ mid, P j) ↔
        w = id ∨ ((∃ front mid, done = front ++ w :: mid ∧ ∀ j ∈ mid, P j) ∧ P id) := by
  constructor
  . rintro ⟨front, mid, hlist, hmid⟩
    rcases List.eq_nil_or_concat mid with rfl | ⟨mid, last, rfl⟩
    . obtain ⟨-, heq⟩ := List.append_inj' hlist rfl
      cases heq
      exact Or.inl rfl
    . rw [List.concat_eq_append] at hlist hmid
      rw [← List.cons_append, ← List.append_assoc] at hlist
      obtain ⟨hdone, heq⟩ := List.append_inj' hlist rfl
      cases heq
      exact Or.inr ⟨⟨front, mid, hdone, fun j hj => hmid j (List.mem_append_left _ hj)⟩,
        hmid id (by simp)⟩
  . rintro (rfl | ⟨⟨front, mid, rfl, hmid⟩, hid⟩)
    . exact ⟨done, [], rfl, nofun⟩
    . refine ⟨front, mid ++ [id], by simp, ?_⟩
      intro j hj
      rcases List.mem_append.mp hj with hj | hj
      . exact hmid j hj
      . cases List.mem_singleton.mp hj
        exact hid

theorem latest_concat : r.Latest (done ++ [id]) x w ↔
    (w = id ∧ r.MayWrite id x) ∨ (r.Latest done x w ∧ ¬ r.Touches id ∧ ¬ r.Writes id x) := by
  unfold Latest
  rw [exists_split_concat]
  constructor
  . rintro ⟨hw, rfl | ⟨hlatest, hid⟩⟩
    . exact Or.inl ⟨rfl, hw⟩
    . exact Or.inr ⟨⟨hw, hlatest⟩, hid⟩
  . rintro (⟨rfl, hw⟩ | ⟨⟨hw, hlatest⟩, hid⟩)
    . exact ⟨hw, Or.inl rfl⟩
    . exact ⟨hw, Or.inr ⟨hlatest, hid⟩⟩

theorem overwritten_concat : r.Overwritten (done ++ [id]) x w ↔
    r.Overwritten done x w ∨ (r.Latest done x w ∧ r.MayWrite id x) := by
  constructor
  . rintro ⟨mid, w', h⟩
    obtain ⟨front, back, hlist⟩ := h.listed
    rcases List.eq_nil_or_concat back with rfl | ⟨back, last, rfl⟩
    . rw [← List.cons_append, ← List.append_assoc] at hlist
      obtain ⟨hdone, heq⟩ := List.append_inj' hlist rfl
      cases heq
      exact Or.inr ⟨⟨h.first, front, mid, hdone,
        fun j hj => ⟨h.untouched j hj, h.unwritten j hj⟩⟩, h.second⟩
    . left
      rw [List.concat_eq_append, ← List.cons_append, ← List.append_assoc, ← List.cons_append,
        ← List.append_assoc] at hlist
      obtain ⟨hdone, -⟩ := List.append_inj' hlist rfl
      exact ⟨mid, w', ⟨front, back, by simpa using hdone⟩, h.first, h.second, h.untouched,
        h.unwritten⟩
  . rintro (h | ⟨⟨hw, front, mid, rfl, hmid⟩, hid⟩)
    . exact h.append [id]
    . exact ⟨mid, id, ⟨front, [], by simp⟩, hw, hid, fun j hj => (hmid j hj).1,
        fun j hj => (hmid j hj).2⟩

section Becomes

variable {i i' : Instruction} (hi : r.code? id = some i) (hi' : r'.code? id = some i')
  (hbecomes : i.Becomes i')

include hi hi' hbecomes

theorem touches_iff_of_becomes : r'.Touches id ↔ r.Touches id := by
  unfold Touches
  rw [hi, hi']
  simp [hbecomes.opcode]

theorem Accesses.of_becomes {o : Opcode} (h : r.Accesses o id x) : r'.Accesses o id x := by
  obtain ⟨k, hk, ho, hx⟩ := h
  rw [hi] at hk
  cases hk
  exact ⟨i', hi', hbecomes.opcode.trans ho, hbecomes.operand 0 _ hx nofun⟩

theorem mayWrite_of_becomes (h : r'.Writes id x) : r.MayWrite id x := by
  obtain ⟨k, hk, ho, hx⟩ := h
  rw [hi'] at hk
  cases hk
  refine ⟨i, hi, hbecomes.opcode.symm.trans ho, ?_⟩
  have hlt := (List.getElem?_eq_some_iff.mp hx).1
  rw [hbecomes.length] at hlt
  by_cases hvalue : ∃ v, i.operands[0]? = some (.value v)
  . exact Or.inr hvalue
  . left
    rw [← hx, hbecomes.operand 0 _ (List.getElem?_eq_getElem hlt), List.getElem?_eq_getElem hlt]
    intro v heq
    exact hvalue ⟨v, by rw [List.getElem?_eq_getElem hlt, heq]⟩

end Becomes

end Routine

open Routine Edit

namespace Forwards

variable {r r' : Routine} {id j : InsnId} {known known' : Producers} {n : Nat} {x : Register}
  {p : InsnId} {i : Instruction}

theorem lookup_cons_eq {y : Register} {q : Producer}
    : List.lookup x ((y, q) :: known) = if x = y then some q else known.lookup x := by
  rw [List.lookup_cons]
  by_cases hxy : x = y
  . simp [hxy]
  . rw [beq_eq_false_iff_ne.mpr hxy, if_neg hxy]

theorem lookup_write_iff (h : Forwards r known id known' n r')
    : known'.lookup x = some ⟨p, true⟩ ↔ (p = id ∧ r.Writes id x) ∨
        (known.lookup x = some ⟨p, true⟩ ∧ ¬ r.Touches id ∧ ¬ r.Writes id x) := by
  have hread : ∀ {y}, r.Reads id y → ¬ r.Touches id ∧ ¬ r.Writes id x :=
    fun hy => ⟨hy.not_touches rfl, fun hx => nomatch (hy.unique hx).1⟩
  have hkept : ∀ {y}, r.Reads id y → (known.lookup x = some ⟨p, true⟩ ↔
      (p = id ∧ r.Writes id x) ∨
        (known.lookup x = some ⟨p, true⟩ ∧ ¬ r.Touches id ∧ ¬ r.Writes id x)) := by
    intro y hy
    simp [hread hy]
  have hwritten : ∀ {y}, r.Writes id y →
      (List.lookup x ((y, Producer.mk id true) :: known) = some ⟨p, true⟩ ↔
        (p = id ∧ r.Writes id x) ∨
          (known.lookup x = some ⟨p, true⟩ ∧ ¬ r.Touches id ∧ ¬ r.Writes id x)) := by
    intro y hy
    have htouch : ¬ r.Touches id := hy.not_touches rfl
    rw [lookup_cons_eq]
    by_cases hxy : x = y
    . subst hxy
      simp [hy, eq_comm]
    . have hx : ¬ r.Writes id x := fun hx => hxy (hy.unique hx).2
      simp [hxy, hx, htouch]
  -- A read keeps what is known of writes, and a write puts itself in front of it.
  cases h with
  | skip hi hother =>
    have htouch : r.Touches id ↔ _ := ⟨fun ⟨k, hk, h⟩ => by rw [hi] at hk; cases hk; exact h,
      fun h => ⟨_, hi, h⟩⟩
    rw [htouch]
    split
    . next ht => simp [ht, (hother x).1]
    . next ht => simp [ht, (hother x).1]
  | @learn y hy hnone =>
    rw [lookup_cons_eq]
    by_cases hxy : x = y
    . subst hxy
      simp [hnone, hread hy]
    . simp [hxy, hread hy]
  | write hy hother => exact hwritten hy
  | overwrite hy hlookup herased => exact hwritten hy
  | blank hy hlookup hcontent => exact hkept hy
  | forward hy hlookup hcontent hr₁ h => exact hkept hy
  | cast hy hlookup hcontent hr₁ hinserted h => exact hkept hy

theorem becomes (h : Forwards r known id known' n r') (hi : r.code? j = some i)
    (hj : j ≠ id ∨ i.opcode ≠ .readReg)
    : (∃ i', r'.code? j = some i' ∧ i.Becomes i') ∨
        ∃ x, r.Writes id x ∧ known.lookup x = some ⟨j, true⟩ := by
  have hsame : ∃ i', r.code? j = some i' ∧ i.Becomes i' := ⟨i, hi, .refl i⟩
  cases h with
  | skip hi hother => exact Or.inl hsame
  | learn hread hnone => exact Or.inl hsame
  | write hwrite hother => exact Or.inl hsame
  | @overwrite x p r' hwrite hlookup herased =>
    by_cases hjp : j = p
    . subst hjp
      exact Or.inr ⟨x, hwrite, hlookup⟩
    . left
      rw [herased.code, if_neg hjp]
      exact hsame
  | blank hread hlookup hcontent => exact Or.inl hsame
  | @forward x p y t n r₁ hread hlookup hcontent hr₁ h =>
    have hne : j ≠ id := by
      rintro rfl
      obtain ⟨k, hk, ho, -⟩ := hread
      rw [hi] at hk
      cases hk
      exact hj.elim (fun h => h rfl) fun h => h ho
    left
    rw [code?_modifyInsn, if_neg hne]
    rcases h with ⟨-, rfl⟩ | ⟨-, h⟩
    . exact hsame
    . exact ⟨_, by rw [h.code, hi]; rfl, .substitute i _ _⟩
  | cast hread hlookup hcontent hr₁ hinserted h =>
    obtain ⟨ip, hcode⟩ := hinserted.code
    left
    rw [h.code, hcode, if_neg (hinserted.ne hi), hi]
    exact ⟨_, rfl, .substitute i _ _⟩

theorem erases (h : Forwards r known id known' n r') (hwrite : r.Writes id x)
    (hlookup : known.lookup x = some ⟨p, true⟩) : r'.code? p = none := by
  have hread : ∀ {y}, ¬ r.Reads id y := fun hread => nomatch (hwrite.unique hread).1
  cases h with
  | skip hi hother => exact absurd hwrite (hother x).1
  | learn hy hnone => exact absurd hy hread
  | write hy hother =>
    cases (hwrite.unique hy).2
    exact absurd hlookup (hother p)
  | overwrite hy hlookup' herased =>
    cases (hwrite.unique hy).2
    rw [hlookup] at hlookup'
    cases hlookup'
    rw [herased.code, if_pos rfl]
  | blank hy hlookup' hcontent => exact absurd hy hread
  | forward hy hlookup' hcontent hr₁ h => exact absurd hy hread
  | cast hy hlookup' hcontent hr₁ hinserted h => exact absurd hy hread

theorem code?_eq_none (h : Forwards r known id known' n r') (hsize : j.toNat < r.insns.size)
    (hj : r.code? j = none) : r'.code? j = none := by
  -- Handles are not given out again.
  cases h with
  | skip | learn | write | blank => exact hj
  | overwrite hwrite hlookup herased =>
    rw [herased.code, hj]
    split
    . rfl
    . rfl
  | forward hread hlookup hcontent hr₁ h =>
    obtain ⟨k, hk, -⟩ := hread
    have hne : j ≠ id := by
      rintro rfl
      rw [hj] at hk
      cases hk
    rw [code?_modifyInsn, if_neg hne]
    rcases h with ⟨-, rfl⟩ | ⟨-, h⟩
    . exact hj
    . rw [h.code, hj]
      rfl
  | @cast x p y t t' c n r₁ r' hread hlookup hcontent hr₁ hinserted h =>
    obtain ⟨ip, hcode⟩ := hinserted.code
    have hne : j ≠ c := by
      intro heq
      rw [heq, hinserted.fresh, InsnId.toNat_ofNat hinserted.size] at hsize
      exact Nat.lt_irrefl _ hsize
    rw [h.code, hcode, if_neg hne, hj]
    rfl

end Forwards

/--
The sweep that began at `start` has visited `done`. Up to the operands that are values, the writes
and what is still to come are as they were, but for the writes that have been overwritten.
-/
structure Watched (b : BlockId) (start : Routine) (done todo : List InsnId) (known : Producers)
    (r : Routine) : Prop where
  listed : start.insnsOf b = done ++ todo
  size : start.insns.size ≤ r.insns.size
  code : ∀ j i i', start.code? j = some i → r.code? j = some i' →
    i.opcode = .writeReg ∨ j ∈ todo → i.Becomes i'
  found : ∀ x p, known.lookup x = some ⟨p, true⟩ → start.Latest done x p
  gone : ∀ j i, start.code? j = some i → i.opcode = .writeReg → r.code? j = none →
    ∃ x, start.Overwritten done x j
  latest : start.Plain b → ∀ x p, start.Latest done x p → known.lookup x = some ⟨p, true⟩
  overwritten : start.Plain b → ∀ x j, start.Overwritten done x j → r.code? j = none

namespace Watched

variable {start r r' : Routine} {b : BlockId} {id : InsnId} {known known' : Producers} {n : Nat}
  {done todo : List InsnId}

theorem begin (b : BlockId) (r : Routine) : Watched b r [] (r.insnsOf b) [] r where
  listed := rfl
  size := Nat.le_refl _
  code := by
    intro j i i' hi hi' _
    rw [hi] at hi'
    cases hi'
    exact .refl i
  found := nofun
  gone := by
    intro j i hi _ hnone
    rw [hi] at hnone
    cases hnone
  latest := by
    rintro - x p ⟨-, front, mid, hlist, -⟩
    simp at hlist
  overwritten := by
    rintro - x j ⟨mid, w', h⟩
    obtain ⟨front, back, hlist⟩ := h.listed
    simp at hlist

theorem step (h : Watched b start done (id :: todo) known r) (hstart : start.Intact)
    (hscanned : Scanned b known (id :: todo) r) (hforwards : Forwards r known id known' n r')
    (hgrows : r.Grows r') : Watched b start (done ++ [id]) todo known' r' := by
  have hmem : id ∈ start.insnsOf b := by simp [h.listed]
  obtain ⟨i₀, hi₀, -⟩ := hstart.arranged.mem_insnsOf.mp hmem
  replace hi₀ := code?_of_insn? hi₀
  obtain ⟨front, hlist, -⟩ := hscanned.rest
  obtain ⟨i, hi, -⟩ := hscanned.intact.arranged.mem_insnsOf.mp (show id ∈ r.insnsOf b by simp [hlist])
  replace hi := code?_of_insn? hi
  -- When the sweep began, `id` was the same up to the values among its operands, so it touched and
  -- wrote the same registers.
  have hbecomes := h.code id _ _ hi₀ hi (Or.inr List.mem_cons_self)
  have htouches := touches_iff_of_becomes hi₀ hi hbecomes
  have hwrites : ∀ {x}, start.Writes id x → r.Writes id x := Accesses.of_becomes hi₀ hi hbecomes
  have hmayWrite : ∀ {x}, r.Writes id x → start.MayWrite id x := mayWrite_of_becomes hi₀ hi hbecomes
  have hsize : ∀ {j i}, start.code? j = some i → j.toNat < r.insns.size := by
    intro j i hj
    obtain ⟨k, hk, -⟩ := exists_insn?_of_code? hj
    exact Nat.lt_of_lt_of_le (Store.lt_size_of_get? hk) h.size
  have hnew : ∀ {j}, j ∈ todo → j ≠ id := by
    rintro j hj rfl
    have hnodup := hstart.arranged.nodup_insnsOf b
    rw [h.listed] at hnodup
    exact (List.nodup_cons.mp (List.nodup_append.mp hnodup).2.1).1 hj
  constructor
  . rw [h.listed, List.append_assoc]
    rfl
  . exact Nat.le_trans h.size hgrows.insns
  . intro j k k' hk hk' hj
    cases hold : r.code? j with
    | none =>
      rw [hforwards.code?_eq_none (hsize hk) hold] at hk'
      cases hk'
    | some k₁ =>
      have hk₁ := h.code j k k₁ hk hold (hj.imp_right (List.mem_cons_of_mem id))
      have hne : j ≠ id ∨ k₁.opcode ≠ .readReg := by
        rcases hj with hj | hj
        . right
          rw [hk₁.opcode, hj]
          decide
        . exact Or.inl (hnew hj)
      rcases hforwards.becomes hold hne with ⟨k₂, hk₂, hnext⟩ | ⟨x, hwrite, hlookup⟩
      . rw [hk'] at hk₂
        cases hk₂
        exact hk₁.trans hnext
      . rw [hforwards.erases hwrite hlookup] at hk'
        cases hk'
  . intro x p hp
    rw [latest_concat]
    rcases hforwards.lookup_write_iff.mp hp with ⟨rfl, hwrite⟩ | ⟨hp, htouch, hwrite⟩
    . exact Or.inl ⟨rfl, hmayWrite hwrite⟩
    . exact Or.inr ⟨h.found x p hp, fun h => htouch (htouches.mpr h), fun h => hwrite (hwrites h)⟩
  . intro j k hk hopcode hnone
    cases hold : r.code? j with
    | none =>
      obtain ⟨x, hx⟩ := h.gone j k hk hopcode hold
      exact ⟨x, hx.append [id]⟩
    | some k₁ =>
      have hk₁ := h.code j k k₁ hk hold (Or.inl hopcode)
      have hne : k₁.opcode ≠ .readReg := by
        rw [hk₁.opcode, hopcode]
        decide
      rcases hforwards.becomes hold (Or.inr hne) with ⟨k₂, hk₂, -⟩ | ⟨x, hwrite, hlookup⟩
      . rw [hnone] at hk₂
        cases hk₂
      . exact ⟨x, overwritten_concat.mpr (Or.inr ⟨h.found x j hlookup, hmayWrite hwrite⟩)⟩
  . intro hplain x p hp
    rw [hforwards.lookup_write_iff]
    rcases latest_concat.mp hp with ⟨rfl, hwrite⟩ | ⟨hp, htouch, hwrite⟩
    . exact Or.inl ⟨rfl, hwrites (hplain.writes hmem hwrite)⟩
    . exact Or.inr ⟨h.latest hplain x p hp, fun h => htouch (htouches.mp h),
        fun h => hwrite (hplain.writes hmem (hmayWrite h))⟩
  . intro hplain x j hj
    rcases overwritten_concat.mp hj with hj | ⟨hlatest, hwrite⟩
    . have hold := h.overwritten hplain x j hj
      obtain ⟨mid, w', hj⟩ := hj
      obtain ⟨k, hk, -⟩ := hj.first
      exact hforwards.code?_eq_none (hsize hk) hold
    . exact hforwards.erases (hwrites (hplain.writes hmem hwrite)) (h.latest hplain x j hlatest)

end Watched

namespace Routine

variable {r r' : Routine} {id : InsnId}

theorem SamePlaces.code?_ne_none (h : r.SamePlaces r') (hid : r.code? id ≠ none)
    : r'.code? id ≠ none := by
  obtain ⟨c, hc⟩ := Option.ne_none_iff_exists'.mp hid
  obtain ⟨i, hi, -⟩ := exists_insn?_of_code? hc
  have hlinks := h.neighbours i.block id
  rw [neighbours?_eq_some.mpr ⟨i, hi, rfl, rfl⟩] at hlinks
  obtain ⟨i', hi', -⟩ := neighbours?_eq_some.mp hlinks
  rw [code?_of_insn? hi']
  exact Option.some_ne_none _

structure Spares (r r' : Routine) : Prop where
  grows : r.Grows r'
  code : r'.Small → ∀ id, r.code? id ≠ none → r'.code? id ≠ none

instance : Std.Refl Spares := ⟨fun r => ⟨Grows.refl r, fun _ _ h => h⟩⟩

instance : Trans Spares Spares Spares where
  trans h h' := by
    refine ⟨h.grows.trans h'.grows, ?_⟩
    intro hsmall id hid
    exact h'.code hsmall id (h.code (h'.grows.small hsmall) id hid)

theorem spares_of_samePlaces {α : Type} {e : Edit α} (hkeeps : Within Keeps e)
    (h : Within SamePlaces e) : Within Spares e := by
  intro r
  exact ⟨(hkeeps r).grows, fun _ id => (h r).code?_ne_none⟩

theorem coversInPlace_spares : CoversInPlace Spares where
  setOperand := fun id k x =>
    spares_of_samePlaces (keeps_setOperand id k x) (samePlaces_setOperand id k x)
  setOpcode := fun id o => spares_of_samePlaces (keeps_setOpcode id o) (samePlaces_setOpcode id o)
  setTemplate := fun id k t =>
    spares_of_samePlaces (keeps_setTemplate id k t) (samePlaces_setTemplate id k t)

theorem spares_insertBefore (id : InsnId) (i : Instruction)
    : Within Spares (insertBefore id i) := by
  intro r
  refine ⟨(keeps_insertBefore id i r).grows, ?_⟩
  intro hsmall j hj
  rcases insertBefore_cases hsmall with ⟨e, he⟩ | ⟨c, r', hrun, hinserted⟩
  . rwa [left_of_error he]
  . obtain ⟨ip, hcode⟩ := hinserted.code
    rw [left_of_ok hrun, hcode]
    split
    . exact Option.some_ne_none _
    . exact hj

def KeepsEffects (r r' : Routine) : Prop :=
  ∀ id i, r.code? id = some i → i.opcode.hasSideEffect = true → r'.code? id = some i

instance : Std.Refl KeepsEffects := ⟨fun _ _ _ hi _ => hi⟩

instance : Trans KeepsEffects KeepsEffects KeepsEffects :=
  ⟨fun h h' id i hi heffect => h' id i (h id i hi heffect) heffect⟩

end Routine

namespace Edit

variable {r r' : Routine} {b : BlockId} {debug : Bool} {id : InsnId} {known : Producers} {n : Nat}
  {e : Error}

theorem code?_of_erase_error (hrun : erase id r = .error e r') (j : InsnId)
    : r'.code? j = r.code? j := by
  rcases erase_cases id r with ⟨e', r₁, herror, hsame⟩ | ⟨i, r₁, -, -, hok⟩
  . rw [hrun] at herror
    cases herror
    exact code?_of_bare_eq hsame j
  . rw [hrun] at hok
    cases hok

theorem spares_of_visitRegister_error (hrun : visitRegister (known, n) id r = .error e r')
    (hsmall : r'.Small) (j : InsnId) (hj : r.code? j ≠ none) : r'.code? j ≠ none := by
  unfold visitRegister at hrun
  rcases of_bind_error hrun with hknown | ⟨i, r₁, hknown, hvisit⟩
  . have := left_knownInsn id r
    rw [left_of_error hknown] at this
    rwa [this]
  . obtain ⟨-, rfl⟩ := knownInsn_of_ok hknown
    obtain ⟨f, hf, hvisit⟩ := exists_run hvisit
    split at hf
    . subst hf
      unfold visitWrite at hvisit
      obtain ⟨g, hg, hvisit⟩ := exists_run hvisit
      split at hg
      . subst hg
        rcases of_bind_error hvisit with herase | ⟨u, r₂, -, hend⟩
        . rwa [code?_of_erase_error herase]
        . cases hend
      . subst hg
        cases hvisit
    . subst hf
      unfold visitRead at hvisit
      obtain ⟨g, hg, hvisit⟩ := exists_run hvisit
      split at hg
      . next p hlookup =>
        subst hg
        rcases of_bind_error hvisit with hforward | ⟨m, r₂, -, hend⟩
        . have hspares := coversInPlace_spares.forwardRead spares_insertBefore id p r₁
          rw [left_of_error hforward] at hspares
          exact hspares.code hsmall j hj
        . cases hend
      . subst hg
        cases hvisit
    . subst hf
      cases hvisit

theorem keepsEffects_complete (b : BlockId) (n : Nat) (debug : Bool)
    : Within KeepsEffects (complete b n debug) := by
  have herase : ∀ id, Within KeepsEffects (eraseWhen isDead id) := by
    intro id r j i hi heffect
    unfold eraseWhen
    rw [left_bind_of_ok (get_run r)]
    split
    . next hdead =>
      have hne : j ≠ id := by
        rintro rfl
        obtain ⟨k, hk, rfl⟩ := exists_insn?_of_code? hi
        unfold isDead Insn.isDead at hdead
        rw [hk, Option.any_some, Bool.and_eq_true, Bool.not_eq_true'] at hdead
        exact Bool.false_ne_true (hdead.2.symm.trans heffect)
      rw [left_bind_pure]
      rcases erase_cases id r with ⟨e, r₁, hrun, hsame⟩ | ⟨k, r₁, hk, hsame, hrun⟩
      . rwa [left_of_error hrun, code?_of_bare_eq hsame]
      . rwa [left_of_ok hrun, code?_detach, if_neg hne, code?_of_bare_eq hsame]
    . exact hi
  exact Within.complete (Within.sweep herase b .backward) n debug

theorem watched_ends (hr : r.Intact) (hb : r.block? b ≠ none)
    (hsmall : (left (forwardRegisters b debug) r).Small)
    : Ends visitRegister (fun todo s r₁ => Scanned b s.1 todo r₁ ∧ ∃ done, Watched b r done todo s.1 r₁)
        (sweepWith b .forward ([], 0) visitRegister r) := by
  apply visitRegister_ends _ hr hb ⟨[], .begin b r⟩
  . rw [forwardRegisters_eq] at hsmall
    cases hsweep : sweepWith b .forward ([], 0) visitRegister r with
    | ok s r₁ =>
      rw [left_bind_of_ok hsweep] at hsmall
      rw [left_of_ok hsweep]
      exact (keeps_complete b s.2 debug r₁).grows.small hsmall
    | error e r₁ =>
      rwa [left_bind_of_error hsweep, ← left_of_error hsweep] at hsmall
  . rintro id todo known n known' m r₁ r₂ hscanned ⟨done, h⟩ hforwards hgrows
    exact ⟨done ++ [id], h.step hr hscanned hforwards hgrows⟩

theorem overwritten_of_forwardRegisters {w : InsnId} {i : Instruction} (hr : r.Intact)
    (hsmall : (left (forwardRegisters b debug) r).Small) (hi : r.code? w = some i)
    (hopcode : i.opcode = .writeReg) (hgone : (left (forwardRegisters b debug) r).code? w = none)
    : ∃ x, r.Overwritten (r.insnsOf b) x w := by
  by_cases hb : r.block? b = none
  . have hrun : forwardRegisters b debug r = .error (.invalidHandle (.block b)) r := by
      rw [forwardRegisters_eq]
      unfold sweepWith cursor
      rw [bind_assoc, bind_assoc, bind_of_error (block_run_none hb)]
    rw [left_of_error hrun, hi] at hgone
    cases hgone
  . have hends := watched_ends hr hb hsmall
    rw [forwardRegisters_eq] at hsmall hgone
    cases hsweep : sweepWith b .forward ([], 0) visitRegister r with
    | ok s r₁ =>
      rw [hsweep] at hends
      rw [left_bind_of_ok hsweep] at hgone
      cases hends with
      | done h =>
        obtain ⟨-, done, h⟩ := h
        cases hi₁ : r₁.code? w with
        | none =>
          rw [h.listed, List.append_nil]
          exact h.gone w i hi hopcode hi₁
        | some i₁ =>
          have hopcode₁ := (h.code w i i₁ hi hi₁ (Or.inl hopcode)).opcode.trans hopcode
          rw [keepsEffects_complete b s.2 debug r₁ w i₁ hi₁ (by rw [hopcode₁]; rfl)] at hgone
          cases hgone
    | error e r₁ =>
      rw [hsweep] at hends
      rw [left_bind_of_error hsweep] at hgone hsmall
      cases hends with
      | @failed id rest s r₀ _ _ h hrun =>
        obtain ⟨-, done, h⟩ := h
        cases hi₀ : r₀.code? w with
        | none =>
          obtain ⟨x, hx⟩ := h.gone w i hi hopcode hi₀
          rw [h.listed]
          exact ⟨x, hx.append _⟩
        | some i₀ =>
          have hlive : r₀.code? w ≠ none := by simp [hi₀]
          exact absurd hgone (spares_of_visitRegister_error hrun hsmall w hlive)

theorem forwardRegisters_of_overwritten {w : InsnId} {x : Register} (hr : r.Intact)
    (hplain : r.Plain b) (hrun : forwardRegisters b debug r = .ok n r') (hsmall : r'.Small)
    (hw : r.Overwritten (r.insnsOf b) x w) : r'.code? w = none := by
  rw [← left_of_ok hrun] at hsmall
  have hrun' := hrun
  rw [forwardRegisters_eq] at hrun'
  obtain ⟨s, r₁, hsweep, hcomplete⟩ := of_bind_ok hrun'
  have hends := watched_ends hr (block?_of_sweepWith hsweep) hsmall
  rw [left_of_ok hrun] at hsmall
  rw [hsweep] at hends
  cases hends with
  | done h =>
    obtain ⟨hscanned, done, h⟩ := h
    rw [h.listed, List.append_nil] at hw
    have hnone := h.overwritten hplain x w hw
    rcases complete_cases hscanned.intact hcomplete hsmall with ⟨-, -, rfl⟩ | ⟨-, -, hcleans⟩
    . exact hnone
    . rcases code?_of_discards hcleans.discards w with h | h
      . exact h
      . rw [h, hnone]

theorem forwardRegisters_takes_out (actions : List Action) (b : BlockId) (debug : Bool)
    (hsmall : (left (forwardRegisters b debug) (after actions)).Small)
    : (∀ w i, (after actions).code? w = some i → i.opcode = .writeReg →
        (left (forwardRegisters b debug) (after actions)).code? w = none →
          ∃ x mid w', (after actions).Overwrites ((after actions).insnsOf b) x w mid w' ∧
            ((∀ j ∈ mid, ¬ (after actions).Observes j x) ↔
              ∀ j ∈ mid, ¬ (after actions).Addresses j x)) ∧
        ((after actions).Plain b → ∀ n r', forwardRegisters b debug (after actions) = .ok n r' →
          ∀ w x, (after actions).Writes w x → (r'.code? w = none ↔
            ∃ mid w', (after actions).Overwrites ((after actions).insnsOf b) x w mid w')) := by
  have hr : (after actions).Intact :=
    intact_after actions ((covers_keeps.forwardRegisters b debug (after actions)).grows.small hsmall)
  constructor
  . intro w i hi hopcode hgone
    obtain ⟨x, mid, w', h⟩ := overwritten_of_forwardRegisters hr hsmall hi hopcode hgone
    exact ⟨x, mid, w', h, h.observes_iff⟩
  . intro hplain n r' hrun w x hw
    rw [left_of_ok hrun] at hsmall
    constructor
    . intro hgone
      obtain ⟨i, hi, hopcode, -⟩ := id hw
      rw [← left_of_ok hrun] at hsmall hgone
      obtain ⟨x', mid, w', h⟩ := overwritten_of_forwardRegisters hr hsmall hi hopcode hgone
      obtain ⟨front, back, hlist⟩ := h.listed
      have hmem : w ∈ (after actions).insnsOf b := by simp [hlist]
      cases (hw.unique (hplain.writes hmem h.first)).2
      exact ⟨mid, w', h⟩
    . intro h
      exact forwardRegisters_of_overwritten hr hplain hrun hsmall h

def writesAroundCall : List Action :=
  [.addBlock,
    .pushBack (.ofNat 0) (.writeReg (.ofNat 0 1) (.const (.i64 1)) .i64),
    .pushBack (.ofNat 0) (.readReg .i64 (.ofNat 0 1)),
    .pushBack (.ofNat 0) (.writeReg (.ofNat 1 1) (.insn (.ofNat 1)) .i64),
    .pushBack (.ofNat 0) (.writeReg (.ofNat 0 1) (.const (.i64 2)) .i64),
    .pushBack (.ofNat 0) (.xcall (.const (.pointer 4096))),
    .pushBack (.ofNat 0) (.writeReg (.ofNat 0 1) (.const (.i64 3)) .i64)]

theorem forwardRegisters_writesAroundCall
    : (after writesAroundCall).Plain (.ofNat 0) ∧
        (left (forwardRegisters (.ofNat 0) true) (after writesAroundCall)).code? (.ofNat 0) = none ∧
        (∃ mid w', (after writesAroundCall).Overwrites
          ((after writesAroundCall).insnsOf (.ofNat 0)) (.ofNat 0 1) (.ofNat 0) mid w') ∧
        (left (forwardRegisters (.ofNat 0) true) (after writesAroundCall)).code? (.ofNat 3) ≠ none ∧
        ¬ ∃ mid w', (after writesAroundCall).Overwrites
          ((after writesAroundCall).insnsOf (.ofNat 0)) (.ofNat 0 1) (.ofNat 3) mid w' := by
  have hsmall : (left (forwardRegisters (.ofNat 0) true) (after writesAroundCall)).Small := by
    constructor
    . decide +kernel
    . decide +kernel
    . decide +kernel
  have hrun : EStateM.run' (forwardRegisters (.ofNat 0) true) (after writesAroundCall) = some 4 := by
    decide +kernel
  have hplain : (after writesAroundCall).Plain (.ofNat 0) := by decide +kernel
  have hgone : (left (forwardRegisters (.ofNat 0) true)
      (after writesAroundCall)).code? (.ofNat 0) = none := by
    decide +kernel
  have hkept : (left (forwardRegisters (.ofNat 0) true)
      (after writesAroundCall)).code? (.ofNat 3) ≠ none := by
    decide +kernel
  have hiff := (forwardRegisters_takes_out writesAroundCall (.ofNat 0) true hsmall).2 hplain _ _
    (run_of_run' hrun)
  refine ⟨hplain, hgone, ?_, hkept, ?_⟩
  . exact (hiff (.ofNat 0) (.ofNat 0 1) (by decide +kernel)).mp hgone
  . intro h
    exact hkept ((hiff (.ofNat 3) (.ofNat 0 1) (by decide +kernel)).mpr h)

def writesAroundLoad : List Action :=
  [.addBlock,
    .pushBack (.ofNat 0) (.writeReg (.ofNat 0 1) (.const (.i64 1)) .i64),
    .pushBack (.ofNat 0) (.loadMem .i64 (.mem { base := some (.ofNat 0 1) }) 0),
    .pushBack (.ofNat 0) (.writeReg (.ofNat 1 1) (.insn (.ofNat 1)) .i64),
    .pushBack (.ofNat 0) (.writeReg (.ofNat 0 1) (.const (.i64 2)) .i64)]

theorem forwardRegisters_writesAroundLoad
    : (after writesAroundLoad).check = .ok () ∧
        (after writesAroundLoad).Overwrites ((after writesAroundLoad).insnsOf (.ofNat 0)) (.ofNat 0 1)
          (.ofNat 0) [.ofNat 1, .ofNat 2] (.ofNat 3) ∧
        (left (forwardRegisters (.ofNat 0) true) (after writesAroundLoad)).code? (.ofNat 0) = none ∧
        (after writesAroundLoad).Observes (.ofNat 1) (.ofNat 0 1) := by
  have hlist : (after writesAroundLoad).insnsOf (.ofNat 0) =
      [.ofNat 0, .ofNat 1, .ofNat 2, .ofNat 3] := by decide +kernel
  have hload : (after writesAroundLoad).code? (.ofNat 1) =
      some (.loadMem .i64 (.mem { base := some (.ofNat 0 1) }) 0) := by decide +kernel
  refine ⟨by decide +kernel, ?_, by decide +kernel, ?_⟩
  . constructor
    . exact ⟨[], [], hlist⟩
    . exact Accesses.mayWrite (by decide +kernel)
    . exact Accesses.mayWrite (by decide +kernel)
    . decide +kernel
    . decide +kernel
  . exact Or.inr ⟨_, _, hload, List.mem_cons_self, by decide⟩

end Edit

end MachineIR
