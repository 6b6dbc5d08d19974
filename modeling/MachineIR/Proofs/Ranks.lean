import Mathlib.Data.Prod.Lex
import MachineIR.Proofs.RegisterSweep
import MachineIR.Proofs.Weights

/-!
This module contains ranks of instructions, which grow along the blocks and from operands to results,
and a measure of routines that have them. Whatever a pass changes makes the measure smaller.
-/

namespace MachineIR

namespace Routine

variable {r r' : Routine} {b : BlockId} {id a c : InsnId} {x : Operand} {ρ : InsnId → Nat}

/-- Ranks that grow along every block, and from the operands of an instruction to the instruction. -/
structure Ranked (r : Routine) (ρ : InsnId → Nat) : Prop where
  listed : ∀ b, (r.insnsOf b).Pairwise fun i j => ρ i < ρ j
  operand : ∀ id i j, r.code? id = some i → i.opcode ≠ .phi → .insn j ∈ i.operands → ρ j < ρ id

def DefOrdered (r : Routine) : Prop := ∃ ρ, r.Ranked ρ

theorem defOrdered_of_handles
    (hlisted : ∀ p ∈ r.blocks.entries, (r.insnsOf (.ofNat p.1)).Pairwise fun i j => i.toNat < j.toNat)
    (hoperand : ∀ p ∈ r.insns.entries, p.2.opcode ≠ .phi → ∀ x ∈ p.2.operands, ∀ j ∈ x.insn?,
      j.toNat < p.1)
    : r.DefOrdered := by
  refine ⟨InsnId.toNat, ?_, ?_⟩
  . intro b
    cases hb : r.block? b with
    | none =>
      rw [insnsOf_of_none hb]
      exact .nil
    | some found =>
      have := hlisted (b.toNat, found) (Store.mem_entries.mpr hb)
      rwa [BlockId.ofNat_toNat] at this
  . intro id i j hi hphi hj
    obtain ⟨k, hk, rfl⟩ := exists_insn?_of_code? hi
    exact hoperand (id.toNat, k) (Store.mem_entries.mpr hk) hphi _ hj j rfl

namespace Ranked

theorem lt_of_before (h : r.Ranked ρ) (hbefore : r.Before a c) : ρ a < ρ c := by
  cases hbefore with
  | @listed b front mid back _ _ hlist =>
    have hpairwise := h.listed b
    rw [hlist] at hpairwise
    exact List.rel_of_pairwise_cons (List.pairwise_append.mp hpairwise).2.1 (by simp)
  | operand hi hphi ha => exact h.operand c _ a hi hphi ha

theorem lt_of_precedes (h : r.Ranked ρ) (hprecedes : r.Precedes a c) : ρ a < ρ c := by
  induction hprecedes with
  | single hbefore => exact h.lt_of_before hbefore
  | tail _ hbefore ih => exact Nat.lt_trans ih (h.lt_of_before hbefore)

theorem replaced (h : r.Ranked ρ) (harranged : r.Arranged) (hx : ∀ j, x = .insn j → ρ j < ρ id)
    (hreplaced : Edit.Replaced r r' (.insn id) x) : r'.Ranked ρ := by
  constructor
  . intro b
    rw [hreplaced.samePlaces.insnsOf harranged]
    exact h.listed b
  . intro u i' j hi' hphi hj
    rw [hreplaced.code] at hi'
    obtain ⟨i, hi, rfl⟩ := Option.map_eq_some_iff.mp hi'
    obtain ⟨y, hy, heq⟩ := List.mem_map.mp hj
    split at heq
    . next hyid =>
      rw [hyid] at hy
      exact Nat.lt_trans (hx j heq) (h.operand u i id hi hphi hy)
    . exact h.operand u i j hi hphi (heq ▸ hy)

theorem rewired (h : r.Ranked ρ) (harranged : r.Arranged) (hrewired : r.Rewired r' id)
    : r'.Ranked ρ := by
  obtain ⟨i₀, i₁, hi₀, hphi₀, hphi₁, -, hcode, hoperands⟩ := hrewired.code
  constructor
  . intro b
    rw [hrewired.places.insnsOf harranged]
    exact h.listed b
  . intro u i j hi hphi hj
    rw [hcode] at hi
    split at hi
    . next hu =>
      cases hi
      rw [hu]
      exact h.lt_of_precedes (hoperands j hj).1
    . exact h.operand u i j hi hphi hj

theorem erased (h : r.Ranked ρ) (harranged : r.Arranged) (herased : Edit.Erased r r' id)
    : r'.Ranked ρ := by
  constructor
  . intro b
    rw [herased.insnsOf harranged]
    exact (h.listed b).filter _
  . intro u i j hi hphi hj
    rw [herased.code] at hi
    split at hi
    . cases hi
    . exact h.operand u i j hi hphi hj

def raise (ρ : InsnId → Nat) (id c : InsnId) (j : InsnId) : Nat :=
  if j = c then 2 * ρ id else 2 * ρ j + 1

theorem raise_of_ne {j : InsnId} (h : j ≠ c) : raise ρ id c j = 2 * ρ j + 1 := if_neg h

theorem raise_self : raise ρ id c c = 2 * ρ id := if_pos rfl

theorem pairwise_putBefore {ids : List InsnId} (h : ids.Pairwise fun i j => ρ i < ρ j)
    (hnodup : ids.Nodup) (hc : c ∉ ids)
    : (Edit.Inserted.putBefore c id ids).Pairwise fun i j => raise ρ id c i < raise ρ id c j := by
  have hne : ∀ {j}, j ∈ ids → j ≠ c := by
    rintro j hj rfl
    exact hc hj
  have hraised : ∀ {l : List InsnId}, l ⊆ ids → l.Pairwise (fun i j => ρ i < ρ j) →
      l.Pairwise fun i j => raise ρ id c i < raise ρ id c j := by
    intro l hl hpairwise
    refine hpairwise.imp_of_mem ?_
    intro i j hi hj hij
    rw [raise_of_ne (hne (hl hi)), raise_of_ne (hne (hl hj))]
    omega
  -- Ranks that are doubled stay in order and leave room below the one of `id`.
  by_cases hid : id ∈ ids
  . obtain ⟨front, back, rfl⟩ := List.append_of_mem hid
    obtain ⟨-, htail, hdisjoint⟩ := List.nodup_append.mp hnodup
    rw [Edit.Inserted.putBefore_append (fun hf => hdisjoint id hf id List.mem_cons_self rfl)
      (List.nodup_cons.mp htail).1]
    obtain ⟨hfront, hback, hcross⟩ := List.pairwise_append.mp h
    refine List.pairwise_append.mpr ⟨hraised (by simp) hfront, ?_, ?_⟩
    . refine List.pairwise_cons.mpr ⟨?_, hraised (by simp) hback⟩
      intro j hj
      have hle : ρ id ≤ ρ j := by
        rcases List.mem_cons.mp hj with rfl | hj
        . exact Nat.le_refl _
        . exact Nat.le_of_lt (List.rel_of_pairwise_cons hback hj)
      rw [raise_self, raise_of_ne (hne (List.mem_append_right front hj))]
      omega
    . intro i hi j hj
      rw [raise_of_ne (hne (List.mem_append_left _ hi))]
      rcases List.mem_cons.mp hj with rfl | hj
      . have := hcross i hi id List.mem_cons_self
        rw [raise_self]
        omega
      . have := hcross i hi j hj
        rw [raise_of_ne (hne (List.mem_append_right front hj))]
        omega
  . rw [Edit.Inserted.putBefore_eq_self hid]
    exact hraised (List.Subset.refl _) h

theorem inserted {k : Instruction} (h : r.Ranked ρ) (hr : r.Intact)
    (hk : ∀ j, .insn j ∈ k.operands → ρ j < ρ id) (hinserted : Edit.Inserted r r' id k c)
    : r'.Ranked (raise ρ id c) := by
  obtain ⟨ip, hcode⟩ := hinserted.code
  have hc : ∀ b, c ∉ r.insnsOf b := by
    intro b hmem
    obtain ⟨i, hi, -⟩ := hr.arranged.mem_insnsOf.mp hmem
    exact hinserted.ne (code?_of_insn? hi) rfl
  constructor
  . intro b
    rw [hinserted.insnsOf hr.arranged]
    exact pairwise_putBefore (h.listed b) (hr.arranged.nodup_insnsOf b) (hc b)
  . intro u i j hi hphi hj
    have hjc : j ≠ c := by
      rintro rfl
      exact hinserted.not_refers hr.tracked u ⟨i, hi, hj⟩
    rw [raise_of_ne hjc]
    rw [hcode] at hi
    split at hi
    . next hu =>
      cases hi
      have := hk j hj
      rw [hu, raise_self]
      omega
    . next hu =>
      have := h.operand u i j hi hphi hj
      rw [raise_of_ne hu]
      omega

end Ranked

end Routine

section Tension

variable {r : Routine} {ρ : InsnId → Nat} {id : InsnId} {i : Insn} {s : Simplification}
  {x y : Operand} {xs : List Operand} {k n : Nat}

/--
How far an operand in slot `k` is from what the laws aim at: operands that are computed early,
additions instead of subtractions and constants on the right.
-/
def Operand.pull (ρ : InsnId → Nat) (k : Nat) : Operand → Nat
  | .value (.insn j) => ρ j + 2
  | .const c => if k = 0 then (if c = .op .sub then 1 else 0) else if k = 1 then 1 else 0
  | _ => 0

theorem Operand.pull_const_le (c : Constant) : (Operand.const c).pull ρ k ≤ 1 := by
  dsimp only [pull]
  split
  . split
    . exact Nat.le_refl 1
    . exact Nat.zero_le 1
  . split
    . exact Nat.le_refl 1
    . exact Nat.zero_le 1

theorem Operand.pull_of_not_isConst (h : x.isConst = false) : x.pull ρ k = x.pull ρ n := by
  cases x with
  | const c => cases h
  | value v => cases v <;> rfl
  | _ => rfl

theorem Operand.pull_one_const (c : Constant) : (Operand.const c).pull ρ 1 = 1 := rfl

theorem Operand.pull_two_const (c : Constant) : (Operand.const c).pull ρ 2 = 0 := rfl

theorem Operand.pull_lt {p : InsnId} (hx : ∀ j, x = .insn j → ρ j < ρ p)
    : x.pull ρ k < (Operand.insn p).pull ρ n := by
  change x.pull ρ k < ρ p + 2
  cases x with
  | value v =>
    cases v with
    | insn j =>
      have := hx j rfl
      change ρ j + 2 < ρ p + 2
      omega
    | block c => exact Nat.succ_pos _
  | const c =>
    have := Operand.pull_const_le (ρ := ρ) (k := k) c
    omega
  | _ => exact Nat.succ_pos _

def Operand.tension (ρ : InsnId → Nat) : Nat → List Operand → Nat
  | _, [] => 0
  | k, x :: rest => x.pull ρ k + tension ρ (k + 1) rest

theorem Operand.tension_set (h : xs[n]? = some x)
    : tension ρ k (xs.set n y) + x.pull ρ (k + n) = tension ρ k xs + y.pull ρ (k + n) := by
  induction xs generalizing k n with
  | nil => cases h
  | cons z rest ih =>
    cases n with
    | zero =>
      cases h
      simp only [List.set_cons_zero, tension, Nat.add_zero]
      omega
    | succ n =>
      have := ih (k := k + 1) h
      simp only [List.set_cons_succ, tension]
      rw [show k + (n + 1) = k + 1 + n by omega]
      omega

theorem Insn.tension_withOperand (h : i.operand? n = some x)
    : Operand.tension ρ 0 (i.withOperand n y).operands + x.pull ρ n =
        Operand.tension ρ 0 i.operands + y.pull ρ n := by
  rw [Insn.operand?_eq] at h
  have := Operand.tension_set (ρ := ρ) (k := 0) (y := y) h
  rw [Nat.zero_add] at this
  rwa [Insn.operands_withOperand]

theorem Insn.tension_withOperands {m : Nat} {x' y' : Operand} (hne : n ≠ m)
    (hx : i.operand? n = some x) (hx' : i.operand? m = some x')
    (hlt : y.pull ρ n + y'.pull ρ m < x.pull ρ n + x'.pull ρ m)
    : Operand.tension ρ 0 ((i.withOperand n y).withOperand m y').operands <
        Operand.tension ρ 0 i.operands := by
  have hfirst := Insn.tension_withOperand (ρ := ρ) (y := y) hx
  have hsecond := Insn.tension_withOperand (i := i.withOperand n y) (ρ := ρ) (y := y') (x := x')
    (n := m) (by rw [operand?_withOperand (by simp [hx]), if_neg (Ne.symm hne), hx'])
  omega

theorem Routine.Ranked.pull_lt {inner : Insn} {m : Nat} (h : r.Ranked ρ)
    (hinner : r.producer? x = some inner) (hphi : inner.opcode ≠ .phi)
    (hy : inner.operand? m = some y) : y.pull ρ k < x.pull ρ n := by
  obtain ⟨p, rfl, hinner⟩ := producer?_eq_some.mp hinner
  apply Operand.pull_lt
  rintro j rfl
  exact h.operand p inner.code j (code?_of_insn? hinner) hphi (Insn.mem_operands hy)

theorem Rule.tension_lt (h : Rule r i s) (hranked : r.Ranked ρ) (hs : ∀ x, s ≠ .replace x)
    : Operand.tension ρ 0 (s.applied i).operands < Operand.tension ρ 0 i.operands := by
  -- To read what another conversion has read is to read an operand with a smaller rank.
  have hsource : ∀ {x y inner}, i.operand? 0 = some x → r.producer? x = some inner →
      inner.opcode ≠ .phi → inner.operand? 0 = some y →
      Operand.tension ρ 0 ((Simplification.source (inner.template 0) y).applied i).operands <
        Operand.tension ρ 0 i.operands := by
    intro x y inner hx hinner hphi hy
    have hlt : y.pull ρ 0 < x.pull ρ 0 := hranked.pull_lt hinner hphi hy
    have htension := Insn.tension_withOperand (ρ := ρ) (y := y) (n := 0) (x := x)
      (i := { i with templates := (inner.template 0, i.templates.2) }) hx
    change _ < Operand.tension ρ 0 { i with templates := (inner.template 0, i.templates.2) }.operands
    change Operand.tension ρ 0 (Insn.withOperand 0 y _).operands < _
    omega
  cases h with
  | @commute o x y hopcode ho hx hy hinteger hcommutative hconst hother =>
    apply Insn.tension_withOperands (by decide) hx hy
    cases x with
    | const c =>
      have hpull : y.pull ρ 1 = y.pull ρ 2 := Operand.pull_of_not_isConst hother
      rw [hpull, Operand.pull_one_const, Operand.pull_two_const]
      omega
    | _ => cases hconst
  | addNegated hopcode ho hx hy hinteger hzero hnegated =>
    have hsub : i.operand? 0 = some (.const (.op .sub)) := by
      obtain ⟨z, hz, hzc⟩ := Option.bind_eq_some_iff.mp (Insn.const?_of_operator? ho)
      rw [hz, const?_eq_some hzc]
    apply Insn.tension_withOperands (by decide) hsub hy
    simp [Operand.pull]
  | mergeAdditions hopcode ho hx hy hinteger hinner hinnerOpcode hinnerOperator htemplate hinnerX =>
    apply Insn.tension_withOperands (by decide) hx hy
    have hlt := hranked.pull_lt (k := 1) (n := 1) hinner (by rw [hinnerOpcode]; decide) hinnerX
    rw [Operand.pull_two_const, Operand.pull_two_const]
    omega
  | bitcasts hopcode hx hinner hinnerOpcode hy =>
    exact hsource hx hinner (by rw [hinnerOpcode]; decide) hy
  | casts he hx hinner he' htemplate hy =>
    exact hsource hx hinner (Opcode.ne_phi_of_extension? he') hy
  | constant | self | onEqual | undo | sameType | dropCasts | sameArms =>
    exact absurd rfl (hs _)

end Tension

def Instruction.bulk (i : Instruction) : Nat := if i.opcode = .readReg then 2 else 1

namespace Routine

variable {r r' : Routine} {b : BlockId} {id : InsnId} {ρ : InsnId → Nat} {gone : List InsnId}

noncomputable def bulk (gone : List InsnId) (r : Routine) : Nat := r.weight Instruction.bulk gone

noncomputable def tension (ρ : InsnId → Nat) (r : Routine) : Nat :=
  r.weight (fun i => Operand.tension ρ 0 i.operands) []

noncomputable def measure (ρ : InsnId → Nat) (gone : List InsnId) (r : Routine) : ℕ ×ₗ ℕ :=
  toLex (r.bulk gone, r.tension ρ)

theorem one_le_bulk (i : Instruction) : 1 ≤ i.bulk := by
  unfold Instruction.bulk
  split <;> omega

theorem bulk_cons_lt {i : Instruction} (hid : id ∉ gone) (hi : r.code? id = some i)
    : r.bulk (id :: gone) < r.bulk gone := by
  apply weight_lt id
  . rw [weightAt_of_mem List.mem_cons_self, weightAt_of_code hid hi]
    exact one_le_bulk i
  . intro j hj
    rw [weightAt_cons_of_ne hj]

theorem bulk_erased (hid : id ∉ gone) (hlive : r.code? id ≠ none) (h : Edit.Erased r r' id)
    : r'.bulk gone < r.bulk gone := by
  obtain ⟨i, hi⟩ := Option.ne_none_iff_exists'.mp hlive
  apply weight_lt id
  . rw [weightAt_of_none (by rw [h.code, if_pos rfl]), weightAt_of_code hid hi]
    exact one_le_bulk i
  . intro j hj
    exact Nat.le_of_eq (weightAt_congr (by rw [h.code, if_neg hj]))

theorem bulk_replaced {i : Instruction} {x : Operand} (hid : id ∉ gone) (hi : r.code? id = some i)
    (h : Edit.Replaced r r' (.insn id) x) : r'.bulk (id :: gone) < r.bulk gone := by
  rw [bulk, weight_replaced (fun _ => rfl) h]
  exact bulk_cons_lt hid hi

theorem bulk_modifyInsn_of_mem (hid : id ∈ gone) (f : Insn → Insn)
    : (r.modifyInsn id f).bulk gone = r.bulk gone := by
  apply weight_eq
  intro j
  by_cases hj : j = id
  . rw [weightAt_of_mem (hj ▸ hid), weightAt_of_mem (hj ▸ hid)]
  . exact weightAt_congr (by rw [code?_modifyInsn, if_neg hj])

theorem bulk_retired {i : Instruction} (hid : id ∉ gone) (hi : r.code? id = some i)
    (hread : i.opcode = .readReg)
    : (r.modifyInsn id ({ · with opcode := .nop })).bulk gone < r.bulk gone := by
  obtain ⟨k, hk, rfl⟩ := exists_insn?_of_code? hi
  apply weight_lt id
  . have hnop : (r.modifyInsn id ({ · with opcode := .nop })).code? id =
        some { k.code with opcode := .nop } := by
      rw [code?_modifyInsn, if_pos rfl, hk]
      rfl
    rw [weightAt_of_code hid hi, weightAt_of_code hid hnop, Instruction.bulk, Instruction.bulk,
      if_pos hread]
    exact Nat.lt_succ_self 1
  . intro j hj
    exact Nat.le_of_eq (weightAt_congr (by rw [code?_modifyInsn, if_neg hj]))

theorem bulk_recast {r₁ : Routine} {c : InsnId} {i : Instruction} {t t' : Ty} {x y : Operand}
    (hid : id ∉ gone) (hi : r.code? id = some i) (hread : i.opcode = .readReg)
    (hinserted : Edit.Inserted r r₁ id (.bitcast t t' x) c) (h : Edit.Replaced r₁ r' (.insn id) y)
    : r'.bulk (id :: gone) < r.bulk gone := by
  -- A read counts more than the conversion that takes its place.
  have hsum := weight_recast (w := Instruction.bulk) (fun _ => rfl) hid hi hinserted
  rw [Instruction.bulk, if_pos hread] at hsum
  rw [bulk, weight_replaced (fun _ => rfl) h]
  exact Nat.lt_of_succ_lt_succ (Nat.lt_of_succ_le hsum)

theorem bulk_applied {i : Insn} {s : Simplification} (hi : r.insn? id = some i)
    (h : r'.bare = (r.modifyInsn id s.applied).bare) : r'.bulk gone = r.bulk gone := by
  apply weight_congr
  intro j
  rw [code?_of_applied hi h]
  split
  . next hj =>
    rw [hj, code?_of_insn? hi]
    cases s <;> rfl
  . rfl

theorem tension_applied {i : Insn} {s : Simplification} (hi : r.insn? id = some i)
    (h : r'.bare = (r.modifyInsn id s.applied).bare)
    (hlt : Operand.tension ρ 0 (s.applied i).operands < Operand.tension ρ 0 i.operands)
    : r'.tension ρ < r.tension ρ := by
  apply weight_lt id
  . rw [weightAt_of_code List.not_mem_nil (code?_of_insn? hi),
      weightAt_of_code List.not_mem_nil (by rw [code?_of_applied hi h, if_pos rfl])]
    exact hlt
  . intro j hj
    exact Nat.le_of_eq (weightAt_congr (by rw [code?_of_applied hi h, if_neg hj]))

theorem measure_lt_of_bulk {ρ' : InsnId → Nat} {gone' : List InsnId} (h : r'.bulk gone' < r.bulk gone)
    : r'.measure ρ' gone' < r.measure ρ gone :=
  Prod.Lex.toLex_lt_toLex.mpr (Or.inl h)

end Routine

namespace Reduces

open Routine

variable {b : BlockId} {r r' : Routine} {gone gone' : List InsnId} {ρ : InsnId → Nat}

theorem descends (h : Reduces b (gone, r) (gone', r')) (hranked : r.Ranked ρ)
    : ∃ ρ', r'.Ranked ρ' ∧ r'.measure ρ' gone' < r.measure ρ gone := by
  have hrank : ∀ {id : InsnId} {x : Operand}, r.Offers b id x → ∀ j, x = .insn j → ρ j < ρ id :=
    fun hx j hj => hranked.lt_of_precedes (hx j hj).1
  cases h with
  | @replace _ _ _ id i x hr hid hnew hi hpure hx hgone hself h =>
    exact ⟨ρ, hranked.replaced hr.arranged (hrank hx) h, measure_lt_of_bulk (bulk_replaced hnew hi h)⟩
  | @rewire _ _ _ id i s hr hid hi hrule hs h =>
    -- No instruction goes away here, so it is the tension that falls.
    refine ⟨ρ, hranked.rewired hr.arranged (rewired_of_rule hi hrule h), ?_⟩
    apply Prod.Lex.toLex_lt_toLex.mpr
    exact Or.inr ⟨bulk_applied hi h, tension_applied hi h (hrule.tension_lt hranked hs)⟩
  | @overwrite _ _ _ id hr hid hnew h =>
    obtain ⟨i, hi, -⟩ := hr.arranged.mem_insnsOf.mp hid
    refine ⟨ρ, hranked.erased hr.arranged h, measure_lt_of_bulk (bulk_erased hnew ?_ h)⟩
    rw [code?_of_insn? hi]
    exact Option.some_ne_none _
  | @retire _ _ id i hr hid hnew hi hread =>
    refine ⟨ρ, ?_, measure_lt_of_bulk (bulk_retired hnew hi hread)⟩
    exact hranked.rewired hr.arranged (rewired_nop hi (ne_of_eq_of_ne hread (by decide)))
  | @forward _ _ r₁ id i x hr hr₁ hid hnew hi hread hx hgone hself h =>
    refine ⟨ρ, ?_, measure_lt_of_bulk ?_⟩
    . refine (hranked.replaced hr.arranged (hrank hx) h).rewired hr₁.arranged
        (rewired_nop (k := i.substitute (.insn id) x) ?_ ?_)
      . rw [h.code, hi]
        rfl
      . exact ne_of_eq_of_ne hread (by decide)
    . rw [bulk_modifyInsn_of_mem List.mem_cons_self]
      exact bulk_replaced hnew hi h
  | @cast _ _ r₁ _ id c i t t' x hr hr₁ hid hnew hi hread hx hgone hinserted h =>
    -- The conversion is new and gets a rank of its own right below the read.
    have hne : id ≠ c := hinserted.ne hi
    refine ⟨Ranked.raise ρ id c, ?_, measure_lt_of_bulk (bulk_recast hnew hi hread hinserted h)⟩
    refine (hranked.inserted hr ?_ hinserted).replaced hr₁.arranged ?_ h
    . intro j hj
      exact hrank hx j (List.mem_singleton.mp hj).symm
    . intro j heq
      cases heq
      rw [Ranked.raise_self, Ranked.raise_of_ne hne]
      omega

theorem descends_of_transGen {p q : List InsnId × Routine} (h : Relation.TransGen (Reduces b) p q)
    (hranked : p.2.Ranked ρ) : ∃ ρ', q.2.Ranked ρ' ∧ q.2.measure ρ' q.1 < p.2.measure ρ p.1 := by
  induction h with
  | single hstep => exact descends hstep hranked
  | tail _ hstep ih =>
    obtain ⟨ρ₁, hranked₁, hlt⟩ := ih
    obtain ⟨ρ₂, hranked₂, hlt'⟩ := descends hstep hranked₁
    exact ⟨ρ₂, hranked₂, hlt'.trans hlt⟩

end Reduces

namespace Routine

variable {r r' r'' : Routine} {b : BlockId} {ρ : InsnId → Nat} {gone : List InsnId}

def Descends (r r' : Routine) : Prop :=
  ∀ ρ, r.Ranked ρ → ∃ ρ', r'.Ranked ρ' ∧ r'.measure ρ' [] < r.measure ρ []

theorem Descends.trans (h : r.Descends r') (h' : r'.Descends r'') : r.Descends r'' := by
  intro ρ hranked
  obtain ⟨ρ₁, hranked₁, hlt⟩ := h ρ hranked
  obtain ⟨ρ₂, hranked₂, hlt'⟩ := h' ρ₁ hranked₁
  exact ⟨ρ₂, hranked₂, hlt'.trans hlt⟩

theorem Discards.descends (h : Discards b r r') : r.Descends r' := by
  obtain ⟨id, hr, hspent, herased⟩ := h
  intro ρ hranked
  refine ⟨ρ, hranked.erased hr.arranged herased, measure_lt_of_bulk ?_⟩
  obtain ⟨i, hi, -⟩ := hspent.code
  exact bulk_erased List.not_mem_nil (by simp [hi]) herased

theorem descends_of_discards (h : Relation.TransGen (Discards b) r r') : r.Descends r' := by
  induction h with
  | single hstep => exact hstep.descends
  | tail _ hstep ih => exact ih.trans hstep.descends

theorem Ranked.discards (h : r.Ranked ρ) (hdiscards : Relation.ReflTransGen (Discards b) r r')
    : r'.Ranked ρ := by
  induction hdiscards with
  | refl => exact h
  | tail _ hlast ih =>
    obtain ⟨id, hr, -, herased⟩ := hlast
    exact ih.erased hr.arranged herased

theorem Cleans.measure_le (h : r.Cleans b r') (hgone : ∀ id ∈ gone, r.Spent b id)
    : r'.measure ρ [] ≤ r.measure ρ gone := by
  apply Prod.Lex.toLex_mono
  exact ⟨h.weight_le hgone, h.weight_le (by simp)⟩

theorem Reduced.descends (h : r.Reduced b r') : r.Descends r' := by
  obtain ⟨gone, r₁, hsteps, hgone, hcleans⟩ := h
  intro ρ hranked
  obtain ⟨ρ₁, hranked₁, hlt⟩ := Reduces.descends_of_transGen hsteps hranked
  exact ⟨ρ₁, hranked₁.discards hcleans.discards, (hcleans.measure_le hgone).trans_lt hlt⟩

end Routine

end MachineIR
