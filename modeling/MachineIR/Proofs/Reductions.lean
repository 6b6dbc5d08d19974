import Mathlib.Logic.Relation
import MachineIR.Proofs.Codes
import MachineIR.Proofs.PeepholeTypes
import MachineIR.Proofs.Sweeps

/-!
This module contains the changes that the passes make to a block, one case for each kind of change,
and the removal of dead code that follows them.
-/

namespace MachineIR

namespace Routine

variable {r r' : Routine} {b : BlockId} {id j : InsnId} {x : Operand} {gone : List InsnId}

structure Intact (r : Routine) : Prop where
  tracked : r.Tracked
  arranged : r.Arranged
  small : r.Small

theorem intact_after (actions : List Action) (h : (after actions).Small) : (after actions).Intact :=
  ⟨tracked_after actions h, arranged_after actions h, h⟩

inductive Before (r : Routine) : InsnId → InsnId → Prop
  | listed {b : BlockId} {front mid back : List InsnId} {a c : InsnId}
    (h : r.insnsOf b = front ++ a :: (mid ++ c :: back)) : Before r a c
  | operand {a c : InsnId} {i : Instruction} (hi : r.code? c = some i) (hphi : i.opcode ≠ .phi)
    (ha : .insn a ∈ i.operands) : Before r a c

def Precedes (r : Routine) : InsnId → InsnId → Prop := Relation.TransGen r.Before

def Used (r : Routine) (id : InsnId) : Prop := ∃ j, r.Refers j (.insn id)

def Offers (r : Routine) (b : BlockId) (id : InsnId) (x : Operand) : Prop :=
  ∀ j, x = .insn j → r.Precedes j id ∧ (r.Used j ∨ j ∈ r.insnsOf b)

structure Rewired (r r' : Routine) (id : InsnId) : Prop where
  places : r.SamePlaces r'
  code : ∃ c c', r.code? id = some c ∧ c.opcode ≠ .phi ∧ c'.opcode ≠ .phi ∧
    c'.opcode.hasSideEffect = false ∧ (∀ j, r'.code? j = if j = id then some c' else r.code? j) ∧
    ∀ j, .insn j ∈ c'.operands → r.Precedes j id ∧ r.Used j

end Routine

open Routine Edit

/--
The changes of a pass to a block. Next to the routine there are the instructions that have been
replaced; nothing refers to them any more.
-/
inductive Reduces (b : BlockId) : List InsnId × Routine → List InsnId × Routine → Prop
  | replace {gone : List InsnId} {r r' : Routine} {id : InsnId} {i : Instruction} {x : Operand}
    (hr : r.Intact) (hid : id ∈ r.insnsOf b) (hnew : id ∉ gone) (hi : r.code? id = some i)
    (hpure : i.opcode.hasSideEffect = false) (hx : r.Offers b id x)
    (hgone : ∀ j ∈ gone, x ≠ .insn j) (hself : x ≠ .insn id) (h : Replaced r r' (.insn id) x)
    : Reduces b (gone, r) (id :: gone, r')
  -- A rule changes the operands of an instruction.
  | rewire {gone : List InsnId} {r r' : Routine} {id : InsnId} {i : Insn} {s : Simplification}
    (hr : r.Intact) (hid : id ∈ r.insnsOf b) (hi : r.insn? id = some i) (hrule : Rule r i s)
    (hs : ∀ x, s ≠ .replace x) (h : r'.bare = (r.modifyInsn id s.applied).bare)
    : Reduces b (gone, r) (gone, r')
  -- A write is overwritten.
  | overwrite {gone : List InsnId} {r r' : Routine} {id : InsnId} (hr : r.Intact)
    (hid : id ∈ r.insnsOf b) (hnew : id ∉ gone) (h : Erased r r' id)
    : Reduces b (gone, r) (gone, r')
  -- A read that an earlier write refers to is given up.
  | retire {gone : List InsnId} {r : Routine} {id : InsnId} {i : Instruction} (hr : r.Intact)
    (hid : id ∈ r.insnsOf b) (hnew : id ∉ gone) (hi : r.code? id = some i)
    (hread : i.opcode = .readReg)
    : Reduces b (gone, r) (gone, r.modifyInsn id ({ · with opcode := .nop }))
  -- A read is replaced by the content of its register.
  | forward {gone : List InsnId} {r r₁ : Routine} {id : InsnId} {i : Instruction} {x : Operand}
    (hr : r.Intact) (hr₁ : r₁.Intact) (hid : id ∈ r.insnsOf b) (hnew : id ∉ gone)
    (hi : r.code? id = some i) (hread : i.opcode = .readReg) (hx : r.Offers b id x)
    (hgone : ∀ j ∈ gone, x ≠ .insn j) (hself : x ≠ .insn id) (h : Replaced r r₁ (.insn id) x)
    : Reduces b (gone, r) (id :: gone, r₁.modifyInsn id ({ · with opcode := .nop }))
  -- A read is replaced by the content of its register under another type.
  | cast {gone : List InsnId} {r r₁ r' : Routine} {id c : InsnId} {i : Instruction} {t t' : Ty}
    {x : Operand} (hr : r.Intact) (hr₁ : r₁.Intact) (hid : id ∈ r.insnsOf b) (hnew : id ∉ gone)
    (hi : r.code? id = some i) (hread : i.opcode = .readReg) (hx : r.Offers b id x)
    (hgone : ∀ j ∈ gone, x ≠ .insn j) (hinserted : Inserted r r₁ id (.bitcast t t' x) c)
    (h : Replaced r₁ r' (.insn id) (.insn c))
    : Reduces b (gone, r) (id :: gone, r')

section Rules

variable {r r' : Routine} {id j : InsnId} {i : Insn} {s : Simplification} {x y : Operand} {k : Nat}

theorem Insn.mem_operands (h : i.operand? k = some x) : x ∈ i.operands := by
  rw [Insn.operand?_eq] at h
  exact List.mem_of_getElem? h

theorem Insn.operands_withOperand : (i.withOperand k x).operands = i.operands.set k x := by
  apply List.ext_getElem?
  intro n
  simp only [operands, withOperand, List.getElem?_map, List.getElem?_modify, List.getElem?_set]
  by_cases hn : k = n
  . subst hn
    cases hs : i.slots[k]? with
    | none => simp [List.getElem?_eq_none_iff.mp hs]
    | some slot =>
      have := (List.getElem?_eq_some_iff.mp hs).1
      simp [this]
  . simp [hn]

def Simplification.placed : Simplification → List Operand
  | replace x => [x]
  | operands _ x _ y => [x, y]
  | source _ x => [x]

theorem Simplification.mem_operands_applied (h : x ∈ (s.applied i).operands)
    : x ∈ i.operands ∨ x ∈ s.placed := by
  cases s with
  | replace y => exact Or.inl h
  | operands k y m z =>
    unfold applied at h
    rw [Insn.operands_withOperand, Insn.operands_withOperand] at h
    rcases List.mem_or_eq_of_mem_set h with h | rfl
    . rcases List.mem_or_eq_of_mem_set h with h | rfl
      . exact Or.inl h
      . exact Or.inr (by simp [placed])
    . exact Or.inr (by simp [placed])
  | source t y =>
    unfold applied at h
    rw [Insn.operands_withOperand] at h
    rcases List.mem_or_eq_of_mem_set h with h | rfl
    . exact Or.inl h
    . exact Or.inr (by simp [placed])

def Routine.Reaches (r : Routine) (i : Insn) (x : Operand) : Prop :=
  x ∈ i.operands ∨ ∃ p inner, .insn p ∈ i.operands ∧ r.insn? p = some inner ∧
    inner.opcode ≠ .phi ∧ x ∈ inner.operands

theorem Routine.producer?_eq_some {inner : Insn}
    : r.producer? x = some inner ↔ ∃ p, x = .insn p ∧ r.insn? p = some inner := by
  unfold producer?
  rw [Option.bind_eq_some_iff]
  refine exists_congr fun p => and_congr_left' ?_
  constructor
  . intro hp
    cases x with
    | value v =>
      cases v with
      | insn q =>
        cases hp
        rfl
      | block c => cases hp
    | _ => cases hp
  . rintro rfl
    rfl

theorem Routine.reaches_of_producer {inner : Insn} {m : Nat} (hx : i.operand? k = some x)
    (hinner : r.producer? x = some inner) (hphi : inner.opcode ≠ .phi)
    (hy : inner.operand? m = some y) : r.Reaches i y := by
  obtain ⟨p, rfl, hinner⟩ := producer?_eq_some.mp hinner
  exact Or.inr ⟨p, inner, Insn.mem_operands hx, hinner, hphi, Insn.mem_operands hy⟩

theorem Opcode.ne_phi_of_extension? {o : Opcode} {e : Extension} (h : o.extension? = some e)
    : o ≠ .phi := by
  rintro rfl
  cases h

theorem Rule.reaches (h : Rule r i s) (hx : x ∈ s.placed) : x.isConst = true ∨ r.Reaches i x := by
  -- What a rule puts into a place is a literal, an operand, or an operand of what computes one.
  cases h with
  | commute hopcode ho hx' hy' =>
    simp only [Simplification.placed, List.mem_cons, List.not_mem_nil, or_false] at hx
    rcases hx with rfl | rfl
    . exact Or.inr (Or.inl (Insn.mem_operands hy'))
    . exact Or.inr (Or.inl (Insn.mem_operands hx'))
  | constant hopcode ho hx' hy' hinteger hz =>
    cases List.mem_singleton.mp hx
    rcases withConstant?_eq hz with rfl | rfl | ⟨zero, -, rfl⟩
    . exact Or.inr (Or.inl (Insn.mem_operands hx'))
    . exact Or.inl rfl
    . exact Or.inl rfl
  | self hopcode ho hx' hy' hinteger hidentical hz =>
    cases List.mem_singleton.mp hx
    rcases withSelf?_eq hz with rfl | ⟨zero, -, rfl⟩
    . exact Or.inr (Or.inl (Insn.mem_operands hx'))
    . exact Or.inl rfl
  | addNegated =>
    simp only [Simplification.placed, List.mem_cons, List.not_mem_nil, or_false] at hx
    rcases hx with rfl | rfl
    . exact Or.inl rfl
    . exact Or.inl rfl
  | mergeAdditions hopcode ho hx' hy' hinteger hinner hinnerOpcode hinnerOperator htemplate hinnerX =>
    simp only [Simplification.placed, List.mem_cons, List.not_mem_nil, or_false] at hx
    rcases hx with rfl | rfl
    . exact Or.inr (reaches_of_producer hx' hinner (by rw [hinnerOpcode]; decide) hinnerX)
    . exact Or.inl rfl
  | onEqual =>
    cases List.mem_singleton.mp hx
    exact Or.inl rfl
  | undo hopcode ho hx' hinvolution hinner hinnerOpcode hinnerOperator htemplate hy' =>
    cases List.mem_singleton.mp hx
    exact Or.inr (reaches_of_producer hx' hinner (by rw [hinnerOpcode]; decide) hy')
  | sameType hopcode hx' =>
    cases List.mem_singleton.mp hx
    exact Or.inr (Or.inl (Insn.mem_operands hx'))
  | bitcasts hopcode hx' hinner hinnerOpcode hy' =>
    cases List.mem_singleton.mp hx
    exact Or.inr (reaches_of_producer hx' hinner (by rw [hinnerOpcode]; decide) hy')
  | casts he hx' hinner he' htemplate hy' =>
    cases List.mem_singleton.mp hx
    exact Or.inr (reaches_of_producer hx' hinner (Opcode.ne_phi_of_extension? he') hy')
  | dropCasts he hx' hinner he' htemplate hy' =>
    cases List.mem_singleton.mp hx
    exact Or.inr (reaches_of_producer hx' hinner (Opcode.ne_phi_of_extension? he') hy')
  | sameArms hopcode hx' =>
    cases List.mem_singleton.mp hx
    exact Or.inr (Or.inl (Insn.mem_operands hx'))

theorem Rule.opcode (h : Rule r i s) : i.opcode ≠ .phi ∧ i.opcode.hasSideEffect = false := by
  have hcast : ∀ {e}, i.opcode.extension? = some e →
      i.opcode ≠ .phi ∧ i.opcode.hasSideEffect = false := by
    intro e he
    rcases Opcode.of_extension? he with h | h
    . exact h ▸ ⟨by decide, rfl⟩
    . exact h ▸ ⟨by decide, rfl⟩
  cases h with
  | commute hopcode => rcases hopcode with h | h <;> exact h ▸ ⟨by decide, rfl⟩
  | sameType hopcode => rcases hopcode with h | h | h <;> exact h ▸ ⟨by decide, rfl⟩
  | casts he => exact hcast he
  | dropCasts he => exact hcast he
  | constant hopcode => exact hopcode ▸ ⟨by decide, rfl⟩
  | self hopcode => exact hopcode ▸ ⟨by decide, rfl⟩
  | addNegated hopcode => exact hopcode ▸ ⟨by decide, rfl⟩
  | mergeAdditions hopcode => exact hopcode ▸ ⟨by decide, rfl⟩
  | onEqual hopcode => exact hopcode ▸ ⟨by decide, rfl⟩
  | undo hopcode => exact hopcode ▸ ⟨by decide, rfl⟩
  | bitcasts hopcode => exact hopcode ▸ ⟨by decide, rfl⟩
  | sameArms hopcode => exact hopcode ▸ ⟨by decide, rfl⟩

end Rules

namespace Routine

variable {r r' : Routine} {b : BlockId} {id j c : InsnId} {i : Insn} {s : Simplification}
  {x : Operand}

theorem code?_modifyInsn (f : Insn → Insn)
    : (r.modifyInsn id f).code? j =
        if j = id then (r.insn? j).map fun i => (f i).code else r.code? j := by
  unfold code?
  rw [insn?_modifyInsn]
  split
  . rw [Option.map_map]
    rfl
  . rfl

theorem used_of_mem (hi : r.insn? id = some i) (hj : .insn j ∈ i.operands) : r.Used j :=
  ⟨id, i.code, code?_of_insn? hi, hj⟩

theorem precedes_of_mem (hi : r.insn? id = some i) (hphi : i.opcode ≠ .phi)
    (hj : .insn j ∈ i.operands) : r.Precedes j id :=
  .single (.operand (code?_of_insn? hi) hphi hj)

theorem Reaches.precedes (h : r.Reaches i (.insn j)) (hi : r.insn? id = some i)
    (hphi : i.opcode ≠ .phi) : r.Precedes j id ∧ r.Used j := by
  rcases h with hj | ⟨p, inner, hp, hinner, hphi', hj⟩
  . exact ⟨precedes_of_mem hi hphi hj, used_of_mem hi hj⟩
  . exact ⟨(precedes_of_mem hinner hphi' hj).trans (precedes_of_mem hi hphi hp),
      used_of_mem hinner hj⟩

theorem code?_of_applied (hi : r.insn? id = some i) (h : r'.bare = (r.modifyInsn id s.applied).bare)
    : r'.code? j = if j = id then some (s.applied i).code else r.code? j := by
  rw [code?_of_bare_eq h, code?_modifyInsn]
  split
  . next hj =>
    rw [hj, hi]
    rfl
  . rfl

theorem rewired_of_rule (hi : r.insn? id = some i) (hrule : Rule r i s)
    (h : r'.bare = (r.modifyInsn id s.applied).bare) : r.Rewired r' id := by
  obtain ⟨hphi, hpure⟩ := hrule.opcode
  have hopcode : (s.applied i).opcode = i.opcode := by cases s <;> rfl
  constructor
  . refine SamePlaces.trans (SamePlaces.modifyInsn ?_ r id) (SamePlaces.of_bare_eq h)
    intro i
    cases s <;> exact ⟨rfl, rfl, rfl⟩
  . refine ⟨i.code, (s.applied i).code, code?_of_insn? hi, hphi, ?_, ?_, ?_, ?_⟩
    . rwa [Insn.code, hopcode]
    . rwa [Insn.code, hopcode]
    . intro j
      exact code?_of_applied hi h
    . intro j hj
      rcases Simplification.mem_operands_applied hj with hj | hj
      . exact ⟨precedes_of_mem hi hphi hj, used_of_mem hi hj⟩
      . rcases hrule.reaches hj with hconst | hreaches
        . cases hconst
        . exact hreaches.precedes hi hphi

theorem rewired_nop {k : Instruction} (hk : r.code? id = some k) (hphi : k.opcode ≠ .phi)
    : r.Rewired (r.modifyInsn id ({ · with opcode := .nop })) id := by
  obtain ⟨i, hi, rfl⟩ := exists_insn?_of_code? hk
  constructor
  . exact SamePlaces.modifyInsn (by intro i; exact ⟨rfl, rfl, rfl⟩) r id
  . refine ⟨i.code, { i.code with opcode := .nop }, hk, hphi, ?_, rfl, ?_, ?_⟩
    . exact Opcode.noConfusion
    . intro j
      rw [code?_modifyInsn]
      split
      . next hj =>
        rw [hj, hi]
        rfl
      . rfl
    . intro j hj
      exact ⟨precedes_of_mem hi hphi hj, used_of_mem hi hj⟩

theorem Rewired.refers (h : r.Rewired r' id) (hj : r'.Refers c (.insn j))
    : r.Refers c (.insn j) ∨ (c = id ∧ r.Precedes j id ∧ r.Used j) := by
  obtain ⟨i, i', hi, -, -, -, hcode, hoperands⟩ := h.code
  obtain ⟨found, hfound, hmem⟩ := hj
  rw [hcode] at hfound
  split at hfound
  . next hc =>
    cases hfound
    exact Or.inr ⟨hc, hoperands j hmem⟩
  . exact Or.inl ⟨found, hfound, hmem⟩

structure Spent (r : Routine) (b : BlockId) (id : InsnId) : Prop where
  mem : id ∈ r.insnsOf b
  free : ¬ r.Used id
  code : ∃ c, r.code? id = some c ∧ c.opcode.hasSideEffect = false

namespace Spent

theorem replaced (h : r.Spent b j) (harranged : r.Arranged) (hx : x ≠ .insn j)
    (hreplaced : Replaced r r' (.insn id) x) : r'.Spent b j := by
  constructor
  . rw [hreplaced.samePlaces.insnsOf harranged]
    exact h.mem
  . rintro ⟨u, hu⟩
    rcases hreplaced.refers_iff.mp hu with ⟨-, hu⟩ | ⟨heq, -⟩
    . exact h.free ⟨u, hu⟩
    . exact hx heq
  . obtain ⟨i, hi, hpure⟩ := h.code
    refine ⟨i.substitute (.insn id) x, ?_, hpure⟩
    rw [hreplaced.code, hi]
    rfl

theorem rewired (h : r.Spent b j) (harranged : r.Arranged) (hrewired : r.Rewired r' id)
    : r'.Spent b j := by
  constructor
  . rw [hrewired.places.insnsOf harranged]
    exact h.mem
  . rintro ⟨u, hu⟩
    rcases hrewired.refers hu with hu | ⟨-, -, hused⟩
    . exact h.free ⟨u, hu⟩
    . exact h.free hused
  . obtain ⟨i, i', -, -, -, hpure, hcode, -⟩ := hrewired.code
    rw [hcode]
    split
    . exact ⟨i', rfl, hpure⟩
    . exact h.code

theorem erased (h : r.Spent b j) (harranged : r.Arranged) (hj : j ≠ id)
    (herased : Erased r r' id) : r'.Spent b j := by
  constructor
  . rw [herased.insnsOf harranged, List.mem_filter]
    exact ⟨h.mem, by simpa using hj⟩
  . rintro ⟨u, hu⟩
    exact h.free ⟨u, (herased.refers_iff.mp hu).2⟩
  . rw [herased.code, if_neg hj]
    exact h.code

theorem inserted {k : Instruction} (h : r.Spent b j) (harranged : r.Arranged)
    (hj : .insn j ∉ k.operands) (hinserted : Inserted r r' id k c) : r'.Spent b j := by
  obtain ⟨i, hi, hpure⟩ := h.code
  have hne := hinserted.ne hi
  constructor
  . rw [hinserted.insnsOf harranged]
    exact Inserted.mem_putBefore.mpr (Or.inr h.mem)
  . rintro ⟨u, hu⟩
    rcases hinserted.refers_iff.mp hu with ⟨-, hu⟩ | ⟨-, hmem⟩
    . exact h.free ⟨u, hu⟩
    . exact hj hmem
  . obtain ⟨ip, hcode⟩ := hinserted.code
    rw [hcode, if_neg hne]
    exact ⟨i, hi, hpure⟩

theorem of_replaced {k : Instruction} (harranged : r.Arranged) (hid : id ∈ r.insnsOf b)
    (hk : r.code? id = some k) (hpure : k.opcode.hasSideEffect = false) (hself : x ≠ .insn id)
    (h : Replaced r r' (.insn id) x) : r'.Spent b id := by
  constructor
  . rwa [h.samePlaces.insnsOf harranged]
  . rintro ⟨u, hu⟩
    exact h.not_refers hself u hu
  . refine ⟨k.substitute (.insn id) x, ?_, hpure⟩
    rw [h.code, hk]
    rfl

end Spent

end Routine

namespace Reduces

variable {b : BlockId} {p q : List InsnId × Routine}

theorem spent (h : Reduces b p q) (hp : ∀ id ∈ p.1, p.2.Spent b id)
    : ∀ id ∈ q.1, q.2.Spent b id := by
  intro j hj
  -- Nothing that has been replaced is put into a place again, so it stays without uses.
  cases h with
  | replace hr hid hnew hi hpure hx hgone hself h =>
    rcases List.mem_cons.mp hj with rfl | hj
    . exact .of_replaced hr.arranged hid hi hpure hself h
    . exact (hp j hj).replaced hr.arranged (hgone j hj) h
  | rewire hr hid hi hrule hs h =>
    exact (hp j hj).rewired hr.arranged (rewired_of_rule hi hrule h)
  | overwrite hr hid hnew h =>
    refine (hp j hj).erased hr.arranged ?_ h
    rintro rfl
    exact hnew hj
  | retire hr hid hnew hi hread =>
    exact (hp j hj).rewired hr.arranged (rewired_nop hi (by rw [hread]; decide))
  | @forward gone r r₁ id i x hr hr₁ hid hnew hi hread hx hgone hself h =>
    have hspent : r₁.Spent b j := by
      rcases List.mem_cons.mp hj with rfl | hj
      . exact .of_replaced hr.arranged hid hi (by rw [hread]; rfl) hself h
      . exact (hp j hj).replaced hr.arranged (hgone j hj) h
    refine hspent.rewired hr₁.arranged (rewired_nop (k := i.substitute (.insn id) x) ?_ ?_)
    . rw [h.code, hi]
      rfl
    . exact ne_of_eq_of_ne hread (by decide)
  | @cast gone r r₁ r' id c i t t' x hr hr₁ hid hnew hi hread hx hgone hinserted h =>
    rcases List.mem_cons.mp hj with rfl | hj
    . obtain ⟨ip, hcode⟩ := hinserted.code
      have hne := hinserted.ne hi
      refine .of_replaced hr₁.arranged ?_ ?_ (by rw [hread]; rfl) ?_ h
      . rw [hinserted.insnsOf hr.arranged]
        exact Inserted.mem_putBefore.mpr (Or.inr hid)
      . rw [hcode, if_neg hne, hi]
      . intro heq
        cases heq
        exact hne rfl
    . have hspent := hp j hj
      obtain ⟨k, hk, -⟩ := hspent.code
      refine (hspent.inserted hr.arranged ?_ hinserted).replaced hr₁.arranged ?_ h
      . intro hmem
        exact hgone j hj (List.mem_singleton.mp hmem).symm
      . intro heq
        cases heq
        exact hinserted.ne hk rfl

end Reduces

end MachineIR
