import MachineIR.Proofs.Integrity
import MachineIR.Proofs.Replacement

/-!
This module contains the edits that keep a routine well-formed: a change of one instruction that
keeps the type of its result, the replacement of a value by one of the same type, and the removal of
an instruction that nothing refers to. The records of uses play no part in it.
-/

namespace MachineIR.Routine

variable {R : Ty → Ty → Prop} {r r' : Routine} {id : InsnId} {i i' : Insn} {x : Operand}
  {v : ValueId}

section Fits

theorem FitsUpTo.of_operandType (h : FitsUpTo R r i)
    (htype : ∀ k x, i.operand? k = some x → r'.operandType x = r.operandType x)
    : FitsUpTo R r' i := by
  refine { h with types := ?_ }
  intro k x t hx ht
  rw [htype k x hx]
  exact h.types k x t hx ht

theorem FitsUpTo.of_code_eq (h : FitsUpTo R r i) (hcode : i'.code = i.code) : FitsUpTo R r i' := by
  have hopcode : i'.opcode = i.opcode := congrArg Instruction.opcode hcode
  have hlength : i'.slots.length = i.slots.length := by
    have := congrArg (fun i : Instruction => i.operands.length) hcode
    simpa [Insn.code, Insn.operands] using this
  constructor
  . rw [hopcode, hlength]
    exact h.enough
  . rw [hopcode, hlength]
    exact h.exact
  . intro k x t hx ht
    rw [Insn.operand?_of_code_eq hcode] at hx
    rw [hcode] at ht
    exact h.types k x t hx ht
  . intro k v hk
    rw [Insn.operand?_of_code_eq hcode]
    rw [hopcode] at hk
    exact h.constants k v hk

end Fits

section Bare

@[simp]
theorem operandType_bare : r.bare.operandType x = r.operandType x := by
  cases x with
  | value v =>
    cases v with
    | insn id =>
      change ((r.bare.insn? id).map Insn.ty).getD .none = ((r.insn? id).map Insn.ty).getD .none
      rw [insn?_bare, Option.map_map]
      rfl
    | block b => rfl
  | _ => rfl

theorem WellFormed.of_bare_eq (h : r.WellFormed R) (hbare : r'.bare = r.bare)
    : r'.WellFormed R := by
  constructor
  . intro id i' hi'
    obtain ⟨i, hi, heq⟩ := exists_insn?_of_bare_eq hbare hi'
    have hblock : i'.block = i.block := congrArg (·.block) heq
    have := congrArg (fun r => r.block? i'.block) hbare
    simp only [block?_bare] at this
    rw [hblock] at this ⊢
    intro hnone
    rw [hnone, Option.map_none, eq_comm, Option.map_eq_none_iff] at this
    exact h.placed id i hi this
  . intro id i' hi'
    obtain ⟨i, hi, heq⟩ := exists_insn?_of_bare_eq hbare hi'
    apply FitsUpTo.of_operandType (r := r)
    . apply (h.fits id i hi).of_code_eq
      rw [← Insn.code_bare, heq, Insn.code_bare]
    . intro k x hx
      rw [← operandType_bare, hbare, operandType_bare]
  . intro b hb
    have horder : r'.order = r.order := congrArg (·.order) hbare
    rw [horder] at hb
    obtain ⟨ids, hids⟩ := h.lists b hb
    exact ⟨ids, hids.of_bare_eq hbare⟩

end Bare

section Change

variable {f : Insn → Insn}

theorem operandType_modifyInsn (hi : r.insn? id = some i) (hty : (f i).ty = i.ty)
    : (r.modifyInsn id f).operandType x = r.operandType x := by
  cases x with
  | value v =>
    cases v with
    | insn j =>
      change (((r.modifyInsn id f).insn? j).map Insn.ty).getD .none =
        ((r.insn? j).map Insn.ty).getD .none
      rw [insn?_modifyInsn]
      split
      . next heq => rw [heq, hi, Option.map_some, Option.map_some, Option.map_some, hty]
      . rfl
    | block b => rfl
  | _ => rfl

theorem WellFormed.modifyInsn (h : r.WellFormed R) (hi : r.insn? id = some i)
    (hplace : ((f i).block, (f i).prev, (f i).next) = (i.block, i.prev, i.next))
    (hty : (f i).ty = i.ty) (hfits : FitsUpTo R r (f i)) : (r.modifyInsn id f).WellFormed R := by
  rw [Prod.mk.injEq, Prod.mk.injEq] at hplace
  obtain ⟨hblock, hprev, hnext⟩ := hplace
  constructor
  . intro j i' hi'
    rw [block?_modifyInsn]
    rw [insn?_modifyInsn] at hi'
    split at hi'
    . next heq =>
      rw [heq, hi] at hi'
      cases hi'
      rw [hblock]
      exact h.placed id i hi
    . exact h.placed j i' hi'
  . intro j i' hi'
    apply FitsUpTo.of_operandType (r := r)
    . rw [insn?_modifyInsn] at hi'
      split at hi'
      . next heq =>
        rw [heq, hi] at hi'
        cases hi'
        exact hfits
      . exact h.fits j i' hi'
    . intro k x hx
      exact operandType_modifyInsn hi hty
  . intro b hb
    obtain ⟨ids, hids⟩ := h.lists b hb
    refine ⟨ids, hids.congr rfl ?_⟩
    intro j hj
    unfold neighbours?
    rw [insn?_modifyInsn]
    split
    . next heq => rw [heq, hi, Option.map_some, Option.bind_some, hblock, hprev, hnext]; rfl
    . rfl

end Change

section Substitute

theorem operandType_substitute (y : Operand)
    : (r.substitute v x).operandType y = r.operandType y := by
  cases y with
  | value w =>
    cases w with
    | insn j =>
      change (((r.substitute v x).insn? j).map Insn.ty).getD .none =
        ((r.insn? j).map Insn.ty).getD .none
      rw [insn?_substitute, Option.map_map]
      rfl
    | block b => rfl
  | _ => rfl

theorem bare_substitute : (r.substitute v x).bare = r.bare.substitute v x := by
  have hinsns : (r.insns.map (Insn.substitute v x)).map Insn.bare =
      (r.insns.map Insn.bare).map (Insn.substitute v x) := by
    apply Store.ext_get?
    . simp
    . intro n
      simp only [Store.get?_map, Option.map_map]
      congr 1
      funext i
      unfold Insn.substitute Insn.bare
      simp only [Function.comp_apply, List.map_map]
      congr 2
      funext s
      unfold Slot.substitute Slot.bare
      dsimp only [Function.comp]
      split
      . rfl
      . rfl
  unfold substitute bare
  rw [hinsns]

theorem operand?_substitute (k : Nat)
    : (i.substitute v x).operand? k =
        (i.operand? k).map fun y => if y = .value v then x else y := by
  unfold Insn.operand? Insn.substitute
  rw [List.getElem?_map, Option.map_map, Option.map_map]
  congr 1
  funext s
  unfold Slot.substitute
  dsimp only [Function.comp]
  split
  . rfl
  . rfl

theorem WellFormed.substitute (h : r.WellFormed R) (htrans : ∀ a b c, R a b → R b c → R a c)
    (hx : R (r.operandType x) (r.valueType v)) : (r.substitute v x).WellFormed R := by
  constructor
  . intro id i' hi'
    rw [insn?_substitute] at hi'
    obtain ⟨i, hi, rfl⟩ := Option.map_eq_some_iff.mp hi'
    exact h.placed id i hi
  . intro id i' hi'
    rw [insn?_substitute] at hi'
    obtain ⟨i, hi, rfl⟩ := Option.map_eq_some_iff.mp hi'
    have hfits := h.fits id i hi
    have hlength : (i.substitute v x).slots.length = i.slots.length := List.length_map _
    constructor
    . rw [hlength]
      exact hfits.enough
    . rw [hlength]
      exact hfits.exact
    . intro k y t hy ht
      rw [operand?_substitute] at hy
      obtain ⟨z, hz, rfl⟩ := Option.map_eq_some_iff.mp hy
      rw [operandType_substitute]
      have hold := hfits.types k z t hz ht
      split
      . next heq =>
        subst heq
        exact htrans _ _ _ hx hold
      . exact hold
    . intro k w hk hy
      rw [operand?_substitute] at hy
      obtain ⟨z, hz, heq⟩ := Option.map_eq_some_iff.mp hy
      split at heq
      . next hv =>
        subst hv
        exact hfits.constants k v hk hz
      . subst heq
        exact hfits.constants k w hk hz
  . intro b hb
    obtain ⟨ids, hids⟩ := h.lists b hb
    refine ⟨ids, hids.congr rfl ?_⟩
    intro j hj
    unfold neighbours?
    rw [insn?_substitute, Option.bind_map]
    rfl

end Substitute

section Detach

open Edit

variable {b : BlockId} {front back : List InsnId}

theorem operandType_detach (hne : x ≠ .value (.insn id))
    : (detach id i r).operandType x = r.operandType x := by
  cases x with
  | value v =>
    cases v with
    | insn j =>
      change (((detach id i r).insn? j).map Insn.ty).getD .none =
        ((r.insn? j).map Insn.ty).getD .none
      rw [insn?_detach, if_neg (by rintro rfl; exact hne rfl), Option.map_map]
      rfl
    | block b => rfl
  | _ => rfl

theorem order_detach : (detach id i r).order = r.order := by
  unfold Edit.detach joinNeighbours setPrev setNext
  cases i.prev <;> cases i.next <;> rfl

theorem WellFormed.detach (h : r.WellFormed R) (hlists : r.Lists b (front ++ id :: back))
    (hi : r.insn? id = some i)
    (hunused : ∀ j k use, r.slot? j k ≠ some ⟨.value (.insn id), use⟩)
    : (detach id i r).WellFormed R := by
  have hinsn : ∀ j i', (Edit.detach id i r).insn? j = some i' →
      ∃ x, r.insn? j = some x ∧ i'.block = x.block ∧ i'.code = x.code := by
    intro j i' hi'
    rw [insn?_detach, Option.ite_none_left_eq_some] at hi'
    obtain ⟨x, hx, rfl⟩ := Option.map_eq_some_iff.mp hi'.2
    exact ⟨x, hx, rfl, rfl⟩
  constructor
  . intro j i' hi' hnone
    obtain ⟨x, hx, hblock, -⟩ := hinsn j i' hi'
    have hextent : (Edit.detach id i r).extent? i'.block = _ := extent?_detach
    rw [extent?, hnone, Option.map_none, eq_comm, Option.map_eq_none_iff] at hextent
    unfold extent? at hextent
    rw [Option.map_eq_none_iff, hblock] at hextent
    exact h.placed j x hx hextent
  . intro j i' hi'
    obtain ⟨x, hx, -, hcode⟩ := hinsn j i' hi'
    apply FitsUpTo.of_operandType (r := r)
    . exact (h.fits j x hx).of_code_eq hcode
    . -- No operand refers to the instruction, so none has lost its type.
      intro k y hy
      apply operandType_detach
      rintro rfl
      rw [Insn.operand?_of_code_eq hcode] at hy
      obtain ⟨⟨z, use⟩, hs, rfl⟩ := Option.map_eq_some_iff.mp hy
      rw [← slot?_eq hx] at hs
      exact hunused j k use hs
  . intro c hc
    rw [order_detach] at hc
    by_cases hcb : c = b
    . subst hcb
      exact ⟨_, hlists.detach hi⟩
    . obtain ⟨ids, hids⟩ := h.lists c hc
      exact ⟨ids, hids.detach_of_ne hlists hi hcb⟩

end Detach

end MachineIR.Routine
