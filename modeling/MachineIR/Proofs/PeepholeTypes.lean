import MachineIR.Proofs.DeadCode
import MachineIR.Proofs.PeepholeEdits
import MachineIR.Proofs.UseSoundness

/-!
This module contains what the local simplifications do to types. All rules but one put an operand
only where its type belongs. Two conversions in a row are dropped if the last type is as wide as the
first, and a pointer is as wide as an integer of 64 bits; so one of them may come to stand where the
other is expected. Nothing else can go wrong, and this only if the routine has such conversions.
-/

namespace MachineIR

namespace Ty

def Confused (a b : Ty) : Prop := a = .i64 ∧ b = .pointer ∨ a = .pointer ∧ b = .i64

def Similar (a b : Ty) : Prop := a = b ∨ a.Confused b

theorem similar_equivalence : Equivalence Similar := by
  constructor
  . intro a
    exact Or.inl rfl
  . rintro a b (rfl | ⟨rfl, rfl⟩ | ⟨rfl, rfl⟩)
    . exact Or.inl rfl
    . exact Or.inr (Or.inr ⟨rfl, rfl⟩)
    . exact Or.inr (Or.inl ⟨rfl, rfl⟩)
  . rintro a b c (rfl | ⟨rfl, rfl⟩ | ⟨rfl, rfl⟩) hbc
    . exact hbc
    . rcases hbc with rfl | ⟨hb, -⟩ | ⟨-, rfl⟩
      . exact Or.inr (Or.inl ⟨rfl, rfl⟩)
      . cases hb
      . exact Or.inl rfl
    . rcases hbc with rfl | ⟨-, rfl⟩ | ⟨hb, -⟩
      . exact Or.inr (Or.inr ⟨rfl, rfl⟩)
      . exact Or.inl rfl
      . cases hb

theorem similar_of_bitWidth {a b : Ty} (ha : a.isInteger = true) (hb : b.isInteger = true)
    (hwidth : a.bitWidth = b.bitWidth) : a.Similar b := by
  cases a with
  | scalar s =>
    cases b with
    | scalar t =>
      unfold Similar Confused
      cases s <;> cases t <;> first | (cases ha; done) | (cases hb; done) | (cases hwidth; done) | simp
    | _ => cases hb
  | _ => cases ha

end Ty

theorem similar_of_castChain {inner outer : Extension} {a b c : Ty}
    (h : castChain inner outer a b c = .drop) : a.Similar c := by
  unfold castChain at h
  split at h
  . cases h
  . next hinteger =>
    split at h
    . split at h
      . next hwidth =>
        simp only [Bool.not_eq_true', Bool.not_eq_false, Bool.and_eq_true] at hinteger
        exact Ty.similar_of_bitWidth hinteger.1.1 hinteger.2 hwidth.symm
      . split at h
        . cases h
        . cases h
    . split at h
      . cases h
      . cases h

theorem Opcode.of_extension? {o : Opcode} {e : Extension} (h : o.extension? = some e)
    : o = .cast ∨ o = .castSx := by
  cases o <;> first | exact Or.inl rfl | exact Or.inr rfl | cases h

namespace Routine

variable {R : Ty → Ty → Prop} {r : Routine} {i : Insn} {k : Nat} {x : Operand}

theorem FitsUpTo.withOperand (h : FitsUpTo R r i) (hk : i.operand? k ≠ none)
    (htype : ∀ t, i.code.slotType? k = some t → R (r.operandType x) t)
    (hconst : k ∉ i.opcode.signature.constants ∨ ∀ v, x ≠ .value v)
    : FitsUpTo R r (i.withOperand k x) := by
  have hlength : (i.withOperand k x).slots.length = i.slots.length := List.length_modify _ _ _
  constructor
  . rw [hlength]
    exact h.enough
  . rw [hlength]
    exact h.exact
  . intro m y t hy ht
    rw [Insn.operand?_withOperand hk] at hy
    split at hy
    . next heq =>
      subst heq
      cases hy
      exact htype t ht
    . exact h.types m y t hy ht
  . intro m v hm hy
    rw [Insn.operand?_withOperand hk] at hy
    split at hy
    . next heq =>
      subst heq
      cases hy
      rcases hconst with hconst | hconst
      . exact hconst hm
      . exact hconst v rfl
    . exact h.constants m v hm hy

end Routine

def Simplification.Fits (R : Ty → Ty → Prop) (r : Routine) (i : Insn) : Simplification → Prop
  | .replace x => R (r.operandType x) i.ty
  | s => (s.applied i).ty = i.ty ∧ Routine.FitsUpTo R r (s.applied i)

def Routine.Converts (r : Routine) (i : Insn) : Prop :=
  i.opcode.extension? ≠ none ∧ ∃ id, r.insn? id = some i

def Routine.RelatesCasts (R : Ty → Ty → Prop) (r : Routine) : Prop :=
  ∀ i j, r.Converts i → r.Converts j → (i.template 0).Similar (j.template 1) →
    R (i.template 0) (j.template 1)

namespace Rule

variable {R : Ty → Ty → Prop} {r : Routine} {id : InsnId} {i : Insn} {s : Simplification}

theorem fits_operands {k m : Nat} {x y : Operand} (hfits : Routine.FitsUpTo R r i)
    (hk : i.operand? k ≠ none) (hm : i.operand? m ≠ none)
    (hx : ∀ t, i.code.slotType? k = some t → R (r.operandType x) t)
    (hy : ∀ t, i.code.slotType? m = some t → R (r.operandType y) t)
    (hkconst : k ∉ i.opcode.signature.constants ∨ ∀ v, x ≠ .value v)
    (hmconst : m ∉ i.opcode.signature.constants ∨ ∀ v, y ≠ .value v)
    : (Simplification.operands k x m y).Fits R r i := by
  refine ⟨rfl, ?_⟩
  apply (hfits.withOperand hk hx hkconst).withOperand _ hy hmconst
  rw [Insn.operand?_withOperand hk]
  split
  . simp
  . exact hm

theorem fits_source {t : Ty} {x : Operand} (hfits : Routine.FitsUpTo R r i)
    (hopcode : i.opcode = .bitcast ∨ i.opcode = .cast ∨ i.opcode = .castSx)
    (h0 : i.operand? 0 ≠ none) (hx : R (r.operandType x) t)
    : (Simplification.source t x).Fits R r i := by
  have hopcode' : ((Simplification.source t x).applied i).opcode = .bitcast ∨
      ((Simplification.source t x).applied i).opcode = .cast ∨
      ((Simplification.source t x).applied i).opcode = .castSx := hopcode
  have hlength : ((Simplification.source t x).applied i).slots.length = i.slots.length :=
    List.length_modify _ _ _
  have hsignature : i.opcode.signature.constants = [] ∧ i.opcode.signature.variadic = none ∧
      i.opcode.signature.operands.length = 1 := by
    rcases hopcode with h | h | h <;> rw [h] <;> decide
  have hone := hfits.exact hsignature.2.1
  rw [hsignature.2.2] at hone
  refine ⟨?_, ?_, ?_, ?_, ?_⟩
  . rw [(Insn.ty_of_conversion hopcode).1, (Insn.ty_of_conversion hopcode').1]
    rfl
  . rw [hlength]
    exact hfits.enough
  . rw [hlength]
    exact hfits.exact
  . -- The only operand of a conversion is the one that is changed.
    intro k y u hy hu
    have hk : k = 0 := by
      have : k < 1 := by
        rw [← hone, ← hlength]
        obtain ⟨s, hs, -⟩ := Option.map_eq_some_iff.mp hy
        exact (List.getElem?_eq_some_iff.mp hs).1
      omega
    subst hk
    rw [(Insn.ty_of_conversion hopcode').2] at hu
    cases hu
    have hput := Insn.operand?_withOperand (i := { i with templates := (t, i.templates.2) })
      (x := x) h0 0
    rw [if_pos rfl] at hput
    cases hput.symm.trans hy
    exact hx
  . intro k v hk
    have : k ∈ i.opcode.signature.constants := hk
    rw [hsignature.1] at this
    cases this

variable {x y z : Operand} {k : Nat}

theorem typed_binary (hfits : Routine.FitsUpTo R r i)
    (hopcode : i.opcode = .binop ∨ i.opcode = .cmp) (hk : k = 1 ∨ k = 2)
    (hx : i.operand? k = some x) : R (r.operandType x) (i.template 0) :=
  hfits.types k x _ hx (Insn.slotType?_of_binary hopcode hk)

theorem typed_conversion (hfits : Routine.FitsUpTo R r i)
    (hopcode : i.opcode = .bitcast ∨ i.opcode = .cast ∨ i.opcode = .castSx)
    (hx : i.operand? 0 = some x) : R (r.operandType x) (i.template 0) :=
  hfits.types 0 x _ hx (Insn.ty_of_conversion hopcode).2

theorem fits_arguments (hfits : Routine.FitsUpTo R r i)
    (hopcode : i.opcode = .binop ∨ i.opcode = .cmp) (h1 : i.operand? 1 ≠ none)
    (h2 : i.operand? 2 ≠ none) (hx : R (r.operandType x) (i.template 0))
    (hy : R (r.operandType y) (i.template 0)) : (Simplification.operands 1 x 2 y).Fits R r i := by
  have hconstants : i.opcode.signature.constants = [0] := by
    rcases hopcode with h | h <;> rw [h] <;> rfl
  apply fits_operands hfits h1 h2
  . intro t ht
    rw [Insn.slotType?_of_binary hopcode (Or.inl rfl)] at ht
    cases ht
    exact hx
  . intro t ht
    rw [Insn.slotType?_of_binary hopcode (Or.inr rfl)] at ht
    cases ht
    exact hy
  . left
    rw [hconstants]
    decide
  . left
    rw [hconstants]
    decide

theorem fits (h : Rule r i s) (hR : Equivalence R) (hformed : r.WellFormed R)
    (hcasts : r.RelatesCasts R) (hi : r.insn? id = some i) : s.Fits R r i := by
  have hfits := hformed.fits id i hi
  have hproducer : ∀ {x inner}, r.producer? x = some inner →
      Routine.FitsUpTo R r inner ∧ ∃ j, r.insn? j = some inner := by
    intro x inner hinner
    obtain ⟨j, -, hj⟩ := Option.bind_eq_some_iff.mp hinner
    exact ⟨hformed.fits j inner hj, j, hj⟩
  -- All rules but one put operands into places that ask for the type they have. To drop two casts
  -- can confuse types, which `hcasts` is for.
  cases h with
  | commute hopcode ho hx hy =>
    exact fits_arguments hfits hopcode (by simp [hx]) (by simp [hy])
      (typed_binary hfits hopcode (Or.inr rfl) hy) (typed_binary hfits hopcode (Or.inl rfl) hx)
  | constant hopcode ho hx hy hinteger hz =>
    change R _ i.ty
    rw [Insn.ty_eq hopcode]
    rcases withConstant?_eq hz with rfl | rfl | ⟨zero, hzero, rfl⟩
    . exact typed_binary hfits (Or.inl hopcode) (Or.inl rfl) hx
    . exact typed_binary hfits (Or.inl hopcode) (Or.inr rfl) hy
    . change R zero.ty _
      rw [Constant.ty_ofInt? hzero]
      exact hR.refl _
  | self hopcode ho hx hy hinteger hidentical hz =>
    change R _ i.ty
    rw [Insn.ty_eq hopcode]
    rcases withSelf?_eq hz with rfl | ⟨zero, hzero, rfl⟩
    . exact typed_binary hfits (Or.inl hopcode) (Or.inl rfl) hx
    . change R zero.ty _
      rw [Constant.ty_ofInt? hzero]
      exact hR.refl _
  | addNegated hopcode ho hx hy hinteger hzero hnegated =>
    obtain ⟨z, h0, -⟩ := Option.bind_eq_some_iff.mp (Insn.const?_of_operator? ho)
    apply fits_operands hfits (by simp [h0]) (by simp [hy])
    . intro t ht
      rw [Insn.slotType?_eq hopcode] at ht
      cases ht
      exact hR.refl _
    . intro t ht
      rw [Insn.slotType?_of_binary (Or.inl hopcode) (Or.inr rfl)] at ht
      cases ht
      change R (Constant.ty _) _
      rw [Constant.ty_binary? hnegated rfl, Constant.ty_ofInt? hzero]
      exact hR.refl _
    . right
      simp
    . right
      simp
  | mergeAdditions hopcode ho hx hy hinteger hinner hinnerOpcode hinnerOperator htemplate hinnerX
      hinnerY hmerged =>
    obtain ⟨hinnerFits, -⟩ := hproducer hinner
    apply fits_arguments hfits (Or.inl hopcode) (by simp [hx]) (by simp [hy])
    . rw [← htemplate]
      exact typed_binary hinnerFits (Or.inl hinnerOpcode) (Or.inl rfl) hinnerX
    . change R (Constant.ty _) _
      rw [Constant.ty_binary? hmerged rfl, ← htemplate]
      exact typed_binary hinnerFits (Or.inl hinnerOpcode) (Or.inr rfl) hinnerY
  | onEqual hopcode =>
    change R _ i.ty
    rw [Insn.ty_eq hopcode]
    exact hR.refl _
  | undo hopcode ho hx hinvolution hinner hinnerOpcode hinnerOperator htemplate hy =>
    change R _ i.ty
    rw [Insn.ty_eq hopcode]
    change R _ (i.template 0)
    rw [← htemplate]
    exact (hproducer hinner).1.types 1 _ _ hy (Insn.slotType?_eq hinnerOpcode 1)
  | sameType hopcode hx htemplate =>
    change R _ i.ty
    rw [(Insn.ty_of_conversion hopcode).1, ← htemplate]
    exact typed_conversion hfits hopcode hx
  | bitcasts hopcode hx hinner hinnerOpcode hy =>
    apply fits_source hfits (Or.inl hopcode) (by simp [hx])
    exact typed_conversion (hproducer hinner).1 (Or.inl hinnerOpcode) hy
  | casts he hx hinner he' htemplate hy =>
    apply fits_source hfits (Or.inr (Opcode.of_extension? he)) (by simp [hx])
    exact typed_conversion (hproducer hinner).1 (Or.inr (Opcode.of_extension? he')) hy
  | dropCasts he hx hinner he' htemplate hy hchain =>
    obtain ⟨hinnerFits, j, hj⟩ := hproducer hinner
    change R _ i.ty
    rw [(Insn.ty_of_conversion (Or.inr (Opcode.of_extension? he))).1]
    apply hR.trans (typed_conversion hinnerFits (Or.inr (Opcode.of_extension? he')) hy)
    apply hcasts _ _ ⟨by simp [he'], j, hj⟩ ⟨by simp [he], id, hi⟩
    exact similar_of_castChain hchain
  | sameArms hopcode hx hy =>
    change R _ i.ty
    rw [Insn.ty_eq hopcode]
    exact hfits.types 1 _ _ hx (Insn.slotType?_eq hopcode 1)

theorem converts_applied (h : Rule r i s) (hi : r.insn? id = some i)
    (hcast : i.opcode.extension? ≠ none)
    : ∃ j, r.Converts j ∧ (s.applied i).template 0 = j.template 0 ∧
        (s.applied i).template 1 = i.template 1 := by
  have hconverts : r.Converts i := ⟨hcast, id, hi⟩
  cases h with
  | bitcasts hopcode =>
    rw [hopcode] at hcast
    exact absurd rfl hcast
  | casts he hx hinner he' =>
    obtain ⟨j, -, hj⟩ := Option.bind_eq_some_iff.mp hinner
    exact ⟨_, ⟨by simp [he'], j, hj⟩, rfl, rfl⟩
  | _ => exact ⟨i, hconverts, rfl, rfl⟩

end Rule

def Simplification.outcome (s : Simplification) (id : InsnId) (r : Routine) : Routine :=
  match s with
  | .replace x => r.substitute (.insn id) x
  | s => r.modifyInsn id s.applied

namespace Routine

variable {R : Ty → Ty → Prop} {r r' : Routine} {id : InsnId} {i : Insn} {s : Simplification}

theorem Converts.of_outcome (hrule : Rule r i s) (hi : r.insn? id = some i) {j : Insn}
    (hj : (s.outcome id r).Converts j)
    : ∃ a c, r.Converts a ∧ r.Converts c ∧ j.template 0 = a.template 0 ∧
        j.template 1 = c.template 1 := by
  obtain ⟨hcast, id', hj⟩ := hj
  have happlied : (r.modifyInsn id s.applied).insn? id' = some j →
      ∃ a c, r.Converts a ∧ r.Converts c ∧ j.template 0 = a.template 0 ∧
        j.template 1 = c.template 1 := by
    intro hj
    rw [insn?_modifyInsn] at hj
    split at hj
    . next heq =>
      rw [heq, hi] at hj
      cases hj
      have hcast' : i.opcode.extension? ≠ none := by
        cases s <;> exact hcast
      obtain ⟨a, ha, h0, h1⟩ := hrule.converts_applied hi hcast'
      exact ⟨a, i, ha, ⟨hcast', id, hi⟩, h0, h1⟩
    . exact ⟨j, j, ⟨hcast, id', hj⟩, ⟨hcast, id', hj⟩, rfl, rfl⟩
  cases s with
  | replace x =>
    unfold Simplification.outcome at hj
    rw [insn?_substitute] at hj
    obtain ⟨j', hj', rfl⟩ := Option.map_eq_some_iff.mp hj
    exact ⟨j', j', ⟨hcast, id', hj'⟩, ⟨hcast, id', hj'⟩, rfl, rfl⟩
  | operands k x m y => exact happlied hj
  | source t x => exact happlied hj

theorem RelatesCasts.of_outcome (h : r.RelatesCasts R) (hrule : Rule r i s)
    (hi : r.insn? id = some i) (hbare : r'.bare = (s.outcome id r).bare) : r'.RelatesCasts R := by
  have hconverts : ∀ j, r'.Converts j → ∃ a c, r.Converts a ∧ r.Converts c ∧
      j.template 0 = a.template 0 ∧ j.template 1 = c.template 1 := by
    rintro j ⟨hcast, id', hj⟩
    obtain ⟨j', hj', heq⟩ := exists_insn?_of_bare_eq hbare hj
    have hopcode : j.opcode = j'.opcode := congrArg (·.opcode) heq
    have htemplates : j.templates = j'.templates := congrArg (·.templates) heq
    obtain ⟨a, c, ha, hc, h0, h1⟩ :=
      Converts.of_outcome hrule hi (j := j') ⟨by rwa [← hopcode], id', hj'⟩
    exact ⟨a, c, ha, hc, (congrArg Prod.fst htemplates).trans h0,
      (congrArg Prod.snd htemplates).trans h1⟩
  intro j j' hj hj' hsimilar
  obtain ⟨a, -, ha, -, h0, -⟩ := hconverts j hj
  obtain ⟨-, c, -, hc, -, h1⟩ := hconverts j' hj'
  rw [h0, h1] at hsimilar ⊢
  exact h a c ha hc hsimilar

theorem WellFormed.of_outcome (h : r.WellFormed R) (hR : Equivalence R) (hfits : s.Fits R r i)
    (hi : r.insn? id = some i) (hbare : r'.bare = (s.outcome id r).bare) : r'.WellFormed R := by
  refine WellFormed.of_bare_eq ?_ hbare
  cases s with
  | replace x =>
    apply h.substitute (fun _ _ _ => hR.trans)
    change R _ (((r.insn? id).map Insn.ty).getD .none)
    rw [hi]
    exact hfits
  | operands k x m y => exact h.modifyInsn hi rfl hfits.1 hfits.2
  | source t x => exact h.modifyInsn hi rfl hfits.1 hfits.2

end Routine

namespace Edit

open Routine

variable {R : Ty → Ty → Prop} {r : Routine} {id : InsnId} {i : Insn} {s : Simplification}
  {b : BlockId}

theorem simplify_run (hadmissible : Rule.Admissible r i s) (htracked : r.Tracked)
    (hsmall : r.Small) (hi : r.insn? id = some i)
    : ∃ n r', simplify id s r = .ok n r' ∧ (r' = r ∨ r'.bare = (s.outcome id r).bare) := by
  cases s with
  | replace x =>
    rw [simplify]
    split
    . exact ⟨0, r, rfl, Or.inl rfl⟩
    . next hne =>
      obtain ⟨r', hrun, hreplaced⟩ :=
        replaceUses_run htracked hsmall (v := .insn id) (by simp [contains, hi]) hadmissible hne
      refine ⟨_, r', bind_of_ok hrun, Or.inr ?_⟩
      rw [hreplaced.bare, ← bare_substitute]
      rfl
  | operands k x m y =>
    obtain ⟨hne, hk, hm, hx, hy⟩ := hadmissible
    obtain ⟨r', hrun, hbare⟩ := simplify_operands_run htracked.owns hi hne hk hm hx hy
    refine ⟨1, r', hrun, Or.inr ?_⟩
    rw [hbare]
    exact (bare_modifyInsn (Simplification.bare_applied _) id).symm
  | source t x =>
    obtain ⟨h0, hx⟩ := hadmissible
    obtain ⟨r', hrun, hbare⟩ := simplify_source_run htracked.owns hi h0 hx t
    refine ⟨1, r', hrun, Or.inr ?_⟩
    rw [hbare]
    exact (bare_modifyInsn (Simplification.bare_applied _) id).symm

theorem combineInsn_run (hR : Equivalence R) (htracked : r.Tracked) (hsmall : r.Small)
    (hformed : r.WellFormed R) (hcasts : r.RelatesCasts R) (hi : r.insn? id = some i)
    : ∃ n r', combineInsn id r = .ok n r' ∧ r'.WellFormed R ∧ r'.RelatesCasts R ∧
        r'.order = r.order := by
  have hknown : knownInsn id r = .ok i r := by simp [knownInsn, hi]
  unfold combineInsn
  rw [get_bind_run, bind_of_ok hknown]
  cases hs : r.combine? i with
  | none => exact ⟨0, r, rfl, hformed, hcasts, rfl⟩
  | some s =>
    have hrule := Rule.of_combine? hs
    obtain ⟨n, r', hrun, houtcome⟩ :=
      simplify_run (hrule.admissible htracked.owns hi) htracked hsmall hi
    refine ⟨n, r', hrun, ?_⟩
    rcases houtcome with rfl | hbare
    . exact ⟨hformed, hcasts, rfl⟩
    . have horder : r'.order = (s.outcome id r).order := congrArg (·.order) hbare
      refine ⟨?_, hcasts.of_outcome hrule hi hbare, ?_⟩
      . exact hformed.of_outcome hR (hrule.fits hR hformed hcasts hi) hi hbare
      . rw [horder]
        cases s <;> rfl

theorem insn?_of_next {c c' : Cursor} (h : c.next r = (some id, c')) : ∃ i, r.insn? id = some i := by
  have htarget : c.target? r = some id := (Prod.mk.inj h).1
  unfold Cursor.target? at htarget
  have hmember := (Option.filter_eq_some_iff.mp htarget).2
  unfold Cursor.isMember at hmember
  cases hi : r.insn? id with
  | none => simp [hi] at hmember
  | some i => exact ⟨i, rfl⟩

theorem combine_run {debug : Bool} (hR : Equivalence R) (htracked : r.Tracked)
    (hformed : r.WellFormed R) (hcasts : r.RelatesCasts R) (hb : b ∈ r.order)
    (hsmall : (left (combine b debug) r).Small)
    : (∃ n r', combine b debug r = .ok n r' ∧ r'.WellFormed R) ∨
        ∃ r' id k x t, debug = true ∧ r'.WellFormed R ∧ r'.Expects id k x t ∧ r'.operandType x ≠ t ∧
          combine b debug r = .error (.typeMismatch k t (r'.operandType x) (r'.renderInsn id)) r' := by
  obtain ⟨ids, hids⟩ := hformed.lists b hb
  unfold combine at hsmall ⊢
  have hkeeps := Within.sweep keeps_combineInsn b .forward r
  have hsweep : (left (sweep b .forward combineInsn) r).Small :=
    (Within.left_bind (fun n => keeps_complete b n debug) _ r).grows.small hsmall
  obtain ⟨c, n, r', hrun, hformed', -, hb'⟩ := sweep_run
    (I := fun _ r => r.WellFormed R ∧ r.RelatesCasts R ∧ b ∈ r.order) keeps_combineInsn
    (by
      intro c c' r id htracked hsmall ⟨hformed, hcasts, hb⟩ hnext
      obtain ⟨i, hi⟩ := insn?_of_next hnext
      have hsmall' := (keeps_combineInsn id r).grows.small hsmall
      obtain ⟨n, r', hrun, hformed', hcasts', horder⟩ :=
        combineInsn_run hR htracked hsmall' hformed hcasts hi
      exact ⟨n, r', hrun, hformed', hcasts', by rwa [horder]⟩)
    htracked hids.block?_ne_none ⟨hformed, hcasts, hb⟩ hsweep
  rw [left_of_ok hrun] at hkeeps hsweep
  rw [left_bind_of_ok hrun] at hsmall
  rw [bind_of_ok hrun]
  rcases complete_run (hkeeps.tracked hsweep htracked) hformed' hb' hsmall with
    hok | ⟨id, k, x, t, hdebug, hexpects, hne, herror⟩
  . exact Or.inl hok
  . exact Or.inr ⟨r', id, k, x, t, hdebug, hformed', hexpects, hne, herror⟩

end Edit

namespace Routine

open Edit

variable {R S : Ty → Ty → Prop} {r : Routine} {id : InsnId} {k : Nat} {x : Operand} {t : Ty}

/-- Somewhere a pointer stands where an integer of its width is expected, or the other way round. -/
def Confuses (r : Routine) : Prop :=
  ∃ id k x t, r.Expects id k x t ∧ (r.operandType x).Confused t

theorem WellFormed.types (h : r.WellFormed R) (hexpects : r.Expects id k x t)
    : R (r.operandType x) t := by
  obtain ⟨i, hi, hx, ht⟩ := hexpects
  exact (h.fits id i hi).types k x t hx ht

theorem WellFormed.of_types (h : r.WellFormed R)
    (htypes : ∀ id k x t, r.Expects id k x t → S (r.operandType x) t) : r.WellFormed S := by
  refine ⟨h.placed, ?_, h.lists⟩
  intro id i hi
  refine { h.fits id i hi with types := ?_ }
  intro k x t hx ht
  exact htypes id k x t ⟨i, hi, hx, ht⟩

theorem wellFormed_eq_iff (h : r.WellFormed Ty.Similar) : r.WellFormed Eq ↔ ¬ r.Confuses := by
  constructor
  . rintro heq ⟨id, k, x, t, hexpects, hconfused⟩
    rw [heq.types hexpects] at hconfused
    rcases hconfused with ⟨h, h'⟩ | ⟨h, h'⟩ <;> cases h.symm.trans h'
  . intro hno
    apply h.of_types
    intro id k x t hexpects
    rcases h.types hexpects with heq | hconfused
    . exact heq
    . exact absurd ⟨id, k, x, t, hexpects, hconfused⟩ hno

theorem after_combine (actions : List Action) (b : BlockId) (debug : Bool)
    : after (actions ++ [.combine b debug]) = left (combine b debug) (after actions) := by
  unfold after
  rw [List.foldl_append]
  exact left_discard (combine b debug) _

theorem combine_passes_check_iff (actions : List Action) (b : BlockId) (debug : Bool)
    (hsmall : (after (actions ++ [.combine b debug])).Small) (hcheck : (after actions).check = .ok ())
    (hb : b ∈ (after actions).order)
    : ((∃ n r', combine b debug (after actions) = .ok n r' ∧ r'.check = .ok ()) ↔
          ¬ (left (combine b debug) (after actions)).Confuses) ∧
        (∀ e r', combine b debug (after actions) = .error e r' →
          debug = true ∧ ∃ id k x t, r'.Expects id k x t ∧ (r'.operandType x).Confused t ∧
            e = .typeMismatch k t (r'.operandType x) (r'.renderInsn id)) ∧
        ((∀ i j, (after actions).Converts i → (after actions).Converts j →
            ¬ (i.template 0).Confused (j.template 1)) →
          ∃ n r', combine b debug (after actions) = .ok n r' ∧ r'.check = .ok ()) := by
  have htracked' := tracked_after _ hsmall
  rw [after_combine] at hsmall htracked'
  have hsmall₀ := (keeps_combine b debug (after actions)).grows.small hsmall
  have htracked := tracked_after actions hsmall₀
  have hformed := (htracked.check_eq_ok hsmall₀).mp hcheck
  -- Up to a confusion of pointers with integers the rules keep all types, so what the check comes
  -- down to in the end is whether there is such a confusion.
  have hsimilar : (after actions).WellFormed Ty.Similar := by
    apply hformed.of_types
    intro id k x t hexpects
    exact Or.inl (hformed.types hexpects)
  have hafter : (left (combine b debug) (after actions)).check = .ok () ↔
      (left (combine b debug) (after actions)).WellFormed Eq := htracked'.check_eq_ok hsmall
  have hrun := combine_run Ty.similar_equivalence htracked hsimilar (fun _ _ _ _ h => h) hb hsmall
  refine ⟨?_, ?_, ?_⟩
  . rcases hrun with ⟨n, r', hok, hformed'⟩ | ⟨r', id, k, x, t, -, hformed', hexpects, hne, herror⟩
    . rw [left_of_ok hok] at hafter ⊢
      rw [← wellFormed_eq_iff hformed', ← hafter, hok]
      constructor
      . rintro ⟨m, r'', heq, hcheck'⟩
        cases heq
        exact hcheck'
      . intro hcheck'
        exact ⟨n, r', rfl, hcheck'⟩
    . rw [left_of_error herror, ← wellFormed_eq_iff hformed', herror]
      constructor
      . rintro ⟨m, r'', heq, -⟩
        cases heq
      . intro heq
        exact absurd (heq.types hexpects) hne
  . intro e r' herror
    rcases hrun with ⟨n, r'', hok, -⟩ | ⟨r'', id, k, x, t, hdebug, hformed', hexpects, hne, herror'⟩
    . rw [hok] at herror
      cases herror
    . rw [herror'] at herror
      cases herror
      exact ⟨hdebug, id, k, x, t, hexpects, (hformed'.types hexpects).resolve_left hne, rfl⟩
  . intro hapart
    -- If conversions cannot be confused, the same argument goes through with types that are equal.
    have hcasts : (after actions).RelatesCasts Eq := by
      intro i j hi hj hsimilar
      rcases hsimilar with heq | hconfused
      . exact heq
      . exact absurd hconfused (hapart i j hi hj)
    rcases combine_run eq_equivalence htracked hformed hcasts hb hsmall with
      ⟨n, r', hok, hformed'⟩ | ⟨r', id, k, x, t, -, hformed', hexpects, hne, -⟩
    . rw [left_of_ok hok] at hafter
      exact ⟨n, r', hok, hafter.mpr hformed'⟩
    . exact absurd (hformed'.types hexpects) hne

def wordAndBack : List Action :=
  [.addBlock,
    .pushBack (.ofNat 0) (.readReg .i64 (.ofNat 0 1)),
    .pushBack (.ofNat 0) (.cast .i64 .i128 (.insn (.ofNat 0))),
    .pushBack (.ofNat 0) (.cast .i128 .i64 (.insn (.ofNat 1))),
    .pushBack (.ofNat 0) (.writeReg (.ofNat 1 1) (.insn (.ofNat 2)) .i64)]

theorem combine_wordAndBack
    : (after wordAndBack).check = .ok () ∧
        ∃ n r', combine (.ofNat 0) true (after wordAndBack) = .ok n r' ∧ r'.check = .ok () := by
  have hcheck : (after wordAndBack).check = .ok () := by rfl
  have hsmall : (after (wordAndBack ++ [.combine (.ofNat 0) true])).Small := by
    constructor <;> decide +kernel
  have hcasts : ∀ p ∈ (after wordAndBack).insns.entries, p.2.opcode.extension? ≠ none →
      p.2.template 0 ≠ .pointer ∧ p.2.template 1 ≠ .pointer := by
    decide +kernel
  refine ⟨hcheck, ?_⟩
  apply (combine_passes_check_iff wordAndBack (.ofNat 0) true hsmall hcheck (by decide)).2.2
  intro i j ⟨hi, id, hid⟩ ⟨hj, id', hid'⟩ hconfused
  rcases hconfused with ⟨-, h⟩ | ⟨h, -⟩
  . exact (hcasts (id'.toNat, j) (Store.mem_entries.mpr hid') hj).2 h
  . exact (hcasts (id.toNat, i) (Store.mem_entries.mpr hid) hi).1 h

def wordToPointer : Routine :=
  .after [.addBlock,
    .pushBack (.ofNat 0) (.readReg .i64 (.ofNat 0 1)),
    .pushBack (.ofNat 0) (.cast .i64 .i128 (.insn (.ofNat 0))),
    .pushBack (.ofNat 0) (.cast .i128 .pointer (.insn (.ofNat 1))),
    .pushBack (.ofNat 0) (.xret (.insn (.ofNat 2)))]

theorem combine_wordToPointer
    : wordToPointer.check = .ok () ∧ .ofNat 0 ∈ wordToPointer.order ∧
        (∃ text r', combine (.ofNat 0) true wordToPointer =
          .error (.typeMismatch 0 .pointer .i64 text) r') ∧
        EStateM.run' (combine (.ofNat 0) false) wordToPointer = some 4 ∧
        (left (combine (.ofNat 0) false) wordToPointer).check.isOk = false := by
  refine ⟨rfl, by decide, ⟨_, _, rfl⟩, ?_, ?_⟩ <;> decide +kernel

end Routine

end MachineIR
