import MachineIR.Proofs.Algebra
import MachineIR.Proofs.PeepholeRules
import MachineIR.Proofs.UseSoundness

/-!
This module contains conversions of integers that follow each other. The bits of a result are told
apart by their places: those that both types have come from the operand, the others are filled up.
From this follows when two conversions in a row can be done by one of them or by none, which is what
the local simplifications make use of.
-/

namespace MachineIR

namespace Extension

variable {w u v : Nat} {e inner outer : Extension}

def fill (e : Extension) (a : BitVec w) : Bool :=
  match e with
  | zero => false
  | sign => a.msb

theorem getLsbD_resize (e : Extension) (a : BitVec w) (k : Nat)
    : (e.resize v a).getLsbD k = (decide (k < v) && if k < w then a.getLsbD k else e.fill a) := by
  cases e with
  | zero =>
    rw [resize, BitVec.getLsbD_setWidth]
    split
    . rfl
    . rw [BitVec.getLsbD_of_ge a k (by omega), fill]
  | sign => rw [resize, BitVec.getLsbD_signExtend, fill]

theorem resize_self (e : Extension) (a : BitVec w) : e.resize w a = a := by
  apply BitVec.eq_of_getLsbD_eq
  intro k hk
  rw [getLsbD_resize]
  simp only [hk, decide_true, Bool.true_and, ↓reduceIte]

theorem fill_resize (hw : 0 < w) (hu : w ≤ u) (a : BitVec w) : e.fill (e.resize u a) = e.fill a := by
  -- A word that has been extended has the bit on top that it was filled up with.
  cases e with
  | zero => rfl
  | sign =>
    change (a.signExtend u).msb = a.msb
    rw [BitVec.msb_eq_getLsbD_last, BitVec.getLsbD_signExtend]
    have hlast : u - 1 < u := by omega
    simp only [hlast, decide_true, Bool.true_and]
    split
    . have heq : u - 1 = w - 1 := by omega
      rw [heq, ← BitVec.msb_eq_getLsbD_last]
    . rfl

theorem resize_resize_of_le (hu : v ≤ u) (hw : v ≤ w) (a : BitVec w)
    : outer.resize v (inner.resize u a) = outer.resize v a := by
  -- If the last word is no wider than the others, all of its bits come from the first one.
  apply BitVec.eq_of_getLsbD_eq
  intro k hk
  have hku : k < u := by omega
  have hkw : k < w := by omega
  simp only [getLsbD_resize, hk, hku, hkw, decide_true, Bool.true_and, ↓reduceIte]

theorem resize_resize_of_ge (hw : 0 < w) (hu : w ≤ u) (a : BitVec w)
    : e.resize v (e.resize u a) = e.resize v a := by
  -- A word that has been extended can be extended further in the same way.
  apply BitVec.eq_of_getLsbD_eq
  intro k hk
  rw [getLsbD_resize, getLsbD_resize, getLsbD_resize, fill_resize hw hu]
  by_cases hku : k < u
  . simp only [hku, decide_true, Bool.true_and, ↓reduceIte]
  . have hkw : ¬ k < w := by omega
    simp only [hku, hkw, ↓reduceIte]

theorem toNat_resize_resize (hu : w ≤ u) (hv : v = w) (a : BitVec w)
    : (outer.resize v (inner.resize u a)).toNat = a.toNat := by
  subst hv
  rw [resize_resize_of_le hu (Nat.le_refl v), resize_self]

end Extension

namespace Constant

variable {s u : Scalar}

theorem convert?_of_isInteger (e : Extension) (hs : s.isInteger = true) (hu : u.isInteger = true)
    (a : BitVec s.width)
    : (scalar s a).convert? e (.scalar u) = some (scalar u (e.resize u.width a)) := by
  change convertWord? e s a u = _
  unfold convertWord?
  split
  . next heq =>
    subst heq
    rw [Extension.resize_self]
  . rw [Scalar.format?_of_isInteger hs, Scalar.format?_of_isInteger hu]

theorem convert?_eq_number (hs : s.isInteger = true) (hu : u.isInteger = true) (a : BitVec s.width)
    : (scalar s a).convert? .zero (.scalar u) = some (scalar u (.ofNat u.width a.toNat)) ∧
        (scalar s a).convert? .sign (.scalar u) = some (scalar u (.ofInt u.width a.toInt)) ∧
        ∀ e, (scalar s a).convert? e .i1 = some (ofBool (a.getLsbD 0)) := by
  refine ⟨?_, convert?_of_isInteger .sign hs hu a, ?_⟩
  . rw [convert?_of_isInteger .zero hs hu, BitVec.ofNat_toNat]
    rfl
  . intro e
    have hbit : e.resize 1 a = BitVec.ofBool (a.getLsbD 0) := by
      apply BitVec.eq_of_getLsbD_eq
      intro k hk
      obtain rfl : k = 0 := by omega
      rw [Extension.getLsbD_resize]
      simp [s.width_pos]
    rw [convert?_of_isInteger e hs rfl]
    exact congrArg (some <| i1 ·) hbit

def convertTwice? (inner outer : Extension) (c : Constant) (t₁ t₂ : Ty) : Option Constant :=
  (c.convert? inner t₁).bind (·.convert? outer t₂)

variable {s₀ s₁ s₂ : Scalar} {inner outer : Extension}

theorem convertTwice?_of_isInteger (h₀ : s₀.isInteger = true) (h₁ : s₁.isInteger = true)
    (h₂ : s₂.isInteger = true) (a : BitVec s₀.width)
    : (scalar s₀ a).convertTwice? inner outer (.scalar s₁) (.scalar s₂) =
        some (scalar s₂ (outer.resize s₂.width (inner.resize s₁.width a))) := by
  rw [convertTwice?, convert?_of_isInteger inner h₀ h₁, Option.bind_some,
    convert?_of_isInteger outer h₁ h₂]

theorem exists_word {c : Constant} {s : Scalar} (h : c.ty = .scalar s)
    : ∃ a : BitVec s.width, c = scalar s a := by
  cases c with
  | scalar t a =>
    cases h
    exact ⟨a, rfl⟩
  | _ => cases h

end Constant

theorem Ty.exists_scalar {t : Ty} (h : t.isInteger = true)
    : ∃ s : Scalar, t = .scalar s ∧ s.isInteger = true := by
  cases t with
  | scalar s => exact ⟨s, rfl, Constant.isInteger_of_ty (x := 0) h⟩
  | _ => cases h

section Chains

variable {inner outer : Extension} {t₀ t₁ t₂ : Ty}

theorem castChain_eq (h₀ : t₀.isInteger = true) (h₁ : t₁.isInteger = true)
    (h₂ : t₂.isInteger = true)
    : castChain inner outer t₀ t₁ t₂ =
        if t₀.bitWidth ≤ t₁.bitWidth ∧ t₂.bitWidth = t₀.bitWidth then
          .drop
        else if t₂.bitWidth ≤ t₀.bitWidth ∧ t₂.bitWidth ≤ t₁.bitWidth ∨
            t₀.bitWidth ≤ t₁.bitWidth ∧ t₁.bitWidth ≤ t₂.bitWidth ∧ inner = outer then
          .shorten
        else
          .keep := by
  unfold castChain
  simp only [h₀, h₁, h₂]
  grind

theorem castChain_ne_keep_iff (h₀ : t₀.isInteger = true) (h₁ : t₁.isInteger = true)
    (h₂ : t₂.isInteger = true)
    : castChain inner outer t₀ t₁ t₂ ≠ .keep ↔
        t₂.bitWidth ≤ t₀.bitWidth ∧ t₂.bitWidth ≤ t₁.bitWidth ∨
          t₀.bitWidth ≤ t₁.bitWidth ∧ t₁.bitWidth ≤ t₂.bitWidth ∧ inner = outer := by
  rw [castChain_eq h₀ h₁ h₂]
  split
  . next hwidths =>
    refine iff_of_true nofun (Or.inl ?_)
    omega
  . split
    . next hshorten => exact iff_of_true nofun hshorten
    . next hkeep => exact iff_of_false (fun h => h rfl) hkeep

theorem rawBits?_of_drop (h₀ : t₀.isInteger = true) (h₁ : t₁.isInteger = true)
    (h₂ : t₂.isInteger = true) (h : castChain inner outer t₀ t₁ t₂ = .drop) {c : Constant}
    (hc : c.ty = t₀)
    : ∃ d, c.convertTwice? inner outer t₁ t₂ = some d ∧ d.rawBits? = c.rawBits? := by
  rw [castChain_eq h₀ h₁ h₂] at h
  obtain ⟨s₀, rfl, hs₀⟩ := Ty.exists_scalar h₀
  obtain ⟨s₁, rfl, hs₁⟩ := Ty.exists_scalar h₁
  obtain ⟨s₂, rfl, hs₂⟩ := Ty.exists_scalar h₂
  obtain ⟨a, rfl⟩ := Constant.exists_word hc
  refine ⟨_, Constant.convertTwice?_of_isInteger hs₀ hs₁ hs₂ a, ?_⟩
  split at h
  . next hwidths => exact congrArg some (Extension.toNat_resize_resize hwidths.1 hwidths.2 a)
  . split at h <;> cases h

theorem convert?_of_shorten (h₀ : t₀.isInteger = true) (h₁ : t₁.isInteger = true)
    (h₂ : t₂.isInteger = true) (h : castChain inner outer t₀ t₁ t₂ = .shorten) {c : Constant}
    (hc : c.ty = t₀)
    : ∃ d, c.convertTwice? inner outer t₁ t₂ = some d ∧ c.convert? outer t₂ = some d := by
  rw [castChain_eq h₀ h₁ h₂] at h
  obtain ⟨s₀, rfl, hs₀⟩ := Ty.exists_scalar h₀
  obtain ⟨s₁, rfl, hs₁⟩ := Ty.exists_scalar h₁
  obtain ⟨s₂, rfl, hs₂⟩ := Ty.exists_scalar h₂
  obtain ⟨a, rfl⟩ := Constant.exists_word hc
  refine ⟨_, Constant.convertTwice?_of_isInteger hs₀ hs₁ hs₂ a, ?_⟩
  rw [Constant.convert?_of_isInteger outer hs₀ hs₂]
  have hwords : outer.resize s₂.width (inner.resize s₁.width a) = outer.resize s₂.width a := by
    split at h
    . cases h
    . split at h
      . next hwidths =>
        rcases hwidths with ⟨hle₀, hle₁⟩ | ⟨hle, -, rfl⟩
        . exact Extension.resize_resize_of_le hle₁ hle₀ a
        . exact Extension.resize_resize_of_ge s₀.width_pos hle a
      . cases h
  rw [hwords]

end Chains

namespace Routine

variable {r : Routine} {i : Insn} {inner outer : Extension} {t₀ t₁ t₂ : Ty} {y : Operand}

structure ConvertsTwice (r : Routine) (i : Insn) (inner outer : Extension) (t₀ t₁ t₂ : Ty)
    (y : Operand) : Prop where
  opcode : i.opcode.extension? = some outer
  types : i.templates = (t₁, t₂)
  source : ∃ x j, i.operand? 0 = some x ∧ r.producer? x = some j ∧
    j.opcode.extension? = some inner ∧ j.templates = (t₀, t₁) ∧ j.operand? 0 = some y

theorem ConvertsTwice.combine? (h : r.ConvertsTwice i inner outer t₀ t₁ t₂ y) (hne : t₁ ≠ t₂)
    : r.combine? i = match castChain inner outer t₀ t₁ t₂ with
        | .keep => none
        | .drop => some (.replace y)
        | .shorten => some (.source t₀ y) := by
  obtain ⟨x, j, hx, hj, hinner, htypes, hy⟩ := h.source
  have htemplate : ∀ k : Insn, k.template 0 = k.templates.1 ∧ k.template 1 = k.templates.2 := by
    intro k
    exact ⟨rfl, rfl⟩
  have hcombine : r.combine? i = r.combineCast? outer i := by
    have hopcode := h.opcode
    unfold Routine.combine?
    cases hi : i.opcode <;> rw [hi] at hopcode <;> cases hopcode <;> rfl
  rw [hcombine, combineCast?]
  cases hchain : castChain inner outer t₀ t₁ t₂ <;>
    simp only [htemplate, h.types, htypes, hx, hj, hinner, hy, hne, hchain, Option.bind_eq_bind,
      Option.bind_some, ↓reduceIte]

theorem shortened_casts_agree (h : r.ConvertsTwice i inner outer t₀ t₁ t₂ y)
    (h₀ : t₀.isInteger = true) (h₁ : t₁.isInteger = true) (h₂ : t₂.isInteger = true)
    (hne : t₁ ≠ t₂)
    : (∀ x, r.combine? i = some (.replace x) → x = y ∧ ∀ c : Constant, c.ty = t₀ →
          ∃ d, c.convertTwice? inner outer t₁ t₂ = some d ∧ d.rawBits? = c.rawBits?) ∧
        (∀ t x, r.combine? i = some (.source t x) → t = t₀ ∧ x = y ∧ ∀ c : Constant, c.ty = t₀ →
          ∃ d, c.convertTwice? inner outer t₁ t₂ = some d ∧ c.convert? outer t₂ = some d) ∧
        (r.combine? i ≠ none ↔
          t₂.bitWidth ≤ t₀.bitWidth ∧ t₂.bitWidth ≤ t₁.bitWidth ∨
            t₀.bitWidth ≤ t₁.bitWidth ∧ t₁.bitWidth ≤ t₂.bitWidth ∧ inner = outer) ∧
        ∀ (s u : Scalar) (a : BitVec s.width), s.isInteger = true → u.isInteger = true →
          (Constant.scalar s a).convert? .zero (.scalar u) =
              some (.scalar u (.ofNat u.width a.toNat)) ∧
            (Constant.scalar s a).convert? .sign (.scalar u) =
              some (.scalar u (.ofInt u.width a.toInt)) ∧
            ∀ e, (Constant.scalar s a).convert? e .i1 = some (.ofBool (a.getLsbD 0)) := by
  have hcombine := h.combine? hne
  refine ⟨?_, ?_, ?_, ?_⟩
  . intro x hx
    cases hchain : castChain inner outer t₀ t₁ t₂ <;> rw [hchain, hx] at hcombine <;> cases hcombine
    exact ⟨rfl, fun c => rawBits?_of_drop h₀ h₁ h₂ hchain⟩
  . intro t x hx
    cases hchain : castChain inner outer t₀ t₁ t₂ <;> rw [hchain, hx] at hcombine <;> cases hcombine
    exact ⟨rfl, rfl, fun c => convert?_of_shorten h₀ h₁ h₂ hchain⟩
  . rw [← castChain_ne_keep_iff h₀ h₁ h₂, hcombine]
    cases castChain inner outer t₀ t₁ t₂ <;> simp
  . intro s u a hs hu
    exact Constant.convert?_eq_number hs hu a

def signedBit : Routine :=
  .after [.addBlock,
    .pushBack (.ofNat 0) (.readReg .i1 (.ofNat 1 1)),
    .pushBack (.ofNat 0) (.castSx .i1 .i8 (.insn (.ofNat 0))),
    .pushBack (.ofNat 0) (.cast .i8 .i1 (.insn (.ofNat 1))),
    .pushBack (.ofNat 0) (.castSx .i8 .pointer (.insn (.ofNat 1))),
    .pushBack (.ofNat 0) (.cast .i8 .pointer (.insn (.ofNat 1)))]

def signedBitInsn (n : Nat) : Insn := (signedBit.insn? (.ofNat n)).getD default

theorem shortened_casts_agree_signedBit
    : signedBit.combine? (signedBitInsn 2) = some (.replace (.insn (.ofNat 0))) ∧
        signedBit.combine? (signedBitInsn 3) = some (.source .i1 (.insn (.ofNat 0))) ∧
        signedBit.combine? (signedBitInsn 4) = none ∧
        (∀ c : Constant, c.ty = .i1 →
          ∃ d, c.convertTwice? .sign .zero .i8 .i1 = some d ∧ d.rawBits? = c.rawBits?) ∧
        (∀ c : Constant, c.ty = .i1 →
          ∃ d, c.convertTwice? .sign .sign .i8 .pointer = some d ∧
            c.convert? .sign .pointer = some d) ∧
        (Constant.i1 1).convertTwice? .sign .zero .i8 .pointer ≠
          (Constant.i1 1).convert? .zero .pointer := by
  have hback : signedBit.ConvertsTwice (signedBitInsn 2) .sign .zero .i1 .i8 .i1 (.insn (.ofNat 0)) :=
    ⟨by decide +kernel, by decide +kernel, .insn (.ofNat 1), signedBitInsn 1, by decide +kernel⟩
  have hfurther : signedBit.ConvertsTwice (signedBitInsn 3) .sign .sign .i1 .i8 .pointer
      (.insn (.ofNat 0)) :=
    ⟨by decide +kernel, by decide +kernel, .insn (.ofNat 1), signedBitInsn 1, by decide +kernel⟩
  have hdrop : signedBit.combine? (signedBitInsn 2) = some (.replace (.insn (.ofNat 0))) := by
    decide +kernel
  have hshorten : signedBit.combine? (signedBitInsn 3) =
      some (.source .i1 (.insn (.ofNat 0))) := by
    decide +kernel
  refine ⟨hdrop, hshorten, by decide +kernel, ?_, ?_, by decide⟩
  . exact ((shortened_casts_agree hback rfl rfl rfl (by decide)).1 _ hdrop).2
  . exact ((shortened_casts_agree hfurther rfl rfl rfl (by decide)).2.1 _ _ hshorten).2.2

end Routine

end MachineIR
