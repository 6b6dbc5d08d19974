import MachineIR.Proofs.Edges
import MachineIR.Proofs.PassFailures

/-!
This module contains what the check of a routine can find: whatever has been done to the routine, its
links, its slots and its records are sound, so that the check comes down to the operands of the single
instructions and fails at the first one that does not have the operands its opcode asks for.
-/

namespace MachineIR.Routine

variable {r : Routine}

section Sequences

variable {α : Type}

theorem Check.seq_of_ok {e f : Check} (hf : f = .ok ()) : (e >>= fun _ => f) = e := by
  subst hf
  cases e with
  | error err => rfl
  | ok u => rfl

theorem Check.of_seq_ok {e f : Check} (he : e = .ok ()) : (e >>= fun _ => f) = f := by
  subst he
  rfl

theorem Check.forM_congr {f g : α → Check} {l : List α} (h : ∀ a ∈ l, f a = g a)
    : l.forM f = l.forM g := by
  induction l with
  | nil => rfl
  | cons a l ih =>
    rw [List.forall_mem_cons] at h
    unfold List.forM
    rw [h.1, ih h.2]

end Sequences

section Faults

inductive OperandFault (text : String) : Error → Prop
  | count (found expected : Nat) : OperandFault text (.integrity (.operandCount text found expected))
  | type (k : Nat) (expected found : Ty) (hne : found ≠ expected)
    : OperandFault text (.typeMismatch k expected found text)
  | constant (k : Nat) : OperandFault text (.constantExpected k text)

variable {id : InsnId} {i : Insn} {e : Error}

theorem checkConstants_eq_error {ks : List Nat} (h : r.checkConstants id i ks = .error e)
    : ∃ k ∈ ks, e = .constantExpected k (r.renderInsn id) := by
  induction ks with
  | nil => cases h
  | cons k rest ih =>
    unfold checkConstants at h
    dsimp only at h
    split at h
    . cases h
      exact ⟨k, List.mem_cons_self, rfl⟩
    . obtain ⟨k', hk', he⟩ := ih h
      exact ⟨k', List.mem_cons_of_mem k hk', he⟩

theorem operandFault_of_checkInsn (hi : r.insn? id = some i) (h : r.checkInsn id = .error e)
    : OperandFault (r.renderInsn id) e := by
  unfold checkInsn at h
  rw [hi] at h
  dsimp only [defect] at h
  split at h
  . cases h
    exact .count _ _
  . rcases Check.seq_eq_error.mp h with htypes | ⟨-, hconstants⟩
    . obtain ⟨k, x, t, -, -, hne, rfl⟩ := checkTypes_eq_error htypes
      exact .type _ _ _ hne
    . obtain ⟨k, -, rfl⟩ := checkConstants_eq_error hconstants
      exact .constant k

end Faults

structure Built (r : Routine) : Prop where
  placed : ∀ id i, r.insn? id = some i → r.block? i.block ≠ none
  slots : ∀ id k s, r.slot? id k = some s → r.checkSlot id k s = .ok ()
  uses : ∀ v l, r.useList? v = some l → r.checkUses v l = .ok ()
  links : ∀ b, r.block? b ≠ none → r.checkLinks b = .ok ()
  order : ∀ b, b ∈ r.order ↔ r.block? b ≠ none
  records : r.referenceCount = r.uses.live
  handles : ∀ n i, r.insns.get? n = some i → r.insn? (.ofNat n) = some i

theorem Intact.built (h : r.Intact) (hwired : r.Wired) : r.Built where
  placed := by
    intro id i hi
    exact block?_ne_none_iff.mp (h.arranged.home _ id _ (neighbours?_of_insn? hi rfl))
  slots := by
    intro id k s hs
    exact checkSlot_eq_ok.mpr (h.tracked.owns id k s hs)
  uses := by
    intro v l hl
    exact h.tracked.checkUses hl
  links := by
    intro b hb
    exact checkLinks_eq_ok.mpr ⟨_, (h.arranged.holds_insnsOf hb).lists⟩
  order := hwired.laid
  records := h.tracked.referenceCount_eq h.small
  handles := by
    intro n i hi
    exact insn?_ofNat h.small hi

namespace Built

theorem checkSlots (h : r.Built) {n : Nat} {i : Insn} (hn : r.insns.get? n = some i)
    : (i.slots.zipIdx.forM fun p => r.checkSlot (.ofNat n) p.2 p.1) = .ok () := by
  rw [Check.forM_eq_ok]
  rintro ⟨s, k⟩ hs
  apply h.slots
  rw [slot?_eq (h.handles n i hn)]
  exact List.mem_zipIdx_iff_getElem?.mp hs

theorem check_eq (h : r.Built)
    : r.check = r.insns.entries.forM fun p => r.checkInsn (.ofNat p.1) := by
  unfold check
  rw [Check.seq_of_ok]
  . -- Of the checks of an instruction only that of its operands is left.
    apply Check.forM_congr
    rintro ⟨n, i⟩ hn
    rw [Store.mem_entries] at hn
    have hi := h.handles n i hn
    dsimp only
    rw [if_neg (by simpa using h.placed _ i hi)]
    apply Check.seq_of_ok
    rw [Check.of_seq_ok (h.checkSlots hn)]
    apply h.uses
    simp [useList?, hi]
  . rw [Check.of_seq_ok]
    . rw [if_neg (Classical.not_not.mpr h.records)]
      rfl
    . rw [Check.forM_eq_ok]
      intro b hb
      have hlive := (h.order b).mp hb
      obtain ⟨found, hfound⟩ := Option.ne_none_iff_exists'.mp hlive
      rw [Check.of_seq_ok (h.links b hlive), hfound]
      apply h.uses
      simp [useList?, hfound]

theorem check_eq_ok_iff (h : r.Built)
    : r.check = .ok () ↔ ∀ id, r.insn? id ≠ none → r.checkInsn id = .ok () := by
  rw [h.check_eq, Check.forM_eq_ok]
  constructor
  . intro hall id hid
    obtain ⟨i, hi⟩ := Option.ne_none_iff_exists'.mp hid
    have := hall (id.toNat, i) (Store.mem_entries.mpr hi)
    rwa [InsnId.ofNat_toNat] at this
  . rintro hall ⟨n, i⟩ hn
    apply hall
    rw [h.handles n i (Store.mem_entries.mp hn)]
    exact Option.some_ne_none i

theorem operandFault_of_check (h : r.Built) {e : Error} (he : r.check = .error e)
    : ∃ id, r.insn? id ≠ none ∧ r.checkInsn id = .error e ∧ OperandFault (r.renderInsn id) e := by
  rw [h.check_eq] at he
  obtain ⟨⟨n, i⟩, hn, hinsn⟩ := Check.forM_eq_error he
  have hi := h.handles n i (Store.mem_entries.mp hn)
  exact ⟨.ofNat n, by simp [hi], hinsn, operandFault_of_checkInsn hi hinsn⟩

theorem checkBlock_eq (h : r.Built) {b : BlockId} (hb : r.block? b ≠ none)
    : r.checkBlock b = (r.insnsOf b).forM r.checkInsn := Check.of_seq_ok (h.links b hb)

end Built

theorem check_finds_operand_faults (actions : List Action) (h : (after actions).Small)
    : (after actions).Built ∧
        ((after actions).check = .ok () ↔
          ∀ id, (after actions).insn? id ≠ none → (after actions).checkInsn id = .ok ()) ∧
        (∀ e, (after actions).check = .error e →
          ∃ id, (after actions).insn? id ≠ none ∧ (after actions).checkInsn id = .error e ∧
            OperandFault ((after actions).renderInsn id) e) ∧
        ∀ b, (after actions).block? b ≠ none →
          (after actions).checkBlock b =
            ((after actions).insnsOf b).forM (after actions).checkInsn := by
  have hbuilt := (intact_after actions h).built (wired_after actions h)
  refine ⟨hbuilt, hbuilt.check_eq_ok_iff, ?_, ?_⟩
  . intro e he
    exact hbuilt.operandFault_of_check he
  . intro b hb
    exact hbuilt.checkBlock_eq hb

theorem check_finds_operand_faults_unsound
    : (after unsound).Small ∧ (after unsound).Built ∧
        ∃ e id, (after unsound).check = .error e ∧ (after unsound).checkInsn id = .error e ∧
          OperandFault ((after unsound).renderInsn id) e := by
  have hsmall : (after unsound).Small := by decide +kernel
  obtain ⟨hbuilt, -, hfaults, -⟩ := check_finds_operand_faults unsound hsmall
  refine ⟨hsmall, hbuilt, ?_⟩
  cases hcheck : (after unsound).check with
  | ok u =>
    have hnone : (after unsound).check.toOption = none := by decide +kernel
    rw [hcheck] at hnone
    cases hnone
  | error e =>
    obtain ⟨id, -, hinsn, hfault⟩ := hfaults e hcheck
    exact ⟨e, id, rfl, hinsn, hfault⟩

end MachineIR.Routine
