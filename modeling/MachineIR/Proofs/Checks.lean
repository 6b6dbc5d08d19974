import MachineIR.Proofs.UseTable
import MachineIR.Proofs.Views
import MachineIR.Routine.Validation

/-!
This module contains what it means that a check succeeds: the operands of an instruction fit its
opcode, a slot has its own record exactly if it refers to a value, and the records on the list of a
value belong to slots that refer to it.
-/

namespace MachineIR.Routine

section Sequences

variable {α : Type}

theorem Check.seq_eq_ok {e f : Check} : (e >>= fun _ => f) = .ok () ↔ e = .ok () ∧ f = .ok () := by
  cases e with
  | error err => simp [bind, Except.bind]
  | ok u => simp [bind, Except.bind]

theorem Check.guard_eq_ok {c : Prop} [Decidable c] {err : Error} {f : Check}
    : (if c then (throw err : Check) >>= fun _ => f else f) = .ok () ↔ ¬ c ∧ f = .ok () := by
  split
  . next hc => simp [hc, throw, throwThe, MonadExceptOf.throw, bind, Except.bind]
  . next hc => simp [hc]

theorem Check.require_eq_ok {c : Prop} [Decidable c] {err : Error}
    : (if c then (throw err : Check) else pure ()) = .ok () ↔ ¬ c := by
  split
  . next hc => simp [hc, throw, throwThe, MonadExceptOf.throw]
  . next hc => simp [hc, pure, Except.pure]

theorem Check.throw_ne_ok {err : Error} : ¬ (throw err : Check) = .ok () := by
  simp [throw, throwThe, MonadExceptOf.throw]

theorem Check.forM_eq_ok {f : α → Check} {l : List α}
    : l.forM f = .ok () ↔ ∀ a ∈ l, f a = .ok () := by
  induction l with
  | nil => simp [pure, Except.pure]
  | cons a l ih =>
    unfold List.forM
    rw [Check.seq_eq_ok, ih]
    simp

theorem Check.seq_eq_error {e f : Check} {err : Error}
    : (e >>= fun _ => f) = .error err ↔ e = .error err ∨ e = .ok () ∧ f = .error err := by
  cases e with
  | error err' => simp [bind, Except.bind]
  | ok u => simp [bind, Except.bind]

theorem Check.forM_eq_error {f : α → Check} {l : List α} {err : Error} (h : l.forM f = .error err)
    : ∃ a ∈ l, f a = .error err := by
  induction l with
  | nil => cases h
  | cons a l ih =>
    unfold List.forM at h
    rcases Check.seq_eq_error.mp h with ha | ⟨-, hl⟩
    . exact ⟨a, List.mem_cons_self, ha⟩
    . obtain ⟨b, hb, heq⟩ := ih hl
      exact ⟨b, List.mem_cons_of_mem a hb, heq⟩

end Sequences

variable {r : Routine}

section Operands

structure FitsUpTo (R : Ty → Ty → Prop) (r : Routine) (i : Insn) : Prop where
  enough : i.opcode.signature.operands.length ≤ i.slots.length
  exact : i.opcode.signature.variadic = none →
    i.slots.length = i.opcode.signature.operands.length
  types : ∀ k x t, i.operand? k = some x → i.code.slotType? k = some t → R (r.operandType x) t
  constants : ∀ k v, k ∈ i.opcode.signature.constants → i.operand? k ≠ some (.value v)

abbrev Fits (r : Routine) (i : Insn) : Prop := FitsUpTo Eq r i

theorem checkTypes_eq_ok {id : InsnId} {i : Insn} {index : Nat} {xs : List Operand}
    : r.checkTypes id i index xs = .ok () ↔
        ∀ k x t, xs[k]? = some x → i.code.slotType? (index + k) = some t → r.operandType x = t := by
  induction xs generalizing index with
  | nil => simp [checkTypes, pure, Except.pure]
  | cons y rest ih =>
    have hsplit : (∀ k x t, (y :: rest)[k]? = some x → i.code.slotType? (index + k) = some t →
        r.operandType x = t) ↔ (∀ t, i.code.slotType? index = some t → r.operandType y = t) ∧
          r.checkTypes id i (index + 1) rest = .ok () := by
      rw [ih]
      constructor
      . intro h
        refine ⟨fun t => h 0 y t rfl, ?_⟩
        intro k x t hx ht
        apply h (k + 1) x t hx
        rw [← ht]
        congr 1
        omega
      . rintro ⟨hy, hrest⟩ k x t hx ht
        cases k with
        | zero =>
          cases hx
          exact hy t ht
        | succ k =>
          apply hrest k x t hx
          rw [← ht]
          congr 1
          omega
    rw [hsplit, checkTypes]
    dsimp only
    split
    . next hnone => simp [hnone]
    . next t hsome =>
      rw [Check.guard_eq_ok]
      simp [hsome]

theorem checkTypes_eq_error {id : InsnId} {i : Insn} {index : Nat} {xs : List Operand} {e : Error}
    (h : r.checkTypes id i index xs = .error e)
    : ∃ k x t, xs[k]? = some x ∧ i.code.slotType? (index + k) = some t ∧ r.operandType x ≠ t ∧
        e = .typeMismatch (index + k) t (r.operandType x) (r.renderInsn id) := by
  induction xs generalizing index with
  | nil => cases h
  | cons y rest ih =>
    have hlater : r.checkTypes id i (index + 1) rest = .error e →
        ∃ k x t, (y :: rest)[k]? = some x ∧ i.code.slotType? (index + k) = some t ∧
          r.operandType x ≠ t ∧
          e = .typeMismatch (index + k) t (r.operandType x) (r.renderInsn id) := by
      intro h
      obtain ⟨k, x, t, hx, ht, hne, he⟩ := ih h
      rw [Nat.add_assoc, Nat.add_comm 1 k] at ht he
      exact ⟨k + 1, x, t, hx, ht, hne, he⟩
    rw [checkTypes] at h
    dsimp only at h
    split at h
    . exact hlater h
    . next t ht =>
      split at h
      . next hne =>
        cases h
        exact ⟨0, y, t, rfl, ht, hne, rfl⟩
      . exact hlater h

theorem checkConstants_eq_ok {id : InsnId} {i : Insn} {ks : List Nat}
    : r.checkConstants id i ks = .ok () ↔ ∀ k v, k ∈ ks → i.operand? k ≠ some (.value v) := by
  induction ks with
  | nil => simp [checkConstants, pure, Except.pure]
  | cons k rest ih =>
    have hvalue : ((i.operand? k).bind Operand.value?).isSome = true ↔
        ∃ v, i.operand? k = some (.value v) := by
      cases i.operand? k with
      | none => simp
      | some x => cases x <;> simp [Operand.value?]
    unfold checkConstants
    dsimp only
    rw [Check.guard_eq_ok, ih, hvalue]
    constructor
    . rintro ⟨hk, hrest⟩ n v hn heq
      rcases List.mem_cons.mp hn with rfl | hn
      . exact hk ⟨v, heq⟩
      . exact hrest n v hn heq
    . intro h
      refine ⟨?_, fun n v hn => h n v (List.mem_cons_of_mem k hn)⟩
      rintro ⟨v, hv⟩
      exact h k v (List.mem_cons_self) hv

theorem checkInsn_eq_ok {id : InsnId} {i : Insn} (hi : r.insn? id = some i)
    : r.checkInsn id = .ok () ↔ r.Fits i := by
  unfold checkInsn
  rw [hi]
  dsimp only [defect]
  rw [Check.guard_eq_ok, Check.seq_eq_ok, checkTypes_eq_ok, checkConstants_eq_ok]
  have hcount : ¬ (decide (i.slots.length < i.opcode.signature.operands.length) ||
      i.opcode.signature.variadic.isNone &&
        i.slots.length != i.opcode.signature.operands.length) = true ↔
        i.opcode.signature.operands.length ≤ i.slots.length ∧
          (i.opcode.signature.variadic = none →
            i.slots.length = i.opcode.signature.operands.length) := by
    simp only [Bool.or_eq_true, decide_eq_true_eq, Bool.and_eq_true, Option.isNone_iff_eq_none,
      bne_iff_ne, not_or, Nat.not_lt, not_and, Decidable.not_not]
  rw [hcount]
  simp only [← Insn.operand?_eq, Nat.zero_add]
  constructor
  . rintro ⟨⟨henough, hexact⟩, htypes, hconstants⟩
    exact ⟨henough, hexact, htypes, hconstants⟩
  . intro h
    exact ⟨⟨h.enough, h.exact⟩, h.types, h.constants⟩

theorem FitsUpTo.checkInsn_eq_error {R : Ty → Ty → Prop} {id : InsnId} {i : Insn} {e : Error}
    (h : FitsUpTo R r i) (hi : r.insn? id = some i) (he : r.checkInsn id = .error e)
    : ∃ k x t, i.operand? k = some x ∧ i.code.slotType? k = some t ∧ r.operandType x ≠ t ∧
        e = .typeMismatch k t (r.operandType x) (r.renderInsn id) := by
  unfold checkInsn at he
  rw [hi] at he
  dsimp only [defect] at he
  split at he
  . next hcount =>
    simp only [Bool.or_eq_true, decide_eq_true_eq, Bool.and_eq_true, Option.isNone_iff_eq_none,
      bne_iff_ne] at hcount
    rcases hcount with hfew | ⟨hfixed, hne⟩
    . exact absurd h.enough (Nat.not_le_of_lt hfew)
    . exact absurd (h.exact hfixed) hne
  . rcases Check.seq_eq_error.mp he with htypes | ⟨-, hconstants⟩
    . obtain ⟨k, x, t, hx, ht, hne, heq⟩ := checkTypes_eq_error htypes
      rw [← Insn.operand?_eq] at hx
      rw [Nat.zero_add] at ht heq
      exact ⟨k, x, t, hx, ht, hne, heq⟩
    . rw [checkConstants_eq_ok.mpr h.constants] at hconstants
      cases hconstants

end Operands

section Records

variable {v : ValueId} {l : UseList} {room : Nat} {use : UseId} {u : Use} {id : InsnId} {k : Nat}
  {s : Slot}

def Owned (r : Routine) (id : InsnId) (k : Nat) (s : Slot) : Prop :=
  match s with
  | ⟨.value v, some use⟩ => r.uses.reference? use = some (v, id, k) ∧ ∃ l, r.useList? v = some l
  | ⟨.value _, none⟩ => False
  | ⟨_, use⟩ => use = none

def Owns (r : Routine) : Prop := ∀ id k s, r.slot? id k = some s → r.Owned id k s

theorem checkSlot_eq_ok : r.checkSlot id k s = .ok () ↔ r.Owned id k s := by
  obtain ⟨x, use⟩ := s
  unfold checkSlot Owned
  dsimp only [defect]
  cases x with
  | value v =>
    cases use with
    | none => simp
    | some use =>
      dsimp only
      unfold UseTable.reference? Use.reference
      cases r.uses.get? use with
      | none => simp
      | some u =>
        rw [← Option.isSome_iff_exists, ← contains_eq]
        dsimp only
        split
        . next hne =>
          have : ¬ (u.value, u.user, u.slot) = (v, id, k) := by
            intro heq
            cases heq
            simp at hne
          simp [this]
        . next heq =>
          simp only [not_or, Decidable.not_not] at heq
          obtain ⟨rfl, rfl, rfl⟩ := heq
          split
          . next hlive => simp [hlive, pure, Except.pure]
          . next hlive => simp [hlive]
  | _ =>
    cases use with
    | none => simp [pure, Except.pure]
    | some use => simp

theorem Owned.record (h : r.Owned id k s) (huse : s.use = some use)
    : ∃ v l, s.operand = .value v ∧ r.uses.reference? use = some (v, id, k) ∧
        r.useList? v = some l := by
  obtain ⟨x, own⟩ := s
  cases huse
  cases x with
  | value v =>
    obtain ⟨href, l, hl⟩ := h
    exact ⟨v, l, rfl, href, hl⟩
  | _ => cases h

theorem checkUse_eq_ok
    : r.checkUse v use u = .ok () ↔
        u.value = v ∧ r.slot? u.user u.slot = some ⟨.value v, some use⟩ := by
  unfold checkUse
  dsimp only [defect]
  split
  . next hne => simp [hne]
  . next heq =>
    rw [Decidable.not_not] at heq
    have hslot : (r.insn? u.user).bind (·.slots[u.slot]?) = r.slot? u.user u.slot := rfl
    rw [hslot]
    cases r.slot? u.user u.slot with
    | none => simp
    | some s =>
      obtain ⟨x, own⟩ := s
      dsimp only
      rw [Check.require_eq_ok]
      simp only [heq, ne_eq, not_or, Decidable.not_not, true_and, Option.some.injEq, Slot.mk.injEq]
      exact and_comm

theorem checkUsesFrom_cons (h : r.checkUsesFrom v l room (some use) = .ok ())
    (hu : r.uses.get? use = some u)
    : r.checkUse v use u = .ok () ∧ ∃ room', r.checkUsesFrom v l room' u.next = .ok () := by
  unfold checkUsesFrom at h
  simp only [Option.bind_some, hu, Option.map_some] at h
  rw [Check.seq_eq_ok] at h
  refine ⟨h.1, ?_⟩
  cases room with
  | zero => exact absurd h.2 Check.throw_ne_ok
  | succ room => exact ⟨room, h.2⟩

end Records

section Routines

structure Passes (r : Routine) (id : InsnId) (i : Insn) : Prop where
  placed : r.block? i.block ≠ none
  code : r.checkInsn id = .ok ()
  slots : ∀ k s, i.slots[k]? = some s → r.Owned id k s
  uses : r.checkUses (.insn id) i.uses = .ok ()

theorem check_eq_ok
    : r.check = .ok () ↔
        (∀ n i, r.insns.get? n = some i → r.Passes (.ofNat n) i) ∧
        (∀ b ∈ r.order, r.checkLinks b = .ok () ∧
          ∃ found, r.block? b = some found ∧ r.checkUses (.block b) found.uses = .ok ()) ∧
        r.referenceCount = r.uses.live := by
  unfold check
  dsimp only [defect]
  rw [Check.seq_eq_ok, Check.seq_eq_ok, Check.forM_eq_ok, Check.forM_eq_ok, Check.require_eq_ok,
    Decidable.not_not]
  refine and_congr ?_ (and_congr ?_ Iff.rfl)
  . rw [Prod.forall]
    refine forall_congr' fun n => forall_congr' fun i => imp_congr Store.mem_entries ?_
    dsimp only
    rw [Check.guard_eq_ok, Check.seq_eq_ok, Check.seq_eq_ok, Check.forM_eq_ok]
    have hslots : (∀ p ∈ i.slots.zipIdx, r.checkSlot (.ofNat n) p.2 p.1 = .ok ()) ↔
        ∀ k s, i.slots[k]? = some s → r.Owned (.ofNat n) k s := by
      rw [Prod.forall, forall_comm]
      refine forall_congr' fun k => forall_congr' fun s => imp_congr ?_ checkSlot_eq_ok
      rw [List.mem_zipIdx_iff_getElem?]
    rw [Option.isNone_iff_eq_none, hslots]
    constructor
    . rintro ⟨hplaced, hcode, hslots, huses⟩
      exact ⟨hplaced, hcode, hslots, huses⟩
    . intro h
      exact ⟨h.placed, h.code, h.slots, h.uses⟩
  . refine forall_congr' fun b => imp_congr Iff.rfl ?_
    rw [Check.seq_eq_ok]
    refine and_congr Iff.rfl ?_
    cases r.block? b with
    | none => simp
    | some found => simp

variable {id : InsnId} {i : Insn}

theorem passes_of_check (h : r.check = .ok ()) (hi : r.insn? id = some i) : r.Passes id i := by
  have := (check_eq_ok.mp h).1 id.toNat i hi
  rw [InsnId.ofNat_toNat] at this
  exact this

theorem fits_of_check (h : r.check = .ok ()) (hi : r.insn? id = some i) : r.Fits i :=
  (checkInsn_eq_ok hi).mp (passes_of_check h hi).code

theorem owns_of_check (h : r.check = .ok ()) : r.Owns := by
  intro id k s hs
  obtain ⟨i, hi, hk⟩ := Option.bind_eq_some_iff.mp hs
  exact (passes_of_check h hi).slots k s hk

end Routines

end MachineIR.Routine
