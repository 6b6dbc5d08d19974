import MachineIR.Routine.Cursor

/-!
This module contains how runs of edits are reasoned about: what the steps of an edit do to a
routine, and relations between the routine that an edit starts from and the one it leaves behind.
-/

namespace MachineIR

theorem Routine.rel_foldl {R : Routine → Routine → Prop} [Std.Refl R] [Trans R R R] {α : Type}
    {f : Routine → α → Routine} (hf : ∀ r a, R r (f r a)) (l : List α) (r : Routine)
    : R r (l.foldl f r) := by
  induction l generalizing r with
  | nil => exact Std.Refl.refl r
  | cons a rest ih => exact Trans.trans (hf r a) (ih _)

namespace Edit

variable {α β σ : Type}

section Run

@[simp]
theorem pure_run (a : α) (r : Routine) : (pure a : Edit α) r = .ok a r := rfl

@[simp]
theorem throw_run (e : Error) (r : Routine) : (throw e : Edit α) r = .error e r := rfl

@[simp]
theorem get_run (r : Routine) : (get : Edit Routine) r = .ok r r := rfl

@[simp]
theorem set_run (r r' : Routine) : (set r' : Edit PUnit) r = .ok () r' := rfl

@[simp]
theorem modify_run (f : Routine → Routine) (r : Routine) : (modify f : Edit PUnit) r = .ok () (f r) :=
  rfl

theorem bind_run (e : Edit α) (f : α → Edit β) (r : Routine)
    : (e >>= f) r = match e r with
        | .ok a r' => f a r'
        | .error err r' => .error err r' := by
  change EStateM.bind e f r = _
  unfold EStateM.bind
  cases e r <;> rfl

theorem bind_of_ok {e : Edit α} {f : α → Edit β} {r r' : Routine} {a : α} (h : e r = .ok a r')
    : (e >>= f) r = f a r' := by
  rw [bind_run, h]

theorem bind_of_error {e : Edit α} {f : α → Edit β} {r r' : Routine} {err : Error}
    (h : e r = .error err r') : (e >>= f) r = .error err r' := by
  rw [bind_run, h]

theorem of_bind_ok {e : Edit α} {f : α → Edit β} {r r' : Routine} {b : β}
    (h : (e >>= f) r = .ok b r') : ∃ a r₁, e r = .ok a r₁ ∧ f a r₁ = .ok b r' := by
  cases he : e r with
  | ok a r₁ =>
    rw [bind_of_ok he] at h
    exact ⟨a, r₁, rfl, h⟩
  | error err r₁ =>
    rw [bind_of_error he] at h
    cases h

theorem of_bind_error {e : Edit α} {f : α → Edit β} {r r' : Routine} {err : Error}
    (h : (e >>= f) r = .error err r')
    : e r = .error err r' ∨ ∃ a r₁, e r = .ok a r₁ ∧ f a r₁ = .error err r' := by
  cases he : e r with
  | ok a r₁ =>
    rw [bind_of_ok he] at h
    exact Or.inr ⟨a, r₁, rfl, h⟩
  | error err r₁ =>
    rw [bind_of_error he] at h
    cases h
    exact Or.inl rfl

theorem map_of_ok {e : Edit α} {f : α → β} {r r' : Routine} {a : α} (h : e r = .ok a r')
    : (f <$> e) r = .ok (f a) r' := by
  rw [map_eq_pure_bind, bind_of_ok h]
  rfl

theorem map_of_error {e : Edit α} {f : α → β} {r r' : Routine} {err : Error}
    (h : e r = .error err r') : (f <$> e) r = .error err r' := by
  rw [map_eq_pure_bind, bind_of_error h]

theorem discard_of_ok {e : Edit α} {r r' : Routine} {a : α} (h : e r = .ok a r')
    : discard e r = .ok () r' := map_of_ok h

theorem discard_of_error {e : Edit α} {r r' : Routine} {err : Error} (h : e r = .error err r')
    : discard e r = .error err r' := map_of_error h

@[simp]
theorem get_bind_run (f : Routine → Edit α) (r : Routine) : (get >>= f) r = f r r := rfl

@[simp]
theorem modify_bind_run (g : Routine → Routine) (f : PUnit → Edit α) (r : Routine)
    : ((modify g : Edit PUnit) >>= f) r = f () (g r) := rfl

@[simp]
theorem set_bind_run (r' : Routine) (f : PUnit → Edit α) (r : Routine)
    : ((set r' : Edit PUnit) >>= f) r = f () r' := rfl

@[simp]
theorem throw_bind_run (e : Error) (f : α → Edit β) (r : Routine)
    : ((throw e : Edit α) >>= f) r = .error e r := rfl

end Run

def left (e : Edit α) (r : Routine) : Routine :=
  match e r with
  | .ok _ r' => r'
  | .error _ r' => r'

theorem left_of_ok {e : Edit α} {r r' : Routine} {a : α} (h : e r = .ok a r') : left e r = r' := by
  simp [left, h]

theorem left_of_error {e : Edit α} {r r' : Routine} {err : Error} (h : e r = .error err r')
    : left e r = r' := by
  simp [left, h]

theorem left_eq_of_run_eq {e e' : Edit α} {r r' : Routine} (h : e r = e' r')
    : left e r = left e' r' := by
  unfold left
  rw [h]

/-- Every run of an edit leaves a routine behind that is related to the one it started from. -/
def Within (R : Routine → Routine → Prop) (e : Edit α) : Prop := ∀ r, R r (left e r)

theorem run_of_run' {e : Edit α} {r : Routine} {a : α} (h : EStateM.run' e r = some a)
    : e r = .ok a (left e r) := by
  unfold EStateM.run' EStateM.run at h
  cases hrun : e r with
  | ok a' r' =>
    rw [hrun] at h
    cases h
    rw [left_of_ok hrun]
  | error err r' =>
    rw [hrun] at h
    cases h

theorem left_bind_of_ok {e : Edit α} {f : α → Edit β} {r r' : Routine} {a : α}
    (h : e r = .ok a r') : left (e >>= f) r = left (f a) r' := by
  unfold left
  rw [bind_of_ok h]

theorem left_bind_of_error {e : Edit α} {f : α → Edit β} {r r' : Routine} {err : Error}
    (h : e r = .error err r') : left (e >>= f) r = r' := by
  unfold left
  rw [bind_of_error h]

theorem left_bind_pure (e : Edit α) (f : α → β) (r : Routine)
    : left (e >>= fun a => pure (f a)) r = left e r := by
  cases h : e r with
  | ok a r' => rw [left_bind_of_ok h, left_of_ok h, left_of_ok (pure_run _ _)]
  | error err r' => rw [left_bind_of_error h, left_of_error h]

section Access

theorem left_discard (e : Edit α) (r : Routine) : left (discard e) r = left e r := by
  cases h : e r with
  | ok a r' => rw [left_of_ok h, left_of_ok (discard_of_ok h)]
  | error err r' => rw [left_of_error h, left_of_error (discard_of_error h)]

theorem left_insn (id : InsnId) (r : Routine) : left (insn id) r = r := by
  unfold left insn
  cases h : r.insn? id <;> simp [h]

theorem left_block (b : BlockId) (r : Routine) : left (block b) r = r := by
  unfold left block
  cases h : r.block? b <;> simp [h]

theorem left_knownInsn (id : InsnId) (r : Routine) : left (knownInsn id) r = r := by
  unfold left knownInsn
  cases h : r.insn? id <;> simp [h]

theorem knownInsn_run {id : InsnId} {i : Insn} {r : Routine} (h : r.insn? id = some i)
    : knownInsn id r = .ok i r := by
  simp [knownInsn, h]

theorem knownInsn_of_ok {id : InsnId} {i : Insn} {r r' : Routine} (h : knownInsn id r = .ok i r')
    : r.insn? id = some i ∧ r' = r := by
  unfold knownInsn at h
  rw [get_bind_run] at h
  cases hi : r.insn? id with
  | none =>
    rw [hi] at h
    cases h
  | some found =>
    rw [hi] at h
    cases h
    exact ⟨rfl, rfl⟩

theorem left_requireLive (x : Operand) (r : Routine) : left (requireLive x) r = r := by
  unfold left requireLive
  cases x with
  | value v => cases h : r.contains v <;> simp [h]
  | _ => rfl

end Access

namespace Within

variable {R : Routine → Routine → Prop}

theorem modify {f : Routine → Routine} (h : ∀ r, R r (f r)) : Within R (modify f : Edit PUnit) := h

theorem mono {S : Routine → Routine → Prop} {e : Edit α} (h : Within R e)
    (hsub : ∀ r r', R r r' → S r r') : Within S e := by
  intro r
  exact hsub r _ (h r)

theorem bind [Trans R R R] {e : Edit α} {f : α → Edit β} (he : Within R e)
    (hf : ∀ a, Within R (f a)) : Within R (e >>= f) := by
  intro r
  specialize he r
  cases h : e r with
  | ok a r' =>
    rw [left_of_ok h] at he
    rw [left_bind_of_ok h]
    exact Trans.trans he (hf a r')
  | error err r' =>
    rw [left_of_error h] at he
    rw [left_bind_of_error h]
    exact he

theorem map [Trans R R R] {e : Edit α} (f : α → β) (he : Within R e) : Within R (f <$> e) := by
  intro r
  specialize he r
  cases h : e r with
  | ok a r' =>
    rw [left_of_ok h] at he
    rw [left_of_ok (map_of_ok h)]
    exact he
  | error err r' =>
    rw [left_of_error h] at he
    rw [left_of_error (map_of_error h)]
    exact he

theorem discard [Trans R R R] {e : Edit α} (he : Within R e) : Within R (discard e) := map _ he

variable [Std.Refl R]

theorem of_left_eq {e : Edit α} (h : ∀ r, left e r = r) : Within R e := by
  intro r
  rw [h]
  apply Std.Refl.refl

theorem pure (a : α) : Within R (Pure.pure a : Edit α) := by
  apply of_left_eq
  intro r
  rfl

theorem throw (e : Error) : Within R (throw e : Edit α) := by
  apply of_left_eq
  intro r
  rfl

theorem throw_bind (e : Error) (f : α → Edit β) : Within R ((MonadExcept.throw e : Edit α) >>= f) := by
  apply of_left_eq
  intro r
  rfl

theorem left_bind {f : α → Edit β} (h : ∀ a, Within R (f a)) (e : Edit α) (r : Routine)
    : R (left e r) (left (e >>= f) r) := by
  cases he : e r with
  | ok a r' =>
    rw [left_of_ok he, left_bind_of_ok he]
    exact h a r'
  | error err r' =>
    rw [left_of_error he, left_bind_of_error he]
    apply Std.Refl.refl

theorem get : Within R (get : Edit Routine) := by
  apply of_left_eq
  intro r
  rfl

theorem insn (id : InsnId) : Within R (insn id) := of_left_eq (left_insn id)

theorem block (b : BlockId) : Within R (block b) := of_left_eq (left_block b)

theorem knownInsn (id : InsnId) : Within R (knownInsn id) := of_left_eq (left_knownInsn id)

theorem requireLive (x : Operand) : Within R (requireLive x) := of_left_eq (left_requireLive x)

variable [Trans R R R]

theorem forM {γ : Type} {f : γ → Edit PUnit} {l : List γ} (h : ∀ a ∈ l, Within R (f a))
    : Within R (l.forM f) := by
  induction l with
  | nil => exact pure _
  | cons a l ih =>
    unfold List.forM
    apply bind
    . apply h
      simp
    . intro u
      apply ih
      intro b hb
      apply h
      simp [hb]

theorem visitAll {visit : σ → InsnId → Edit σ} (h : ∀ s id, Within R (visit s id)) (fuel : Nat)
    (c : Cursor) (s : σ) : Within R (visitAll visit fuel c s) := by
  induction fuel generalizing c s with
  | zero => exact pure _
  | succ fuel ih =>
    unfold Edit.visitAll
    apply bind
    . exact get
    . intro r
      split
      . apply bind
        . apply h
        . intro s'
          apply ih
      . exact pure _

theorem sweepWith {visit : σ → InsnId → Edit σ} (h : ∀ s id, Within R (visit s id)) (b : BlockId)
    (direction : Direction) (s : σ) : Within R (sweepWith b direction s visit) := by
  unfold Edit.sweepWith cursor
  apply bind
  . apply bind
    . exact block b
    . intro found
      exact pure _
  . intro c
    apply bind
    . exact get
    . intro r
      exact visitAll h _ c s

theorem sweep {visit : InsnId → Edit Nat} (h : ∀ id, Within R (visit id)) (b : BlockId)
    (direction : Direction) : Within R (sweep b direction visit) := by
  unfold Edit.sweep
  apply sweepWith
  intro total id
  apply bind
  . exact h id
  . intro n
    exact pure _

end Within

end Edit

end MachineIR
