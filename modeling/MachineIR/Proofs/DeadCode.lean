import MachineIR.Proofs.PassEdits
import MachineIR.Proofs.WellFormed

/-!
This module contains the removal of dead code: on a well-formed routine it never fails, and the
routine stays well-formed.
-/

namespace MachineIR

theorem Routine.Tracks.slot?_ne {r : Routine} (h : r.Tracked) {id : InsnId} {i : Insn}
    (hi : r.insn? id = some i) (hlen : i.uses.len = 0) (j : InsnId) (k : Nat) (use : Option UseId)
    : r.slot? j k ≠ some ⟨.value (.insn id), use⟩ := by
  intro hs
  obtain ⟨ids, hids, hmem⟩ := h.listed (.insn id) i.uses (by simp [useList?, hi])
  have hnil : ids = [] := by
    apply List.eq_nil_of_length_eq_zero
    rw [← hids.len, hlen]
  cases use with
  | none => exact h.closed j k _ hs
  | some use =>
    have := (hmem use).mpr ⟨j, k, (h.owner j k _ use).mp hs⟩
    rw [hnil] at this
    cases this

namespace Edit

open Routine

variable {R : Ty → Ty → Prop} {r : Routine} {b : BlockId} {id : InsnId} {i : Insn}
  {front back : List InsnId}

theorem erase_run_of_unused (htracked : r.Tracked) (hformed : r.WellFormed R)
    (hlists : r.Lists b (front ++ id :: back)) (hi : r.insn? id = some i) (hlen : i.uses.len = 0)
    : ∃ r', erase id r = .ok () r' ∧ r'.WellFormed R ∧ r'.Lists b (front ++ back) ∧
        r'.insn? id = none := by
  have hunused := htracked.slot?_ne hi hlen
  obtain ⟨r', hrun, hbare, -, -⟩ := erase_run htracked hi fun j k use hs => (hunused j k use hs).elim
  rw [← bare_detach] at hbare
  refine ⟨r', hrun, ?_, ?_, ?_⟩
  . exact (hformed.detach hlists hi hunused).of_bare_eq hbare
  . exact (hlists.detach hi).of_bare_eq hbare
  . have := congrArg (fun r => r.insn? id) hbare
    rw [insn?_bare, insn?_bare, insn?_detach, if_pos rfl, Option.map_none,
      Option.map_eq_none_iff] at this
    exact this

def Retreats (R : Ty → Ty → Prop) (c : Cursor) (r : Routine) : Prop :=
  r.WellFormed R ∧ ∃ front back, c.Faces r front back

theorem eraseWhen_run {p : Routine → InsnId → Bool}
    (hp : ∀ r id, p r id = true → ∃ i, r.insn? id = some i ∧ i.uses.len = 0) {c c' : Cursor}
    (htracked : r.Tracked) (h : Retreats R c r) (hnext : c.next r = (some id, c'))
    : ∃ n r', eraseWhen p id r = .ok n r' ∧ Retreats R c' r' := by
  obtain ⟨hformed, front, back, hfaces⟩ := h
  obtain ⟨rest, rfl, hblock, hstands⟩ := hfaces.next hnext
  have hlists := hfaces.lists
  rw [List.append_assoc, List.singleton_append, ← hblock] at hlists
  unfold eraseWhen
  rw [get_bind_run]
  cases herase : p r id with
  | true =>
    obtain ⟨i, hi, hlen⟩ := hp r id herase
    obtain ⟨r', hrun, hformed', hlists', hgone⟩ :=
      erase_run_of_unused htracked hformed hlists hi hlen
    refine ⟨1, r', bind_of_ok hrun, hformed', rest, back, ?_⟩
    exact hstands.faces_of_erased hlists' hgone
  | false => exact ⟨0, r, rfl, hformed, rest, id :: back, hstands.faces hlists⟩

theorem len_of_isDead (r : Routine) (id : InsnId) (h : (r.insn? id).any Insn.isDead = true)
    : ∃ i, r.insn? id = some i ∧ i.uses.len = 0 := by
  cases hi : r.insn? id with
  | none => simp [hi] at h
  | some i =>
    simp only [hi, Option.any_some, Insn.isDead, Bool.and_eq_true, beq_iff_eq] at h
    exact ⟨i, rfl, h.1⟩

theorem removeDeadCode_run (htracked : r.Tracked) (hformed : r.WellFormed R) (hb : b ∈ r.order)
    (hsmall : (left (removeDeadCode b) r).Small)
    : ∃ n r', removeDeadCode b r = .ok n r' ∧ r'.WellFormed R := by
  obtain ⟨ids, hids⟩ := hformed.lists b hb
  obtain ⟨c, n, r', hrun, hretreats⟩ := sweep_run (keeps_eraseWhen _)
    (fun c c' r id htracked _ h hnext => eraseWhen_run len_of_isDead htracked h hnext) htracked
    hids.block?_ne_none ⟨hformed, ids, [], Cursor.faces_start hids⟩ hsmall
  exact ⟨n, r', hrun, hretreats.1⟩

theorem complete_run {n : Nat} {debug : Bool} (htracked : r.Tracked) (hformed : r.WellFormed R)
    (hb : b ∈ r.order) (hsmall : (left (complete b n debug) r).Small)
    : (∃ m r', complete b n debug r = .ok m r' ∧ r'.WellFormed R) ∨
        ∃ id k x t, debug = true ∧ r.Expects id k x t ∧ r.operandType x ≠ t ∧
          complete b n debug r = .error (.typeMismatch k t (r.operandType x) (r.renderInsn id)) r := by
  by_cases hn : n = 0
  . subst hn
    exact Or.inl ⟨0, r, rfl, hformed⟩
  . rcases complete_cases_check hn b debug r with
      ⟨e, hdebug, hcheck, herror⟩ | ⟨-, hrun⟩
    . obtain ⟨id, k, x, t, hexpects, hne, rfl⟩ := hformed.checkBlock_eq_error hb hcheck
      exact Or.inr ⟨id, k, x, t, hdebug, hexpects, hne, herror⟩
    . rw [left_eq_of_run_eq hrun, left_bind_pure] at hsmall
      obtain ⟨m, r', hremove, hformed'⟩ := removeDeadCode_run htracked hformed hb hsmall
      exact Or.inl ⟨n + m, r', hrun.trans (bind_of_ok hremove), hformed'⟩

end Edit

end MachineIR
