import MachineIR.Proofs.Destruction

/-!
This module contains the erasing of the instructions of a block that a predicate accepts. The predicate
may look at the routine as the erasures before have left it, and it may remember its calls. However its
answers come about, it is asked once about each instruction, in the order of the walk, and the block
loses what it accepts.
-/

namespace MachineIR

open Routine

abbrev Judge (σ : Type) := σ → Routine → InsnId → Bool × σ

def Judge.noting {σ : Type} (p : Routine → InsnId → Bool) (note : σ → Routine → InsnId → σ) : Judge σ :=
  fun s r id => (p r id, note s r id)

namespace Direction

variable {d : Direction} {ids done todo : List InsnId} {id : InsnId}

theorem nodup_along : (d.along ids).Nodup ↔ ids.Nodup := by
  cases d with
  | forward => rfl
  | backward => exact List.nodup_reverse

theorem filter_joined (h : (d.joined done (id :: todo)).Nodup)
    : (d.joined done (id :: todo)).filter (· ≠ id) = d.joined done todo := by
  have hsame : ∀ l : List InsnId, id ∉ l → l.filter (· ≠ id) = l := by
    intro l hl
    rw [List.filter_eq_self]
    intro j hj
    simp only [ne_eq, decide_not, Bool.not_eq_true', decide_eq_false_iff_not]
    rintro rfl
    exact hl hj
  have hdone := not_mem_of_nodup_joined h
  cases d with
  | forward =>
    have htodo := (List.nodup_cons.mp (List.nodup_append.mp h).2.1).1
    simp only [joined] at h ⊢
    rw [List.filter_append, hsame _ (by simpa using hdone), List.filter_cons_of_neg (by simp),
      hsame _ htodo]
  | backward =>
    have htodo := (List.nodup_cons.mp (List.nodup_reverse.mp (List.nodup_append.mp h).1)).1
    simp only [joined, List.reverse_cons, List.filter_append] at h ⊢
    rw [hsame _ (by simpa using htodo), hsame _ hdone, List.filter_cons_of_neg (by simp)]
    simp

end Direction

namespace Edit

variable {σ : Type} {judge : Judge σ} {r r' : Routine} {b : BlockId} {d : Direction} {c : Cursor}
  {s s' : σ} {id : InsnId} {ids kept todo taken : List InsnId} {n fuel : Nat}

section Definitions

def eraseAccepted (judge : Judge σ)
    : Nat → Cursor → Nat → σ → Routine → EStateM.Result Error (Routine × σ) Nat
  | 0, _, n, s, r => .ok n (r, s)
  | fuel + 1, c, n, s, r =>
    match c.next r with
    | (none, _) => .ok n (r, s)
    | (some id, c) =>
      match judge s r id with
      | (false, s) => eraseAccepted judge fuel c n s r
      | (true, s) =>
        match erase id r with
        | .ok _ r => eraseAccepted judge fuel c (n + 1) s r
        | .error e r => .error e (r, s)

def eraseIfWith (b : BlockId) (d : Direction) (judge : Judge σ) (s : σ) (r : Routine)
    : EStateM.Result Error (Routine × σ) Nat :=
  match cursor b d r with
  | .ok c r => eraseAccepted judge r.insns.size c 0 s r
  | .error e r => .error e (r, s)

def forget : EStateM.Result Error (Routine × σ) Nat → EStateM.Result Error Routine Nat
  | .ok n (r, _) => .ok n r
  | .error e (r, _) => .error e r

theorem visitAll_eraseWhen (p : Routine → InsnId → Bool) (note : σ → Routine → InsnId → σ) (fuel : Nat)
    (c : Cursor) (n : Nat) (s : σ) (r : Routine)
    : visitAll (counting (eraseWhen p)) fuel c n r =
        forget (eraseAccepted (.noting p note) fuel c n s r) := by
  induction fuel generalizing c n s r with
  | zero => rfl
  | succ fuel ih =>
    unfold visitAll eraseAccepted
    rw [get_bind_run]
    cases c.next r with
    | mk target c' =>
      cases target with
      | none => rfl
      | some id =>
        simp only [Judge.noting]
        cases hp : p r id with
        | false =>
          have hrun : eraseWhen p id r = .ok 0 r := by
            simp [eraseWhen, hp]
          rw [bind_of_ok (counting_of_ok hrun)]
          exact ih c' n _ r
        | true =>
          have hwhen : eraseWhen p id r = (erase id >>= fun _ => pure 1) r := by
            simp [eraseWhen, hp]
          cases herase : erase id r with
          | ok u r₁ =>
            have hrun : eraseWhen p id r = .ok 1 r₁ := hwhen.trans (bind_of_ok herase)
            rw [bind_of_ok (counting_of_ok hrun)]
            exact ih c' (n + 1) _ r₁
          | error e r₁ =>
            have hrun : counting (eraseWhen p) n id r = .error e r₁ :=
              bind_of_error (hwhen.trans (bind_of_error herase))
            rw [bind_of_error hrun]
            rfl

theorem eraseIf_eq_forget (b : BlockId) (d : Direction) (p : Routine → InsnId → Bool)
    (note : σ → Routine → InsnId → σ) (s : σ) (r : Routine)
    : eraseIf b d p r = forget (eraseIfWith b d (.noting p note) s r) := by
  change sweepWith b d 0 (counting (eraseWhen p)) r = _
  unfold sweepWith eraseIfWith
  cases hcursor : cursor b d r with
  | ok c r₁ =>
    rw [bind_of_ok hcursor, get_bind_run]
    exact visitAll_eraseWhen p note r₁.insns.size c 0 s r₁
  | error e r₁ =>
    rw [bind_of_error hcursor]
    rfl

end Definitions

section Calls

/--
The predicate has been asked about `ids`, one after the other, and has accepted `taken`, which have been
erased. At each call it saw the routine that the erasures before had left and what it remembered itself.
-/
inductive Judged (judge : Judge σ)
    : σ × Routine → List InsnId → List InsnId → σ × Routine → Prop
  | nil {s : σ} {r : Routine} : Judged judge (s, r) [] [] (s, r)
  | keep {s s' : σ} {r : Routine} {id : InsnId} {ids taken : List InsnId} {t : σ × Routine}
    (hanswer : judge s r id = (false, s')) (hrest : Judged judge (s', r) ids taken t)
    : Judged judge (s, r) (id :: ids) taken t
  | take {s s' : σ} {r r' : Routine} {id : InsnId} {ids taken : List InsnId} {t : σ × Routine}
    (hanswer : judge s r id = (true, s')) (herase : erase id r = .ok () r')
    (hrest : Judged judge (s', r') ids taken t) : Judged judge (s, r) (id :: ids) (id :: taken) t

inductive Filtered (judge : Judge σ) (s : σ) (r : Routine) (ids : List InsnId) (n : Nat)
    : EStateM.Result Error (Routine × σ) Nat → Prop
  | done {taken : List InsnId} {s' : σ} {r' : Routine} (h : Judged judge (s, r) ids taken (s', r'))
    : Filtered judge s r ids n (.ok (n + taken.length) (r', s'))
  | stopped {front rest taken : List InsnId} {id : InsnId} {s' s'' : σ} {r' r'' : Routine} {e : Error}
    (hids : ids = front ++ id :: rest) (h : Judged judge (s, r) front taken (s', r'))
    (hanswer : judge s' r' id = (true, s'')) (herase : erase id r' = .error e r'')
    : Filtered judge s r ids n (.error e (r'', s''))

theorem Filtered.keep {x : EStateM.Result Error (Routine × σ) Nat} (hanswer : judge s r id = (false, s'))
    (h : Filtered judge s' r ids n x) : Filtered judge s r (id :: ids) n x := by
  cases h with
  | done h => exact .done (.keep hanswer h)
  | stopped hids h hanswer' herase =>
    exact .stopped (by rw [hids, List.cons_append]) (.keep hanswer h) hanswer' herase

theorem Filtered.take {x : EStateM.Result Error (Routine × σ) Nat} (hanswer : judge s r id = (true, s'))
    (herase : erase id r = .ok () r') (h : Filtered judge s' r' ids (n + 1) x)
    : Filtered judge s r (id :: ids) n x := by
  cases h with
  | @done taken s' r' h =>
    have : n + 1 + taken.length = n + (id :: taken).length := by
      rw [List.length_cons]
      omega
    rw [this]
    exact .done (.take hanswer herase h)
  | stopped hids h hanswer' herase' =>
    exact .stopped (by rw [hids, List.cons_append]) (.take hanswer herase h) hanswer' herase'

end Calls

section Walk

theorem intact_of_erase {u : Unit} (h : r.Intact) (hrun : erase id r = .ok u r') : r'.Intact :=
  have herased := erased_of_ok h.tracked hrun
  ⟨herased.tracked, herased.arranged h.arranged, herased.small h.small⟩

structure Strolls (c : Cursor) (r : Routine) (kept todo : List InsnId) : Prop where
  intact : r.Intact
  live : r.block? c.block ≠ none
  list : r.insnsOf c.block = c.direction.joined kept todo
  target : c.target? r = todo.head?

namespace Strolls

theorem path (h : Strolls c r kept todo) : r.Path c.block c.direction todo := by
  have hlists := (h.intact.arranged.holds_insnsOf h.live).lists
  rw [h.list] at hlists
  exact hlists.path

theorem start (hr : r.Intact) (hb : r.block? b ≠ none)
    : Strolls { block := b, direction := d } r [] (d.along (r.insnsOf b)) where
  intact := hr
  live := hb
  list := Direction.joined_nil_along.symm
  target := Cursor.target?_start (hr.arranged.holds_insnsOf hb).lists

theorem keep (h : Strolls c r kept (id :: todo)) : Strolls (c.next r).2 r (id :: kept) todo where
  intact := h.intact
  live := h.live
  list := h.list.trans Direction.joined_cons
  target := Cursor.target?_next_of_same h.target h.path

theorem take (h : Strolls c r kept (id :: todo)) (hrun : erase id r = .ok () r')
    : Strolls (c.next r).2 r' kept todo := by
  -- The cursor goes on from an instruction that has been erased with what it saw behind it.
  have hintact := intact_of_erase h.intact hrun
  have herased := erased_of_ok h.intact.tracked hrun
  have hlist : r'.insnsOf c.block = c.direction.joined kept todo := by
    have hnodup := h.intact.arranged.nodup_insnsOf c.block
    rw [h.list] at hnodup
    rw [herased.insnsOf h.intact.arranged, h.list, Direction.filter_joined hnodup]
  have hlive := herased.block?_ne_none.mpr h.live
  have hlists := (hintact.arranged.holds_insnsOf hlive).lists
  rw [hlist] at hlists
  refine ⟨hintact, hlive, hlist, Cursor.target?_next h.target h.path hlists.path ?_⟩
  intro n hn
  obtain ⟨i, hi, -⟩ := neighbours?_eq_some.mp hn
  have hgone := herased.code id
  rw [if_pos rfl, code?_of_insn? hi] at hgone
  cases hgone

end Strolls

theorem filtered_eraseAccepted (h : Strolls c r kept todo) (hfuel : todo.length ≤ fuel)
    : Filtered judge s r todo n (eraseAccepted judge fuel c n s r) := by
  induction fuel generalizing c r kept todo n s with
  | zero =>
    cases List.eq_nil_of_length_eq_zero (Nat.le_zero.mp hfuel)
    exact .done .nil
  | succ fuel ih =>
    unfold eraseAccepted
    have hnext : c.next r = (todo.head?, (c.next r).2) := Prod.ext h.target rfl
    rw [hnext]
    cases todo with
    | nil => exact .done .nil
    | cons id rest =>
      have hrest : rest.length ≤ fuel := by simpa using hfuel
      dsimp only [List.head?_cons]
      cases hanswer : judge s r id with
      | mk answer s' =>
        cases answer with
        | false => exact .keep hanswer (ih h.keep hrest)
        | true =>
          dsimp only
          cases herase : erase id r with
          | ok u r' => exact .take hanswer herase (ih (h.take herase) hrest)
          | error e r' => exact .stopped (List.nil_append _).symm .nil hanswer herase

theorem filtered_eraseIfWith (hr : r.Intact) (hb : r.block? b ≠ none) (d : Direction)
    (judge : Judge σ) (s : σ)
    : Filtered judge s r (d.along (r.insnsOf b)) 0 (eraseIfWith b d judge s r) := by
  obtain ⟨found, hfound⟩ := Option.ne_none_iff_exists'.mp hb
  have hcursor : cursor b d r = .ok { block := b, direction := d } r := bind_of_ok (block_run_some hfound)
  unfold eraseIfWith
  rw [hcursor]
  apply filtered_eraseAccepted (Strolls.start hr hb)
  exact (hr.arranged.holds_insnsOf hb).lists.length_along_le

end Walk

section Outcome

structure Without (r r' : Routine) (taken : List InsnId) : Prop where
  insnsOf : ∀ b, r'.insnsOf b = (r.insnsOf b).filter (· ∉ taken)
  code : ∀ id, r'.code? id = if id ∈ taken then none else r.code? id

theorem Without.refl (r : Routine) : Without r r [] := by
  constructor
  . simp
  . simp

theorem Without.cons {r₁ : Routine} {u : Unit} (hr : r.Intact) (hrun : erase id r = .ok u r₁)
    (h : Without r₁ r' taken) : Without r r' (id :: taken) := by
  have herased := erased_of_ok hr.tracked hrun
  constructor
  . intro b
    rw [h.insnsOf, herased.insnsOf hr.arranged, List.filter_filter]
    apply List.filter_congr
    intro j _
    simp [Bool.and_comm]
  . intro j
    rw [h.code, herased.code]
    by_cases hj : j = id
    . simp [hj]
    . simp [hj]

theorem Judged.without {t t' : σ × Routine} (h : Judged judge t ids taken t') (hr : t.2.Intact)
    : t'.2.Intact ∧ Without t.2 t'.2 taken := by
  induction h with
  | nil => exact ⟨hr, .refl _⟩
  | keep _ _ ih => exact ih hr
  | take _ herase _ ih =>
    obtain ⟨hintact, hwithout⟩ := ih (intact_of_erase hr herase)
    exact ⟨hintact, hwithout.cons hr herase⟩

theorem Judged.sublist {t t' : σ × Routine} (h : Judged judge t ids taken t') : taken.Sublist ids := by
  induction h with
  | nil => exact List.Sublist.refl []
  | keep _ _ ih => exact ih.cons _
  | take _ _ _ ih => exact ih.cons_cons _

theorem lingering_of_failed {e : Error} (hr : r.Intact) (hid : r.code? id ≠ none)
    (hrun : erase id r = .error e r')
    : obstacles r id ≠ [] ∧ e = .lingeringUses (.insn id) (obstacles r id).length ∧ r' = r := by
  obtain ⟨c, hc⟩ := Option.ne_none_iff_exists'.mp hid
  obtain ⟨i, hi, -⟩ := exists_insn?_of_code? hc
  have hne : obstacles r id ≠ [] := by
    intro hnone
    rcases settles_erase hr.tracked id with ⟨-, u, r₁, hok⟩ | ⟨hnot, -⟩
    . rw [hok] at hrun
      cases hrun
    . exact hnot ⟨by simp [hi], (obstacles_eq_nil_iff hr.small).mp hnone⟩
  rw [erase_of_obstacles hr.tracked hr.small hi hne] at hrun
  cases hrun
  exact ⟨hne, rfl, rfl⟩

theorem eraseIf_filters (actions : List Action) (hsmall : (after actions).Small) (b : BlockId)
    (hb : (after actions).block? b ≠ none) (d : Direction) (judge : Judge σ) (s : σ)
    : (∀ (p : Routine → InsnId → Bool) (note : σ → Routine → InsnId → σ),
          eraseIf b d p (after actions) =
            forget (eraseIfWith b d (.noting p note) s (after actions))) ∧
        ((∃ taken s' r',
          eraseIfWith b d judge s (after actions) = .ok taken.length (r', s') ∧
            Judged judge (s, after actions) (d.along ((after actions).insnsOf b)) taken (s', r') ∧
            Without (after actions) r' taken) ∨
          ∃ front id rest taken s' s'' r',
            d.along ((after actions).insnsOf b) = front ++ id :: rest ∧
              Judged judge (s, after actions) front taken (s', r') ∧
              judge s' r' id = (true, s'') ∧
              obstacles r' id ≠ [] ∧
              eraseIfWith b d judge s (after actions) =
                .error (.lingeringUses (.insn id) (obstacles r' id).length) (r', s'') ∧
              Without (after actions) r' taken) := by
  have hintact := intact_after actions hsmall
  refine ⟨fun p note => eraseIf_eq_forget b d p note s _, ?_⟩
  have hfiltered := filtered_eraseIfWith hintact hb d judge s
  generalize eraseIfWith b d judge s (after actions) = outcome at hfiltered
  cases hfiltered with
  | @done taken s' r' h =>
    exact Or.inl ⟨taken, s', r', by rw [Nat.zero_add], h, (h.without hintact).2⟩
  | @stopped front rest taken id s' s'' r' r'' e hids h hanswer herase =>
    obtain ⟨hintact', hwithout⟩ := h.without hintact
    -- the instruction has not been met before, so it is still there when the predicate accepts it
    have hnodup : (front ++ id :: rest).Nodup := by
      rw [← hids]
      exact Direction.nodup_along.mpr (hintact.arranged.nodup_insnsOf b)
    have hnew : id ∉ taken := fun hmem =>
      (List.nodup_append.mp hnodup).2.2 id (h.sublist.subset hmem) id (by simp) rfl
    have hlive : r'.code? id ≠ none := by
      have hmem : id ∈ (after actions).insnsOf b := by
        rw [← Direction.mem_along (d := d), hids]
        simp
      obtain ⟨i, hi, -⟩ := hintact.arranged.mem_insnsOf.mp hmem
      rw [hwithout.code, if_neg hnew, code?_of_insn? hi]
      simp
    obtain ⟨hne, rfl, rfl⟩ := lingering_of_failed hintact' hlive herase
    exact Or.inr ⟨front, id, rest, taken, s', s'', r'', hids, h, hanswer, hne, rfl, hwithout⟩

def servedTwice : List Action :=
  [.addBlock,
    .pushBack (.ofNat 0) (.readReg .i64 (.ofNat 1 1)),
    .pushBack (.ofNat 0) (.readReg .i64 (.ofNat 2 1)),
    .pushBack (.ofNat 0) (.unop .i64 .not (.insn (.ofNat 1))),
    .pushBack (.ofNat 0) (.writeReg (.ofNat 3 1) (.insn (.ofNat 1)) .i64)]

def sparing : Judge (List InsnId) := fun asked r id =>
  (!asked.isEmpty && r.useCount (.insn id) == 0, asked ++ [id])

theorem eraseIf_filters_servedTwice
    : (∃ taken r',
          eraseIfWith (.ofNat 0) .backward sparing [] (after servedTwice) =
              .ok 2 (r', [.ofNat 3, .ofNat 2, .ofNat 1, .ofNat 0]) ∧
            Without (after servedTwice) r' taken ∧ taken.length = 2) ∧
        ∃ taken r',
          eraseIf (.ofNat 0) .forward (fun _ _ => true) (after servedTwice) =
              .error (.lingeringUses (.insn (.ofNat 1)) 2) r' ∧
            Without (after servedTwice) r' taken := by
  have hsmall : (after servedTwice).Small := by decide +kernel
  have hb : (after servedTwice).block? (.ofNat 0) ≠ none := by decide +kernel
  have hdone : (match eraseIfWith (.ofNat 0) .backward sparing [] (after servedTwice) with
      | .ok n (_, asked) => some (n, asked)
      | .error _ _ => none) = some (2, [.ofNat 3, .ofNat 2, .ofNat 1, .ofNat 0]) := by
    decide +kernel
  have hstopped : (match eraseIfWith (.ofNat 0) .forward (.noting (fun _ _ => true) fun _ _ _ => ()) ()
        (after servedTwice) with
      | .ok _ _ => none
      | .error e _ => some e) = some (.lingeringUses (.insn (.ofNat 1)) 2) := by
    decide +kernel
  obtain ⟨-, hbackward⟩ := eraseIf_filters servedTwice hsmall (.ofNat 0) hb .backward sparing []
  obtain ⟨heq, hforward⟩ := eraseIf_filters servedTwice hsmall (.ofNat 0) hb .forward
    (.noting (fun _ _ => true) fun _ _ _ => ()) ()
  constructor
  . rcases hbackward with ⟨taken, s', r', hrun, -, hwithout⟩ | ⟨_, _, _, _, _, _, _, -, -, -, -, hrun, -⟩
    . rw [hrun] at hdone ⊢
      simp only [Option.some.injEq, Prod.mk.injEq] at hdone
      exact ⟨taken, r', by rw [hdone.1, hdone.2], hwithout, hdone.1⟩
    . rw [hrun] at hdone
      cases hdone
  . rcases hforward with ⟨_, _, _, hrun, -⟩ | ⟨_, id, _, taken, _, _, r', -, -, -, -, hrun, hwithout⟩
    . rw [hrun] at hstopped
      cases hstopped
    . rw [hrun, Option.some.injEq] at hstopped
      rw [heq _ fun _ _ _ => (), hrun, hstopped]
      exact ⟨taken, r', rfl, hwithout⟩

end Outcome

end Edit

end MachineIR
