import MachineIR.Proofs.RegisterSweep

/-!
This module contains the loops that edits and passes are made of, without the bounds that stand in
their definitions. The rules here say how a loop goes on step by step, so a loop that would not come
to its end has no result at all. The main statements are that the loops do come to their end, with
the result that the definitions give; so it is never a bound that ends them.
-/

namespace MachineIR

namespace Edit

open Routine

section Loop

variable {σ : Type} {visit : σ → InsnId → Edit σ} {P : σ → InsnId → Routine → Prop}
  {I : List InsnId → σ → Routine → Prop} {J : Routine → Prop} {r r' : Routine} {b : BlockId}
  {d : Direction} {s : σ} {c : Cursor} {todo ids : List InsnId}

inductive Loop (visit : σ → InsnId → Edit σ) (P : σ → InsnId → Routine → Prop)
    : Cursor → σ → Routine → EStateM.Result Error Routine σ → Prop
  | done {c c' : Cursor} {s : σ} {r : Routine} (hnext : c.next r = (none, c'))
    : Loop visit P c s r (.ok s r)
  | failed {c c' : Cursor} {s : σ} {r r' : Routine} {id : InsnId} {e : Error}
    (hnext : c.next r = (some id, c')) (hP : P s id r) (hrun : visit s id r = .error e r')
    : Loop visit P c s r (.error e r')
  | step {c c' : Cursor} {s s' : σ} {r r' : Routine} {id : InsnId}
    {result : EStateM.Result Error Routine σ} (hnext : c.next r = (some id, c')) (hP : P s id r)
    (hrun : visit s id r = .ok s' r') (hrest : Loop visit P c' s' r' result)
    : Loop visit P c s r result

theorem Visits.loop (hv : Visits visit c.block c.direction I J)
    (hP : ∀ {id todo s r}, I (id :: todo) s r → P s id r) (h : I todo s r)
    (htarget : c.target? r = todo.head?) (hJ : J (left (todo.foldlM visit s) r))
    : Loop visit P c s r (todo.foldlM visit s r) := by
  induction todo generalizing c s r with
  | nil =>
    have hnext : c.next r = (none, (c.next r).2) := Prod.ext htarget rfl
    exact .done hnext
  | cons id rest ih =>
    have hnext : c.next r = (some id, (c.next r).2) := Prod.ext htarget rfl
    rw [List.foldlM_cons] at hJ ⊢
    cases hrun : visit s id r with
    | error e r' =>
      rw [bind_of_error hrun]
      exact .failed hnext (hP h) hrun
    | ok s' r' =>
      rw [bind_of_ok hrun]
      rw [left_bind_of_ok hrun] at hJ
      have hJ' := Back.foldlM hv.back rest s' r' hJ
      have hI := hv.step h hrun hJ'
      have htarget' : (c.next r).2.target? r' = rest.head? :=
        Cursor.target?_next htarget (hv.path h) (hv.path hI) (hv.leads h hrun hJ')
      exact .step hnext (hP h) hrun (ih (c := (c.next r).2) hv hI htarget' hJ)

theorem Visits.loop_sweepWith (hv : Visits visit b d I J)
    (hP : ∀ {id todo s r}, I (id :: todo) s r → P s id r) (hlists : r.Lists b ids)
    (h : I (d.along ids) s r) (hJ : J (left (sweepWith b d s visit) r))
    : Loop visit P { block := b, direction := d } s r (sweepWith b d s visit r) := by
  have heq := hv.sweepWith_eq hlists h hJ
  unfold left at hJ
  rw [heq] at hJ ⊢
  exact Visits.loop hv hP h (Cursor.target?_start hlists) hJ

end Loop

section Search

variable {r : Routine} {id : InsnId} {c : Cursor}

def note (met : List InsnId) (id : InsnId) : Edit (List InsnId) := pure (met ++ [id])

theorem foldlM_note (met todo : List InsnId) (r : Routine)
    : todo.foldlM note met r = .ok (met ++ todo) r := by
  induction todo generalizing met with
  | nil =>
    rw [List.append_nil]
    rfl
  | cons id rest ih =>
    have hnote : note met id r = .ok (met ++ [id]) r := rfl
    rw [List.foldlM_cons, bind_of_ok hnote, ih, List.append_assoc]
    rfl

theorem loop_insnsBefore (h : r.Arranged) (hc : r.cursorBefore? id = some c)
    : Loop note (fun _ j r => r.insn? j ≠ none) c [] r (.ok (r.insnsBefore id) r) := by
  obtain ⟨i, hi, -⟩ := Option.map_eq_some_iff.mp hc
  obtain ⟨front, back, hholds, -⟩ := h.holds_block hi
  obtain ⟨hblock, hdirection, hpath, htarget⟩ := Cursor.target?_before hholds.lists hc
  have hv : Visits note c.block c.direction
      (fun todo _ r' => r' = r ∧ r.Path i.block .backward todo) fun _ => True := by
    rw [hblock, hdirection]
    constructor
    . intro met j r _
      trivial
    . rintro todo met r' ⟨rfl, hpath⟩
      exact hpath
    . rintro j todo met r' met' r'' ⟨rfl, -, hpath⟩ hrun -
      cases hrun
      exact ⟨rfl, hpath⟩
    . rintro j todo met r' met' r'' ⟨rfl, ⟨n, hn, hpick⟩, -⟩ hrun - n' hn'
      cases hrun
      rw [hn] at hn'
      cases hn'
      exact hpick
  rw [Cursor.insnsBefore_eq hholds.lists]
  rw [← List.nil_append front.reverse, ← foldlM_note]
  refine hv.loop ?_ ⟨rfl, hpath⟩ htarget trivial
  rintro j todo met r' ⟨rfl, ⟨n, hn, -⟩, -⟩ hnone
  obtain ⟨x, hx, -⟩ := neighbours?_eq_some.mp hn
  rw [hnone] at hx
  cases hx

end Search

section Replacement

variable {r r' : Routine} {v : ValueId} {x : Operand} {n : Nat} {use : Option UseId}

inductive Refills (x : Operand) : Option UseId → Routine → Nat → Routine → Prop
  | done {r : Routine} : Refills x none r 0 r
  | step {use : UseId} {u : Use} {n : Nat} {r r₁ r' : Routine} (hu : r.uses.get? use = some u)
    (hset : setOperand u.user u.slot x r = .ok () r₁) (hrest : Refills x u.next r₁ n r')
    : Refills x (some use) r (n + 1) r'

theorem refills_of_run {fuel : Nat} (hrun : replaceFrom v x fuel use r = .ok n r') (hn : n < fuel)
    : Refills x use r n r' := by
  -- If there was room for one more record, then it was the end of the list that has been reached.
  induction fuel generalizing use r n with
  | zero => omega
  | succ fuel ih =>
    cases use with
    | none =>
      cases hrun
      exact .done
    | some use =>
      unfold replaceFrom at hrun
      rw [get_bind_run] at hrun
      cases hu : r.uses.get? use with
      | none =>
        rw [hu] at hrun
        cases hrun
      | some u =>
        rw [hu] at hrun
        obtain ⟨_, r₁, hset, hrest⟩ := of_bind_ok hrun
        obtain ⟨m, r₂, hrest, hend⟩ := of_bind_ok hrest
        cases hend
        exact .step hu hset (ih hrest (by omega))

theorem Refills.run (h : Refills x use r n r') (v : ValueId) {fuel : Nat} (hfuel : n ≤ fuel)
    : replaceFrom v x fuel use r = .ok n r' := by
  induction h generalizing fuel with
  | done =>
    cases fuel with
    | zero => rfl
    | succ fuel => rfl
  | step hu hset hrest ih =>
    cases fuel with
    | zero => omega
    | succ fuel =>
      unfold replaceFrom
      rw [get_bind_run, hu]
      dsimp only
      rw [bind_of_ok hset, bind_of_ok (ih (by omega)), pure_run]

theorem replaceUses_refills (h : r.Tracked) (hsmall : r.Small) (hv : r.contains v = true)
    (hx : r.Admits x) (hne : x ≠ .value v)
    : ∃ l r', r.useList? v = some l ∧ replaceUses v x r = .ok l.len r' ∧
        Refills x l.head r l.len r' := by
  rw [contains_eq, Option.isSome_iff_exists] at hv
  obtain ⟨l, hl⟩ := hv
  obtain ⟨ids, hids, -⟩ := h.listed v l hl
  obtain ⟨r', hrun, -⟩ := replaceFrom_run h hsmall hx hne hl (Nat.le_succ l.len)
  have hrefills := refills_of_run hrun (by omega)
  refine ⟨l, r', hl, ?_, hrefills⟩
  unfold replaceUses
  rw [if_neg hne, bind_of_ok (requireLive_run_ok hx), get_bind_run, hl]
  exact hrefills.run v (hids.len ▸ hids.length_le)

end Replacement

end Edit

namespace Routine

variable {r : Routine} {a b : ValueId}

inductive Compares (r : Routine) : List (ValueId × ValueId) → ValueId → ValueId → Bool → Prop
  | same {pairs : List (ValueId × ValueId)} {a : ValueId} : Compares r pairs a a true
  | types {pairs : List (ValueId × ValueId)} {a b : ValueId} (hne : a ≠ b)
    (hty : r.valueType a ≠ r.valueType b) : Compares r pairs a b false
  | assumed {pairs : List (ValueId × ValueId)} {a b : ValueId} (hne : a ≠ b)
    (hty : r.valueType a = r.valueType b) (hmem : (a, b) ∈ pairs) : Compares r pairs a b true
  | other {pairs : List (ValueId × ValueId)} {a b : ValueId} (hne : a ≠ b)
    (hty : r.valueType a = r.valueType b) (hmem : (a, b) ∉ pairs)
    (hother : ∀ p q i j, a = .insn p → b = .insn q → r.insn? p = some i → r.insn? q ≠ some j)
    : Compares r pairs a b false
  | descend {pairs : List (ValueId × ValueId)} {p q : InsnId} {i j : Insn}
    {same : ValueId → ValueId → Bool} (hne : p ≠ q)
    (hty : r.valueType (.insn p) = r.valueType (.insn q)) (hmem : (.insn p, .insn q) ∉ pairs)
    (hi : r.insn? p = some i) (hj : r.insn? q = some j)
    (hsame : ∀ c d, (.value c, .value d) ∈ i.operands.zip j.operands →
      Compares r ((.insn p, .insn q) :: pairs) c d (same c d))
    : Compares r pairs (.insn p) (.insn q)
        (i.sameShape j && (i.operands.zip j.operands).all fun (x, y) => x.identical same y)

theorem compares_identicalWithin {depth : Nat} {pairs : List (ValueId × ValueId)}
    (hdepth : (r.openPairs pairs).card < depth)
    : r.Compares pairs a b (r.identicalWithin depth pairs a b) := by
  -- No pair is met twice, so the comparison comes to its end before the depth is used up.
  induction depth generalizing pairs a b with
  | zero => omega
  | succ depth ih =>
    unfold identicalWithin
    split
    . next heq =>
      subst heq
      exact .same
    . next hne =>
      split
      . next hty => exact .types hne hty
      . next hty =>
        have hty := Classical.not_not.mp hty
        split
        . next hmem => exact .assumed hne hty (by simpa using hmem)
        . next hmem =>
          have hmem : (a, b) ∉ pairs := by simpa using hmem
          split
          . next p q =>
            split
            . next i j hi hj =>
              have hcard := card_openPairs_cons hi hj hmem
              exact .descend (by simpa using hne) hty hmem hi hj fun c d _ => ih (by omega)
            . next hnone =>
              refine .other hne hty hmem ?_
              rintro p' q' i j hp hq hi hj
              cases hp
              cases hq
              exact hnone i j hi hj
          . next hnone =>
            refine .other hne hty hmem ?_
            rintro p q i j rfl rfl
            exact (hnone p q rfl rfl).elim

theorem compares_identicalValues : r.Compares [] a b (r.identicalValues a b) :=
  compares_identicalWithin (card_openPairs_lt r [])

end Routine

end MachineIR
