import MachineIR.Proofs.Places

/-!
This module contains what the sweeps over a block visit: the instructions on the list of the block,
one after the other, as long as no visit touches those that are still to come.
-/

namespace MachineIR

namespace Direction

variable {d : Direction} {done todo ids : List InsnId} {id : InsnId}

def along : Direction → List InsnId → List InsnId
  | forward, ids => ids
  | backward, ids => ids.reverse

def joined : Direction → List InsnId → List InsnId → List InsnId
  | forward, done, todo => done.reverse ++ todo
  | backward, done, todo => todo.reverse ++ done

def pick : Direction → Option InsnId × Option InsnId → Option InsnId
  | forward, n => n.2
  | backward, n => n.1

theorem joined_cons : d.joined done (id :: todo) = d.joined (id :: done) todo := by
  cases d with
  | forward => simp [joined]
  | backward => simp [joined]

theorem joined_nil_along : d.joined [] (d.along ids) = ids := by
  cases d with
  | forward => simp [joined, along]
  | backward => simp [joined, along]

theorem mem_joined : id ∈ d.joined done todo ↔ id ∈ done ∨ id ∈ todo := by
  cases d with
  | forward => simp [joined]
  | backward => simp [joined, or_comm]

theorem not_mem_of_nodup_joined (h : (d.joined done (id :: todo)).Nodup) : id ∉ done := by
  intro hid
  cases d with
  | forward =>
    exact (List.nodup_append.mp h).2.2 id (List.mem_reverse.mpr hid) id List.mem_cons_self rfl
  | backward =>
    exact (List.nodup_append.mp h).2.2 id (List.mem_reverse.mpr List.mem_cons_self) id hid rfl

theorem mem_along : id ∈ d.along ids ↔ id ∈ ids := by
  cases d with
  | forward => simp [along]
  | backward => simp [along]

theorem length_along : (d.along ids).length = ids.length := by
  cases d with
  | forward => rfl
  | backward => simp [along]

end Direction

namespace Routine

variable {r r' : Routine} {b : BlockId} {d : Direction} {done todo ids : List InsnId} {id : InsnId}

def Path (r : Routine) (b : BlockId) (d : Direction) : List InsnId → Prop
  | [] => True
  | id :: rest => (∃ n, r.neighbours? b id = some n ∧ d.pick n = rest.head?) ∧ Path r b d rest

theorem Lists.pick_eq {n : Option InsnId × Option InsnId}
    (h : r.Lists b (d.joined done (id :: todo))) (hn : r.neighbours? b id = some n)
    : d.pick n = todo.head? := by
  cases d with
  | forward =>
    have hlinks : r.neighbours? b id = some (done.reverse.getLast?, todo.head?) := h.chain.links_eq
    rw [hn, Option.some.injEq] at hlinks
    rw [hlinks]
    rfl
  | backward =>
    have hchain := h.chain
    simp only [Direction.joined, List.reverse_cons, List.append_assoc, List.singleton_append] at hchain
    have hlinks := hchain.links_eq
    rw [hn, Option.some.injEq] at hlinks
    rw [hlinks, Direction.pick, List.getLast?_reverse]

theorem Lists.path (done : List InsnId) (h : r.Lists b (d.joined done todo)) : r.Path b d todo := by
  induction todo generalizing done with
  | nil => trivial
  | cons id rest ih =>
    obtain ⟨n, hn⟩ := h.chain.isSome_of_mem (Direction.mem_joined.mpr (Or.inr List.mem_cons_self))
    refine ⟨⟨n, hn, h.pick_eq hn⟩, ?_⟩
    rw [Direction.joined_cons] at h
    exact ih _ h

theorem Lists.path_along (h : r.Lists b ids) : r.Path b d (d.along ids) := by
  apply Lists.path []
  rwa [Direction.joined_nil_along]

theorem Lists.length_along_le (h : r.Lists b ids) : (d.along ids).length ≤ r.insns.size := by
  rw [Direction.length_along]
  exact h.length_le

end Routine

namespace Cursor

open Routine

variable {c : Cursor} {r : Routine} {b : BlockId} {d : Direction} {todo ids : List InsnId} {id : InsnId}

theorem filter_isMember_head (h : r.Path c.block c.direction todo)
    : todo.head?.filter (c.isMember r) = todo.head? := by
  cases todo with
  | nil => rfl
  | cons id rest =>
    obtain ⟨⟨n, hn, -⟩, -⟩ := h
    rw [List.head?_cons, Option.filter_some, isMember_eq, hn]
    rfl

theorem neighbour?_eq {n : Option InsnId × Option InsnId} (hn : r.neighbours? b id = some n)
    : c.neighbour? r id = c.direction.pick n := by
  obtain ⟨i, hi, -, rfl⟩ := neighbours?_eq_some.mp hn
  unfold neighbour?
  cases c.direction with
  | forward => simp [hi, Direction.pick]
  | backward => simp [hi, Direction.pick]

theorem target?_start (h : r.Lists b ids)
    : ({ block := b, direction := d } : Cursor).target? r = (d.along ids).head? := by
  obtain ⟨found, hfound, heq⟩ := Option.map_eq_some_iff.mp h.extent
  simp only [Prod.mk.injEq] at heq
  have hstart : ({ block := b, direction := d } : Cursor).start? r = (d.along ids).head? := by
    cases d with
    | forward => simp [start?, hfound, heq.1, Direction.along]
    | backward => simp [start?, hfound, heq.2.1, Direction.along]
  unfold target?
  dsimp only
  rw [if_neg Bool.false_ne_true, hstart]
  exact filter_isMember_head h.path_along

theorem target?_next {r' : Routine} (hnext : c.target? r = some id)
    (hpath : r.Path c.block c.direction (id :: todo)) (hpath' : r'.Path c.block c.direction todo)
    (hleads : ∀ n, r'.neighbours? c.block id = some n → c.direction.pick n = todo.head?)
    : (c.next r).2.target? r' = todo.head? := by
  obtain ⟨⟨n, hn, hpick⟩, -⟩ := hpath
  unfold next
  dsimp only
  rw [hnext, Option.bind_some, neighbour?_eq hn, hpick]
  unfold target?
  dsimp only
  rw [isMember_eq]
  cases hn' : r'.neighbours? c.block id with
  | none =>
    rw [Option.isSome_none, if_neg Bool.false_ne_true]
    exact filter_isMember_head hpath'
  | some n' =>
    rw [Option.isSome_some, if_pos rfl, neighbour?_eq hn', hleads n' hn']
    exact filter_isMember_head hpath'

theorem target?_next_of_same (htarget : c.target? r = some id)
    (hpath : r.Path c.block c.direction (id :: todo)) : (c.next r).2.target? r = todo.head? := by
  refine target?_next htarget hpath hpath.2 ?_
  obtain ⟨⟨n, hn, hpick⟩, -⟩ := hpath
  intro n' hn'
  rw [hn] at hn'
  cases hn'
  exact hpick

theorem rest_eq (hpath : r.Path c.block c.direction todo) (htarget : c.target? r = todo.head?)
    {n : Nat} (hn : todo.length ≤ n) : c.rest r n = todo := by
  induction n generalizing c todo with
  | zero =>
    cases List.eq_nil_of_length_eq_zero (Nat.le_zero.mp hn)
    rfl
  | succ n ih =>
    have hnext : (c.next r).1 = todo.head? := htarget
    unfold rest
    cases todo with
    | nil =>
      split
      . next heq =>
        rw [heq] at hnext
        cases hnext
      . rfl
    | cons id rest =>
      split
      . next c' heq =>
        have hc : c' = (c.next r).2 := by rw [heq]
        rw [heq] at hnext
        cases hnext
        congr 1
        apply ih
        . rw [hc]
          exact hpath.2
        . rw [hc]
          exact target?_next_of_same htarget hpath
        . simpa using hn
      . next heq =>
        rw [heq] at hnext
        cases hnext

theorem target?_before {front back : List InsnId} (h : r.Lists b (front ++ id :: back))
    (hc : r.cursorBefore? id = some c)
    : c.block = b ∧ c.direction = .backward ∧ r.Path b .backward front.reverse ∧
        c.target? r = front.reverse.head? := by
  have hlinks := h.chain.links_eq
  obtain ⟨i, hi, rfl, heq⟩ := neighbours?_eq_some.mp hlinks
  have hpath : r.Path i.block .backward front.reverse := by
    apply Lists.path (id :: back)
    simpa [Direction.joined] using h
  unfold cursorBefore? at hc
  rw [hi] at hc
  cases hc
  refine ⟨rfl, rfl, hpath, ?_⟩
  unfold target?
  dsimp only
  rw [isMember_eq, hlinks, Option.isSome_some, if_pos rfl, neighbour?_eq hlinks]
  dsimp only [Direction.pick]
  rw [← List.head?_reverse]
  exact filter_isMember_head hpath

theorem insnsBefore_eq {front back : List InsnId} (h : r.Lists b (front ++ id :: back))
    : r.insnsBefore id = front.reverse := by
  obtain ⟨i, hi, -⟩ := neighbours?_eq_some.mp h.chain.links_eq
  obtain ⟨c, hc⟩ : ∃ c, r.cursorBefore? id = some c := ⟨_, by rw [cursorBefore?, hi]; rfl⟩
  obtain ⟨rfl, hdirection, hpath, htarget⟩ := target?_before h hc
  unfold insnsBefore
  rw [hc]
  apply rest_eq
  . rwa [hdirection]
  . exact htarget
  . have := h.length_le
    rw [List.length_append] at this
    rw [List.length_reverse]
    omega

end Cursor

namespace Edit

open Routine

variable {σ : Type} {visit : σ → InsnId → Edit σ} {I : List InsnId → σ → Routine → Prop}
  {J : Routine → Prop} {r r' : Routine} {b : BlockId} {d : Direction} {s s' : σ} {c : Cursor}
  {id : InsnId} {todo ids : List InsnId}

def Back (J : Routine → Prop) (r r' : Routine) : Prop := J r' → J r

instance : Std.Refl (Back J) := ⟨fun _ h => h⟩

instance : Trans (Back J) (Back J) (Back J) := ⟨fun h h' hJ => h (h' hJ)⟩

/-- How visits end that keep an invariant: all have been made, or one has failed. -/
inductive Ends (visit : σ → InsnId → Edit σ) (I : List InsnId → σ → Routine → Prop)
    : EStateM.Result Error Routine σ → Prop
  | done {s : σ} {r : Routine} (h : I [] s r) : Ends visit I (.ok s r)
  | failed {id : InsnId} {rest : List InsnId} {s : σ} {r r' : Routine} {e : Error}
    (h : I (id :: rest) s r) (hrun : visit s id r = .error e r') : Ends visit I (.error e r')

theorem Back.foldlM (hback : ∀ s id, Within (Back J) (visit s id)) (todo : List InsnId) (s : σ)
    : Within (Back J) (todo.foldlM visit s) := by
  induction todo generalizing s with
  | nil => exact Within.pure s
  | cons id rest ih =>
    rw [List.foldlM_cons]
    exact Within.bind (hback s id) ih

theorem foldlM_ends (hback : ∀ s id, Within (Back J) (visit s id))
    (hstep : ∀ {id todo s r s' r'}, I (id :: todo) s r → visit s id r = .ok s' r' → J r' → I todo s' r')
    (h : I todo s r) (hJ : J (left (todo.foldlM visit s) r))
    : Ends visit I (todo.foldlM visit s r) := by
  induction todo generalizing s r with
  | nil => exact .done h
  | cons id rest ih =>
    rw [List.foldlM_cons] at hJ ⊢
    cases hrun : visit s id r with
    | error e r' =>
      rw [bind_of_error hrun]
      exact .failed h hrun
    | ok s' r' =>
      rw [bind_of_ok hrun]
      rw [left_bind_of_ok hrun] at hJ
      exact ih (hstep h hrun (Back.foldlM hback rest s' r' hJ)) hJ

structure Visits (visit : σ → InsnId → Edit σ) (b : BlockId) (d : Direction)
    (I : List InsnId → σ → Routine → Prop) (J : Routine → Prop) : Prop where
  back : ∀ s id, Within (Back J) (visit s id)
  path : ∀ {todo s r}, I todo s r → r.Path b d todo
  step : ∀ {id todo s r s' r'}, I (id :: todo) s r → visit s id r = .ok s' r' → J r' → I todo s' r'
  leads : ∀ {id todo s r s' r'}, I (id :: todo) s r → visit s id r = .ok s' r' → J r' →
    ∀ n, r'.neighbours? b id = some n → d.pick n = todo.head?

theorem Visits.visitAll_eq (hv : Visits visit c.block c.direction I J) (h : I todo s r)
    (htarget : c.target? r = todo.head?) {fuel : Nat} (hfuel : todo.length ≤ fuel)
    (hJ : J (left (visitAll visit fuel c s) r))
    : visitAll visit fuel c s r = todo.foldlM visit s r := by
  have hback : ∀ fuel c s, Within (Back J) (visitAll visit fuel c s) :=
    fun fuel c s => Within.visitAll hv.back fuel c s
  -- The cursor looks ahead before a visit. That it still goes on to the head of the rest is what
  -- `leads` says.
  induction fuel generalizing c todo s r with
  | zero =>
    cases List.eq_nil_of_length_eq_zero (Nat.le_zero.mp hfuel)
    rfl
  | succ fuel ih =>
    unfold visitAll at hJ ⊢
    rw [left_bind_of_ok (get_run r)] at hJ
    rw [get_bind_run]
    have hnext : (c.next r).1 = todo.head? := htarget
    generalize hc : c.next r = next at hJ hnext ⊢
    obtain ⟨target, c'⟩ := next
    dsimp only at hnext
    subst hnext
    cases todo with
    | nil => rfl
    | cons id rest =>
      rw [List.foldlM_cons]
      dsimp only [List.head?_cons] at hJ ⊢
      cases hrun : visit s id r with
      | error e r' => rw [bind_of_error hrun, bind_of_error hrun]
      | ok s' r' =>
        rw [left_bind_of_ok hrun] at hJ
        rw [bind_of_ok hrun, bind_of_ok hrun]
        have hJ' := hback fuel c' s' r' hJ
        have hI := hv.step h hrun hJ'
        have hc' : c' = (c.next r).2 := by rw [hc]
        apply ih
        . rw [hc']
          exact hv
        . exact hI
        . rw [hc']
          exact Cursor.target?_next htarget (hv.path h) (hv.path hI) (hv.leads h hrun hJ')
        . simpa using hfuel
        . exact hJ

theorem sweepWith_run (hlists : r.Lists b ids)
    : sweepWith b d s visit r =
        visitAll visit r.insns.size { block := b, direction := d } s r := by
  obtain ⟨found, hfound, -⟩ := Option.map_eq_some_iff.mp hlists.extent
  have hcursor : cursor b d r = .ok { block := b, direction := d } r := by
    simp [cursor, block, hfound, bind_run]
  unfold sweepWith
  rw [bind_of_ok hcursor, get_bind_run]

theorem Visits.sweepWith_eq (hv : Visits visit b d I J) (hlists : r.Lists b ids)
    (h : I (d.along ids) s r) (hJ : J (left (sweepWith b d s visit) r))
    : sweepWith b d s visit r = (d.along ids).foldlM visit s r := by
  unfold left at hJ
  rw [sweepWith_run hlists] at hJ ⊢
  exact Visits.visitAll_eq hv h (Cursor.target?_start hlists) hlists.length_along_le hJ

theorem Visits.ends (hv : Visits visit b d I J) (hlists : r.Lists b ids)
    (h : I (d.along ids) s r) (hJ : J (left (sweepWith b d s visit) r))
    : Ends visit I (sweepWith b d s visit r) := by
  have heq := hv.sweepWith_eq hlists h hJ
  unfold left at hJ
  rw [heq] at hJ ⊢
  exact foldlM_ends hv.back hv.step h hJ

theorem sweepWith_eq_foldlM (hvisit : ∀ s id, Within SamePlaces (visit s id))
    (hlists : r.Lists b ids) (d : Direction) (s : σ)
    : sweepWith b d s visit r = (d.along ids).foldlM visit s r := by
  have hv : Visits visit b d (fun todo _ r => ∃ done, r.Lists b (d.joined done todo))
      fun _ => True := by
    have hsame : ∀ {id s r s' r'}, visit s id r = .ok s' r' → r.SamePlaces r' := by
      intro id s r s' r' hrun
      have := hvisit s id r
      rwa [left_of_ok hrun] at this
    constructor
    . intro s id r _
      trivial
    . rintro todo s r ⟨done, h⟩
      exact h.path
    . rintro id todo s r s' r' ⟨done, h⟩ hrun -
      rw [Direction.joined_cons] at h
      exact ⟨id :: done, (hsame hrun).lists h⟩
    . rintro id todo s r s' r' ⟨done, h⟩ hrun - n hn
      exact ((hsame hrun).lists h).pick_eq hn
  apply hv.sweepWith_eq hlists _ trivial
  exact ⟨[], by rwa [Direction.joined_nil_along]⟩

def counting (visit : InsnId → Edit Nat) (total : Nat) (id : InsnId) : Edit Nat := do
  return total + (← visit id)

section Counting

variable {visit : InsnId → Edit Nat} {total n : Nat}

theorem counting_of_ok (h : visit id r = .ok n r')
    : counting visit total id r = .ok (total + n) r' := by
  unfold counting
  rw [bind_of_ok h, pure_run]

theorem of_counting_ok {sum : Nat} (h : counting visit total id r = .ok sum r')
    : ∃ n, visit id r = .ok n r' ∧ sum = total + n := by
  obtain ⟨n, r₁, hrun, h⟩ := of_bind_ok h
  cases h
  exact ⟨n, hrun, rfl⟩

theorem Within.counting {R : Routine → Routine → Prop} [Std.Refl R] [Trans R R R]
    (h : ∀ id, Within R (visit id)) (total : Nat) (id : InsnId)
    : Within R (counting visit total id) :=
  Within.bind (h id) fun _ => Within.pure _

theorem sweep_eq_foldlM (hvisit : ∀ id, Within SamePlaces (visit id)) (hlists : r.Lists b ids)
    (d : Direction) : sweep b d visit r = (d.along ids).foldlM (counting visit) 0 r :=
  sweepWith_eq_foldlM (Within.counting hvisit) hlists d 0

end Counting

end Edit

end MachineIR
