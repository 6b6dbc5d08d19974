/-!
This module contains chains: elements that are linked with each other in both directions. Where the
links are kept does not matter here; `links` tells the neighbours of an element.
-/

namespace MachineIR

variable {ι : Type}

def Chain (links : ι → Option (Option ι × Option ι)) : Option ι → List ι → Option ι → Prop
  | _, [], _ => True
  | prev, a :: rest, next =>
    links a = some (prev, rest.head?.or next) ∧ Chain links (some a) rest next

namespace Chain

variable {links links' : ι → Option (Option ι × Option ι)} {front back l : List ι} {a : ι}
  {prev next : Option ι}

theorem getLast?_cons_or (a : ι) (l : List ι) (o : Option ι)
    : (a :: l).getLast?.or o = l.getLast?.or (some a) := by
  rw [List.getLast?_cons]
  cases l.getLast? with
  | none => rfl
  | some b => rfl

theorem append
    : Chain links prev (front ++ back) next ↔
        Chain links prev front (back.head?.or next) ∧
          Chain links (front.getLast?.or prev) back next := by
  induction front generalizing prev with
  | nil => simp [Chain]
  | cons a front ih =>
    simp only [List.cons_append, Chain]
    rw [ih, getLast?_cons_or, List.head?_append, Option.or_assoc, and_assoc]

theorem links_eq (h : Chain links none (front ++ a :: back) none)
    : links a = some (front.getLast?, back.head?) := by
  rw [append] at h
  have := h.2.1
  rwa [Option.or_none, Option.or_none] at this

theorem isSome_of_mem (h : Chain links prev l next) (ha : a ∈ l) : ∃ n, links a = some n := by
  obtain ⟨front, back, rfl⟩ := List.append_of_mem ha
  rw [append] at h
  exact ⟨_, h.2.1⟩

theorem congr (h : Chain links prev l next) (heq : ∀ a ∈ l, links' a = links a)
    : Chain links' prev l next := by
  induction l generalizing prev with
  | nil => trivial
  | cons a l ih =>
    refine ⟨by rw [heq a List.mem_cons_self, h.1], ih h.2 ?_⟩
    intro b hb
    exact heq b (List.mem_cons_of_mem a hb)

theorem setNext (h : Chain links prev l next) (hnodup : l.Nodup) (next' : Option ι)
    (heq : ∀ a ∈ l, l.getLast? ≠ some a → links' a = links a)
    (hlast : ∀ a, l.getLast? = some a → links' a = (links a).map fun n => (n.1, next'))
    : Chain links' prev l next' := by
  cases hl : l.getLast? with
  | none =>
    rw [List.getLast?_eq_none_iff] at hl
    subst hl
    trivial
  | some a =>
    obtain ⟨front, rfl⟩ := List.getLast?_eq_some_iff.mp hl
    rw [append] at h ⊢
    rw [List.nodup_append] at hnodup
    refine ⟨h.1.congr ?_, ?_, trivial⟩
    . intro b hb
      apply heq b (List.mem_append_left _ hb)
      rw [hl]
      intro hab
      cases hab
      exact hnodup.2.2 a hb a List.mem_cons_self rfl
    . rw [hlast a hl, h.2.1]
      simp

theorem setPrev (h : Chain links prev l next) (hnodup : l.Nodup) (prev' : Option ι)
    (heq : ∀ a ∈ l, l.head? ≠ some a → links' a = links a)
    (hfirst : ∀ a, l.head? = some a → links' a = (links a).map fun n => (prev', n.2))
    : Chain links' prev' l next := by
  cases l with
  | nil => trivial
  | cons a rest =>
    rw [List.nodup_cons] at hnodup
    refine ⟨by rw [hfirst a rfl, h.1]; rfl, h.2.congr ?_⟩
    intro b hb
    apply heq b (List.mem_cons_of_mem a hb)
    intro hab
    cases hab
    exact hnodup.1 hb

theorem remove [DecidableEq ι] (h : Chain links none (front ++ a :: back) none)
    (hnodup : (front ++ a :: back).Nodup)
    (heq : ∀ b ∈ front ++ back, links' b = (links b).map fun n =>
      (if back.head? = some b then front.getLast? else n.1,
        if front.getLast? = some b then back.head? else n.2))
    : Chain links' none (front ++ back) none := by
  rw [List.nodup_append, List.nodup_cons] at hnodup
  obtain ⟨hfront, ⟨-, hback⟩, hdisjoint⟩ := hnodup
  have hleft : ∀ b ∈ front, back.head? ≠ some b := by
    intro b hb heq
    exact hdisjoint b hb b (List.mem_cons_of_mem a (List.mem_of_head? heq)) rfl
  have hright : ∀ b ∈ back, front.getLast? ≠ some b := by
    intro b hb heq
    exact hdisjoint b (List.mem_of_getLast? heq) b (List.mem_cons_of_mem a hb) rfl
  rw [append] at h ⊢
  rw [Option.or_none, Option.or_none]
  constructor
  . apply h.1.setNext hfront
    . intro b hb hne
      simp [heq b (List.mem_append_left back hb), hleft b hb, hne]
    . intro b hlast
      have hb := List.mem_of_getLast? hlast
      simp [heq b (List.mem_append_left back hb), hleft b hb, hlast]
  . apply h.2.2.setPrev hback
    . intro b hb hne
      simp [heq b (List.mem_append_right front hb), hright b hb, hne]
    . intro b hfirst
      have hb := List.mem_of_head? hfirst
      simp [heq b (List.mem_append_right front hb), hright b hb, hfirst]

theorem insert [DecidableEq ι] (h : Chain links none (front ++ back) none)
    (hnodup : (front ++ back).Nodup) (ha : links' a = some (front.getLast?, back.head?))
    (heq : ∀ b ∈ front ++ back, links' b = (links b).map fun n =>
      (if back.head? = some b then some a else n.1, if front.getLast? = some b then some a else n.2))
    : Chain links' none (front ++ a :: back) none := by
  rw [List.nodup_append] at hnodup
  obtain ⟨hfront, hback, hdisjoint⟩ := hnodup
  have hleft : ∀ b ∈ front, back.head? ≠ some b := by
    intro b hb heq
    exact hdisjoint b hb b (List.mem_of_head? heq) rfl
  have hright : ∀ b ∈ back, front.getLast? ≠ some b := by
    intro b hb heq
    exact hdisjoint b (List.mem_of_getLast? heq) b hb rfl
  rw [append] at h ⊢
  rw [Option.or_none, Option.or_none] at h ⊢
  refine ⟨h.1.setNext hfront _ ?_ ?_, by rw [ha, Option.or_none], h.2.setPrev hback _ ?_ ?_⟩
  . intro b hb hne
    simp [heq b (List.mem_append_left back hb), hleft b hb, hne]
  . intro b hlast
    have hb := List.mem_of_getLast? hlast
    simp [heq b (List.mem_append_left back hb), hleft b hb, hlast]
  . intro b hb hne
    simp [heq b (List.mem_append_right front hb), hright b hb, hne]
  . intro b hfirst
    have hb := List.mem_of_head? hfirst
    simp [heq b (List.mem_append_right front hb), hright b hb, hfirst]

theorem prev_eq (h : Chain links prev l next) {k : Nat} (ha : l[k]? = some a)
    : ∃ n, links a = some (if k = 0 then prev else l[k - 1]?, n) := by
  induction l generalizing prev k with
  | nil => simp at ha
  | cons b rest ih =>
    cases k with
    | zero =>
      cases ha
      exact ⟨_, h.1⟩
    | succ k =>
      obtain ⟨n, hn⟩ := ih h.2 ha
      refine ⟨n, ?_⟩
      rw [hn]
      cases k with
      | zero => rfl
      | succ k => rfl

theorem getElem?_ne (h : Chain links none l next) (i j : Nat) (hij : i < j) (hj : j < l.length)
    : l[i]? ≠ l[j]? := by
  induction i generalizing j with
  | zero =>
    -- The first element stands behind nothing, and the other one behind its predecessor.
    intro heq
    have hb := List.getElem?_eq_getElem hj
    obtain ⟨n, hn⟩ := h.prev_eq (heq.trans hb)
    obtain ⟨m, hm⟩ := h.prev_eq hb
    rw [hn, if_pos rfl, if_neg (by omega), List.getElem?_eq_getElem (by omega)] at hm
    cases hm
  | succ i ih =>
    intro heq
    have hb := List.getElem?_eq_getElem hj
    obtain ⟨n, hn⟩ := h.prev_eq (heq.trans hb)
    obtain ⟨m, hm⟩ := h.prev_eq hb
    rw [hn, if_neg (by omega), if_neg (by omega), Option.some.injEq, Prod.mk.injEq] at hm
    exact ih (j - 1) (by omega) (by omega) hm.1

theorem nodup (h : Chain links none l next) : l.Nodup := by
  unfold List.Nodup
  rw [List.pairwise_iff_getElem]
  intro i j hi hj hij heq
  apply h.getElem?_ne i j hij hj
  rw [List.getElem?_eq_getElem hi, List.getElem?_eq_getElem hj, heq]

end Chain

end MachineIR
