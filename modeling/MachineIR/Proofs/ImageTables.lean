import Mathlib.Data.List.TakeWhile
import MachineIR.Image

/-!
This module contains the tables of an image. They are kept in order by the way entries are put into
them, so that the entries with small keys are those in front, and what is looked up in them is what a
look at every entry that was ever added would find.
-/

namespace MachineIR

section Tables

variable {α : Type} {R : α → α → Prop} {p : α → Bool} {t : List α} {a x : α}

theorem mem_takeWhile_iff (hsorted : t.Pairwise R) (hp : ∀ x y, R x y → p y = true → p x = true)
    : x ∈ t.takeWhile p ↔ x ∈ t ∧ p x = true := by
  induction t with
  | nil => simp
  | cons a t ih =>
    obtain ⟨ha, ht⟩ := List.pairwise_cons.mp hsorted
    rw [List.takeWhile_cons]
    cases hpa : p a with
    | true =>
      simp only [if_pos, List.mem_cons, ih ht]
      constructor
      . rintro (rfl | ⟨hx, hpx⟩)
        . exact ⟨Or.inl rfl, hpa⟩
        . exact ⟨Or.inr hx, hpx⟩
      . rintro ⟨rfl | hx, hpx⟩
        . exact Or.inl rfl
        . exact Or.inr ⟨hx, hpx⟩
    | false =>
      rw [if_neg Bool.false_ne_true]
      constructor
      . intro hx
        cases hx
      . rintro ⟨hx, hpx⟩
        rcases List.mem_cons.mp hx with rfl | hx
        . rw [hpa] at hpx
          cases hpx
        . rw [hp a x (ha x hx) hpx] at hpa
          cases hpa

theorem mem_dropWhile_iff (hsorted : t.Pairwise R) (hp : ∀ x y, R x y → p y = true → p x = true)
    : x ∈ t.dropWhile p ↔ x ∈ t ∧ p x = false := by
  induction t with
  | nil => simp
  | cons a t ih =>
    obtain ⟨ha, ht⟩ := List.pairwise_cons.mp hsorted
    rw [List.dropWhile_cons]
    cases hpa : p a with
    | true =>
      rw [if_pos rfl, ih ht, List.mem_cons]
      constructor
      . rintro ⟨hx, hpx⟩
        exact ⟨Or.inr hx, hpx⟩
      . rintro ⟨rfl | hx, hpx⟩
        . rw [hpa] at hpx
          cases hpx
        . exact ⟨hx, hpx⟩
    | false =>
      rw [if_neg Bool.false_ne_true]
      constructor
      . intro hx
        refine ⟨hx, ?_⟩
        rcases List.mem_cons.mp hx with rfl | hx
        . exact hpa
        . cases hpx : p x with
          | false => rfl
          | true =>
            rw [hp a x (ha x hx) hpx] at hpa
            cases hpa
      . rintro ⟨hx, -⟩
        exact hx

structure Parts (p : α → Bool) (t : List α) (n : Nat) : Prop where
  le : n ≤ t.length
  front : ∀ x ∈ t.take n, p x = true
  back : ∀ x ∈ t.drop n, p x = false

namespace Parts

variable {n : Nat}

theorem of_sorted (hsorted : t.Pairwise R) (hp : ∀ x y, R x y → p y = true → p x = true)
    : Parts p t (t.takeWhile p).length := by
  have hcut : t = t.takeWhile p ++ t.dropWhile p := List.takeWhile_append_dropWhile.symm
  constructor
  . exact (List.takeWhile_sublist p).length_le
  . intro x hx
    rw [hcut, List.take_left'] at hx
    . exact ((mem_takeWhile_iff hsorted hp).mp hx).2
    . rw [← hcut]
  . intro x hx
    rw [hcut, List.drop_left'] at hx
    . exact ((mem_dropWhile_iff hsorted hp).mp hx).2
    . rw [← hcut]

theorem takeWhile_eq (h : Parts p t n) : t.takeWhile p = t.take n := by
  conv => lhs; rw [← List.take_append_drop n t]
  rw [List.takeWhile_append_of_pos h.front]
  have hback : (t.drop n).takeWhile p = [] := by
    cases hdrop : t.drop n with
    | nil => rfl
    | cons x rest =>
      apply List.takeWhile_cons_of_neg
      rw [h.back x (hdrop ▸ List.mem_cons_self)]
      exact Bool.false_ne_true
  rw [hback, List.append_nil]

theorem dropWhile_eq (h : Parts p t n) : t.dropWhile p = t.drop n := by
  have hcut : t.take n ++ t.dropWhile p = t.take n ++ t.drop n := by
    rw [List.take_append_drop, ← h.takeWhile_eq, List.takeWhile_append_dropWhile]
  exact List.append_cancel_left hcut

theorem iff_of_sorted (hsorted : t.Pairwise R) (hp : ∀ x y, R x y → p y = true → p x = true)
    : Parts p t n ↔ n = (t.takeWhile p).length := by
  constructor
  . intro h
    rw [h.takeWhile_eq, List.length_take, Nat.min_eq_left h.le]
  . rintro rfl
    exact of_sorted hsorted hp

end Parts

section Keys

variable {key : α → UInt64} {k : UInt64}

theorem lt_of_key_le (k : UInt64) (x y : α) (hxy : key x ≤ key y) (hy : decide (key y < k) = true)
    : decide (key x < k) = true := by
  simp only [decide_eq_true_eq] at hy ⊢
  exact UInt64.lt_of_le_of_lt hxy hy

theorem le_of_key_le (k : UInt64) (x y : α) (hxy : key x ≤ key y) (hy : decide (key y ≤ k) = true)
    : decide (key x ≤ k) = true := by
  simp only [decide_eq_true_eq] at hy ⊢
  exact UInt64.le_trans hxy hy

theorem toNat_lt_of_key_le (n : Nat) (x y : α) (hxy : key x ≤ key y)
    (hy : decide ((key y).toNat < n) = true) : decide ((key x).toNat < n) = true := by
  simp only [decide_eq_true_eq] at hy ⊢
  exact Nat.lt_of_le_of_lt (UInt64.le_iff_toNat_le.mp hxy) hy

theorem insertByKey_perm : (insertByKey key a t).Perm (a :: t) := by
  unfold insertByKey
  refine List.perm_middle.trans ?_
  rw [List.takeWhile_append_dropWhile]

theorem insertByKey_sorted (hsorted : t.Pairwise fun x y => key x ≤ key y)
    : (insertByKey key a t).Pairwise fun x y => key x ≤ key y := by
  have hfront : ∀ x ∈ t.takeWhile (key · < key a), key x < key a := by
    intro x hx
    simpa using ((mem_takeWhile_iff hsorted (lt_of_key_le _)).mp hx).2
  have hback : ∀ x ∈ t.dropWhile (key · < key a), key a ≤ key x := by
    intro x hx
    simpa using ((mem_dropWhile_iff hsorted (lt_of_key_le _)).mp hx).2
  unfold insertByKey
  rw [List.pairwise_append, List.pairwise_cons]
  refine ⟨hsorted.sublist (List.takeWhile_sublist _), ⟨hback, hsorted.sublist (List.dropWhile_sublist _)⟩, ?_⟩
  intro x hx y hy
  rcases List.mem_cons.mp hy with rfl | hy
  . exact UInt64.le_of_lt (hfront x hx)
  . exact UInt64.le_trans (UInt64.le_of_lt (hfront x hx)) (hback y hy)

theorem find?_insertByKey
    : (insertByKey key a t).find? (key · == k) = (a :: t).find? (key · == k) := by
  unfold insertByKey
  rw [List.find?_append, List.find?_cons, List.find?_cons]
  by_cases hk : key a = k
  . have hnone : (t.takeWhile (key · < key a)).find? (key · == k) = none := by
      rw [List.find?_eq_none]
      intro x hx
      have hlt := List.mem_takeWhile_imp hx
      simp only [decide_eq_true_eq] at hlt
      simp only [beq_iff_eq, ← hk]
      exact UInt64.ne_of_lt hlt
    rw [hnone, beq_iff_eq.mpr hk, Option.none_or]
  . rw [beq_eq_false_iff_ne.mpr hk, ← List.find?_append, List.takeWhile_append_dropWhile]

theorem head?_dropWhile_filter (hsorted : t.Pairwise fun x y => key x ≤ key y)
    : (t.dropWhile (key · < k)).head?.filter (key · == k) = t.find? (key · == k) := by
  induction t with
  | nil => rfl
  | cons a t ih =>
    obtain ⟨ha, ht⟩ := List.pairwise_cons.mp hsorted
    rw [List.dropWhile_cons, List.find?_cons]
    by_cases hlt : key a < k
    . rw [if_pos (decide_eq_true hlt), beq_eq_false_iff_ne.mpr (UInt64.ne_of_lt hlt)]
      exact ih ht
    . rw [if_neg (by simpa using hlt), List.head?_cons]
      by_cases hk : key a = k
      . simp [hk]
      . have hlast : t.find? (key · == k) = none := by
          rw [List.find?_eq_none]
          intro x hx hxk
          apply hk
          rw [beq_iff_eq] at hxk
          apply UInt64.le_antisymm
          . exact hxk ▸ ha x hx
          . exact UInt64.not_lt.mp hlt
        rw [beq_eq_false_iff_ne.mpr hk, hlast, Option.filter_some_neg]
        simpa using hk

def insertAllByKey (key : α → UInt64) (entries t : List α) : List α :=
  entries.foldl (fun t a => insertByKey key a t) t

variable {entries : List α}

theorem insertAllByKey_perm : (insertAllByKey key entries t).Perm (entries ++ t) := by
  unfold insertAllByKey
  induction entries generalizing t with
  | nil => exact List.Perm.refl t
  | cons a rest ih =>
    rw [List.foldl_cons, List.cons_append]
    exact (ih.trans (insertByKey_perm.append_left rest)).trans List.perm_middle

theorem insertAllByKey_sorted (hsorted : t.Pairwise fun x y => key x ≤ key y)
    : (insertAllByKey key entries t).Pairwise fun x y => key x ≤ key y := by
  unfold insertAllByKey
  induction entries generalizing t with
  | nil => exact hsorted
  | cons a rest ih => exact ih (insertByKey_sorted hsorted)

theorem find?_insertAllByKey
    : (insertAllByKey key entries t).find? (key · == k) =
        (entries.reverse ++ t).find? (key · == k) := by
  unfold insertAllByKey
  induction entries generalizing t with
  | nil => rfl
  | cons a rest ih =>
    rw [List.foldl_cons, ih, List.find?_append, find?_insertByKey, ← List.find?_append,
      List.reverse_cons, List.append_assoc, List.singleton_append]

end Keys

end Tables

namespace Image

variable {image : Image} {rva : UInt64} {size : Nat} {s : Section}

inductive Built : Image → Prop
  | mapped (base : UInt64) (data : List UInt8) (h : data.length < UInt64.size) : Built { base, data }
  | named {image : Image} (name : String) (h : Built image) : Built { image with name }
  | addSection {image : Image} (s : Section) (h : Built image) : Built (image.addSection s)
  | addSymbol {image : Image} (s : Symbol) (h : Built image) : Built (image.addSymbol s)
  | addEntryPoint {image : Image} (rva : UInt64) (h : Built image) : Built (image.addEntryPoint rva)

namespace Built

theorem length_lt (h : image.Built) : image.data.length < UInt64.size := by
  induction h with
  | mapped base data h => exact h
  | named name h ih => exact ih
  | addSection s h ih => exact ih
  | addSymbol s h ih => exact ih
  | addEntryPoint rva h ih => exact ih

theorem sections_sorted (h : image.Built)
    : image.sections.Pairwise fun s t => s.start ≤ t.start := by
  induction h with
  | mapped base data h => exact List.Pairwise.nil
  | named name h ih => exact ih
  | addSection s h ih => exact insertByKey_sorted ih
  | addSymbol s h ih => exact ih
  | addEntryPoint rva h ih => exact ih

theorem symbols_sorted (h : image.Built)
    : image.symbols.Pairwise fun s t => s.rva ≤ t.rva := by
  induction h with
  | mapped base data h => exact List.Pairwise.nil
  | named name h ih => exact ih
  | addSection s h ih => exact ih
  | addSymbol s h ih => exact insertByKey_sorted ih
  | addEntryPoint rva h ih => exact ih

end Built

structure Covered (image : Image) (rva : UInt64) (s : Section) : Prop where
  last : ∃ front back, image.sections = front ++ s :: back ∧ ∀ t ∈ back, rva < t.start
  start : s.start ≤ rva
  stop : rva < s.stop

theorem findSection?_eq_some (hsorted : image.sections.Pairwise fun s t => s.start ≤ t.start)
    : image.findSection? rva = some s ↔ image.Covered rva s := by
  unfold findSection?
  rw [Option.filter_eq_some_iff, List.getLast?_eq_some_iff]
  unfold Section.contains
  rw [Bool.and_eq_true, decide_eq_true_eq, decide_eq_true_eq]
  constructor
  . rintro ⟨⟨front, hfront⟩, hstart, hstop⟩
    refine ⟨⟨front, image.sections.dropWhile (·.start ≤ rva), ?_, ?_⟩, hstart, hstop⟩
    . have := List.takeWhile_append_dropWhile (p := fun s : Section => decide (s.start ≤ rva))
        (l := image.sections)
      rw [hfront, List.append_assoc] at this
      exact this.symm
    . intro t ht
      simpa using ((mem_dropWhile_iff hsorted (le_of_key_le _)).mp ht).2
  . rintro ⟨⟨front, back, heq, hback⟩, hstart, hstop⟩
    refine ⟨⟨front, ?_⟩, hstart, hstop⟩
    rw [heq] at hsorted ⊢
    have hfront : ∀ t ∈ front, decide (t.start ≤ rva) = true := by
      intro t ht
      rw [List.pairwise_append] at hsorted
      simpa using UInt64.le_trans (hsorted.2.2 t ht s List.mem_cons_self) hstart
    rw [List.takeWhile_append_of_pos hfront, List.takeWhile_cons_of_pos (by simpa using hstart)]
    congr 2
    cases back with
    | nil => rfl
    | cons t back =>
      apply List.takeWhile_cons_of_neg
      simpa using hback t List.mem_cons_self

theorem isPatched_iff (hsorted : image.symbols.Pairwise fun s t => s.rva ≤ t.rva)
    : image.isPatched rva size = true ↔
        ∃ t ∈ image.symbols, t.patched = true ∧ rva ≤ t.rva ∧
          t.rva.toNat < min (rva.toNat + size) (UInt64.size - 1) := by
  unfold isPatched
  dsimp only
  rw [List.any_eq_true]
  apply exists_congr
  intro t
  rw [mem_takeWhile_iff (hsorted.sublist (List.dropWhile_sublist _)) (toNat_lt_of_key_le _),
    mem_dropWhile_iff hsorted (lt_of_key_le _), decide_eq_true_eq, decide_eq_false_iff_not,
    UInt64.not_lt]
  constructor
  . rintro ⟨⟨⟨ht, hle⟩, hlt⟩, hpatched⟩
    exact ⟨ht, hpatched, hle, hlt⟩
  . rintro ⟨ht, hpatched, hle, hlt⟩
    exact ⟨⟨⟨ht, hle⟩, hlt⟩, hpatched⟩

theorem isPatched_eq_false (h : image.Built) (hsize : rva.toNat + size ≤ image.data.length)
    : image.isPatched rva size = false ↔
        ∀ t ∈ image.symbols, t.patched = true → rva ≤ t.rva → rva.toNat + size ≤ t.rva.toNat := by
  have hstop : min (rva.toNat + size) (UInt64.size - 1) = rva.toNat + size := by
    have := h.length_lt
    omega
  rw [← Bool.not_eq_true, isPatched_iff h.symbols_sorted, hstop]
  simp only [not_exists, not_and, Nat.not_lt]

inductive Addition where
  | addSection (s : Section)
  | addSymbol (s : Symbol)
  | addEntryPoint (rva : UInt64)

namespace Addition

def run : Addition → Image → Image
  | addSection s, image => image.addSection s
  | addSymbol s, image => image.addSymbol s
  | addEntryPoint rva, image => image.addEntryPoint rva

def section? : Addition → Option Section
  | addSection s => some s
  | _ => none

def symbol? : Addition → Option Symbol
  | addSymbol s => some s
  | _ => none

end Addition

def extend (image : Image) (additions : List Addition) : Image :=
  additions.foldl (fun image a => a.run image) image

theorem extend_tables (image : Image) (additions : List Addition)
    : (image.extend additions).sections =
          insertAllByKey Section.start (additions.filterMap Addition.section?) image.sections ∧
        (image.extend additions).symbols =
          insertAllByKey Symbol.rva (additions.filterMap Addition.symbol?) image.symbols := by
  unfold extend
  induction additions generalizing image with
  | nil => exact ⟨rfl, rfl⟩
  | cons a rest ih => cases a <;> exact ih _

structure Separate (sections : List Section) : Prop where
  nonempty : ∀ s ∈ sections, s.start < s.stop
  disjoint : sections.Pairwise fun s t => ∀ rva, ¬ (s.contains rva = true ∧ t.contains rva = true)

theorem not_contains_of_stop_le {t : Section} (h : s.stop ≤ t.start ∨ t.stop ≤ s.start)
    (rva : UInt64) : ¬ (s.contains rva = true ∧ t.contains rva = true) := by
  simp only [Section.contains, Bool.and_eq_true, decide_eq_true_eq]
  rintro ⟨⟨hs, hs'⟩, ht, ht'⟩
  rw [UInt64.le_iff_toNat_le] at hs ht
  rw [UInt64.lt_iff_toNat_lt] at hs' ht'
  rw [UInt64.le_iff_toNat_le, UInt64.le_iff_toNat_le] at h
  omega

theorem Separate.perm {sections sections' : List Section} (h : Separate sections)
    (hperm : sections.Perm sections') : Separate sections' := by
  constructor
  . intro s hs
    exact h.nonempty s (hperm.mem_iff.mpr hs)
  . refine (hperm.pairwise_iff ?_).mp h.disjoint
    intro s t hst rva hboth
    exact hst rva hboth.symm

theorem Separate.covered (h : Separate image.sections)
    (hsorted : image.sections.Pairwise fun s t => s.start ≤ t.start) (hs : s ∈ image.sections)
    (hrva : s.contains rva = true) : image.Covered rva s := by
  -- The start of a section that begins within another one would be in both.
  simp only [Section.contains, Bool.and_eq_true, decide_eq_true_eq] at hrva
  obtain ⟨front, back, heq⟩ := List.append_of_mem hs
  refine ⟨⟨front, back, heq, ?_⟩, hrva.1, hrva.2⟩
  intro t ht
  have hdisjoint := h.disjoint
  rw [heq, List.pairwise_append, List.pairwise_cons] at hdisjoint hsorted
  have hstart : s.start ≤ t.start := hsorted.2.1.1 t ht
  have hstop : t.start < t.stop := h.nonempty t (by simp [heq, ht])
  apply UInt64.not_le.mp
  intro hle
  apply hdisjoint.2.1.1 t ht t.start
  simp only [Section.contains, Bool.and_eq_true, decide_eq_true_eq]
  exact ⟨⟨hstart, UInt64.lt_of_le_of_lt hle hrva.2⟩, UInt64.le_refl _, hstop⟩

theorem Separate.findSection?_eq_some {sections : List Section} (h : Separate sections)
    (hperm : image.sections.Perm sections)
    (hsorted : image.sections.Pairwise fun s t => s.start ≤ t.start)
    : image.findSection? rva = some s ↔ s ∈ sections ∧ s.contains rva = true := by
  rw [Image.findSection?_eq_some hsorted, ← hperm.mem_iff]
  constructor
  . rintro ⟨⟨front, back, heq, -⟩, hstart, hstop⟩
    refine ⟨by simp [heq], ?_⟩
    simp only [Section.contains, Bool.and_eq_true, decide_eq_true_eq]
    exact ⟨hstart, hstop⟩
  . rintro ⟨hs, hrva⟩
    exact (h.perm hperm.symm).covered hsorted hs hrva

theorem Separate.findSection?_eq_find? {sections : List Section} (h : Separate sections)
    (hperm : image.sections.Perm sections)
    (hsorted : image.sections.Pairwise fun s t => s.start ≤ t.start)
    : image.findSection? rva = sections.find? (·.contains rva) := by
  have hiff : ∀ s, image.findSection? rva = some s ↔ s ∈ sections ∧ s.contains rva = true :=
    fun s => h.findSection?_eq_some hperm hsorted
  cases hfind : sections.find? (·.contains rva) with
  | some s =>
    have hrva : s.contains rva = true := by simpa using List.find?_some hfind
    exact (hiff s).mpr ⟨List.mem_of_find?_eq_some hfind, hrva⟩
  | none =>
    rw [List.find?_eq_none] at hfind
    rw [Option.eq_none_iff_forall_ne_some]
    intro s hs
    obtain ⟨hmem, hrva⟩ := (hiff s).mp hs
    exact hfind s hmem hrva

section Search

variable {n : Nat}

theorem findSection?_of_parts (h : Parts (·.start ≤ rva) image.sections n)
    : image.findSection? rva =
        (if n = 0 then none else image.sections[n - 1]?).filter (·.contains rva) := by
  unfold findSection?
  rw [h.takeWhile_eq, List.getLast?_take]
  split
  . rfl
  . have hlt : n - 1 < image.sections.length := by
      have := h.le
      omega
    rw [List.getElem?_eq_getElem hlt, Option.some_or]

theorem findSymbol?_of_parts (h : Parts (·.rva < rva) image.symbols n)
    : image.findSymbol? rva = image.symbols[n]?.filter (·.rva == rva) := by
  unfold findSymbol?
  rw [h.dropWhile_eq, List.head?_drop]

theorem isPatched_of_parts (h : Parts (·.rva < rva) image.symbols n)
    : image.isPatched rva size =
        ((image.symbols.drop n).takeWhile
          (·.rva.toNat < min (rva.toNat + size) (UInt64.size - 1))).any (·.patched) := by
  unfold isPatched
  rw [h.dropWhile_eq]

end Search

/--
The tables hold some sections and symbols in order, and looking something up in them is as good as
looking at all of these. The place at which the search for a position has to end is unique.
-/
structure Tabulates (image : Image) (sections : List Section) (symbols : List Symbol) : Prop where
  sectionTable : image.sections.Perm sections ∧
    image.sections.Pairwise fun s t => s.start ≤ t.start
  symbolTable : image.symbols.Perm symbols ∧ image.symbols.Pairwise fun s t => s.rva ≤ t.rva
  findSection : Separate sections → ∀ rva,
    (∀ s, image.findSection? rva = some s ↔ s ∈ sections ∧ s.contains rva = true) ∧
      image.findSection? rva = sections.find? (·.contains rva)
  findSymbol : ∀ rva, ((image.findSymbol? rva).isSome = true ↔ ∃ s ∈ symbols, s.rva = rva) ∧
    image.findSymbol? rva = symbols.reverse.find? (·.rva == rva)
  isPatched : ∀ rva length, rva.toNat + length < UInt64.size →
    (image.isPatched rva length = true ↔
      ∃ s ∈ symbols, s.patched = true ∧ rva ≤ s.rva ∧ s.rva.toNat < rva.toNat + length)
  sectionSearch : ∀ rva, ∃ n, (∀ m, Parts (·.start ≤ rva) image.sections m ↔ m = n) ∧
    image.findSection? rva =
      (if n = 0 then none else image.sections[n - 1]?).filter (·.contains rva)
  symbolSearch : ∀ rva, ∃ n, (∀ m, Parts (·.rva < rva) image.symbols m ↔ m = n) ∧
    image.findSymbol? rva = image.symbols[n]?.filter (·.rva == rva) ∧
    ∀ length, image.isPatched rva length =
      ((image.symbols.drop n).takeWhile
        (·.rva.toNat < min (rva.toNat + length) (UInt64.size - 1))).any (·.patched)

theorem tabulates_of_tables {sections : List Section} {symbols : List Symbol}
    (hsections : image.sections = insertAllByKey Section.start sections [])
    (hsymbols : image.symbols = insertAllByKey Symbol.rva symbols [])
    : image.Tabulates sections symbols := by
  have hperm : image.sections.Perm sections := by
    rw [hsections]
    exact insertAllByKey_perm.trans (by rw [List.append_nil])
  have hperm' : image.symbols.Perm symbols := by
    rw [hsymbols]
    exact insertAllByKey_perm.trans (by rw [List.append_nil])
  have hsorted : image.sections.Pairwise fun s t => s.start ≤ t.start := by
    rw [hsections]
    exact insertAllByKey_sorted .nil
  have hsorted' : image.symbols.Pairwise fun s t => s.rva ≤ t.rva := by
    rw [hsymbols]
    exact insertAllByKey_sorted .nil
  -- Of the symbols at one position, the one that was added last comes first in the table.
  have hfind : ∀ rva, image.findSymbol? rva = symbols.reverse.find? (·.rva == rva) := by
    intro rva
    unfold findSymbol?
    rw [head?_dropWhile_filter hsorted', hsymbols, find?_insertAllByKey, List.append_nil]
  constructor
  . exact ⟨hperm, hsorted⟩
  . exact ⟨hperm', hsorted'⟩
  . intro hseparate rva
    exact ⟨fun s => hseparate.findSection?_eq_some hperm hsorted,
      hseparate.findSection?_eq_find? hperm hsorted⟩
  . intro rva
    refine ⟨?_, hfind rva⟩
    rw [hfind, List.find?_isSome]
    simp
  . intro rva length hlength
    rw [isPatched_iff hsorted', Nat.min_eq_left (by omega)]
    simp only [hperm'.mem_iff]
  . intro rva
    refine ⟨_, fun m => Parts.iff_of_sorted hsorted (le_of_key_le rva), ?_⟩
    exact findSection?_of_parts (.of_sorted hsorted (le_of_key_le rva))
  . intro rva
    have hparts := Parts.of_sorted hsorted' (lt_of_key_le rva)
    refine ⟨_, fun m => Parts.iff_of_sorted hsorted' (lt_of_key_le rva), ?_, ?_⟩
    . exact findSymbol?_of_parts hparts
    . intro length
      exact isPatched_of_parts hparts

theorem tabulates_extend (base : UInt64) (data : List UInt8) (name : String)
    (additions : List Addition)
    : (({ base, data, name } : Image).extend additions).Tabulates
        (additions.filterMap Addition.section?) (additions.filterMap Addition.symbol?) := by
  obtain ⟨hsections, hsymbols⟩ := extend_tables { base, data, name } additions
  exact tabulates_of_tables hsections hsymbols

def scattered : List Addition :=
  [.addSymbol { name := "first", rva := 0x48, patched := true },
    .addSection { name := ".data", start := 0x80, stop := 0xc0, writable := true },
    .addSection { name := ".text", start := 0, stop := 0x40, executable := true },
    .addSymbol { name := "table", rva := 0x40 },
    .addSymbol { name := "second", rva := 0x48 },
    .addEntryPoint 0x10,
    .addSection { name := ".rdata", start := 0x40, stop := 0x80 },
    .addSymbol { name := "third", rva := 0x48 }]

theorem tabulates_extend_scattered
    : (({ base := 0, data := [] } : Image).extend scattered).Tabulates
          (scattered.filterMap Addition.section?) (scattered.filterMap Addition.symbol?) ∧
        Separate (scattered.filterMap Addition.section?) ∧
        ((({ base := 0, data := [] } : Image).extend scattered).findSection? 0x40).map Section.name =
          some ".rdata" ∧
        (({ base := 0, data := [] } : Image).extend scattered).findSection? 0xc0 = none ∧
        ((({ base := 0, data := [] } : Image).extend scattered).findSymbol? 0x48).map Symbol.name =
          some "third" ∧
        (({ base := 0, data := [] } : Image).extend scattered).isPatched 0x41 7 = false ∧
        (({ base := 0, data := [] } : Image).extend scattered).isPatched 0x41 8 = true := by
  refine ⟨tabulates_extend 0 [] "" scattered, ?_, by decide, by decide, by decide, by decide, by decide⟩
  constructor
  . decide
  . have hends : (scattered.filterMap Addition.section?).Pairwise fun s t =>
        s.stop ≤ t.start ∨ t.stop ≤ s.start := by decide
    exact hends.imp not_contains_of_stop_le

end Image

end MachineIR
