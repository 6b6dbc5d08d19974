import MachineIR.Proofs.PipelineRuns

/-!
This module contains what the changes to a block leave alone: all blocks that do not depend on it.
-/

namespace MachineIR

open Routine Edit

theorem Instruction.substitute_eq_self {v : ValueId} {x : Operand} {c : Instruction}
    (h : .value v ∉ c.operands) : c.substitute v x = c := by
  have hsame : (c.operands.map fun y => if y = .value v then x else y) = c.operands := by
    refine (List.map_congr_left ?_).trans (List.map_id _)
    intro y hy
    rw [if_neg, id_eq]
    rintro rfl
    exact h hy
  unfold substitute
  rw [hsame]

namespace Routine

variable {r r' r'' : Routine} {b : BlockId} {B : List BlockId} {id j a c : InsnId} {x : Operand}

def setting (r : Routine) : List BlockId × Option Image × Option Architecture :=
  (r.order, r.image, r.arch)

theorem setting_of_bare_eq (h : r'.bare = r.bare) : r'.setting = r.setting := by
  change r'.bare.setting = r.bare.setting
  rw [h]

theorem setting_detach {i : Insn} : (detach id i r).setting = r.setting := by
  unfold detach joinNeighbours setPrev setNext
  cases i.prev <;> cases i.next <;> rfl

theorem setting_attach {prev next : Option InsnId}
    : (attach b prev next id r).setting = r.setting := by
  unfold attach joinBetween setPrev setNext
  cases prev <;> cases next <;> rfl

def Inhabits (r : Routine) (B : List BlockId) (id : InsnId) : Prop := ∃ b ∈ B, id ∈ r.insnsOf b

def RefersWithin (r : Routine) (B : List BlockId) : Prop :=
  ∀ id j, r.Inhabits B id → r.Refers id (.insn j) → r.Inhabits B j

def ReferredWithin (r : Routine) (B : List BlockId) : Prop :=
  ∀ id j, r.Inhabits B j → r.Refers id (.insn j) → r.Inhabits B id

theorem Arranged.eq_of_mem {b' : BlockId} (h : r.Arranged) (hb : id ∈ r.insnsOf b)
    (hb' : id ∈ r.insnsOf b') : b' = b := by
  obtain ⟨i, hi, rfl⟩ := h.mem_insnsOf.mp hb
  obtain ⟨i', hi', rfl⟩ := h.mem_insnsOf.mp hb'
  rw [hi] at hi'
  cases hi'
  rfl

theorem Arranged.inhabits_iff (h : r.Arranged) (hid : id ∈ r.insnsOf b)
    : r.Inhabits B id ↔ b ∈ B := by
  constructor
  . rintro ⟨b', hb', hid'⟩
    rwa [← h.eq_of_mem hid hid']
  . intro hb
    exact ⟨b, hb, hid⟩

theorem Inhabits.live (h : r.Inhabits B id) (harranged : r.Arranged) : ∃ i, r.code? id = some i := by
  obtain ⟨b, -, hid⟩ := h
  obtain ⟨i, hi, -⟩ := harranged.mem_insnsOf.mp hid
  exact ⟨i.code, code?_of_insn? hi⟩

theorem SamePlaces.inhabits_iff (h : r.SamePlaces r') (harranged : r.Arranged)
    : r'.Inhabits B id ↔ r.Inhabits B id := by
  unfold Inhabits
  simp only [h.insnsOf harranged]

theorem Before.inhabits_iff (h : r.Before a c) (harranged : r.Arranged)
    : (r.RefersWithin B → r.Inhabits B c → r.Inhabits B a) ∧
        (r.ReferredWithin B → r.Inhabits B a → r.Inhabits B c) := by
  cases h with
  | @listed b front mid back _ _ hlist =>
    have ha : a ∈ r.insnsOf b := by simp [hlist]
    have hc : c ∈ r.insnsOf b := by simp [hlist]
    rw [harranged.inhabits_iff ha, harranged.inhabits_iff hc]
    exact ⟨fun _ h => h, fun _ h => h⟩
  | @operand _ _ i hi hphi ha =>
    have hrefers : r.Refers c (.insn a) := ⟨i, hi, ha⟩
    exact ⟨fun h hc => h c a hc hrefers, fun h ha => h c a ha hrefers⟩

theorem RefersWithin.inhabits (h : r.RefersWithin B) (harranged : r.Arranged)
    (hprecedes : r.Precedes a c) (hc : r.Inhabits B c) : r.Inhabits B a := by
  induction hprecedes using Relation.TransGen.head_induction_on with
  | single hbefore => exact (hbefore.inhabits_iff harranged).1 h hc
  | head hbefore _ ih => exact (hbefore.inhabits_iff harranged).1 h ih

theorem ReferredWithin.inhabits (h : r.ReferredWithin B) (harranged : r.Arranged)
    (hprecedes : r.Precedes a c) (ha : r.Inhabits B a) : r.Inhabits B c := by
  induction hprecedes with
  | single hbefore => exact (hbefore.inhabits_iff harranged).2 h ha
  | tail _ hbefore ih => exact (hbefore.inhabits_iff harranged).2 h ih

structure Confined (b : BlockId) (r r' : Routine) : Prop where
  setting : r'.setting = r.setting
  live : ∀ d, r'.block? d ≠ none ↔ r.block? d ≠ none
  insnsOf : ∀ d, d ≠ b → r'.insnsOf d = r.insnsOf d
  refersWithin : ∀ B, r.RefersWithin B → r'.RefersWithin B
  referredWithin : ∀ B, r.ReferredWithin B → r'.ReferredWithin B
  code : ∀ B, b ∉ B → r.RefersWithin B → ∀ id, r.Inhabits B id → r'.code? id = r.code? id
  used : ∀ d, d ≠ b → ∀ id ∈ r.insnsOf d, r'.Used id → r.Used id

namespace Confined

theorem refl (b : BlockId) (r : Routine) : r.Confined b r where
  setting := rfl
  live _ := Iff.rfl
  insnsOf _ _ := rfl
  refersWithin _ h := h
  referredWithin _ h := h
  code _ _ _ _ _ := rfl
  used _ _ _ _ h := h

theorem inhabits_iff (h : r.Confined b r') (hb : b ∉ B) : r'.Inhabits B id ↔ r.Inhabits B id := by
  unfold Inhabits
  refine exists_congr fun d => and_congr_right fun hd => ?_
  rw [h.insnsOf d]
  rintro rfl
  exact hb hd

theorem trans (h : r.Confined b r') (h' : r'.Confined b r'') : r.Confined b r'' where
  setting := h'.setting.trans h.setting
  live d := (h'.live d).trans (h.live d)
  insnsOf d hd := (h'.insnsOf d hd).trans (h.insnsOf d hd)
  refersWithin B hB := h'.refersWithin B (h.refersWithin B hB)
  referredWithin B hB := h'.referredWithin B (h.referredWithin B hB)
  code B hb hB id hid :=
    (h'.code B hb (h.refersWithin B hB) id ((h.inhabits_iff hb).mpr hid)).trans
      (h.code B hb hB id hid)
  used d hd id hid hused :=
    h.used d hd id hid (h'.used d hd id (by rwa [h.insnsOf d hd]) hused)

theorem replaced (hr : r.Arranged) (hid : id ∈ r.insnsOf b) (hx : r.Offers b id x)
    (h : Replaced r r' (.insn id) x) : r.Confined b r' := by
  have hinhabits : ∀ {B j}, r'.Inhabits B j ↔ r.Inhabits B j := h.samePlaces.inhabits_iff hr
  constructor
  . change r'.bare.setting = r.setting
    rw [h.bare]
    rfl
  . intro d
    exact h.samePlaces.block?_ne_none
  . intro d hd
    exact h.samePlaces.insnsOf hr d
  . intro B hB j w hj hrefers
    rw [hinhabits] at hj ⊢
    rcases h.refers_iff.mp hrefers with ⟨-, hrefers⟩ | ⟨heq, hrefers⟩
    . exact hB j w hj hrefers
    . exact hB.inhabits hr (hx w heq).1 (hB j id hj hrefers)
  . intro B hB j w hw hrefers
    rw [hinhabits] at hw ⊢
    rcases h.refers_iff.mp hrefers with ⟨-, hrefers⟩ | ⟨heq, hrefers⟩
    . exact hB j w hw hrefers
    . exact hB j id (hB.inhabits hr (hx w heq).1 hw) hrefers
  . intro B hb hB j hj
    obtain ⟨i, hi⟩ := hj.live hr
    rw [h.code, hi, Option.map_some, Instruction.substitute_eq_self]
    intro hmem
    exact hb ((hr.inhabits_iff hid).mp (hB j id hj ⟨i, hi, hmem⟩))
  . rintro d hd w hw ⟨u, hu⟩
    rcases h.refers_iff.mp hu with ⟨-, hu⟩ | ⟨heq, -⟩
    . exact ⟨u, hu⟩
    . rcases (hx w heq).2 with hused | hmem
      . exact hused
      . exact absurd (hr.eq_of_mem hmem hw) hd

theorem rewired (hr : r.Arranged) (hid : id ∈ r.insnsOf b) (hsetting : r'.setting = r.setting)
    (h : r.Rewired r' id) : r.Confined b r' := by
  have hinhabits : ∀ {B j}, r'.Inhabits B j ↔ r.Inhabits B j := h.places.inhabits_iff hr
  constructor
  . exact hsetting
  . intro d
    exact h.places.block?_ne_none
  . intro d hd
    exact h.places.insnsOf hr d
  . intro B hB j w hj hrefers
    rw [hinhabits] at hj ⊢
    rcases h.refers hrefers with hrefers | ⟨rfl, hprecedes, -⟩
    . exact hB j w hj hrefers
    . exact hB.inhabits hr hprecedes hj
  . intro B hB j w hw hrefers
    rw [hinhabits] at hw ⊢
    rcases h.refers hrefers with hrefers | ⟨rfl, hprecedes, -⟩
    . exact hB j w hw hrefers
    . exact hB.inhabits hr hprecedes hw
  . intro B hb hB j hj
    obtain ⟨i, i', -, -, -, -, hcode, -⟩ := h.code
    rw [hcode, if_neg]
    rintro rfl
    exact hb ((hr.inhabits_iff hid).mp hj)
  . rintro d hd w hw ⟨u, hu⟩
    rcases h.refers hu with hu | ⟨-, -, hused⟩
    . exact ⟨u, hu⟩
    . exact hused

theorem erased (hr : r.Arranged) (hid : id ∈ r.insnsOf b) (h : Erased r r' id)
    : r.Confined b r' := by
  have hinhabits : ∀ {B j}, r'.Inhabits B j ↔ r.Inhabits B j ∧ j ≠ id := by
    intro B j
    unfold Inhabits
    simp only [h.insnsOf hr, List.mem_filter, decide_eq_true_eq]
    constructor
    . rintro ⟨d, hd, hj, hne⟩
      exact ⟨⟨d, hd, hj⟩, hne⟩
    . rintro ⟨⟨d, hd, hj⟩, hne⟩
      exact ⟨d, hd, hj, hne⟩
  constructor
  . obtain ⟨i, -, hbare⟩ := h.detached
    rw [setting_of_bare_eq hbare, setting_detach]
  . intro d
    exact h.block?_ne_none
  . intro d hd
    rw [h.insnsOf hr, List.filter_eq_self]
    intro j hj
    rw [decide_eq_true_eq]
    rintro rfl
    exact hd (hr.eq_of_mem hid hj)
  . intro B hB j w hj hrefers
    rw [hinhabits] at hj ⊢
    obtain ⟨hne, hrefers⟩ := h.refers_iff.mp hrefers
    refine ⟨hB j w hj.1 hrefers, ?_⟩
    rintro rfl
    exact hne (h.free j hrefers)
  . intro B hB j w hw hrefers
    rw [hinhabits] at hw ⊢
    obtain ⟨hne, hrefers⟩ := h.refers_iff.mp hrefers
    exact ⟨hB j w hw.1 hrefers, hne⟩
  . intro B hb hB j hj
    rw [h.code, if_neg]
    rintro rfl
    exact hb ((hr.inhabits_iff hid).mp hj)
  . rintro d hd w hw ⟨u, hu⟩
    exact ⟨u, (h.refers_iff.mp hu).2⟩

theorem inserted {i : Instruction} (hr : r.Intact) (hid : id ∈ r.insnsOf b)
    (hx : ∀ x ∈ i.operands, r.Offers b id x) (h : Inserted r r' id i c) : r.Confined b r' := by
  have hnew : ∀ {B}, ¬ r.Inhabits B c := by
    intro B hc
    obtain ⟨i, hi⟩ := hc.live hr.arranged
    rw [h.not_live] at hi
    cases hi
  -- The new instruction stands in the block of `id`.
  have hinhabits : ∀ {B j}, r'.Inhabits B j ↔ (j = c ∧ r.Inhabits B id) ∨ r.Inhabits B j := by
    intro B j
    unfold Inhabits
    simp only [h.insnsOf hr.arranged, Inserted.mem_putBefore]
    constructor
    . rintro ⟨d, hd, ⟨hj, hid⟩ | hj⟩
      . exact Or.inl ⟨hj, d, hd, hid⟩
      . exact Or.inr ⟨d, hd, hj⟩
    . rintro (⟨hj, d, hd, hid⟩ | ⟨d, hd, hj⟩)
      . exact ⟨d, hd, Or.inl ⟨hj, hid⟩⟩
      . exact ⟨d, hd, Or.inr hj⟩
  constructor
  . obtain ⟨n, -, hbare⟩ := h.attached
    rw [setting_of_bare_eq hbare, setting_attach]
    rfl
  . intro d
    exact h.block?_ne_none
  . intro d hd
    rw [h.insnsOf hr.arranged, Inserted.putBefore_eq_self]
    intro hmem
    exact hd (hr.arranged.eq_of_mem hid hmem)
  . intro B hB j w hj hrefers
    rw [hinhabits] at hj ⊢
    rcases h.refers_iff.mp hrefers with ⟨hne, hrefers⟩ | ⟨rfl, hmem⟩
    . rcases hj with ⟨heq, -⟩ | hj
      . exact absurd heq hne
      . exact Or.inr (hB j w hj hrefers)
    . rcases hj with ⟨-, hj⟩ | hj
      . exact Or.inr (hB.inhabits hr.arranged (hx _ hmem w rfl).1 hj)
      . exact absurd hj hnew
  . intro B hB j w hw hrefers
    rw [hinhabits] at hw ⊢
    rcases hw with ⟨rfl, -⟩ | hw
    . exact absurd hrefers (h.not_refers hr.tracked j)
    . rcases h.refers_iff.mp hrefers with ⟨-, hrefers⟩ | ⟨hj, hmem⟩
      . exact Or.inr (hB j w hw hrefers)
      . exact Or.inl ⟨hj, hB.inhabits hr.arranged (hx _ hmem w rfl).1 hw⟩
  . intro B hb hB j hj
    obtain ⟨ip, hcode⟩ := h.code
    rw [hcode, if_neg]
    rintro rfl
    exact hnew hj
  . rintro d hd w hw ⟨u, hu⟩
    rcases h.refers_iff.mp hu with ⟨-, hu⟩ | ⟨-, hmem⟩
    . exact ⟨u, hu⟩
    . rcases (hx _ hmem w rfl).2 with hused | hmem
      . exact hused
      . exact absurd (hr.arranged.eq_of_mem hmem hw) hd

end Confined

theorem Offers.of_inserted {i : Instruction} (hr : r.Arranged) (hid : id ∈ r.insnsOf b)
    (h : Inserted r r' id i c) : r'.Offers b id (.insn c) := by
  obtain ⟨front, back, hlist⟩ := List.append_of_mem hid
  have hnodup := hr.nodup_insnsOf b
  rw [hlist] at hnodup
  obtain ⟨-, htail, hdisjoint⟩ := List.nodup_append.mp hnodup
  have hlist' : r'.insnsOf b = front ++ c :: ([] ++ id :: back) := by
    rw [h.insnsOf hr, hlist, Inserted.putBefore_append _ (List.nodup_cons.mp htail).1]
    . rfl
    . exact fun hmem => hdisjoint id hmem id List.mem_cons_self rfl
  rintro j heq
  cases heq
  exact ⟨.single (.listed hlist'), Or.inr (by simp [hlist'])⟩

end Routine

section Passes

variable {b : BlockId} {r r' : Routine}

theorem Reduces.confined {p q : List InsnId × Routine} (h : Reduces b p q)
    : p.2.Confined b q.2 := by
  cases h with
  | replace hr hid hnew hi hpure hx hgone hself h => exact .replaced hr.arranged hid hx h
  | rewire hr hid hi hrule hs h =>
    refine .rewired hr.arranged hid ?_ (rewired_of_rule hi hrule h)
    rw [setting_of_bare_eq h]
    rfl
  | overwrite hr hid hnew h => exact .erased hr.arranged hid h
  | retire hr hid hnew hi hread =>
    exact .rewired hr.arranged hid rfl (rewired_nop hi (by rw [hread]; decide))
  | @forward gone r r₁ id i x hr hr₁ hid hnew hi hread hx hgone hself h =>
    refine (Confined.replaced hr.arranged hid hx h).trans (.rewired hr₁.arranged ?_ rfl
      (rewired_nop (k := i.substitute (.insn id) x) ?_ ?_))
    . rwa [h.samePlaces.insnsOf hr.arranged]
    . rw [h.code, hi]
      rfl
    . exact ne_of_eq_of_ne hread (by decide)
  | cast hr hr₁ hid hnew hi hread hx hgone hinserted h =>
    refine (Confined.inserted hr hid ?_ hinserted).trans
      (.replaced hr₁.arranged ?_ (.of_inserted hr.arranged hid hinserted) h)
    . intro y hy
      cases List.mem_singleton.mp hy
      exact hx
    . rw [hinserted.insnsOf hr.arranged]
      exact Inserted.mem_putBefore.mpr (Or.inr hid)

namespace Routine

theorem confined_of_discards (h : Relation.ReflTransGen (Discards b) r r') : r.Confined b r' := by
  induction h with
  | refl => exact .refl b r
  | tail _ hstep ih =>
    obtain ⟨id, hr, hspent, herased⟩ := hstep
    exact ih.trans (.erased hr.arranged hspent.mem herased)

theorem Reduced.confined (h : r.Reduced b r') : r.Confined b r' := by
  obtain ⟨gone, r₁, hsteps, -, hcleans⟩ := h
  have hreduced : ∀ {p q}, Relation.TransGen (Reduces b) p q → p.2.Confined b q.2 := by
    intro p q hsteps
    induction hsteps with
    | single hstep => exact hstep.confined
    | tail _ hstep ih => exact ih.trans hstep.confined
  exact (hreduced hsteps).trans (confined_of_discards hcleans.discards)

theorem Reworked.confined (h : r.Reworked b r') : r.Confined b r' := by
  rcases h with hreduced | hdiscards
  . exact hreduced.confined
  . exact confined_of_discards hdiscards.to_reflTransGen

theorem confined_of_reworked (h : Relation.ReflTransGen (Reworked b) r r') : r.Confined b r' := by
  induction h with
  | refl => exact .refl b r
  | tail _ hstep ih => exact ih.trans hstep.confined

end Routine

end Passes

end MachineIR
