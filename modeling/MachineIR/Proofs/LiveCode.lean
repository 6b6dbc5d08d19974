import MachineIR.Proofs.Deduplication
import MachineIR.Proofs.Frames

/-!
This module contains what the removal of dead code leaves of a block: what its effects and the other
blocks need, directly or by way of other instructions of the block. To discard an unused instruction
changes nothing about what is needed. On the way back through the block all users of an instruction in
it have been met before the instruction itself, so that one sweep finds all that is not needed.
-/

namespace MachineIR

open Routine Edit

theorem Edit.Erased.mem_insnsOf {r r' : Routine} {d : BlockId} {id j : InsnId} (h : Erased r r' id)
    (hr : r.Arranged) : j ∈ r'.insnsOf d ↔ j ∈ r.insnsOf d ∧ j ≠ id := by
  rw [h.insnsOf hr, List.mem_filter, decide_eq_true_eq]

namespace Routine

variable {r r' r'' : Routine} {b d : BlockId} {id j : InsnId} {i : Insn}

inductive Needed (r : Routine) (b : BlockId) : InsnId → Prop
  | effect {id : InsnId} {c : Instruction} (hid : id ∈ r.insnsOf b) (hc : r.code? id = some c)
    (heffect : c.opcode.hasSideEffect = true) : Needed r b id
  | outside {id j : InsnId} {d : BlockId} (hid : id ∈ r.insnsOf b) (hd : d ≠ b)
    (hj : j ∈ r.insnsOf d) (hrefers : r.Refers j (.insn id)) : Needed r b id
  | operand {id j : InsnId} (hid : id ∈ r.insnsOf b) (hj : Needed r b j)
    (hrefers : r.Refers j (.insn id)) : Needed r b id

def RefersBack (r : Routine) (b : BlockId) : Prop :=
  ∀ id ∈ r.insnsOf b, ∀ j ∈ r.insnsOf b, r.Refers id (.insn j) → [j, id].Sublist (r.insnsOf b)

instance {v : ValueId} : Decidable (r.Refers id v) :=
  decidable_of_iff ((r.code? id).any fun c => .value v ∈ c.operands)
    (by cases h : r.code? id <;> simp [Refers, h])

instance : Decidable (r.RefersBack b) :=
  inferInstanceAs (Decidable (∀ id ∈ r.insnsOf b, ∀ j ∈ r.insnsOf b, r.Refers id (.insn j) →
    [j, id].Sublist (r.insnsOf b)))

section Needed

theorem Needed.mem (h : r.Needed b id) : id ∈ r.insnsOf b := by
  cases h with
  | effect hid _ _ => exact hid
  | outside hid _ _ _ => exact hid
  | operand hid _ _ => exact hid

theorem Spent.not_needed (h : r.Spent b id) : ¬ r.Needed b id := by
  intro hneeded
  cases hneeded with
  | effect _ hc heffect =>
    obtain ⟨c, hc', hpure⟩ := h.code
    rw [hc] at hc'
    cases hc'
    rw [heffect] at hpure
    cases hpure
  | outside _ _ _ hrefers => exact h.free ⟨_, hrefers⟩
  | operand _ _ hrefers => exact h.free ⟨_, hrefers⟩

theorem needed_erased_iff {dead : InsnId} (hr : r.Arranged) (hspent : r.Spent b dead)
    (h : Erased r r' dead) : r'.Needed b id ↔ r.Needed b id := by
  constructor
  . intro hneeded
    induction hneeded with
    | effect hid hc heffect =>
      obtain ⟨hid, hne⟩ := (h.mem_insnsOf hr).mp hid
      rw [h.code, if_neg hne] at hc
      exact .effect hid hc heffect
    | outside hid hd hj hrefers =>
      exact .outside ((h.mem_insnsOf hr).mp hid).1 hd ((h.mem_insnsOf hr).mp hj).1
        (h.refers_iff.mp hrefers).2
    | operand hid _ hrefers ih =>
      exact .operand ((h.mem_insnsOf hr).mp hid).1 ih (h.refers_iff.mp hrefers).2
  . intro hneeded
    -- What is taken out was not needed itself, so nothing was needed because of it.
    have hne : ∀ {j}, r.Needed b j → j ≠ dead := by
      rintro j hj rfl
      exact hspent.not_needed hj
    induction hneeded with
    | effect hid hc heffect =>
      have hother := hne (.effect hid hc heffect)
      refine .effect ((h.mem_insnsOf hr).mpr ⟨hid, hother⟩) ?_ heffect
      rw [h.code, if_neg hother, hc]
    | @outside id j d hid hd hj hrefers =>
      have houtside : j ≠ dead := by
        rintro rfl
        exact hd (hr.eq_of_mem hspent.mem hj)
      exact .outside ((h.mem_insnsOf hr).mpr ⟨hid, hne (.outside hid hd hj hrefers)⟩) hd
        ((h.mem_insnsOf hr).mpr ⟨hj, houtside⟩) (h.refers_iff.mpr ⟨houtside, hrefers⟩)
    | operand hid hj hrefers ih =>
      exact .operand ((h.mem_insnsOf hr).mpr ⟨hid, hne (.operand hid hj hrefers)⟩) ih
        (h.refers_iff.mpr ⟨hne hj, hrefers⟩)

theorem RefersBack.erased (hback : r.RefersBack b) (hr : r.Arranged) (h : Erased r r' id)
    : r'.RefersBack b := by
  intro a ha c hc hrefers
  rw [h.mem_insnsOf hr] at ha hc
  have hsub := (hback a ha.1 c hc.1 (h.refers_iff.mp hrefers).2).filter (· ≠ id)
  rw [List.filter_eq_self.mpr (by simp [ha.2, hc.2])] at hsub
  rwa [h.insnsOf hr]

theorem mem_of_sublist {front back : List InsnId} (hnodup : (front ++ id :: back).Nodup)
    (h : [id, j].Sublist (front ++ id :: back)) : j ∈ back := by
  induction front with
  | nil =>
    rcases List.cons_sublist_cons'.mp h with hback | ⟨-, hback⟩
    . exact hback.subset (by simp)
    . exact hback.subset (by simp)
  | cons a front ih =>
    rw [List.cons_append, List.nodup_cons] at hnodup
    rcases List.cons_sublist_cons'.mp h with hrest | ⟨rfl, -⟩
    . exact ih hnodup.2 hrest
    . exact absurd (by simp) hnodup.1

theorem RefersBack.needed {front back : List InsnId} (hback : r.RefersBack b) (hr : r.Arranged)
    (hlist : r.insnsOf b = front ++ id :: back) (hrest : ∀ j ∈ back, r.Needed b j)
    (hspent : ¬ r.Spent b id) : r.Needed b id := by
  have hid : id ∈ r.insnsOf b := by simp [hlist]
  obtain ⟨i, hi, -⟩ := hr.mem_insnsOf.mp hid
  have hc := code?_of_insn? hi
  by_cases heffect : i.code.opcode.hasSideEffect = true
  . exact .effect hid hc heffect
  . have hused : r.Used id := by
      apply Classical.byContradiction
      intro hfree
      exact hspent ⟨hid, hfree, i.code, hc, by simpa using heffect⟩
    obtain ⟨j, hrefers⟩ := hused
    obtain ⟨k, hk, -⟩ := exists_insn?_of_code? hrefers.choose_spec.1
    have hkb : j ∈ r.insnsOf k.block := hr.mem_insnsOf.mpr ⟨k, hk, rfl⟩
    by_cases hd : k.block = b
    . rw [hd] at hkb
      have hsub := hback j hkb id hid hrefers
      have hnodup := hr.nodup_insnsOf b
      rw [hlist] at hsub hnodup
      exact .operand hid (hrest j (mem_of_sublist hnodup hsub)) hrefers
    . exact .outside hid hd hkb hrefers

open Classical in
theorem filter_needed_of_discards (h : Relation.ReflTransGen (Discards b) r r')
    : (∀ id, r'.Needed b id ↔ r.Needed b id) ∧
        (r'.insnsOf b).filter (r.Needed b ·) = (r.insnsOf b).filter (r.Needed b ·) := by
  induction h with
  | refl => exact ⟨fun _ => Iff.rfl, rfl⟩
  | tail _ hlast ih =>
    obtain ⟨dead, hr, hspent, herased⟩ := hlast
    obtain ⟨hneeded, hfilter⟩ := ih
    refine ⟨fun id => (needed_erased_iff hr.arranged hspent herased).trans (hneeded id), ?_⟩
    rw [← hfilter, herased.insnsOf hr.arranged, List.filter_filter]
    apply List.filter_congr
    intro j _
    have hne : r.Needed b j → j ≠ dead := by
      rintro hj rfl
      exact hspent.not_needed ((hneeded j).mpr hj)
    simpa using hne

end Needed

section Elsewhere

structure SameElsewhere (b : BlockId) (r r' : Routine) : Prop where
  insnsOf : ∀ d, d ≠ b → r'.insnsOf d = r.insnsOf d
  block : ∀ d, d ≠ b → r'.bare.block? d = r.bare.block? d
  insn : ∀ d, d ≠ b → ∀ id ∈ r.insnsOf d, r'.bare.insn? id = r.bare.insn? id

theorem SameElsewhere.refl (b : BlockId) (r : Routine) : r.SameElsewhere b r :=
  ⟨fun _ _ => rfl, fun _ _ => rfl, fun _ _ _ _ => rfl⟩

theorem SameElsewhere.trans (h : r.SameElsewhere b r') (h' : r'.SameElsewhere b r'')
    : r.SameElsewhere b r'' where
  insnsOf d hd := (h'.insnsOf d hd).trans (h.insnsOf d hd)
  block d hd := (h'.block d hd).trans (h.block d hd)
  insn d hd id hid := (h'.insn d hd id (by rwa [h.insnsOf d hd])).trans (h.insn d hd id hid)

theorem block?_detach_of_ne (hd : d ≠ i.block) : (detach id i r).block? d = r.block? d := by
  have hmodify : ∀ (f : Block → Block) (r : Routine), (r.modifyBlock i.block f).block? d = r.block? d := by
    intro f r
    rw [block?_modifyBlock, if_neg hd]
  have hnext : ∀ r, (setNext i.block i.prev i.next r).block? d = r.block? d := by
    intro r
    cases i.prev with
    | none => exact hmodify _ r
    | some _ => rfl
  have hprev : ∀ r, (setPrev i.block i.next i.prev r).block? d = r.block? d := by
    intro r
    cases i.next with
    | none => exact hmodify _ r
    | some _ => rfl
  exact (hmodify _ _).trans ((hprev _).trans (hnext r))

theorem sameElsewhere_erased (hr : r.Arranged) (hid : id ∈ r.insnsOf b) (h : Erased r r' id)
    : r.SameElsewhere b r' := by
  obtain ⟨i, hi, hbare⟩ := h.detached
  obtain ⟨front, back, hholds, -⟩ := hr.holds_block hi
  have hb : i.block = b := hr.eq_of_mem hid (hr.mem_insnsOf.mpr ⟨i, hi, rfl⟩)
  subst hb
  have hends : i.prev = front.getLast? ∧ i.next = back.head? := by
    obtain ⟨i', hi', -, heq⟩ := neighbours?_eq_some.mp hholds.lists.chain.links_eq
    rw [hi] at hi'
    cases hi'
    exact Prod.mk.inj heq
  have hlist := hholds.lists.insnsOf_eq
  constructor
  . intro d hd
    exact (Confined.erased hr hid h).insnsOf d hd
  . intro d hd
    rw [hbare, block?_bare, block?_bare, block?_detach_of_ne hd]
  . intro d hd j hj
    have hnot : j ∉ r.insnsOf i.block := fun hmem => hd (hr.eq_of_mem hmem hj)
    rw [hlist, List.mem_append, List.mem_cons, not_or, not_or] at hnot
    have hprev : i.prev ≠ some j := by
      rw [hends.1]
      exact fun hlast => hnot.1 (List.mem_of_getLast? hlast)
    have hnext : i.next ≠ some j := by
      rw [hends.2]
      exact fun hhead => hnot.2.2 (List.mem_of_mem_head? hhead)
    rw [hbare, insn?_bare, insn?_bare, insn?_detach, if_neg hnot.2.1]
    simp [hprev, hnext]

theorem sameElsewhere_of_discards (h : Relation.ReflTransGen (Discards b) r r')
    : r.SameElsewhere b r' := by
  induction h with
  | refl => exact .refl b r
  | tail _ hlast ih =>
    obtain ⟨dead, hr, hspent, herased⟩ := hlast
    exact ih.trans (sameElsewhere_erased hr.arranged hspent.mem herased)

end Elsewhere

end Routine

namespace Edit

variable {r r' start : Routine} {b : BlockId} {id : InsnId} {todo : List InsnId} {n total : Nat}

structure Pruning (b : BlockId) (start : Routine) (todo : List InsnId) (total : Nat) (r : Routine)
    : Prop where
  cleaning : Cleaning b start todo total r
  refersBack : r.RefersBack b
  needed : ∀ id ∈ r.insnsOf b, id ∈ todo ∨ r.Needed b id
  count : total + (r.insnsOf b).length = (start.insnsOf b).length

theorem Pruning.step (h : Pruning b start (id :: todo) total r)
    (hrun : eraseWhen isDead id r = .ok n r') : Pruning b start todo (total + n) r' := by
  have hr := h.cleaning.intact
  have harranged := hr.arranged
  obtain ⟨kept, hlist, -⟩ := h.cleaning.rest
  simp only [Direction.joined, List.reverse_cons, List.append_assoc, List.singleton_append] at hlist
  have hid : id ∈ r.insnsOf b := by simp [hlist]
  have hcleaning := (h.cleaning.step hrun (small_of_eraseWhen hr hrun)).1
  rcases eraseWhen_cases hr hid hrun with ⟨rfl, hspent, herased⟩ | ⟨rfl, rfl, hspent⟩
  . refine ⟨hcleaning, h.refersBack.erased harranged herased, ?_, ?_⟩
    . intro j hj
      obtain ⟨hj, hne⟩ := (herased.mem_insnsOf harranged).mp hj
      rw [needed_erased_iff harranged hspent herased]
      exact (h.needed j hj).imp_left fun hmem => (List.mem_cons.mp hmem).resolve_left hne
    . have hholds := harranged.holds_insnsOf h.cleaning.live
      rw [hlist] at hholds
      have hcount := h.count
      rw [hlist] at hcount
      rw [(herased.holds hholds).lists.insnsOf_eq]
      simp only [List.length_append, List.length_cons] at hcount ⊢
      omega
  . refine ⟨hcleaning, h.refersBack, ?_, h.count⟩
    have hnodup := harranged.nodup_insnsOf b
    rw [hlist, List.nodup_append, List.nodup_cons] at hnodup
    -- What follows `id` has been met, and all of it that was kept is needed.
    have hkept : ∀ j ∈ kept, r'.Needed b j := by
      intro j hj
      refine (h.needed j (by simp [hlist, hj])).resolve_left ?_
      intro hmem
      rcases List.mem_cons.mp hmem with rfl | hmem
      . exact hnodup.2.1.1 hj
      . exact hnodup.2.2 j (List.mem_reverse.mpr hmem) j (List.mem_cons_of_mem id hj) rfl
    intro j hj
    rcases h.needed j hj with hmem | hneeded
    . rcases List.mem_cons.mp hmem with rfl | hmem
      . exact Or.inr (h.refersBack.needed harranged hlist hkept hspent)
      . exact Or.inl hmem
    . exact Or.inr hneeded

theorem pruning_visits (b : BlockId) (start : Routine)
    : Visits (counting (eraseWhen isDead)) b .backward (Pruning b start) fun _ => True := by
  have hcleaning := cleaning_visits b start
  constructor
  . intro total id r _
    trivial
  . intro todo total r h
    exact hcleaning.path h.cleaning
  . intro id todo total r total' r' h hrun _
    obtain ⟨n, hvisit, rfl⟩ := of_counting_ok hrun
    exact h.step hvisit
  . intro id todo total r total' r' h hrun _
    obtain ⟨n, hvisit, -⟩ := of_counting_ok hrun
    exact hcleaning.leads h.cleaning hrun (small_of_eraseWhen h.cleaning.intact hvisit)

theorem pruning_of_removeDeadCode (hr : r.Intact) (hb : r.block? b ≠ none) (hback : r.RefersBack b)
    : ∃ n r', removeDeadCode b r = .ok n r' ∧ Pruning b r [] n r' := by
  obtain ⟨n, r', hrun, -⟩ := removeDeadCode_succeeds hr hb
  have hstart : Pruning b r (Direction.backward.along (r.insnsOf b)) 0 r := by
    refine ⟨Cleaning.start hr hb, hback, ?_, Nat.zero_add _⟩
    intro id hid
    exact Or.inl (Direction.mem_along.mpr hid)
  have heq : sweepWith b .backward 0 (counting (eraseWhen isDead)) r = .ok n r' := hrun
  have hends := (pruning_visits b r).ends (hr.arranged.holds_insnsOf hb).lists hstart trivial
  rw [heq] at hends
  cases hends with
  | done h => exact ⟨n, r', hrun, h⟩

open Classical in
theorem removeDeadCode_leaves_needed (actions : List Action) (hsmall : (after actions).Small)
    (b : BlockId) (hb : (after actions).block? b ≠ none) (hback : (after actions).RefersBack b)
    : ∃ k r', removeDeadCode b (after actions) = .ok k r' ∧
        r'.insnsOf b = ((after actions).insnsOf b).filter ((after actions).Needed b ·) ∧
        (∀ id, (after actions).Needed b id → r'.code? id = (after actions).code? id) ∧
        k = ((after actions).insnsOf b).countP (¬ (after actions).Needed b ·) ∧
        (after actions).SameElsewhere b r' := by
  obtain ⟨k, r', hrun, h⟩ := pruning_of_removeDeadCode (intact_after actions hsmall) hb hback
  have hdiscards := h.cleaning.discards
  obtain ⟨hneeded, hfilter⟩ := filter_needed_of_discards hdiscards
  have hlist : r'.insnsOf b = ((after actions).insnsOf b).filter ((after actions).Needed b ·) := by
    rw [← hfilter, List.filter_eq_self.mpr]
    intro id hid
    rw [decide_eq_true_eq, ← hneeded]
    exact (h.needed id hid).resolve_left List.not_mem_nil
  refine ⟨k, r', hrun, hlist, ?_, ?_, sameElsewhere_of_discards hdiscards⟩
  . intro id hid
    refine (code?_of_discards hdiscards id).resolve_left ?_
    obtain ⟨i, hi, -⟩ := h.cleaning.intact.arranged.mem_insnsOf.mp ((hneeded id).mpr hid).mem
    rw [code?_of_insn? hi]
    exact Option.some_ne_none _
  . have hcount := h.count
    have hsplit := List.length_eq_countP_add_countP ((after actions).Needed b ·)
      (l := (after actions).insnsOf b)
    simp only [decide_eq_true_eq] at hsplit
    rw [hlist, ← List.countP_eq_length_filter] at hcount
    omega

def unusedChain : List Action :=
  [.addBlock, .addBlock,
    .pushBack (.ofNat 0) (.readReg .i64 (.ofNat 1 1)),
    .pushBack (.ofNat 0) (.unop .i64 .not (.insn (.ofNat 0))),
    .pushBack (.ofNat 0) (.binop .i64 .add (.insn (.ofNat 1)) (.insn (.ofNat 1))),
    .pushBack (.ofNat 0) (.unop .i64 .neg (.insn (.ofNat 0))),
    .pushBack (.ofNat 0) (.phi .i64 [.insn (.ofNat 1), .insn (.ofNat 2)]),
    .pushBack (.ofNat 0) (.writeReg (.ofNat 1 1) (.const (.i64 1)) .i64),
    .pushBack (.ofNat 0) (.readReg .i64 (.ofNat 2 1)),
    .pushBack (.ofNat 0) (.writeReg (.ofNat 3 1) (.insn (.ofNat 6)) .i64),
    .pushBack (.ofNat 1) (.writeReg (.ofNat 2 1) (.insn (.ofNat 3)) .i64)]

open Classical in
theorem removeDeadCode_leaves_needed_unusedChain
    : (after unusedChain).Small ∧ (after unusedChain).block? (.ofNat 0) ≠ none ∧
        (after unusedChain).RefersBack (.ofNat 0) ∧
        ((after unusedChain).insnsOf (.ofNat 0)).filter ((after unusedChain).Needed (.ofNat 0) ·) =
          [0, 3, 5, 6, 7].map InsnId.ofNat ∧
        ((after unusedChain).insnsOf (.ofNat 0)).countP (¬ (after unusedChain).Needed (.ofNat 0) ·) = 3 ∧
        (after unusedChain).SameElsewhere (.ofNat 0)
          (left (removeDeadCode (.ofNat 0)) (after unusedChain)) := by
  have hsmall : (after unusedChain).Small := by decide +kernel
  have hb : (after unusedChain).block? (.ofNat 0) ≠ none := by decide +kernel
  have hback : (after unusedChain).RefersBack (.ofNat 0) := by decide +kernel
  have hcount : EStateM.run' (removeDeadCode (.ofNat 0)) (after unusedChain) = some 3 := by
    decide +kernel
  have hleft : (left (removeDeadCode (.ofNat 0)) (after unusedChain)).insnsOf (.ofNat 0) =
      [0, 3, 5, 6, 7].map InsnId.ofNat := by
    decide +kernel
  obtain ⟨k, r', hrun, hlist, -, hk, hsame⟩ :=
    removeDeadCode_leaves_needed unusedChain hsmall (.ofNat 0) hb hback
  rw [run_of_run' hcount] at hrun
  cases hrun
  exact ⟨hsmall, hb, hback, hlist.symm.trans hleft, hk.symm, hsame⟩

end Edit

end MachineIR
