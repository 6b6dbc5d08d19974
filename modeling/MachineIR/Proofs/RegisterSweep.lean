import MachineIR.Proofs.PassReductions

/-!
This module contains what the sweep of the register forwarding does: one case for each way in which a
visit can go, and what is known of the registers in between.
-/

namespace MachineIR

def Producer.opcode (p : Producer) : Opcode := if p.isWrite then .writeReg else .readReg

namespace Routine

variable {r r' : Routine} {o : Opcode} {b : BlockId} {id j c : InsnId} {x : Register} {y : Operand}

def Accesses (r : Routine) (o : Opcode) (id : InsnId) (x : Register) : Prop :=
  ∃ i, r.code? id = some i ∧ i.opcode = o ∧ i.operands[0]? = some (.reg x)

abbrev Reads (r : Routine) : InsnId → Register → Prop := r.Accesses .readReg

abbrev Writes (r : Routine) : InsnId → Register → Prop := r.Accesses .writeReg

def content? (r : Routine) (p : Producer) : Option (Operand × Ty) :=
  (r.code? p.insn).bind fun i =>
    if p.isWrite then (i.operand? 1).map ((·, i.template 0)) else some (.insn p.insn, i.ty)

theorem accesses_iff {i : Insn} (hi : r.insn? id = some i)
    : r.Accesses o id x ↔ i.opcode = o ∧ (i.operand? 0).bind Operand.reg? = some x := by
  rw [Insn.operand?_eq]
  constructor
  . rintro ⟨k, hk, ho, hx⟩
    rw [code?_of_insn? hi] at hk
    cases hk
    exact ⟨ho, Option.bind_eq_some_iff.mpr ⟨_, hx, rfl⟩⟩
  . rintro ⟨ho, hx⟩
    obtain ⟨y, hy, hyx⟩ := Option.bind_eq_some_iff.mp hx
    cases y <;> cases hyx
    exact ⟨i.code, code?_of_insn? hi, ho, hy⟩

theorem content?_eq_some {p : Producer} {t : Ty}
    : r.content? p = some (y, t) ↔ ∃ i, r.code? p.insn = some i ∧
        (p.opcode = .writeReg ∧ i.operands[1]? = some y ∧ t = i.template 0 ∨
          p.opcode = .readReg ∧ y = .insn p.insn ∧ t = i.ty) := by
  unfold content? Producer.opcode Instruction.operand?
  rw [Option.bind_eq_some_iff]
  refine exists_congr fun i => and_congr_right fun hi => ?_
  cases p.isWrite
  . simp [eq_comm]
  . simp [eq_comm]

namespace Accesses

theorem unique {o' : Opcode} {x' : Register} (h : r.Accesses o id x) (h' : r.Accesses o' id x')
    : o' = o ∧ x' = x := by
  obtain ⟨i, hi, rfl, hx⟩ := h
  obtain ⟨i', hi', rfl, hx'⟩ := h'
  rw [hi] at hi'
  cases hi'
  rw [hx] at hx'
  cases hx'
  exact ⟨rfl, rfl⟩

theorem replaced {v : ValueId} (h : r.Accesses o id x) (hreplaced : Edit.Replaced r r' v y)
    : r'.Accesses o id x := by
  obtain ⟨i, hi, ho, hx⟩ := h
  refine ⟨i.substitute v y, ?_, ho, ?_⟩
  . rw [hreplaced.code, hi]
    rfl
  . simp [Instruction.substitute, hx]

theorem rewired (h : r.Accesses o id x) (hrewired : r.Rewired r' j) (hne : id ≠ j)
    : r'.Accesses o id x := by
  obtain ⟨i, hi, hrest⟩ := h
  obtain ⟨k, k', -, -, -, -, hcode, -⟩ := hrewired.code
  exact ⟨i, by rw [hcode, if_neg hne, hi], hrest⟩

theorem erased (h : r.Accesses o id x) (herased : Edit.Erased r r' j) (hne : id ≠ j)
    : r'.Accesses o id x := by
  obtain ⟨i, hi, hrest⟩ := h
  exact ⟨i, by rw [herased.code, if_neg hne, hi], hrest⟩

theorem inserted {k : Instruction} (h : r.Accesses o id x) (hinserted : Edit.Inserted r r' j k c)
    : r'.Accesses o id x := by
  obtain ⟨i, hi, hrest⟩ := h
  obtain ⟨ip, hcode⟩ := hinserted.code
  exact ⟨i, by rw [hcode, if_neg (hinserted.ne hi), hi], hrest⟩

end Accesses

end Routine

open Routine Edit

inductive Forwards (r : Routine) (known : Producers) (id : InsnId) : Producers → Nat → Routine → Prop
  | skip {i : Instruction} (hi : r.code? id = some i)
    (hother : ∀ x, ¬ r.Writes id x ∧ ¬ r.Reads id x)
    : Forwards r known id (if i.opcode.touchesRegisters then [] else known) 0 r
  -- A read that nothing is known for is remembered.
  | learn {x : Register} (hread : r.Reads id x) (hknown : known.lookup x = none)
    : Forwards r known id ((x, ⟨id, false⟩) :: known) 0 r
  | write {x : Register} (hwrite : r.Writes id x) (hknown : ∀ p, known.lookup x ≠ some ⟨p, true⟩)
    : Forwards r known id ((x, ⟨id, true⟩) :: known) 0 r
  -- The write before this one goes away.
  | overwrite {x : Register} {p : InsnId} {r' : Routine} (hwrite : r.Writes id x)
    (hknown : known.lookup x = some ⟨p, true⟩) (h : Erased r r' p)
    : Forwards r known id ((x, ⟨id, true⟩) :: known) 1 r'
  -- The write that is known has no operand.
  | blank {x : Register} {p : Producer} (hread : r.Reads id x) (hknown : known.lookup x = some p)
    (hcontent : r.content? p = none) : Forwards r known id known 0 r
  | forward {x : Register} {p : Producer} {y : Operand} {t : Ty} {n : Nat} {r₁ : Routine}
    (hread : r.Reads id x) (hknown : known.lookup x = some p) (hcontent : r.content? p = some (y, t))
    (hr₁ : r₁.Intact) (h : (y = .insn id ∧ r₁ = r) ∨ (y ≠ .insn id ∧ Replaced r r₁ (.insn id) y))
    (hty : ∃ i, r.code? id = some i ∧ i.ty = t)
    : Forwards r known id known (n + 1) (r₁.modifyInsn id ({ · with opcode := .nop }))
  | cast {x : Register} {p : Producer} {y : Operand} {t t' : Ty} {c : InsnId} {n : Nat}
    {r₁ r' : Routine} (hread : r.Reads id x) (hknown : known.lookup x = some p)
    (hcontent : r.content? p = some (y, t)) (hr₁ : r₁.Intact)
    (hinserted : Inserted r r₁ id (.bitcast t t' y) c) (h : Replaced r₁ r' (.insn id) (.insn c))
    (hty : ∃ i, r.code? id = some i ∧ i.ty = t')
    : Forwards r known id known (n + 1) r'

namespace Edit

variable {r r' : Routine} {b : BlockId} {id : InsnId} {known known' : Producers} {n n' : Nat}

theorem content?_run {p : Producer} {content : Option (Operand × Ty)}
    (hrun : content? p r = .ok content r') : r' = r ∧ content = r.content? p := by
  unfold content? at hrun
  obtain ⟨i, r₁, hknown, hend⟩ := of_bind_ok hrun
  obtain ⟨hi, rfl⟩ := knownInsn_of_ok hknown
  unfold Routine.content?
  rw [code?_of_insn? hi, Option.bind_some]
  split at hend
  . next hw =>
    cases hend
    rw [if_pos hw, Insn.operand?_eq]
    exact ⟨rfl, rfl⟩
  . next hw =>
    cases hend
    rw [if_neg hw]
    exact ⟨rfl, rfl⟩

theorem content?_of_live {p : Producer} (h : r.code? p.insn ≠ none)
    : content? p r = .ok (r.content? p) r := by
  obtain ⟨c, hc⟩ := Option.ne_none_iff_exists'.mp h
  obtain ⟨i, hi, rfl⟩ := exists_insn?_of_code? hc
  unfold content? Routine.content?
  rw [bind_of_ok (knownInsn_run hi), hc, Option.bind_some]
  split
  . rw [Insn.operand?_eq]
    rfl
  . rfl

theorem exists_run {α : Type} {e : Edit α} {result : EStateM.Result Error Routine α}
    (h : e r = result) : ∃ e', e' = e ∧ e' r = result := ⟨e, rfl, h⟩

theorem run_of_eq {α : Type} {e : Edit α} {result : EStateM.Result Error Routine α}
    (h : ∀ e', e' = e → e' r = result) : e r = result := h e rfl

theorem forwards_of_write {x : Register} (hr : r.Intact) (hwrite : r.Writes id x)
    (hrun : visitWrite known n id x r = .ok (known', n') r')
    : ∃ m, n' = n + m ∧ Forwards r known id known' m r' := by
  unfold visitWrite at hrun
  obtain ⟨e, he, hrun⟩ := exists_run hrun
  split at he
  . next p hknown =>
    subst he
    obtain ⟨u, r₁, herase, hend⟩ := of_bind_ok hrun
    cases hend
    exact ⟨1, rfl, .overwrite hwrite hknown (erased_of_ok hr.tracked herase)⟩
  . next hknown =>
    subst he
    cases hrun
    exact ⟨0, rfl, .write hwrite fun p hp => hknown p hp⟩

theorem setOpcode_of_ok {o : Opcode} {u : Unit} (h : setOpcode id o r = .ok u r')
    : r' = r.modifyInsn id ({ · with opcode := o }) := by
  unfold setOpcode at h
  obtain ⟨i, r₁, hinsn, hend⟩ := of_bind_ok h
  have hr₁ : r₁ = r := by rw [← left_of_ok hinsn, left_insn]
  subst hr₁
  cases hend
  rfl

theorem Replaced.intact {v : ValueId} {x : Operand} (h : Replaced r r' v x) (hr : r.Intact)
    : r'.Intact := ⟨h.tracked, h.samePlaces.arranged hr.arranged, h.small hr.small⟩

theorem forwards_of_forwardRead {x : Register} {p : Producer} (hr : r.Intact) (hread : r.Reads id x)
    (hknown : known.lookup x = some p) (hrun : forwardRead id p r = .ok n r') (hsmall : r'.Small)
    : Forwards r known id known n r' := by
  unfold forwardRead at hrun
  obtain ⟨content, r₁, hcontent, hmatch⟩ := of_bind_ok hrun
  obtain ⟨rfl, rfl⟩ := content?_run hcontent
  obtain ⟨e, he, hmatched⟩ := exists_run hmatch
  split at he
  . next hnone =>
    subst he
    cases hmatched
    exact .blank hread hknown hnone
  . next y t hsome =>
    subst he
    obtain ⟨i, r₂, hi, hif⟩ := of_bind_ok hmatched
    obtain ⟨hread', rfl⟩ := knownInsn_of_ok hi
    dsimp only at hif
    by_cases hty : t = i.ty
    . rw [if_pos hty] at hif
      obtain ⟨m, r₃, hreplace, hset⟩ := of_bind_ok hif
      obtain ⟨u, r₄, hset, hend⟩ := of_bind_ok hset
      cases hend
      rw [setOpcode_of_ok hset, Nat.add_comm]
      have htyped : ∃ k, r₂.code? id = some k ∧ k.ty = t := ⟨i.code, code?_of_insn? hread', hty.symm⟩
      rcases replaced_of_ok hr.tracked hr.small hreplace with ⟨hself, -, rfl⟩ | ⟨hself, -, -, h⟩
      . exact .forward hread hknown hsome hr (Or.inl ⟨hself, rfl⟩) htyped
      . exact .forward hread hknown hsome (h.intact hr) (Or.inr ⟨hself, h⟩) htyped
    . rw [if_neg hty] at hif
      obtain ⟨c, r₃, hinsert, hreplace⟩ := of_bind_ok hif
      obtain ⟨m, r₄, hreplace, hend⟩ := of_bind_ok hreplace
      cases hend
      have hsmall₃ : r₃.Small := by
        have := keeps_replaceUses (.insn id) (.insn c) r₃
        rw [left_of_ok hreplace] at this
        exact this.grows.small hsmall
      have hr₃ := hr.of_ok (keeps_insertBefore _ _) (arranges_insertBefore _ _) hinsert hsmall₃
      have hinserted := inserted_of_ok hsmall₃ hinsert
      rw [Nat.add_comm]
      rcases replaced_of_ok hr₃.tracked hsmall₃ hreplace with ⟨hself, -⟩ | ⟨-, -, -, h⟩
      . obtain ⟨k, hk, -⟩ := hread
        cases hself
        exact absurd rfl (hinserted.ne hk)
      . exact .cast hread hknown hsome hr₃ hinserted h ⟨i.code, code?_of_insn? hread', rfl⟩

theorem forwards_of_read {x : Register} (hr : r.Intact) (hread : r.Reads id x)
    (hrun : visitRead known n id x r = .ok (known', n') r') (hsmall : r'.Small)
    : ∃ m, n' = n + m ∧ Forwards r known id known' m r' := by
  unfold visitRead at hrun
  obtain ⟨e, he, hvisit⟩ := exists_run hrun
  split at he
  . next p hknown =>
    subst he
    obtain ⟨m, r₁, hforward, hend⟩ := of_bind_ok hvisit
    cases hend
    exact ⟨m, rfl, forwards_of_forwardRead hr hread hknown hforward hsmall⟩
  . next hknown =>
    subst he
    cases hvisit
    exact ⟨0, rfl, .learn hread hknown⟩

theorem forwards_of_ok (hr : r.Intact) (hrun : visitRegister (known, n) id r = .ok (known', n') r')
    (hsmall : r'.Small) : ∃ m, n' = n + m ∧ Forwards r known id known' m r' := by
  unfold visitRegister at hrun
  obtain ⟨i, r₁, hknown, hvisit⟩ := of_bind_ok hrun
  obtain ⟨hi, rfl⟩ := knownInsn_of_ok hknown
  obtain ⟨e, he, hvisit⟩ := exists_run hvisit
  split at he
  . next x hopcode hx =>
    subst he
    exact forwards_of_write hr ((accesses_iff hi).mpr ⟨hopcode, hx⟩) hvisit
  . next x hopcode hx =>
    subst he
    exact forwards_of_read hr ((accesses_iff hi).mpr ⟨hopcode, hx⟩) hvisit hsmall
  . next hwrite hread =>
    subst he
    cases hvisit
    refine ⟨0, rfl, .skip (code?_of_insn? hi) ?_⟩
    intro x
    rw [Writes, Reads, accesses_iff hi, accesses_iff hi]
    exact ⟨fun h => hwrite x h.1 h.2, fun h => hread x h.1 h.2⟩

end Edit

structure Scanned (b : BlockId) (known : Producers) (todo : List InsnId) (r : Routine) : Prop where
  intact : r.Intact
  live : r.block? b ≠ none
  rest : ∃ front, r.insnsOf b = front ++ todo ∧ ∀ x p, known.lookup x = some p →
    p.insn ∈ front ∧ r.Accesses p.opcode p.insn x

inductive Trims (r' : Routine) (front : List InsnId) : List InsnId → Prop
  | same : Trims r' front front
  | without {p : InsnId} (hp : r'.code? p = none) : Trims r' front (front.filter (· ≠ p))
  | cast {c : InsnId} {i : Instruction} (hc : r'.code? c = some i) (hopcode : i.opcode = .bitcast)
    : Trims r' front (front ++ [c])

namespace Forwards

variable {r r' : Routine} {b : BlockId} {id : InsnId} {known known' : Producers} {n : Nat}
  {front todo : List InsnId}

theorem lookup_cons {x : Register} {w : Bool}
    (h : ∀ y p, y ≠ x → known.lookup y = some p → p.insn ∈ front ∧ r.Accesses p.opcode p.insn y)
    (hid : r.Accesses (Producer.mk id w).opcode id x)
    : ∀ y p, List.lookup y ((x, Producer.mk id w) :: known) = some p →
        (p.insn ∈ front ∨ p.insn = id) ∧ r.Accesses p.opcode p.insn y := by
  intro y p hp
  rw [List.lookup_cons] at hp
  split at hp
  . next heq =>
    cases hp
    cases beq_iff_eq.mp heq
    exact ⟨Or.inr rfl, hid⟩
  . next hne => exact (h y p (by simpa using hne) hp).imp_left Or.inl

theorem scans (h : Forwards r known id known' n r') (hr : r.Intact)
    (hlist : r.insnsOf b = front ++ id :: todo)
    (hknown : ∀ x p, known.lookup x = some p → p.insn ∈ front ∧ r.Accesses p.opcode p.insn x)
    : (r'.block? b ≠ none ↔ r.block? b ≠ none) ∧ ∃ front', Trims r' front front' ∧
        r'.insnsOf b = front' ++ id :: todo ∧ ∀ x p, known'.lookup x = some p →
          (p.insn ∈ front' ∨ p.insn = id) ∧ r'.Accesses p.opcode p.insn x := by
  have hnodup := hr.arranged.nodup_insnsOf b
  rw [hlist] at hnodup
  obtain ⟨-, htail, hdisjoint⟩ := List.nodup_append.mp hnodup
  have hfront : id ∉ front := fun hid => hdisjoint id hid id List.mem_cons_self rfl
  have hsame : ∀ x p, known.lookup x = some p →
      (p.insn ∈ front ∨ p.insn = id) ∧ r.Accesses p.opcode p.insn x :=
    fun x p hp => (hknown x p hp).imp_left Or.inl
  -- What lies in front of `id` loses a write that is overwritten and gains a conversion; no other
  -- visit moves anything.
  cases h with
  | skip hi hother =>
    refine ⟨Iff.rfl, front, .same, hlist, ?_⟩
    split
    . intro x p hp
      cases hp
    . exact hsame
  | learn hread hnone =>
    exact ⟨Iff.rfl, front, .same, hlist, lookup_cons (fun y p _ hp => hknown y p hp) hread⟩
  | write hwrite hother =>
    exact ⟨Iff.rfl, front, .same, hlist, lookup_cons (fun y p _ hp => hknown y p hp) hwrite⟩
  | @overwrite x p r' hwrite hlookup herased =>
    obtain ⟨hp, haccess⟩ := hknown x _ hlookup
    have hid : id ≠ p := fun heq => hfront (heq ▸ hp)
    refine ⟨herased.block?_ne_none, front.filter (· ≠ p), .without ?_, ?_,
      lookup_cons ?_ (hwrite.erased herased hid)⟩
    . rw [herased.code, if_pos rfl]
    . rw [herased.insnsOf hr.arranged, hlist, List.filter_append]
      congr 1
      rw [List.filter_eq_self]
      intro j hj
      simpa using Ne.symm (hdisjoint p hp j hj)
    . intro y q hy hq
      obtain ⟨hmem, hq⟩ := hknown y q hq
      -- What is known of another register comes from another instruction.
      have hne : q.insn ≠ p := by
        intro heq
        rw [heq] at hq
        exact hy (haccess.unique hq).2
      exact ⟨List.mem_filter.mpr ⟨hmem, by simpa using hne⟩, hq.erased herased hne⟩
  | blank hread hlookup hcontent => exact ⟨Iff.rfl, front, .same, hlist, hsame⟩
  | @forward x p y t n r₁ hread hlookup hcontent hr₁ h =>
    obtain ⟨hplaces, haccesses⟩ : r.SamePlaces r₁ ∧
        ∀ {o j z}, r.Accesses o j z → r₁.Accesses o j z := by
      rcases h with ⟨-, rfl⟩ | ⟨-, h⟩
      . exact ⟨SamePlaces.refl r₁, fun haccess => haccess⟩
      . exact ⟨h.samePlaces, fun haccess => haccess.replaced h⟩
    obtain ⟨i, hi, hopcode, -⟩ := haccesses hread
    have hrewired := rewired_nop hi (by rw [hopcode]; decide)
    have hplaces' := hplaces.trans hrewired.places
    refine ⟨hplaces'.block?_ne_none, front, .same, ?_, ?_⟩
    . rw [hplaces'.insnsOf hr.arranged, hlist]
    . intro z q hq
      obtain ⟨hmem, hq⟩ := hknown z q hq
      refine ⟨Or.inl hmem, (haccesses hq).rewired hrewired ?_⟩
      intro heq
      exact hfront (heq ▸ hmem)
  | @cast x p y t t' c n r₁ r' hread hlookup hcontent hr₁ hinserted h =>
    obtain ⟨ip, hcode⟩ := hinserted.code
    refine ⟨h.samePlaces.block?_ne_none.trans hinserted.block?_ne_none, front ++ [c],
      .cast (by rw [h.code, hcode, if_pos rfl]; rfl) rfl, ?_, ?_⟩
    . rw [h.samePlaces.insnsOf hr₁.arranged, hinserted.insnsOf hr.arranged, hlist,
        Inserted.putBefore_append hfront (List.nodup_cons.mp htail).1, List.append_assoc]
      rfl
    . intro z q hq
      obtain ⟨hmem, hq⟩ := hknown z q hq
      exact ⟨Or.inl (List.mem_append_left [c] hmem), (hq.inserted hinserted).replaced h⟩

theorem offers {x : Register} {p : Producer} {y : Operand} {t : Ty} {gone : List InsnId}
    (hlist : r.insnsOf b = front ++ id :: todo) (hp : p.insn ∈ front)
    (haccess : r.Accesses p.opcode p.insn x) (hcontent : r.content? p = some (y, t))
    (hgone : ∀ j ∈ gone, ¬ r.Used j ∧ p.insn ≠ j)
    : r.Offers b id y ∧ ∀ j ∈ gone, y ≠ .insn j := by
  obtain ⟨before, mid, rfl⟩ := List.append_of_mem hp
  have hprecedes : r.Precedes p.insn id := by
    rw [List.append_assoc] at hlist
    exact .single (.listed hlist)
  obtain ⟨k, hk, hopcode, -⟩ := haccess
  obtain ⟨i, hi, ⟨hwrite, hy, -⟩ | ⟨-, rfl, -⟩⟩ := content?_eq_some.mp hcontent
  . have hmem : y ∈ i.operands := List.mem_of_getElem? hy
    have hphi : i.opcode ≠ .phi := by
      rw [hi] at hk
      cases hk
      rw [hopcode, hwrite]
      decide
    constructor
    . rintro j rfl
      exact ⟨.head (.operand hi hphi hmem) hprecedes, Or.inl ⟨p.insn, i, hi, hmem⟩⟩
    . rintro j hj rfl
      exact (hgone j hj).1 ⟨p.insn, i, hi, hmem⟩
  . constructor
    . intro j heq
      cases heq
      exact ⟨hprecedes, Or.inr (by simp [hlist])⟩
    . intro j hj heq
      cases heq
      exact (hgone _ hj).2 rfl

theorem lookup {x : Register} {p : Producer} (h : Forwards r known id known' n r')
    (hp : known'.lookup x = some p) : p.insn = id ∨ known.lookup x = some p := by
  have hcons : ∀ {y w}, List.lookup x ((y, Producer.mk id w) :: known) = some p →
      p.insn = id ∨ known.lookup x = some p := by
    intro y w hp
    rw [List.lookup_cons] at hp
    split at hp
    . cases hp
      exact Or.inl rfl
    . exact Or.inr hp
  cases h with
  | skip hi hother =>
    split at hp
    . cases hp
    . exact Or.inr hp
  | learn | write | overwrite => exact hcons hp
  | blank | forward | cast => exact Or.inr hp

end Forwards

/-- The changes so far. What has been replaced lies behind the sweep, and nothing is known from it. -/
structure Progress (b : BlockId) (start : Routine) (gone todo : List InsnId) (known : Producers)
    (n : Nat) (r : Routine) : Prop where
  spent : ∀ j ∈ gone, r.Spent b j
  behind : ∀ j ∈ gone, j ∉ todo
  unknown : ∀ j ∈ gone, ∀ x p, known.lookup x = some p → p.insn ≠ j
  steps : (n = 0 ∧ gone = [] ∧ r = start) ∨
    (n ≠ 0 ∧ Relation.TransGen (Reduces b) ([], start) (gone, r))

namespace Forwards

variable {start r r' : Routine} {b : BlockId} {id : InsnId} {known known' : Producers} {n m : Nat}
  {gone todo : List InsnId}

theorem reduces (h : Forwards r known id known' m r') (hscanned : Scanned b known (id :: todo) r)
    (hprogress : Progress b start gone (id :: todo) known n r)
    : (m = 0 ∧ r' = r) ∨ (m ≠ 0 ∧ ∃ gone', Reduces b (gone, r) (gone', r') ∧
        (gone' = gone ∧ (∀ x, ¬ r'.Reads id x) ∨ gone' = id :: gone ∧ known' = known)) := by
  obtain ⟨front, hlist, hknown⟩ := hscanned.rest
  have hr := hscanned.intact
  have hid : id ∈ r.insnsOf b := by simp [hlist]
  have hnew : id ∉ gone := fun hmem => hprogress.behind id hmem List.mem_cons_self
  -- What a register holds was computed before `id` and has not been replaced.
  have hoffers : ∀ {x p y t}, known.lookup x = some p → r.content? p = some (y, t) →
      r.Offers b id y ∧ ∀ j ∈ gone, y ≠ .insn j := by
    intro x p y t hlookup hcontent
    obtain ⟨hp, haccess⟩ := hknown x p hlookup
    exact offers hlist hp haccess hcontent
      fun j hj => ⟨(hprogress.spent j hj).free, hprogress.unknown j hj x p hlookup⟩
  cases h with
  | skip hi hother => exact Or.inl ⟨rfl, rfl⟩
  | learn hread hnone => exact Or.inl ⟨rfl, rfl⟩
  | write hwrite hother => exact Or.inl ⟨rfl, rfl⟩
  | @overwrite x p r' hwrite hlookup herased =>
    refine Or.inr ⟨Nat.one_ne_zero, gone, .overwrite hr ?_ ?_ herased, Or.inl ⟨rfl, ?_⟩⟩
    . rw [hlist]
      exact List.mem_append_left _ (hknown x _ hlookup).1
    . intro hmem
      exact hprogress.unknown p hmem x _ hlookup rfl
    . rintro y ⟨i, hi, hread⟩
      rw [herased.code] at hi
      split at hi
      . cases hi
      . cases (hwrite.unique ⟨i, hi, hread⟩).1
  | blank hread hlookup hcontent => exact Or.inl ⟨rfl, rfl⟩
  | forward hread hlookup hcontent hr₁ h =>
    obtain ⟨i, hi, hopcode, -⟩ := hread
    obtain ⟨hx, hne⟩ := hoffers hlookup hcontent
    refine Or.inr ⟨Nat.succ_ne_zero _, ?_⟩
    rcases h with ⟨-, rfl⟩ | ⟨hself, h⟩
    . refine ⟨gone, .retire hr hid hnew hi hopcode, Or.inl ⟨rfl, ?_⟩⟩
      rintro y ⟨k, hk, hread, -⟩
      rw [code?_modifyInsn, if_pos rfl] at hk
      obtain ⟨i', -, rfl⟩ := Option.map_eq_some_iff.mp hk
      cases hread
    . exact ⟨id :: gone, .forward hr hr₁ hid hnew hi hopcode hx hne hself h, Or.inr ⟨rfl, rfl⟩⟩
  | cast hread hlookup hcontent hr₁ hinserted h =>
    obtain ⟨i, hi, hopcode, -⟩ := hread
    obtain ⟨hx, hne⟩ := hoffers hlookup hcontent
    exact Or.inr ⟨Nat.succ_ne_zero _, id :: gone,
      .cast hr hr₁ hid hnew hi hopcode hx hne hinserted h, Or.inr ⟨rfl, rfl⟩⟩

theorem advances (h : Forwards r known id known' m r') (hscanned : Scanned b known (id :: todo) r)
    (hprogress : Progress b start gone (id :: todo) known n r)
    : ∃ gone', Progress b start gone' todo known' (n + m) r' ∧ gone ⊆ gone' ∧
        ((m = 0 ∧ r' = r) ∨ id ∈ gone' ∨ ∀ x, ¬ r'.Reads id x) := by
  have hnew : id ∉ gone := fun hmem => hprogress.behind id hmem List.mem_cons_self
  have hunknown : ∀ j ∈ gone, ∀ x p, known'.lookup x = some p → p.insn ≠ j := by
    intro j hj x p hp
    rcases h.lookup hp with heq | hp
    . rw [heq]
      rintro rfl
      exact hnew hj
    . exact hprogress.unknown j hj x p hp
  have hbehind : ∀ j ∈ gone, j ∉ todo := fun j hj htodo =>
    hprogress.behind j hj (List.mem_cons_of_mem id htodo)
  rcases h.reduces hscanned hprogress with ⟨rfl, rfl⟩ | ⟨hm, gone', hreduces, hgone'⟩
  . exact ⟨gone, ⟨hprogress.spent, hbehind, hunknown, hprogress.steps⟩, List.Subset.refl _,
      Or.inl ⟨rfl, rfl⟩⟩
  . refine ⟨gone', ⟨hreduces.spent hprogress.spent, ?_, ?_, Or.inr ⟨by omega, ?_⟩⟩, ?_, Or.inr ?_⟩
    . rcases hgone' with ⟨rfl, -⟩ | ⟨rfl, -⟩
      . exact hbehind
      . obtain ⟨front, hlist, -⟩ := hscanned.rest
        have hnodup := hscanned.intact.arranged.nodup_insnsOf b
        rw [hlist] at hnodup
        have htail := List.nodup_cons.mp (List.nodup_append.mp hnodup).2.1
        exact List.forall_mem_cons.mpr ⟨htail.1, hbehind⟩
    . rcases hgone' with ⟨rfl, -⟩ | ⟨rfl, rfl⟩
      . exact hunknown
      . refine List.forall_mem_cons.mpr ⟨?_, hunknown⟩
        intro x p hp heq
        obtain ⟨front, hlist, hknown⟩ := hscanned.rest
        have hnodup := hscanned.intact.arranged.nodup_insnsOf b
        rw [hlist] at hnodup
        exact (List.nodup_append.mp hnodup).2.2 p.insn (hknown x p hp).1 id List.mem_cons_self heq
    . rcases hprogress.steps with ⟨-, rfl, rfl⟩ | ⟨-, hsteps⟩
      . exact .single hreduces
      . exact hsteps.tail hreduces
    . rcases hgone' with ⟨rfl, -⟩ | ⟨rfl, -⟩
      . exact List.Subset.refl _
      . exact List.subset_cons_self id gone
    . rcases hgone' with ⟨-, hnot⟩ | ⟨rfl, -⟩
      . exact Or.inr hnot
      . exact Or.inl List.mem_cons_self

theorem progress (h : Forwards r known id known' m r') (hscanned : Scanned b known (id :: todo) r)
    (hprogress : Progress b start gone (id :: todo) known n r)
    : ∃ gone', Progress b start gone' todo known' (n + m) r' := by
  obtain ⟨gone', hprogress', -, -⟩ := h.advances hscanned hprogress
  exact ⟨gone', hprogress'⟩

end Forwards

theorem Scanned.start {b : BlockId} {r : Routine} (hr : r.Intact) (hb : r.block? b ≠ none)
    : Scanned b [] (r.insnsOf b) r := by
  refine ⟨hr, hb, [], rfl, ?_⟩
  intro x p hp
  cases hp

theorem Scanned.visited {b : BlockId} {r : Routine} {known : Producers} {id : InsnId}
    {todo : List InsnId} (h : Scanned b known (id :: todo) r) : ∃ i, r.insn? id = some i := by
  obtain ⟨front, hlist, -⟩ := h.rest
  have hid : id ∈ r.insnsOf b := by simp [hlist]
  obtain ⟨i, hi, -⟩ := h.intact.arranged.mem_insnsOf.mp hid
  exact ⟨i, hi⟩

theorem Scanned.producer {b : BlockId} {r : Routine} {known : Producers} {todo : List InsnId}
    {x : Register} {p : Producer} (h : Scanned b known todo r) (hp : known.lookup x = some p)
    : r.insn? p.insn ≠ none := by
  obtain ⟨front, -, hknown⟩ := h.rest
  obtain ⟨c, hc, -⟩ := (hknown x p hp).2
  obtain ⟨i, hi, -⟩ := exists_insn?_of_code? hc
  simp [hi]

theorem Scanned.step {b : BlockId} {r r' : Routine} {known known' : Producers} {id : InsnId}
    {todo : List InsnId} {n : Nat} (h : Scanned b known (id :: todo) r)
    (hforwards : Forwards r known id known' n r') (hr' : r'.Intact)
    : Scanned b known' todo r' ∧
        ∀ m, r'.neighbours? b id = some m → Direction.forward.pick m = todo.head? := by
  obtain ⟨front, hlist, hknown⟩ := h.rest
  obtain ⟨hlive, front', -, hlist', hknown'⟩ := hforwards.scans h.intact hlist hknown
  have hb := hlive.mpr h.live
  constructor
  . refine ⟨hr', hb, front' ++ [id], ?_, ?_⟩
    . rw [hlist', List.append_assoc]
      rfl
    . intro x p hp
      refine (hknown' x p hp).imp_left fun hmem => ?_
      rw [List.mem_append, List.mem_singleton]
      exact hmem
  . intro m hm
    have hlists := (hr'.arranged.holds_insnsOf hb).lists
    rw [hlist'] at hlists
    have := hlists.chain.links_eq
    rw [hm] at this
    cases this
    rfl

namespace Edit

variable {r r' : Routine} {b : BlockId} {debug : Bool} {n : Nat}

theorem visitRegister_visits {I : List InsnId → Producers × Nat → Routine → Prop}
    (hstep : ∀ {id todo known n known' m r r'}, Scanned b known (id :: todo) r →
      I (id :: todo) (known, n) r → Forwards r known id known' m r' → r.Grows r' →
      I todo (known', n + m) r')
    : Visits visitRegister b .forward (fun todo s r => Scanned b s.1 todo r ∧ I todo s r)
        Small := by
  have hsteps : ∀ {id todo s r s' r'}, Scanned b s.1 (id :: todo) r ∧ I (id :: todo) s r →
      visitRegister s id r = .ok s' r' → r'.Small →
      (Scanned b s'.1 todo r' ∧ I todo s' r') ∧
        ∀ m, r'.neighbours? b id = some m → Direction.forward.pick m = todo.head? := by
    rintro id todo ⟨known, n⟩ r ⟨known', n'⟩ r' ⟨hscanned, hI⟩ hrun hsmall
    obtain ⟨m, rfl, hforwards⟩ := forwards_of_ok hscanned.intact hrun hsmall
    have hgrows := (covers_keeps.visitRegister (known, n) id r).grows
    rw [left_of_ok hrun] at hgrows
    have hr' := hscanned.intact.of_ok (covers_keeps.visitRegister _ _)
      (covers_arranges.visitRegister _ _) hrun hsmall
    obtain ⟨hscanned', hleads⟩ := hscanned.step hforwards hr'
    exact ⟨⟨hscanned', hstep hscanned hI hforwards hgrows⟩, hleads⟩
  constructor
  . intro s id r hsmall
    exact (covers_keeps.visitRegister s id r).grows.small hsmall
  . rintro todo s r ⟨hscanned, -⟩
    obtain ⟨front, hlist, -⟩ := hscanned.rest
    have hlists := (hscanned.intact.arranged.holds_insnsOf hscanned.live).lists
    rw [hlist] at hlists
    apply Lists.path front.reverse
    simpa [Direction.joined] using hlists
  . intro id todo s r s' r' h hrun hsmall
    exact (hsteps h hrun hsmall).1
  . intro id todo s r s' r' h hrun hsmall
    exact (hsteps h hrun hsmall).2

theorem visitRegister_ends {I : List InsnId → Producers × Nat → Routine → Prop}
    (hstep : ∀ {id todo known n known' m r r'}, Scanned b known (id :: todo) r →
      I (id :: todo) (known, n) r → Forwards r known id known' m r' → r.Grows r' →
      I todo (known', n + m) r')
    (hr : r.Intact) (hb : r.block? b ≠ none) (hstart : I (r.insnsOf b) ([], 0) r)
    (hsmall : (left (sweepWith b .forward ([], 0) visitRegister) r).Small)
    : Ends visitRegister (fun todo s r => Scanned b s.1 todo r ∧ I todo s r)
        (sweepWith b .forward ([], 0) visitRegister r) :=
  (visitRegister_visits hstep).ends (hr.arranged.holds_insnsOf hb).lists
    ⟨Scanned.start hr hb, hstart⟩ hsmall

theorem forwardRegisters_reduced (hr : r.Intact) (hrun : forwardRegisters b debug r = .ok n r')
    (hsmall : r'.Small) : (n = 0 ∧ r' = r) ∨ (n ≠ 0 ∧ r.Reduced b r') := by
  rw [forwardRegisters_eq] at hrun
  obtain ⟨⟨known, m⟩, r₁, hsweep, hcomplete⟩ := of_bind_ok hrun
  have hsmall₁ : r₁.Small := by
    have := keeps_complete b m debug r₁
    rw [left_of_ok hcomplete] at this
    exact this.grows.small hsmall
  have hends := visitRegister_ends
    (I := fun todo s r₁ => ∃ gone, Progress b r gone todo s.1 s.2 r₁)
    (fun hscanned ⟨gone, hprogress⟩ hforwards _ => hforwards.progress hscanned hprogress)
    hr (block?_of_sweepWith hsweep) ⟨[], nofun, nofun, nofun, Or.inl ⟨rfl, rfl, rfl⟩⟩
    (by rwa [left_of_ok hsweep])
  rw [hsweep] at hends
  cases hends with
  | done h =>
    obtain ⟨hscanned, gone, hprogress⟩ := h
    rcases complete_cases hscanned.intact hcomplete hsmall with ⟨hm, rfl, rfl⟩ | ⟨hm, hn, hcleans⟩
    . rcases hprogress.steps with ⟨-, -, rfl⟩ | ⟨hm', -⟩
      . exact Or.inl ⟨rfl, rfl⟩
      . exact absurd hm hm'
    . rcases hprogress.steps with ⟨hm', -, -⟩ | ⟨-, hsteps⟩
      . exact absurd hm' hm
      . exact Or.inr ⟨hn, gone, r₁, hsteps, hprogress.spent, hcleans⟩

end Edit

end MachineIR
