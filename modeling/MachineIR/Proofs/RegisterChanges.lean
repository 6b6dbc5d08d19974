import MachineIR.Proofs.RegisterRuns

/-!
This module contains the changes that the register forwarding makes to a block, one by one, and that
none of them shows in a run: unused instructions go away, writes that are overwritten go away, and
reads are replaced by what their registers are known to hold.
-/

namespace MachineIR

open Routine Edit Instruction

namespace Routine

variable {r r' : Routine} {b : BlockId} {width : Register → Nat} {id j c : InsnId} {i : Instruction}

def RegularIn (r : Routine) (width : Register → Nat) (b : BlockId) : Prop :=
  ∀ id ∈ r.insnsOf b, ∀ i, r.code? id = some i → i.Regular width

/--
An instruction does not change the register `x`. If `x` has been written then the instruction need
not find it as it is either: if it is a read, it is not used.
-/
def Undisturbed (r : Routine) (x : Register) (written : Bool) (j : InsnId) : Prop :=
  ∀ i, r.code? j = some i → i.opcode.touchesRegisters = false ∧ (∀ y, i.write? ≠ some (x, y)) ∧
    (written = true → i.readRegister? = some x → ¬ r.Used j)

def unnoticed (r : Routine) (p : InsnId) (mid : List InsnId) (x : Register) : Set InsnId :=
  {j | j = p ∨ j ∈ mid ∧ ∃ i, r.code? j = some i ∧ i.readRegister? = some x}

theorem code?_retired
    : (r.modifyInsn id ({ · with opcode := .nop })).code? j =
        if j = id then (r.code? j).map ({ · with opcode := .nop }) else r.code? j := by
  rw [code?_modifyInsn]
  unfold code?
  rw [Option.map_map]
  rfl

namespace RegularIn

theorem replaced {v : ValueId} {y : Operand} (h : r.RegularIn width b) (hr : r.Intact)
    (hy : y.registers = []) (hreplaced : Replaced r r' v y) : r'.RegularIn width b := by
  intro id hid i hi
  rw [hreplaced.samePlaces.insnsOf hr.arranged] at hid
  rw [hreplaced.code] at hi
  obtain ⟨k, hk, rfl⟩ := Option.map_eq_some_iff.mp hi
  exact (h id hid k hk).substitute hy

theorem erased (h : r.RegularIn width b) (hr : r.Intact) (herased : Erased r r' j)
    : r'.RegularIn width b := by
  intro id hid i hi
  rw [herased.insnsOf hr.arranged, List.mem_filter] at hid
  rw [herased.code, if_neg (by simpa using hid.2)] at hi
  exact h id hid.1 i hi

theorem inserted (h : r.RegularIn width b) (hr : r.Intact) {k : Instruction}
    (hk : ∀ ip, { k with ip }.Regular width) (hinserted : Inserted r r' j k c)
    : r'.RegularIn width b := by
  intro id hid i hi
  obtain ⟨ip, hcode⟩ := hinserted.code
  rw [hcode] at hi
  rw [hinserted.insnsOf hr.arranged, Inserted.mem_putBefore] at hid
  split at hi
  . cases hi
    exact hk ip
  . next hne => exact h id (hid.resolve_left fun h => hne h.1) i hi

theorem retired (h : r.RegularIn width b) (hr : r.Intact) (hi : r.code? j = some i)
    (hread : i.opcode = .readReg)
    : (r.modifyInsn j ({ · with opcode := .nop })).RegularIn width b := by
  have hrewired := rewired_nop hi (by rw [hread]; decide)
  intro id hid k hk
  rw [hrewired.places.insnsOf hr.arranged] at hid
  rw [code?_retired] at hk
  split at hk
  . obtain ⟨k', hk', rfl⟩ := Option.map_eq_some_iff.mp hk
    exact .of_opcode (by simp) (by simp) (h id hid k' hk').addresses
  . exact h id hid k hk

end RegularIn

end Routine

section Changes

variable {W : Type} {E : Interpretation W} {s : Stage W} {r r' r'' : Routine} {b : BlockId}
  {width : Register → Nat} {X : Set Register} {U : Set InsnId} {id j c p : InsnId} {i k : Instruction}
  {x : Register} {front mid mid' back : List InsnId}

theorem Instruction.Regular.ignores (h : i.Regular width) (hi : r.code? id = some i)
    (hunused : ∀ u ∈ U, ¬ r.Used u) (hread : ∀ x, i.readRegister? = some x → x ∈ X → id ∈ U)
    (htouch : i.opcode.touchesRegisters = true → X = ∅) : i.Ignores X U id :=
  ⟨fun j hj hU => hunused j hU ⟨id, i, hi, hj⟩, h.addresses, hread, htouch⟩

theorem Opcode.touchesRegisters_of_pure {o : Opcode} (h : o.hasSideEffect = false)
    : o.touchesRegisters = false := by
  revert h
  cases o <;> decide

def Routine.KeepsCode (r r' : Routine) (b : BlockId) (mid : List InsnId) : Prop :=
  ∀ j ∈ r.insnsOf b, j ∈ r'.insnsOf b → r'.code? j = r.code? j ∨ j ∈ mid ∧
    ∃ i, r.code? j = some i ∧ i.opcode = .readReg ∧ r'.code? j = some { i with opcode := .nop }

theorem Routine.Arranged.holds_of_insnsOf_eq (h : r.Arranged)
    (hlist : r.insnsOf b = front ++ id :: back) : r.Holds b (front ++ id :: back) := by
  have hb : r.block? b ≠ none := by
    intro hnone
    rw [insnsOf_of_none hnone] at hlist
    simp at hlist
  have hholds := h.holds_insnsOf hb
  rwa [hlist] at hholds

theorem Edit.Erased.insnsOf_eq (h : Erased r r' id) (hr : r.Arranged)
    (hlist : r.insnsOf b = front ++ id :: back) : r'.insnsOf b = front ++ back :=
  (h.holds (hr.holds_of_insnsOf_eq hlist)).lists.insnsOf_eq

theorem Edit.Inserted.insnsOf_eq (h : Inserted r r' id i c) (hr : r.Arranged)
    (hlist : r.insnsOf b = front ++ id :: back) : r'.insnsOf b = front ++ c :: id :: back :=
  (h.holds (hr.holds_of_insnsOf_eq hlist)).lists.insnsOf_eq

theorem Edit.Erased.keepsCode (h : Erased r r' id) (hr : r.Arranged) : r.KeepsCode r' b mid := by
  intro j _ hj'
  left
  rw [h.code, if_neg]
  rintro rfl
  rw [h.insnsOf hr] at hj'
  simp at hj'

namespace Interpretation

theorem Simulates.refl (r : Routine) : E.Simulates s b r r :=
  ⟨fun _ _ _ => rfl, fun _ hid htouch => ⟨hid, htouch, rfl⟩, rfl⟩

theorem Simulates.trans (h : E.Simulates s b r r') (h' : E.Simulates s b r' r'')
    (hmid : ∀ id ∈ r.insnsOf b, id ∈ r''.insnsOf b → id ∈ r'.insnsOf b)
    : E.Simulates s b r r'' := by
  constructor
  . intro id hid hid''
    have hid' := hmid id hid hid''
    rw [h'.seen id hid' hid'', h.seen id hid hid']
  . intro id hid htouch
    obtain ⟨hid', htouch', heq⟩ := h.touched id hid htouch
    obtain ⟨hid'', htouch'', heq'⟩ := h'.touched id hid' htouch'
    exact ⟨hid'', htouch'', heq'.trans heq⟩
  . exact h'.final.trans h.final

namespace Matches

section Block

variable (hregular : r.RegularIn width b) (hunused : ∀ u ∈ U, ¬ r.Used u)
  (hcode : r.KeepsCode r' b mid)

include hregular hunused hcode

theorem unchanged (hmem : front ⊆ r.insnsOf b) (hmem' : front ⊆ r'.insnsOf b)
    (hmid : ∀ j ∈ front, j ∉ mid) : E.Matches r r' U ∅ ∅ front front := by
  apply same
  . intro j hj
    exact (hcode j (hmem hj) (hmem' hj)).resolve_right fun h => hmid j hj h.1
  . intro j hj i hi
    exact (hregular j (hmem hj) i hi).ignores hi hunused
      (fun x _ hx => absurd hx (Set.notMem_empty x)) fun _ => rfl

theorem surround (h : E.Matches r r' U ∅ ∅ mid mid') (hr : r.Intact)
    (hlist : r.insnsOf b = front ++ (mid ++ back)) (hlist' : r'.insnsOf b = front ++ (mid' ++ back))
    (hnew : ∀ j ∈ mid', j ∈ mid ∨ j ∉ r.insnsOf b)
    : E.Matches r r' U ∅ ∅ (r.insnsOf b) (r'.insnsOf b) := by
  have hnodup := hr.arranged.nodup_insnsOf b
  rw [hlist] at hnodup
  obtain ⟨-, htail, hfront⟩ := List.nodup_append.mp hnodup
  obtain ⟨-, -, hback⟩ := List.nodup_append.mp htail
  have hnewBack : ∀ j ∈ mid', j ∉ back := by
    intro j hj hmem
    rcases hnew j hj with hmid | hfresh
    . exact hback j hmid j hmem rfl
    . exact hfresh (by simp [hlist, hmem])
  have hnewFront : ∀ j ∈ front, j ∉ mid' ++ back := by
    intro j hj hmem
    rcases List.mem_append.mp hmem with hmid' | hmem
    . rcases hnew j hmid' with hmid | hfresh
      . exact hfront j hj j (List.mem_append_left _ hmid) rfl
      . exact hfresh (by simp [hlist, hj])
    . exact hfront j hj j (List.mem_append_right _ hmem) rfl
  have hfrontMatches : E.Matches r r' U ∅ ∅ front front :=
    unchanged hregular hunused hcode (by simp [hlist]) (by simp [hlist'])
      fun j hj hmid => hfront j hj j (List.mem_append_left _ hmid) rfl
  have hbackMatches : E.Matches r r' U ∅ ∅ back back :=
    unchanged hregular hunused hcode (by simp [hlist]) (by simp [hlist'])
      fun j hj hmid => hback j hmid j hj rfl
  rw [hlist, hlist']
  exact hfrontMatches.append
    (h.append hbackMatches (fun j hj hmem => hback j hj j hmem rfl) hnewBack
      fun j hj hmem => hback j hj j hmem rfl)
    (fun j hj hmem => hfront j hj j hmem rfl) (fun j hj hmem => hfront j hj j hmem rfl) hnewFront

theorem simulates (h : E.Matches r r' U ∅ ∅ (r.insnsOf b) (r'.insnsOf b)) (hr : r.Intact)
    : E.Simulates s b r r' := by
  -- Results that become different and are not used do not show.
  have hstart := Stage.Agrees.refl (X := ∅) (U := U) s
  constructor
  . intro id hid hid'
    obtain ⟨k, hk, -⟩ := hr.arranged.mem_insnsOf.mp hid
    have hi := code?_of_insn? hk
    have hvalues : ∀ j, .insn j ∈ k.code.operands → j ∉ U :=
      fun j hj hU => hunused j hU ⟨id, k.code, hi, hj⟩
    have haddresses := (hregular id hid k.code hi).addresses
    obtain ⟨Z, hbefore⟩ := h.before hstart hid hid'
    unfold seen
    rcases hcode id hid hid' with hsame | ⟨-, i, hi', hread, hnop⟩
    . rw [hsame, hi]
      dsimp only
      split
      . exact (h.after hstart).operands hvalues haddresses
      . exact hbefore.operands hvalues haddresses
    . rw [hi] at hi'
      cases hi'
      rw [hi, hnop]
      dsimp only
      rw [if_neg (by decide), if_neg (by rw [hread]; decide)]
      exact hbefore.operands hvalues haddresses
  . rintro id hid ⟨k, hk, htouch⟩
    obtain ⟨hid', hbefore⟩ := h.touched hstart hid ⟨k, hk, htouch⟩
    refine ⟨hid', ?_, hbefore.registers_eq⟩
    rcases hcode id hid hid' with hsame | ⟨-, i, hi', hread, -⟩
    . exact ⟨k, hsame.trans hk, htouch⟩
    . rw [hk] at hi'
      cases hi'
      rw [hread] at htouch
      cases htouch
  . exact (h.after hstart).registers_eq

end Block

end Matches

theorem simulates_discarded (hr : r.Intact) (hregular : r.RegularIn width b) (hspent : r.Spent b id)
    (herased : Erased r r' id) : E.Simulates s b r r' := by
  obtain ⟨front, back, hlist⟩ := List.append_of_mem hspent.mem
  obtain ⟨i, hi, heffect⟩ := hspent.code
  have hwrite : i.write? = none := by
    apply write?_eq_none
    intro hopcode
    rw [hopcode] at heffect
    cases heffect
  have hmatches : E.Matches r r' {id} ∅ ∅ [id] [] :=
    .drop hi rfl (Opcode.touchesRegisters_of_pure heffect) subset_rfl (by simp [hwrite])
  have hunused : ∀ u ∈ ({id} : Set InsnId), ¬ r.Used u := by
    rintro u rfl
    exact hspent.free
  have hcode : r.KeepsCode r' b [id] := herased.keepsCode hr.arranged
  exact (hmatches.surround hregular hunused hcode hr hlist (herased.insnsOf_eq hr.arranged hlist)
    (by simp)).simulates hregular hunused hcode hr

theorem simulates_retired (hr : r.Intact) (hregular : r.RegularIn width b) (hid : id ∈ r.insnsOf b)
    (hfree : ¬ r.Used id) (hi : r.code? id = some i) (hread : i.opcode = .readReg)
    : E.Simulates s b r (r.modifyInsn id ({ · with opcode := .nop })) := by
  have hrewired := rewired_nop hi (by rw [hread]; decide)
  obtain ⟨front, back, hlist⟩ := List.append_of_mem hid
  have hnop : (r.modifyInsn id ({ · with opcode := .nop })).code? id =
      some { i with opcode := .nop } := by
    rw [code?_retired, if_pos rfl, hi]
    rfl
  have hmatches : E.Matches r (r.modifyInsn id ({ · with opcode := .nop })) {id} ∅ ∅ [id] [id] :=
    .change hi hnop rfl (by rw [hread]; rfl) rfl (write?_eq_none (by rw [hread]; decide))
      (write?_eq_none (by simp))
  have hunused : ∀ u ∈ ({id} : Set InsnId), ¬ r.Used u := by
    rintro u rfl
    exact hfree
  have hcode : r.KeepsCode (r.modifyInsn id ({ · with opcode := .nop })) b [id] := by
    intro j hj _
    by_cases hne : j = id
    . subst hne
      exact Or.inr ⟨List.mem_singleton_self j, i, hi, hread, hnop⟩
    . exact Or.inl (by rw [code?_retired, if_neg hne])
  exact (hmatches.surround hregular hunused hcode hr hlist
    ((hrewired.places.insnsOf hr.arranged b).trans hlist) (by simp)).simulates hregular hunused hcode hr

theorem simulates_inserted {t t' : Ty} {y : Operand} (hr : r.Intact) (hregular : r.RegularIn width b)
    (hid : id ∈ r.insnsOf b) (hinserted : Inserted r r' id (.bitcast t t' y) c)
    : E.Simulates s b r r' := by
  obtain ⟨front, back, hlist⟩ := List.append_of_mem hid
  obtain ⟨ip, hip⟩ := hinserted.code
  have hfresh : c ∉ r.insnsOf b := by
    intro hc
    obtain ⟨k, hk, -⟩ := hr.arranged.mem_insnsOf.mp hc
    exact hinserted.ne (code?_of_insn? hk) rfl
  have hmatches : E.Matches r r' {c} ∅ ∅ [] [c] :=
    .add (by rw [hip, if_pos rfl]) rfl rfl (write?_eq_none (by simp [bitcast, make]))
  have hunused : ∀ u ∈ ({c} : Set InsnId), ¬ r.Used u := by
    rintro u rfl ⟨j, hj⟩
    have hne : j ≠ u := by
      obtain ⟨k, hk, -⟩ := hj
      exact hinserted.ne hk
    exact hinserted.not_refers hr.tracked j (hinserted.refers_iff.mpr (Or.inl ⟨hne, hj⟩))
  have hcode : r.KeepsCode r' b [] := by
    intro j hj _
    left
    rw [hip, if_neg]
    rintro rfl
    exact hfresh hj
  exact (hmatches.surround hregular hunused hcode hr hlist (hinserted.insnsOf_eq hr.arranged hlist)
    (by simpa using hfresh)).simulates hregular hunused hcode hr

theorem matches_overwritten {y z : Operand} (hregular : r.RegularIn width b)
    (hunused : ∀ u ∈ r.unnoticed p mid x, ¬ r.Used u) (hmem : mid ++ [id] ⊆ r.insnsOf b)
    (hnodup : (p :: (mid ++ [id])).Nodup) (hcode : ∀ j, j ≠ p → r'.code? j = r.code? j)
    (hk : r.code? p = some k) (hfirst : k.write? = some (x, y)) (hi : r.code? id = some i)
    (hsecond : i.write? = some (x, z)) (hmid : ∀ j ∈ mid, r.Undisturbed x true j)
    : E.Matches r r' (r.unnoticed p mid x) ∅ ∅ ([p] ++ (mid ++ [id])) ([] ++ (mid ++ [id])) := by
  -- Between the two writes the register is different, and what is different then is not used.
  obtain ⟨hp, hrest⟩ := List.nodup_cons.mp hnodup
  have hid : ∀ j ∈ mid, j ∉ [id] :=
    fun j hj hmem => (List.nodup_append.mp hrest).2.2 j hj j hmem rfl
  have hne : ∀ j ∈ mid ++ [id], j ≠ p := by
    rintro j hj rfl
    exact hp hj
  have hdrop : E.Matches r r' (r.unnoticed p mid x) ∅ {x} [p] [] := by
    refine .drop hk (Or.inl rfl) ?_ (Set.empty_subset _) ?_
    . rw [(write?_eq_some.mp hfirst).1]
      rfl
    . intro x' y' h
      rw [hfirst] at h
      cases h
      rfl
  have hsame : E.Matches r r' (r.unnoticed p mid x) {x} {x} mid mid := by
    refine .same (fun j hj => hcode j (hne j (List.mem_append_left _ hj))) ?_
    intro j hj i hi
    refine (hregular j (hmem (List.mem_append_left _ hj)) i hi).ignores hi hunused ?_ ?_
    . rintro x' hread rfl
      exact Or.inr ⟨hj, i, hi, hread⟩
    . intro htouch
      rw [(hmid j hj i hi).1] at htouch
      cases htouch
  have hoverwrite : E.Matches r r' (r.unnoticed p mid x) {x} ∅ [id] [id] := by
    have hopcode := (write?_eq_some.mp hsecond).1
    refine .overwrite hi (hcode id (hne id (by simp))) ?_ hsecond
    refine (hregular id (hmem (by simp)) i hi).ignores hi hunused ?_ ?_
    . intro x' hread
      rw [readRegister?_eq_none (by rw [hopcode]; decide)] at hread
      cases hread
    . rw [hopcode]
      rintro ⟨⟩
  refine hdrop.append (hsame.append hoverwrite hid hid hid) ?_ (by simp) ?_
  . intro j hj hmem
    exact hne j hmem (List.mem_singleton.mp hj)
  . intro j hj hmem
    exact hne j hmem (List.mem_singleton.mp hj)

theorem simulates_overwritten {y z : Operand} (hr : r.Intact) (hregular : r.RegularIn width b)
    (hlist : r.insnsOf b = front ++ p :: (mid ++ id :: back)) (hk : r.code? p = some k)
    (hfirst : k.write? = some (x, y)) (hi : r.code? id = some i) (hsecond : i.write? = some (x, z))
    (hmid : ∀ j ∈ mid, r.Undisturbed x true j) (hfree : ¬ r.Used p) (herased : Erased r r' p)
    : E.Simulates s b r r' := by
  -- the reads in between have been forwarded, so that nothing refers to them
  have hunused : ∀ u ∈ r.unnoticed p mid x, ¬ r.Used u := by
    rintro u (rfl | ⟨hu, i, hi, hread⟩)
    . exact hfree
    . exact (hmid u hu i hi).2.2 rfl hread
  have hlist₁ : r.insnsOf b = front ++ ([p] ++ (mid ++ [id]) ++ back) := by simp [hlist]
  have hlist₂ : r'.insnsOf b = front ++ ([] ++ (mid ++ [id]) ++ back) := by
    simp [herased.insnsOf_eq hr.arranged hlist]
  have hnodup : (p :: (mid ++ [id])).Nodup := by
    have := hr.arranged.nodup_insnsOf b
    rw [hlist₁] at this
    exact (List.nodup_append.mp (List.nodup_append.mp this).2.1).1
  have hmem : mid ++ [id] ⊆ r.insnsOf b := by
    intro j hj
    rw [hlist₁]
    exact List.mem_append_right _ (List.mem_append_left _ (List.mem_cons_of_mem p hj))
  have hmatches := matches_overwritten (E := E) hregular hunused hmem hnodup
    (fun j hj => by rw [herased.code, if_neg hj]) hk hfirst hi hsecond hmid
  have hcode : r.KeepsCode r' b ([p] ++ (mid ++ [id])) := herased.keepsCode hr.arranged
  exact (hmatches.surround hregular hunused hcode hr hlist₁ hlist₂
    fun j hj => Or.inl (List.mem_append_right _ hj)).simulates hregular hunused hcode hr

end Interpretation

end Changes

section Contents

variable {W : Type} {E : Interpretation W} {s : Stage W} {r r₁ r' : Routine} {b : BlockId}
  {width : Register → Nat} {ρ : InsnId → Nat} {id j c : InsnId} {i : Instruction} {x : Register}
  {y : Operand} {t : Ty} {p : Producer} {front back : List InsnId}

def Routine.Retains (r : Routine) (front : List InsnId) (x : Register) (p : Producer) : Prop :=
  ∃ first mid, front = first ++ p.insn :: mid ∧ ∀ j ∈ mid, r.Undisturbed x p.isWrite j

inductive Routine.Supplies (r : Routine) (p : Producer) (x : Register) (y : Operand) : Prop
  | write {i : Instruction} (hi : r.code? p.insn = some i) (hp : p.isWrite = true)
    (h : i.write? = some (x, y))
  | read {i : Instruction} (hi : r.code? p.insn = some i) (hp : p.isWrite = false)
    (h : i.readRegister? = some x) (hy : y = .insn p.insn)

theorem Routine.Ranked.lt_of_mem {p : InsnId} (h : r.Ranked ρ)
    (hlist : r.insnsOf b = front ++ p :: back) (hj : j ∈ back) : ρ p < ρ j := by
  have hpairwise := h.listed b
  rw [hlist] at hpairwise
  exact List.rel_of_pairwise_cons (List.pairwise_append.mp hpairwise).2.1 hj

theorem Routine.Ranked.lt_of_write (h : r.Ranked ρ) (hi : r.code? id = some i)
    (hwrite : i.write? = some (x, .insn j)) : ρ j < ρ id := by
  obtain ⟨hopcode, hoperands⟩ := write?_eq_some.mp hwrite
  apply h.operand id i j hi
  . rw [hopcode]
    decide
  . simp [hoperands]

namespace Routine.Supplies

theorem rank_le (h : r.Supplies p x y) (hranked : r.Ranked ρ) (hy : y = .insn j)
    : ρ j ≤ ρ p.insn := by
  cases h with
  | write hi hp h =>
    subst hy
    exact Nat.le_of_lt (hranked.lt_of_write hi h)
  | read hi hp h hy' =>
    rw [hy] at hy'
    cases hy'
    exact Nat.le_refl _

theorem ne_of_mem (h : r.Supplies p x y) (hranked : r.Ranked ρ)
    (hlist : r.insnsOf b = front ++ p.insn :: back) (hj : j ∈ back) : y ≠ .insn j := by
  intro hy
  exact Nat.not_lt_of_le (h.rank_le hranked hy) (hranked.lt_of_mem hlist hj)

theorem step (h : r.Supplies p x y) (hranked : r.Ranked ρ) (hy : y.registers = [])
    : (E.step r s p.insn).registers x = E.operand (E.step r s p.insn) y := by
  -- a write puts the operand there, a read takes its result from there
  cases h with
  | @write i hi hp h =>
    have hne : y ≠ .insn p.insn := by
      rintro rfl
      exact Nat.lt_irrefl _ (hranked.lt_of_write hi h)
    rw [Interpretation.step_registers hi, Interpretation.registersAfter_of_write h,
      Function.update_self, Interpretation.operand_step hne hy]
  | @read i hi hp h hy' =>
    have hopcode := (readRegister?_eq_some.mp h).1
    have hwrite : i.write? = none := write?_eq_none (by rw [hopcode]; decide)
    rw [Interpretation.step_registers_of_ne hi (by rw [hopcode]; rfl) (by simp [hwrite]), hy']
    show s.registers x = (E.step r s p.insn).values p.insn
    rw [Interpretation.step_values_self hi]
    unfold Interpretation.value
    rw [h]

end Routine.Supplies

theorem Interpretation.registers_run {w : Bool} {ids : List InsnId}
    (hids : ∀ j ∈ ids, r.Undisturbed x w j ∧ y ≠ .insn j) (hy : y.registers = [])
    (h : s.registers x = E.operand s y)
    : (E.run r ids s).registers x = E.operand (E.run r ids s) y := by
  induction ids generalizing s with
  | nil => exact h
  | cons k rest ih =>
    obtain ⟨⟨hk, hne⟩, hrest⟩ := List.forall_mem_cons.mp hids
    apply ih hrest
    rw [operand_step hne hy, ← h]
    cases hi : r.code? k with
    | none =>
      unfold step
      rw [hi]
    | some i =>
      obtain ⟨htouch, hwrite, -⟩ := hk i hi
      exact step_registers_of_ne hi htouch hwrite

theorem Routine.Retains.registers_eq (h : r.Retains front x p) (hsupplies : r.Supplies p x y)
    (hranked : r.Ranked ρ) (hy : y.registers = []) (hlist : r.insnsOf b = front ++ back)
    : (E.run r front s).registers x = E.operand (E.run r front s) y := by
  obtain ⟨first, mid, rfl, hmid⟩ := h
  rw [Interpretation.run_append, Interpretation.run_cons]
  refine Interpretation.registers_run (w := p.isWrite) ?_ hy (hsupplies.step hranked hy)
  intro j hj
  refine ⟨hmid j hj, ?_⟩
  rw [List.append_assoc] at hlist
  exact hsupplies.ne_of_mem hranked hlist (List.mem_append_left _ hj)

theorem Routine.Retains.lt (h : r.Retains front x p) (hsupplies : r.Supplies p x y)
    (hranked : r.Ranked ρ) (hlist : r.insnsOf b = front ++ back) (hid : id ∈ back)
    (hy : y = .insn j) : ρ j < ρ id := by
  obtain ⟨first, mid, rfl, -⟩ := h
  rw [List.append_assoc] at hlist
  exact Nat.lt_of_le_of_lt (hsupplies.rank_le hranked hy)
    (hranked.lt_of_mem hlist (List.mem_append_right _ hid))

theorem Instruction.Regular.readRegister?_eq (h : i.Regular width) (hopcode : i.opcode = .readReg)
    (hx : i.operands[0]? = some (.reg x))
    : i.readRegister? = some x ∧ i.ty.isSymbolic = false ∧ i.ty.bitWidth = width x := by
  obtain ⟨x', hoperands, hty⟩ := h.read hopcode
  rw [hoperands] at hx
  cases hx
  refine ⟨readRegister?_eq_some.mpr ⟨hopcode, hoperands⟩, ?_⟩
  unfold ty
  rw [hopcode]
  exact hty

theorem Instruction.Regular.write?_eq (h : i.Regular width) (hopcode : i.opcode = .writeReg)
    (hx : i.operands[0]? = some (.reg x))
    : ∃ y, i.write? = some (x, y) ∧ (i.template 0).isSymbolic = false ∧
        (i.template 0).bitWidth = width x := by
  obtain ⟨x', y, hoperands, hty⟩ := h.write hopcode
  rw [hoperands] at hx
  cases hx
  exact ⟨y, write?_eq_some.mpr ⟨hopcode, hoperands⟩, hty⟩

theorem Routine.RegularIn.exists_content (h : r.RegularIn width b) (hp : p.insn ∈ r.insnsOf b)
    (haccess : r.Accesses p.opcode p.insn x)
    : ∃ y t, r.content? p = some (y, t) ∧ r.Supplies p x y ∧ y.registers = [] ∧
        t.isSymbolic = false ∧ t.bitWidth = width x := by
  obtain ⟨i, hi, hopcode, hx⟩ := haccess
  have hregular := h p.insn hp i hi
  unfold content?
  rw [hi, Option.bind_some]
  cases hwrite : p.isWrite with
  | true =>
    rw [Producer.opcode, if_pos hwrite] at hopcode
    obtain ⟨y, hy, hty⟩ := hregular.write?_eq hopcode hx
    have hoperands := (write?_eq_some.mp hy).2
    refine ⟨y, i.template 0, ?_, .write hi hwrite hy, hregular.addresses y (by simp [hoperands]), hty⟩
    simp [Instruction.operand?, hoperands]
  | false =>
    rw [Producer.opcode, if_neg (by simp [hwrite])] at hopcode
    obtain ⟨hread, hty⟩ := hregular.readRegister?_eq hopcode hx
    exact ⟨.insn p.insn, i.ty, rfl, .read hi hwrite hread rfl, rfl, hty⟩

theorem Interpretation.simulates_replaced (hr : r.Intact) (hregular : r.RegularIn width b)
    (hranked : r.Ranked ρ) (hlist : r.insnsOf b = front ++ id :: back) (hi : r.code? id = some i)
    (hread : i.readRegister? = some x) (hback : ∀ j ∈ id :: back, y ≠ .insn j)
    (hy : y.registers = [])
    (hheld : (E.run r front s).registers x = E.operand (E.run r front s) y)
    (hreplaced : Replaced r r' (.insn id) y) : E.Simulates s b r r' := by
  obtain ⟨hself, hback⟩ := List.forall_mem_cons.mp hback
  have hlist₁ : r.insnsOf b = (front ++ [id]) ++ back := by simp [hlist]
  have hsubstitutes : E.Substitutes s r width id y (front ++ [id]) back := by
    refine ⟨fun j hj => hregular j (hlist₁ ▸ hj), ?_, ?_, hy, ?_⟩
    . -- only phis can refer to what comes later
      intro j hj k hk hphi hmem
      have hlt := hranked.operand j k id hk hphi hmem
      rcases List.mem_append.mp hj with hj | hj
      . obtain ⟨first, mid, rfl⟩ := List.append_of_mem hj
        rw [List.append_assoc] at hlist
        exact Nat.lt_asymm hlt (hranked.lt_of_mem hlist (by simp))
      . cases List.mem_singleton.mp hj
        exact Nat.lt_irrefl _ hlt
    . intro j hj
      refine ⟨?_, hback j hj⟩
      rintro rfl
      exact Nat.lt_irrefl _ (hranked.lt_of_mem hlist hj)
    . rw [run_append]
      show E.operand (E.step r (E.run r front s) id) y = (E.step r (E.run r front s) id).values id
      rw [operand_step hself hy, step_values_self hi, ← hheld]
      unfold value
      rw [hread]
  exact hsubstitutes.simulates hlist₁ ((hreplaced.samePlaces.insnsOf hr.arranged b).trans hlist₁)
    hreplaced.code

theorem Interpretation.registers_run_inserted {t' : Ty}
    (hinserted : Inserted r r' id (.bitcast t t' y) c) (hfront : c ∉ front)
    (ht : t.isSymbolic = false) (ht' : t'.isSymbolic = false) (hwidth : t.bitWidth = t'.bitWidth)
    (h : (E.run r front s).registers x = E.operand (E.run r front s) y)
    : (E.run r' (front ++ [c]) s).registers x = E.operand (E.run r' (front ++ [c]) s) (.insn c) := by
  obtain ⟨ip, hcode⟩ := hinserted.code
  have hrun : E.run r' front s = E.run r front s := by
    apply run_congr
    intro j hj
    rw [hcode, if_neg]
    rintro rfl
    exact hfront hj
  have hc : r'.code? c = some { Instruction.bitcast t t' y with ip } := by rw [hcode, if_pos rfl]
  rw [run_append, hrun]
  show (E.step r' (E.run r front s) c).registers x = (E.step r' (E.run r front s) c).values c
  rw [step_registers_of_ne hc rfl (by simp [write?, bitcast, make]), step_values_self hc, h]
  exact (E.result_bitcast t t' _ ht ht' hwidth).symm

theorem Routine.Supplies.ne_of_unused {x' : Register} (h : r.Supplies p x y) (hi : r.code? j = some i)
    (hread : i.readRegister? = some x') (hunused : ¬ r.Used j) (hp : x' = x → p.isWrite = true)
    : y ≠ .insn j := by
  -- What a register holds is not the result of a read that is not used, but for a read of its own.
  rintro rfl
  cases h with
  | @write k hk hp h =>
    refine hunused ⟨p.insn, k, hk, ?_⟩
    rw [(write?_eq_some.mp h).2]
    simp
  | @read k hk hp' h heq =>
    cases heq
    rw [hi] at hk
    cases hk
    rw [hread] at h
    cases h
    rw [hp rfl] at hp'
    cases hp'

end Contents

end MachineIR
