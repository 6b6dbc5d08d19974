import MachineIR.Proofs.Agreement
import MachineIR.Proofs.Deduplication
import MachineIR.Proofs.Ranks

/-!
This module contains why the passes that put constants in the place of instructions are done after one
run. In a routine whose instructions can be ranked, the sweep comes to an instruction after all that its
operands refer to, so that no later replacement changes it. What has been replaced is not used any more,
and it cannot come to be used again, as only operands that stand somewhere take the place of others.
-/

namespace MachineIR

open Routine Edit

namespace Routine

variable {target : Routine → InsnId → Option Operand} {r r' : Routine} {b d : BlockId} {id j : InsnId}
  {x : Operand} {ρ : InsnId → Nat}

/--
What may stand for an instruction without effect that is no phi: a constant or one of its operands, and
which one depends on its code and on what the routine says beside its instructions.
-/
structure Substitutes (target : Routine → InsnId → Option Operand) : Prop where
  congr : ∀ {r r' id}, r'.code? id = r.code? id → r'.setting = r.setting → target r' id = target r id
  sound : ∀ {r id x}, target r id = some x → x ≠ .insn id ∧ ∃ c, r.code? id = some c ∧
    c.opcode ≠ .phi ∧ c.opcode.hasSideEffect = false ∧ (x.isConst = true ∨ x ∈ c.operands)

def Settled (target : Routine → InsnId → Option Operand) (r : Routine) (id : InsnId) : Prop :=
  ¬ r.Used id ∨ target r id = none

theorem setting_replaced (h : Replaced r r' (.insn id) x) : r'.setting = r.setting := by
  change r'.bare.setting = r.setting
  rw [h.bare]
  rfl

theorem insnsOf_of_discards (hr : r.Arranged) (h : Relation.ReflTransGen (Discards b) r r')
    : r'.insnsOf d = (r.insnsOf d).filter fun id => (r'.code? id).isSome := by
  induction h with
  | refl =>
    rw [List.filter_eq_self.mpr]
    intro id hid
    obtain ⟨i, hi, -⟩ := hr.mem_insnsOf.mp hid
    rw [code?_of_insn? hi]
    rfl
  | tail _ hlast ih =>
    obtain ⟨dead, hr', -, herased⟩ := hlast
    rw [herased.insnsOf hr'.arranged, ih, List.filter_filter]
    apply List.filter_congr
    intro id _
    rw [herased.code]
    by_cases hid : id = dead
    . simp [hid]
    . simp [hid]

namespace Substitutes

theorem lt (h : Substitutes target) (hranked : r.Ranked ρ) (hx : target r id = some (.insn j))
    : ρ j < ρ id := by
  obtain ⟨-, c, hc, hphi, -, hconst | hmem⟩ := h.sound hx
  . cases hconst
  . exact hranked.operand id c j hc hphi hmem

theorem used (h : Substitutes target) (hx : target r id = some (.insn j)) : r.Used j := by
  obtain ⟨-, c, hc, -, -, hconst | hmem⟩ := h.sound hx
  . cases hconst
  . exact ⟨id, c, hc, hmem⟩

theorem target_replaced (h : Substitutes target) (hranked : r.Ranked ρ) (hlt : ρ j < ρ id)
    (hreplaced : Replaced r r' (.insn id) x) (hnone : target r j = none) : target r' j = none := by
  cases hcode : r.code? j with
  | none =>
    rw [h.congr (by rw [hreplaced.code, hcode]; rfl) (setting_replaced hreplaced), hnone]
  | some c =>
    by_cases hphi : c.opcode = .phi
    . apply Option.eq_none_iff_forall_not_mem.mpr
      intro y hy
      obtain ⟨-, c', hc', hphi', -⟩ := h.sound hy
      rw [hreplaced.code, hcode] at hc'
      cases hc'
      exact hphi' hphi
    . have hnot : .insn id ∉ c.operands := by
        intro hmem
        have := hranked.operand j c id hcode hphi hmem
        omega
      rw [h.congr _ (setting_replaced hreplaced), hnone]
      rw [hreplaced.code, hcode, Option.map_some, Instruction.substitute_eq_self hnot]

theorem settled_replaced (h : Substitutes target) (hranked : r.Ranked ρ) (hlt : ρ j < ρ id)
    (hx : target r id = some x) (hreplaced : Replaced r r' (.insn id) x) (hj : Settled target r j)
    : Settled target r' j := by
  rcases hj with hunused | hnone
  . left
    rintro ⟨u, hu⟩
    rcases hreplaced.refers_iff.mp hu with ⟨-, hu⟩ | ⟨heq, -⟩
    . exact hunused ⟨u, hu⟩
    . exact hunused (h.used (heq ▸ hx))
  . exact Or.inr (h.target_replaced hranked hlt hreplaced hnone)

theorem target_of_cleans (h : Substitutes target) (hr : r.Arranged) (hcleans : r.Cleans b r')
    (hid : id ∈ r'.insnsOf b) (hsettled : Settled target r id) : target r' id = none := by
  rw [insnsOf_of_discards hr hcleans.discards, List.mem_filter, Option.isSome_iff_ne_none] at hid
  cases htarget : target r id with
  | none =>
    have hcode := (code?_of_discards hcleans.discards id).resolve_left hid.2
    rw [h.congr hcode (confined_of_discards hcleans.discards).setting, htarget]
  | some x =>
    have hunused : ¬ r.Used id := hsettled.resolve_right (by simp [htarget])
    obtain ⟨-, c, hc, -, hpure, -⟩ := h.sound htarget
    exact absurd (hcleans.thorough id ⟨hid.1, hunused, c, hc, hpure⟩) hid.2

end Substitutes

end Routine

namespace Edit

variable {target : Routine → InsnId → Option Operand} {visit : InsnId → Edit Nat}
  {r r' start : Routine} {b : BlockId} {debug : Bool} {id : InsnId} {i : Insn} {todo : List InsnId} {n m : Nat}
  {ρ : InsnId → Nat} {image : Image}

section Sweep

structure Substituting (target : Routine → InsnId → Option Operand) (visit : InsnId → Edit Nat)
    : Prop where
  substitutes : Substitutes target
  places : ∀ id, Within SamePlaces (visit id)
  idle : ∀ {id r}, r.insn? id ≠ none → target r id = none → visit id r = .ok 0 r
  same : ∀ {id r r'}, visit id r = .ok 0 r' → r' = r
  replaced : ∀ {id r r' n x}, r.Intact → target r id = some x → visit id r = .ok n r' →
    Replaced r r' (.insn id) x

structure Settling (target : Routine → InsnId → Option Operand) (ρ : InsnId → Nat) (b : BlockId)
    (start : Routine) (todo : List InsnId) (r : Routine) : Prop where
  intact : r.Intact
  ranked : r.Ranked ρ
  setting : r.setting = start.setting
  rest : ∃ done, r.insnsOf b = Direction.forward.joined done todo ∧ ∀ id ∈ done, Settled target r id

theorem Settling.step (hvisit : Substituting target visit)
    (h : Settling target ρ b start (id :: todo) r) (hrun : visit id r = .ok n r')
    : Settling target ρ b start todo r' := by
  obtain ⟨done, hlist, hdone⟩ := h.rest
  have hr := h.intact
  have htarget := hvisit.substitutes
  cases hx : target r id with
  | none =>
    obtain ⟨i, hi, -⟩ := hr.arranged.mem_insnsOf.mp
      (hlist ▸ Direction.mem_joined.mpr (Or.inr List.mem_cons_self))
    rw [hvisit.idle (by simp [hi]) hx] at hrun
    cases hrun
    refine ⟨hr, h.ranked, h.setting, id :: done, ?_, List.forall_mem_cons.mpr ⟨Or.inr hx, hdone⟩⟩
    rw [hlist, Direction.joined_cons]
  | some x =>
    have hreplaced := hvisit.replaced hr hx hrun
    have hplaces := hreplaced.samePlaces
    refine ⟨⟨hreplaced.tracked, hplaces.arranged hr.arranged, hreplaced.small hr.small⟩, ?_, ?_,
      id :: done, ?_, ?_⟩
    . apply h.ranked.replaced hr.arranged _ hreplaced
      rintro j rfl
      exact htarget.lt h.ranked hx
    . rw [setting_replaced hreplaced, h.setting]
    . rw [hplaces.insnsOf hr.arranged, hlist, Direction.joined_cons]
    . rw [List.forall_mem_cons]
      constructor
      . left
        rintro ⟨u, hu⟩
        exact hreplaced.not_refers (htarget.sound hx).1 u hu
      . intro j hj
        have hpairwise := h.ranked.listed b
        rw [hlist] at hpairwise
        -- What stands before `id` does not refer to it, so it is as settled as before.
        have hlt : ρ j < ρ id :=
          (List.pairwise_append.mp hpairwise).2.2 j (List.mem_reverse.mpr hj) id List.mem_cons_self
        exact htarget.settled_replaced h.ranked hlt hx hreplaced (hdone j hj)

theorem settling_of_sweep (hvisit : Substituting target visit) (hr : r.Intact) (hranked : r.Ranked ρ)
    (hrun : sweep b .forward visit r = .ok n r') : Settling target ρ b r [] r' := by
  have hb := block?_of_sweepWith hrun
  rw [sweep_eq_foldlM hvisit.places (hr.arranged.holds_insnsOf hb).lists] at hrun
  have hends : Ends (counting visit) (fun todo _ r' => Settling target ρ b r todo r')
      ((Direction.forward.along (r.insnsOf b)).foldlM (counting visit) 0 r) := by
    apply foldlM_ends (J := fun _ => True)
    . intro total id r _
      trivial
    . intro id todo total r total' r' h hrun _
      obtain ⟨n, hstep, -⟩ := of_counting_ok hrun
      exact h.step hvisit hstep
    . exact ⟨hr, hranked, rfl, [], Direction.joined_nil_along.symm, nofun⟩
    . trivial
  rw [hrun] at hends
  cases hends with
  | done h => exact h

theorem Settling.complete (hvisit : Substituting target visit) (h : Settling target ρ b start [] r)
    (hm : m ≠ 0) (hrun : complete b m debug r = .ok n r')
    : r'.Intact ∧ r'.setting = start.setting ∧ r'.block? b ≠ none ∧
        ∀ id ∈ r'.insnsOf b, target r' id = none := by
  obtain ⟨-, -, k, -, hremove⟩ := (complete_eq_ok hrun).resolve_left fun hzero => hm hzero.1
  have hr := h.intact
  have hcleaning := cleaning_of_removeDeadCode hr hremove
  have hcleans := (removeDeadCode_cleans hr hremove hcleaning.intact.small).1
  refine ⟨hcleaning.intact, ?_, hcleaning.live, ?_⟩
  . rw [(confined_of_discards hcleans.discards).setting, h.setting]
  . intro id hid
    have hmem := hid
    rw [insnsOf_of_discards hr.arranged hcleans.discards] at hmem
    obtain ⟨done, hlist, hdone⟩ := h.rest
    rw [hlist, Direction.joined, List.append_nil] at hmem
    exact hvisit.substitutes.target_of_cleans hr.arranged hcleans hid
      (hdone id (List.mem_reverse.mp (List.mem_filter.mp hmem).1))

theorem Substituting.idle_after (hvisit : Substituting target visit) (hr : r.Intact)
    (hordered : r.DefOrdered) (hrun : (sweep b .forward visit >>= (complete b · debug)) r = .ok n r')
    : r'.Intact ∧ r'.setting = r.setting ∧
        (sweep b .forward visit >>= (complete b · debug)) r' = .ok 0 r' ∧
        ∀ id ∈ r'.insnsOf b, visit id r' = .ok 0 r' := by
  obtain ⟨ρ, hranked⟩ := hordered
  obtain ⟨m, r₁, hsweep, hcomplete⟩ := of_bind_ok hrun
  by_cases hm : m = 0
  . subst hm
    obtain ⟨rfl, hb, hvisits⟩ := (sweep_eq_zero_iff hvisit.same hr.arranged).mp hsweep
    cases hcomplete
    exact ⟨hr, rfl, hrun, hvisits⟩
  . have hsettling := settling_of_sweep hvisit hr hranked hsweep
    obtain ⟨hr', hsetting, hb, hnone⟩ := hsettling.complete hvisit hm hcomplete
    have hvisits : ∀ id ∈ r'.insnsOf b, visit id r' = .ok 0 r' := by
      intro id hid
      obtain ⟨i, hi, -⟩ := hr'.arranged.mem_insnsOf.mp hid
      exact hvisit.idle (by simp [hi]) (hnone id hid)
    refine ⟨hr', hsetting, ?_, hvisits⟩
    rw [bind_complete_eq_zero_iff, sweep_eq_zero_iff hvisit.same hr'.arranged]
    exact ⟨rfl, hb, hvisits⟩

end Sweep

section Passes

theorem replaced_of_replaceUses {v : ValueId} {x : Operand} (hr : r.Intact) (hx : x ≠ .value v)
    (hrun : replaceUses v x r = .ok n r') : Replaced r r' v x := by
  rcases replaced_of_ok hr.tracked hr.small hrun with ⟨heq, -⟩ | ⟨-, -, -, hreplaced⟩
  . exact absurd heq hx
  . exact hreplaced

def folded (r : Routine) (id : InsnId) : Option Operand := (r.insn? id).bind (·.fold? id)

theorem folded_of_insn? (hi : r.insn? id = some i) : folded r id = i.fold? id := by
  simp [folded, hi]

theorem substitutes_folded : Substitutes folded where
  congr hcode _ := Insn.bind_of_code_eq hcode Insn.fold?_of_code_eq
  sound hx := by
    obtain ⟨i, hi, hfold⟩ := Option.bind_eq_some_iff.mp hx
    obtain ⟨hself, hphi, hpure, hplace⟩ := fold?_eq_some hfold
    exact ⟨hself, i.code, code?_of_insn? hi, hphi, hpure, hplace⟩

theorem substituting_foldInsn : Substituting folded foldInsn where
  substitutes := substitutes_folded
  places := coversInPlace_samePlaces.foldInsn
  idle hlive hnone := by
    obtain ⟨i, hi⟩ := Option.ne_none_iff_exists'.mp hlive
    rw [folded_of_insn? hi] at hnone
    exact foldInsn_eq_zero_iff.mpr ⟨rfl, i, hi, hnone⟩
  same hrun := (foldInsn_eq_zero_iff.mp hrun).1
  replaced hr hx hrun := by
    obtain ⟨i, hi, hfold⟩ := Option.bind_eq_some_iff.mp hx
    unfold foldInsn at hrun
    rw [bind_of_ok (knownInsn_run hi), hfold] at hrun
    obtain ⟨n, r₁, hreplace, hend⟩ := of_bind_ok hrun
    cases hend
    exact replaced_of_replaceUses hr (substitutes_folded.sound hx).1 hreplace

def resolved (image : Image) (r : Routine) (id : InsnId) : Option Operand :=
  (r.insn? id).bind fun i => (i.loadAddress?.bind (r.readConstant? image i.ty)).map .const

theorem substitutes_resolved (image : Image) : Substitutes (resolved image) where
  congr {r r' id} hcode hsetting := by
    have harch : r'.arch = r.arch := congrArg (·.2.2) hsetting
    have hread : r'.readConstant? image = r.readConstant? image := by
      funext t a
      unfold readConstant? decode?
      rw [harch]
    unfold resolved
    rw [hread]
    apply Insn.bind_of_code_eq hcode
    intro i i' hi
    rw [Insn.loadAddress?_of_code_eq hi, Insn.ty_of_code_eq hi]
  sound hx := by
    obtain ⟨i, hi, hread⟩ := Option.bind_eq_some_iff.mp hx
    obtain ⟨c, hc, rfl⟩ := Option.map_eq_some_iff.mp hread
    obtain ⟨a, ha, -⟩ := Option.bind_eq_some_iff.mp hc
    have hopcode : i.code.opcode = .loadMem := opcode_of_loadAddress? ha
    refine ⟨nofun, i.code, code?_of_insn? hi, ?_, ?_, Or.inl rfl⟩
    . rw [hopcode]
      decide
    . rw [hopcode]
      rfl

theorem substituting_resolveLoad (image : Image) : Substituting (resolved image) (resolveLoad image) where
  substitutes := substitutes_resolved image
  places := coversInPlace_samePlaces.resolveLoad image
  idle {id r} hlive hnone := by
    obtain ⟨i, hi⟩ := Option.ne_none_iff_exists'.mp hlive
    simp only [resolved, hi, Option.bind_some, Option.map_eq_none_iff] at hnone
    unfold resolveLoad
    rw [bind_of_ok (knownInsn_run hi), get_bind_run, hnone]
    rfl
  same := resolveLoad_eq_zero
  replaced {id r r' n x} hr hx hrun := by
    obtain ⟨i, hi, hread⟩ := Option.bind_eq_some_iff.mp hx
    obtain ⟨c, hc, rfl⟩ := Option.map_eq_some_iff.mp hread
    unfold resolveLoad at hrun
    rw [bind_of_ok (knownInsn_run hi), get_bind_run, hc] at hrun
    exact replaced_of_replaceUses hr nofun hrun

theorem constant_passes_idempotent (actions : List Action) (hsmall : (after actions).Small)
    (hordered : (after actions).DefOrdered) (b : BlockId) (debug : Bool)
    : (∀ n r', foldConstants b debug (after actions) = .ok n r' →
        foldConstants b debug r' = .ok 0 r' ∧
          ∀ id ∈ r'.insnsOf b, ∀ i, r'.insn? id = some i → i.fold? id = none) ∧
      ∀ n r', resolveLoads b debug (after actions) = .ok n r' →
        resolveLoads b debug r' = .ok 0 r' ∧
          ∀ image, r'.image = some image → ∀ id ∈ r'.insnsOf b, r'.Used id →
            ∀ i, r'.insn? id = some i → i.loadAddress?.bind (r'.readConstant? image i.ty) = none := by
  have hr := intact_after actions hsmall
  constructor
  . intro n r' hrun
    obtain ⟨hr', -, hagain, hvisits⟩ := substituting_foldInsn.idle_after hr hordered hrun
    refine ⟨hagain, ?_⟩
    intro id hid i hi
    obtain ⟨-, i', hi', hnone⟩ := foldInsn_eq_zero_iff.mp (hvisits id hid)
    rw [hi] at hi'
    cases hi'
    exact hnone
  . intro n r' hrun
    cases himage : (after actions).image with
    | none =>
      rw [resolveLoads_of_no_image himage] at hrun
      cases hrun
      refine ⟨resolveLoads_of_no_image himage b debug, ?_⟩
      intro image hsome
      rw [himage] at hsome
      cases hsome
    | some image =>
      rw [resolveLoads_of_image himage] at hrun
      obtain ⟨hr', hsetting, hagain, hvisits⟩ :=
        (substituting_resolveLoad image).idle_after hr hordered hrun
      have himage' : r'.image = some image := (congrArg (·.2.1) hsetting).trans himage
      rw [resolveLoads_of_image himage']
      refine ⟨hagain, ?_⟩
      intro image' hsome id hid hused i hi
      rw [himage'] at hsome
      cases hsome
      obtain ⟨i', hi', hrest⟩ := (resolveLoad_eq_zero_iff hr').mp (hvisits id hid)
      rw [hi] at hi'
      cases hi'
      exact hrest.resolve_left (not_not_intro hused)

def linkedImage : Image :=
  ({ base := 4096, data := [8, 16, 0, 0, 0, 0, 0, 0, 7, 0, 0, 0] } : Image).addSection
    { name := ".rdata", start := 0, stop := 12 }

def foldsInTurn : List Action :=
  [.setImage (some linkedImage),
    .setArch (some { name := "wide", pointerWidth := 64, byteOrder := .little, stackRegister := .ofNat 4 1 }),
    .addBlock,
    .pushBack (.ofNat 0) (.readReg .i32 (.ofNat 1 1)),
    .pushBack (.ofNat 0) (.binop .i32 .add (.const (.scalar .i32 2)) (.const (.scalar .i32 3))),
    .pushBack (.ofNat 0) (.cmp .i32 .eq (.insn (.ofNat 1)) (.const (.scalar .i32 5))),
    .pushBack (.ofNat 0) (.select .i32 (.insn (.ofNat 2)) (.insn (.ofNat 0)) (.insn (.ofNat 1))),
    .pushBack (.ofNat 0) (.loadAbsolute .pointer 4096),
    .pushBack (.ofNat 0) (.loadMem .i32 (.insn (.ofNat 4)) 0),
    .pushBack (.ofNat 0) (.writeReg (.ofNat 2 1) (.insn (.ofNat 3)) .i32),
    .pushBack (.ofNat 0) (.writeReg (.ofNat 3 1) (.insn (.ofNat 5)) .i32)]

theorem constant_passes_idempotent_foldsInTurn
    : (after foldsInTurn).Small ∧ (after foldsInTurn).DefOrdered ∧
        EStateM.run' (foldConstants (.ofNat 0) true) (after foldsInTurn) = some 10 ∧
        foldConstants (.ofNat 0) true (left (foldConstants (.ofNat 0) true) (after foldsInTurn)) =
          .ok 0 (left (foldConstants (.ofNat 0) true) (after foldsInTurn)) ∧
        EStateM.run' (resolveLoads (.ofNat 0) true) (after foldsInTurn) = some 4 ∧
        resolveLoads (.ofNat 0) true (left (resolveLoads (.ofNat 0) true) (after foldsInTurn)) =
          .ok 0 (left (resolveLoads (.ofNat 0) true) (after foldsInTurn)) := by
  have hsmall : (after foldsInTurn).Small := by decide +kernel
  have hordered : (after foldsInTurn).DefOrdered :=
    defOrdered_of_handles (by decide +kernel) (by decide +kernel)
  have hfold : EStateM.run' (foldConstants (.ofNat 0) true) (after foldsInTurn) = some 10 := by
    decide +kernel
  have hload : EStateM.run' (resolveLoads (.ofNat 0) true) (after foldsInTurn) = some 4 := by
    decide +kernel
  obtain ⟨hfolds, hloads⟩ := constant_passes_idempotent foldsInTurn hsmall hordered (.ofNat 0) true
  exact ⟨hsmall, hordered, hfold, (hfolds _ _ (run_of_run' hfold)).1, hload,
    (hloads _ _ (run_of_run' hload)).1⟩

end Passes

end Edit

end MachineIR
