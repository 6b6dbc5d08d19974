import MachineIR.Proofs.PassFailures
import MachineIR.Proofs.Ranks

/-!
This module contains the types that the passes keep. What takes the place of a result has the type of
the result, so that all instructions still fit. A read of a register that holds another type is
replaced by a conversion, and an overwritten write can be erased because nothing refers to it.
-/

namespace MachineIR

theorem Constant.ty_of_ofBits? {t : Ty} {raw : Nat} {c : Constant} (h : ofBits? t raw = some c)
    : c.ty = t := by
  cases t <;> cases h
  rfl

theorem Edit.Inserted.order {r r' : Routine} {id c : InsnId} {i : Instruction}
    (h : Inserted r r' id i c) : r'.order = r.order := by
  obtain ⟨n, -, hbare⟩ := h.attached
  have horder : ∀ (p : Option InsnId) (r : Routine),
      (attach n.block p (some id) c r).order = r.order := by
    intro p r
    unfold attach joinBetween setPrev setNext
    cases p <;> rfl
  exact (congrArg Routine.order hbare :).trans (horder _ _)

namespace Routine

open Edit

variable {r r' : Routine} {b : BlockId} {id c : InsnId} {i : Insn} {x y : Operand} {t t' : Ty}
  {v : ValueId}

section Results

theorem valueType_of_code? {k : Instruction} (hk : r.code? id = some k)
    : r.valueType (.insn id) = k.ty := by
  obtain ⟨i, hi, rfl⟩ := exists_insn?_of_code? hk
  simp [valueType, hi, Insn.ty]

theorem operandType_congr (h : ∀ j, x = .insn j → r'.code? j = r.code? j)
    : r'.operandType x = r.operandType x := by
  have htype : ∀ (r : Routine) j, r.valueType (.insn j) =
      ((r.code? j).map Instruction.ty).getD .none := by
    intro r j
    unfold code?
    rw [Option.map_map]
    rfl
  cases x with
  | value v =>
    cases v with
    | insn j =>
      change r'.valueType (.insn j) = r.valueType (.insn j)
      rw [htype, htype, h j rfl]
    | block b => rfl
  | _ => rfl

theorem operandType_of_fold? (h : r.Fits i) (hfold : i.fold? id = some x)
    : r.operandType x = i.ty := by
  unfold Insn.fold? at hfold
  split at hfold
  . next hopcode =>
    have harm := (Option.filter_eq_some_iff.mp hfold).1
    unfold Insn.chosenArm? at harm
    simp only [Option.bind_eq_bind, Option.bind_eq_some_iff] at harm
    obtain ⟨c, -, arm, -, harm⟩ := harm
    have hty : i.ty = i.template 0 := by
      simp [Insn.ty, Instruction.ty, Insn.code, hopcode, Opcode.signature, Instruction.resolve?,
        Insn.template]
    rw [hty]
    apply h.types _ x _ harm
    cases arm <;>
      simp [Instruction.slotType?, Insn.code, hopcode, Opcode.signature, Instruction.resolve?,
        Insn.template]
  . obtain ⟨c, hc, rfl⟩ := Option.map_eq_some_iff.mp hfold
    have hty := (Option.filter_eq_some_iff.mp hc).2
    rw [Bool.and_eq_true, beq_iff_eq] at hty
    exact hty.1

theorem valueType_of_duplicate? {earlier : InsnId} (h : r.duplicate? id = some earlier)
    : r.valueType (.insn earlier) = r.valueType (.insn id) := by
  have halike := identicalValues_iff.mp (identicalValues_of_duplicate? h)
  rcases halike.cases with heq | hpair | hmatches
  . rw [heq]
  . cases hpair
  . exact hmatches.1.symm

theorem ty_of_readConstant? {image : Image} {a : UInt64} {c : Constant}
    (h : r.readConstant? image t a = some c) : c.ty = t := by
  obtain ⟨size, home, -, -, -, hdecode, -⟩ := readConstant?_steps.mp h
  obtain ⟨-, -, hbits⟩ := decode?_eq_some.mp hdecode
  exact Constant.ty_of_ofBits? hbits

end Results

theorem fits_of_bitcast {ip : Option UInt64}
    (hcode : i.code = { Instruction.bitcast t t' y with ip }) (hy : r.operandType y = t)
    : r.Fits i := by
  have hopcode : i.opcode = .bitcast := congrArg Instruction.opcode hcode
  have hoperands : i.operands = [y] := congrArg Instruction.operands hcode
  have hlength : i.slots.length = 1 := by
    simpa [Insn.operands] using congrArg List.length hoperands
  constructor
  . rw [hopcode, hlength]
    exact Nat.le_refl 1
  . rw [hopcode, hlength]
    exact fun _ => rfl
  . intro k x u hx hu
    rw [Insn.operand?_eq, hoperands, List.getElem?_singleton, Option.ite_none_right_eq_some] at hx
    obtain ⟨rfl, heq⟩ := hx
    cases heq
    rw [hcode] at hu
    cases hu
    exact hy
  . rw [hopcode]
    intro k v hk
    cases hk

namespace WellFormed

theorem of_fits {R : Ty → Ty → Prop} (harranged : r.Arranged)
    (hlaid : ∀ b ∈ r.order, r.block? b ≠ none)
    (hfits : ∀ id i, r.insn? id = some i → FitsUpTo R r i) : r.WellFormed R := by
  refine ⟨?_, hfits, ?_⟩
  . intro id i hi
    exact block?_ne_none_iff.mp (harranged.home _ id _ (neighbours?_of_insn? hi rfl))
  . intro b hb
    exact ⟨_, (harranged.holds_insnsOf (hlaid b hb)).lists⟩

theorem laid {R : Ty → Ty → Prop} (h : r.WellFormed R) : ∀ b ∈ r.order, r.block? b ≠ none := by
  intro b hb
  obtain ⟨ids, hids⟩ := h.lists b hb
  exact hids.block?_ne_none

theorem replaced (h : r.WellFormed Eq) (hreplaced : Replaced r r' v x)
    (hx : r.operandType x = r.valueType v) : r'.WellFormed Eq := by
  have := h.substitute (fun _ _ _ => Eq.trans) hx
  exact this.of_bare_eq (hreplaced.bare.trans bare_substitute.symm)

theorem erased (h : r.WellFormed Eq) (harranged : r.Arranged) (hfree : ¬ r.Used id)
    (herased : Erased r r' id) : r'.WellFormed Eq := by
  obtain ⟨i, hi, hbare⟩ := herased.detached
  obtain ⟨front, back, hholds, -⟩ := harranged.holds_block hi
  refine (h.detach hholds.lists hi ?_).of_bare_eq hbare
  intro j k use hs
  exact hfree ⟨j, refers_iff_slot?.mpr ⟨k, use, hs⟩⟩

theorem nop (h : r.WellFormed Eq) (harranged : r.Arranged) (hfree : ¬ r.Used id)
    : (r.modifyInsn id ({ · with opcode := .nop })).WellFormed Eq := by
  have hplaces : r.SamePlaces (r.modifyInsn id ({ · with opcode := .nop })) :=
    SamePlaces.modifyInsn (by intro i; exact ⟨rfl, rfl, rfl⟩) r id
  refine of_fits (hplaces.arranged harranged) h.laid ?_
  intro j i' hi'
  rw [insn?_modifyInsn] at hi'
  split at hi'
  . obtain ⟨i, -, rfl⟩ := Option.map_eq_some_iff.mp hi'
    constructor
    . exact Nat.zero_le _
    . exact nofun
    . intro k x t hx ht
      simp [Instruction.slotType?, Insn.code, Opcode.signature, Instruction.resolve?] at ht
    . intro k v hk
      cases hk
  . apply (h.fits j i' hi').of_operandType
    intro k x hx
    apply operandType_congr
    rintro m rfl
    rw [code?_modifyInsn, if_neg]
    rintro rfl
    exact hfree (used_of_mem hi' (Insn.mem_operands hx))

theorem inserted (h : r.WellFormed Eq) (htracked : r.Tracked) (hr' : r'.Arranged)
    (hy : r.operandType y = t) (hinserted : Inserted r r' id (.bitcast t t' y) c)
    : r'.WellFormed Eq := by
  obtain ⟨ip, hcode⟩ := hinserted.code
  have hlaid : ∀ b ∈ r'.order, r'.block? b ≠ none := by
    rw [hinserted.order]
    intro b hb
    exact hinserted.block?_ne_none.mpr (h.laid b hb)
  have htype : ∀ {x}, r.Admits x → r'.operandType x = r.operandType x := by
    intro x hx
    apply operandType_congr
    rintro m rfl
    obtain ⟨l, hl⟩ := hx _ rfl
    obtain ⟨k, hk, -⟩ := Option.map_eq_some_iff.mp hl
    rw [hcode, if_neg (hinserted.ne (code?_of_insn? hk))]
  refine of_fits hr' hlaid ?_
  intro j i' hi'
  have hj := code?_of_insn? hi'
  rw [hcode] at hj
  split at hj
  . rw [Option.some.injEq] at hj
    apply fits_of_bitcast hj.symm
    rw [htype (hinserted.admits y (List.mem_singleton_self y)), hy]
  . obtain ⟨i, hi, heq⟩ := exists_insn?_of_code? hj
    refine ((h.fits j i hi).of_operandType ?_).of_code_eq heq.symm
    intro k x hx
    exact htype (htracked.admits_operand hi (Insn.mem_operands hx))

end WellFormed

def WritesUnused (r : Routine) : Prop :=
  ∀ p i, r.code? p = some i → i.opcode = .writeReg → ¬ r.Used p

def NoWrite (r : Routine) (x : Operand) : Prop :=
  ∀ q k, x = .insn q → r.code? q = some k → k.opcode ≠ .writeReg

theorem writesUnused_of_entries
    (h : ∀ p ∈ r.insns.entries, ∀ x ∈ p.2.operands, ∀ j ∈ x.insn?, ∀ i ∈ r.insn? j,
      i.opcode ≠ .writeReg)
    : r.WritesUnused := by
  rintro p k hk hwrite ⟨j, k', hk', hmem⟩
  obtain ⟨i, hi, rfl⟩ := exists_insn?_of_code? hk
  obtain ⟨i', hi', rfl⟩ := exists_insn?_of_code? hk'
  exact h (j.toNat, i') (Store.mem_entries.mpr hi') _ hmem p rfl i hi hwrite

namespace WritesUnused

theorem replaced (h : r.WritesUnused) (hx : r.NoWrite x) (hreplaced : Replaced r r' (.insn id) x)
    : r'.WritesUnused := by
  rintro p i' hi' hwrite ⟨j, hrefers⟩
  rw [hreplaced.code] at hi'
  obtain ⟨i, hi, rfl⟩ := Option.map_eq_some_iff.mp hi'
  rcases hreplaced.refers_iff.mp hrefers with ⟨-, hrefers⟩ | ⟨hp, -⟩
  . exact h p i hi hwrite ⟨j, hrefers⟩
  . exact hx p i hp hi hwrite

theorem erased (h : r.WritesUnused) (herased : Erased r r' id) : r'.WritesUnused := by
  rintro p i hi hwrite ⟨j, hrefers⟩
  rw [herased.code, Option.ite_none_left_eq_some] at hi
  exact h p i hi.2 hwrite ⟨j, (herased.refers_iff.mp hrefers).2⟩

theorem nop (h : r.WritesUnused) : (r.modifyInsn id ({ · with opcode := .nop })).WritesUnused := by
  have hcode : ∀ {j k}, (r.modifyInsn id ({ · with opcode := .nop })).code? j = some k →
      ∃ i, r.code? j = some i ∧ i.operands = k.operands ∧ (k.opcode = .nop ∨ k = i) := by
    intro j k hk
    rw [code?_modifyInsn] at hk
    split at hk
    . obtain ⟨i, hi, rfl⟩ := Option.map_eq_some_iff.mp hk
      exact ⟨i.code, code?_of_insn? hi, rfl, Or.inl rfl⟩
    . exact ⟨k, hk, rfl, Or.inr rfl⟩
  rintro p k hk hwrite ⟨j, k', hk', hmem⟩
  obtain ⟨i, hi, -, hnop | rfl⟩ := hcode hk
  . rw [hnop] at hwrite
    cases hwrite
  . obtain ⟨i', hi', hoperands, -⟩ := hcode hk'
    exact h p k hi hwrite ⟨j, i', hi', hoperands ▸ hmem⟩

theorem inserted (h : r.WritesUnused) (hy : r.NoWrite y)
    (hinserted : Inserted r r' id (.bitcast t t' y) c) : r'.WritesUnused := by
  obtain ⟨ip, hcode⟩ := hinserted.code
  rintro p i hi hwrite ⟨j, hrefers⟩
  rw [hcode] at hi
  split at hi
  . cases hi
    cases hwrite
  . rcases hinserted.refers_iff.mp hrefers with ⟨-, hrefers⟩ | ⟨-, hmem⟩
    . exact h p i hi hwrite ⟨j, hrefers⟩
    . exact hy p i (List.mem_singleton.mp hmem).symm hi hwrite

end WritesUnused

section Contents

variable {a : Register} {p : Producer}

theorem operandType_of_content? (h : r.WellFormed Eq) (haccess : r.Accesses p.opcode p.insn a)
    (hcontent : r.content? p = some (y, t)) : r.operandType y = t := by
  obtain ⟨k, hk, hopcode, -⟩ := haccess
  obtain ⟨c, hc, hcases⟩ := content?_eq_some.mp hcontent
  rw [hk] at hc
  cases hc
  rcases hcases with ⟨hwrite, hy, rfl⟩ | ⟨-, rfl, rfl⟩
  . obtain ⟨i, hi, rfl⟩ := exists_insn?_of_code? hk
    refine (h.fits _ i hi).types 1 y _ (by rw [Insn.operand?_eq]; exact hy) ?_
    unfold Instruction.slotType?
    rw [hopcode, hwrite]
    rfl
  . exact valueType_of_code? hk

theorem noWrite_of_content? (h : r.WritesUnused) (haccess : r.Accesses p.opcode p.insn a)
    (hcontent : r.content? p = some (y, t)) : r.NoWrite y := by
  rintro q k rfl hk hwrite
  obtain ⟨i, hi, hopcode, -⟩ := haccess
  obtain ⟨i', hi', ⟨-, hy, -⟩ | ⟨hread, heq, -⟩⟩ := content?_eq_some.mp hcontent
  . exact h q k hk hwrite ⟨p.insn, i', hi', List.mem_of_getElem? hy⟩
  . cases heq
    rw [hi] at hk
    cases hk
    rw [hopcode, hread] at hwrite
    cases hwrite

end Contents

end Routine

open Routine Edit

theorem Progress.defOrdered {b : BlockId} {start r : Routine} {gone todo : List InsnId}
    {known : Producers} {n : Nat} (h : Progress b start gone todo known n r)
    (hstart : start.DefOrdered) : r.DefOrdered := by
  rcases h.steps with ⟨-, -, rfl⟩ | ⟨-, hsteps⟩
  . exact hstart
  . obtain ⟨ρ, hranked⟩ := hstart
    obtain ⟨ρ', hranked', -⟩ := Reduces.descends_of_transGen hsteps hranked
    exact ⟨ρ', hranked'⟩

namespace Forwards

variable {r r' : Routine} {b : BlockId} {id : InsnId} {known known' : Producers} {n : Nat}
  {todo : List InsnId}

theorem wellFormed (h : Forwards r known id known' n r') (hscanned : Scanned b known (id :: todo) r)
    (hordered : r.DefOrdered) (hformed : r.WellFormed Eq) (hunused : r.WritesUnused)
    : r'.WellFormed Eq ∧ r'.WritesUnused := by
  have hr := hscanned.intact
  obtain ⟨front, hlist, hknown⟩ := hscanned.rest
  obtain ⟨ρ, hranked⟩ := hordered
  cases h with
  | skip | learn | write | blank => exact ⟨hformed, hunused⟩
  | overwrite hwrite hlookup herased =>
    obtain ⟨i, hi, hopcode, -⟩ := (hknown _ _ hlookup).2
    exact ⟨hformed.erased hr.arranged (hunused _ i hi hopcode) herased, hunused.erased herased⟩
  | @forward a p y t n r₁ hread hlookup hcontent hr₁ h hty =>
    obtain ⟨hp, haccess⟩ := hknown _ _ hlookup
    obtain ⟨i, hi, hty⟩ := hty
    have hy := operandType_of_content? hformed haccess hcontent
    rcases h with ⟨hself, -⟩ | ⟨hself, hreplaced⟩
    . -- The content would have been computed from the read that comes after it.
      have hnone : ∀ j ∈ ([] : List InsnId), ¬ r.Used j ∧ p.insn ≠ j := nofun
      have hoffers := (offers hlist hp haccess hcontent hnone).1
      exact absurd (hranked.lt_of_precedes (hoffers id hself).1) (Nat.lt_irrefl _)
    . have hformed₁ := hformed.replaced hreplaced (by rw [hy, valueType_of_code? hi, hty])
      have hunused₁ := hunused.replaced (noWrite_of_content? hunused haccess hcontent) hreplaced
      refine ⟨hformed₁.nop hr₁.arranged ?_, hunused₁.nop⟩
      rintro ⟨j, hrefers⟩
      exact hreplaced.not_refers hself j hrefers
  | cast hread hlookup hcontent hr₁ hinserted hreplaced hty =>
    obtain ⟨hp, haccess⟩ := hknown _ _ hlookup
    obtain ⟨i, hi, hty⟩ := hty
    obtain ⟨ip, hcode⟩ := hinserted.code
    have hy := operandType_of_content? hformed haccess hcontent
    have hformed₁ := hformed.inserted hr.tracked hr₁.arranged hy hinserted
    have hunused₁ := hunused.inserted (noWrite_of_content? hunused haccess hcontent) hinserted
    have hcast := (hcode _).trans (if_pos rfl)
    have hid := (hcode id).trans (if_neg (hinserted.ne hi))
    constructor
    . apply hformed₁.replaced hreplaced
      rw [valueType_of_code? (hid.trans hi), hty]
      exact valueType_of_code? hcast
    . apply hunused₁.replaced _ hreplaced
      rintro q k heq hk
      cases heq
      rw [hcast] at hk
      cases hk
      nofun

end Forwards

namespace Edit

variable {r : Routine} {b : BlockId} {debug : Bool} {d : Direction} {visit : InsnId → Edit Nat}

theorem complete_succeeds {n : Nat} (htracked : r.Tracked) (hformed : r.WellFormed Eq)
    (hb : b ∈ r.order) (hsmall : (left (complete b n debug) r).Small)
    : ∃ m r', complete b n debug r = .ok m r' ∧ r'.WellFormed Eq := by
  rcases complete_run htracked hformed hb hsmall with h | ⟨id, k, x, t, -, hexpects, hne, -⟩
  . exact h
  . exact absurd (hformed.types hexpects) hne

theorem inPlace_typed (hcovers : ∀ {R : Routine → Routine → Prop} [Std.Refl R] [Trans R R R],
      CoversInPlace R → ∀ id, Within R (visit id))
    (hvisit : ∀ {r id i}, r.Intact → r.WellFormed Eq → r.insn? id = some i →
      ∃ n r', visit id r = .ok n r' ∧ r'.WellFormed Eq)
    (hr : r.Intact) (hformed : r.WellFormed Eq) (hb : b ∈ r.order)
    (hsmall : (left (sweep b d visit >>= (complete b · debug)) r).Small)
    : ∃ n r', (sweep b d visit >>= (complete b · debug)) r = .ok n r' ∧ r'.WellFormed Eq := by
  obtain ⟨n, r₁, hrun, hr₁, -, hformed₁, -⟩ := sweep_succeeds (Q := WellFormed Eq)
    (hcovers covers_keeps.toCoversInPlace) (hcovers coversInPlace_samePlaces) hvisit hr hformed
    (hformed.laid b hb) (small_of_completed (fun n => n) hsmall)
  have hedges := Within.sweep (hcovers covers_sameEdges.toCoversInPlace) b d r
  rw [left_of_ok hrun] at hedges
  rw [left_bind_of_ok hrun] at hsmall
  rw [bind_of_ok hrun]
  exact complete_succeeds hr₁.tracked hformed₁ (hedges.order ▸ hb) hsmall

theorem foldConstants_typed (hr : r.Intact) (hformed : r.WellFormed Eq) (hb : b ∈ r.order)
    (hsmall : (left (foldConstants b debug) r).Small)
    : ∃ n r', foldConstants b debug r = .ok n r' ∧ r'.WellFormed Eq := by
  rw [foldConstants_eq] at hsmall ⊢
  refine inPlace_typed (fun h => h.foldInsn) ?_ hr hformed hb hsmall
  intro r id i hr hformed hi
  obtain ⟨n, r', hrun, rfl | ⟨x, hfold, hreplaced⟩⟩ := foldInsn_run hr hi
  . exact ⟨n, r', hrun, hformed⟩
  . refine ⟨n, r', hrun, hformed.replaced hreplaced ?_⟩
    rw [operandType_of_fold? (hformed.fits id i hi) hfold, valueType_of_code? (code?_of_insn? hi)]
    rfl

theorem deduplicate_typed (hr : r.Intact) (hformed : r.WellFormed Eq) (hb : b ∈ r.order)
    (hsmall : (left (deduplicate b debug) r).Small)
    : ∃ n r', deduplicate b debug r = .ok n r' ∧ r'.WellFormed Eq := by
  rw [deduplicate_eq] at hsmall ⊢
  refine inPlace_typed (fun h => h.mergeInsn) ?_ hr hformed hb hsmall
  intro r id i hr hformed hi
  obtain ⟨n, r', hrun, ⟨rfl, -⟩ | ⟨earlier, hduplicate, hreplaced⟩⟩ := mergeInsn_run hr hi
  . exact ⟨n, r', hrun, hformed⟩
  . exact ⟨n, r', hrun, hformed.replaced hreplaced (valueType_of_duplicate? hduplicate)⟩

theorem resolveLoads_typed (hr : r.Intact) (hformed : r.WellFormed Eq) (hb : b ∈ r.order)
    (hsmall : (left (resolveLoads b debug) r).Small)
    : ∃ n r', resolveLoads b debug r = .ok n r' ∧ r'.WellFormed Eq := by
  cases himage : r.image with
  | none => exact ⟨0, r, resolveLoads_of_no_image himage b debug, hformed⟩
  | some image =>
    unfold left at hsmall
    rw [resolveLoads_of_image himage] at hsmall ⊢
    refine inPlace_typed (fun h => h.resolveLoad image) ?_ hr hformed hb hsmall
    intro r id i hr hformed hi
    obtain ⟨n, r', hrun, rfl | ⟨a, c, -, hread, hreplaced⟩⟩ := resolveLoad_run image hr hi
    . exact ⟨n, r', hrun, hformed⟩
    . refine ⟨n, r', hrun, hformed.replaced hreplaced ?_⟩
      rw [valueType_of_code? (code?_of_insn? hi)]
      exact ty_of_readConstant? hread

theorem forwardRegisters_typed (hr : r.Intact) (hformed : r.WellFormed Eq) (hb : b ∈ r.order)
    (hordered : r.DefOrdered) (hunused : r.WritesUnused)
    (hsmall : (left (forwardRegisters b debug) r).Small)
    : ∃ n r', forwardRegisters b debug r = .ok n r' ∧ r'.WellFormed Eq := by
  rw [forwardRegisters_eq] at hsmall ⊢
  have hsweep := small_of_completed Prod.snd hsmall
  have hends := visitRegister_ends
    (I := fun todo s r₁ => (∃ gone, Progress b r gone todo s.1 s.2 r₁) ∧ r₁.WellFormed Eq ∧
      r₁.WritesUnused)
    (fun hscanned ⟨⟨gone, hprogress⟩, hformed, hunused⟩ hforwards _ =>
      ⟨hforwards.progress hscanned hprogress,
        hforwards.wellFormed hscanned (hprogress.defOrdered hordered) hformed hunused⟩)
    hr (hformed.laid b hb)
    ⟨⟨[], nofun, nofun, nofun, Or.inl ⟨rfl, rfl, rfl⟩⟩, hformed, hunused⟩ hsweep
  have hedges := Within.sweepWith covers_sameEdges.visitRegister b .forward ([], 0) r
  generalize hresult : sweepWith b .forward ([], 0) visitRegister r = result at hends
  cases hends with
  | done h =>
    obtain ⟨hscanned, -, hformed₁, -⟩ := h
    rw [left_of_ok hresult] at hedges
    rw [left_bind_of_ok hresult] at hsmall
    rw [bind_of_ok hresult]
    exact complete_succeeds hscanned.intact.tracked hformed₁ (hedges.order ▸ hb) hsmall
  | failed h hrun =>
    -- An overwritten write can be erased, because nothing refers to it.
    obtain ⟨hscanned, -, -, hunused₁⟩ := h
    rw [left_of_error hresult, ← left_of_error hrun] at hsweep
    rcases visitRegister_run hscanned hsweep with ⟨s, r₁, hok⟩ | ⟨p, a, hwrites, hrefers, -⟩
    . rw [hok] at hrun
      cases hrun
    . obtain ⟨i, hi, hopcode, -⟩ := hwrites
      obtain ⟨j, hj, -⟩ := hrefers
      exact absurd ⟨j, hj⟩ (hunused₁ p i hi hopcode)

end Edit

namespace Routine

open Edit

theorem passes_keep_types (actions : List Action) (b : BlockId) (debug : Bool)
    (hcheck : (after actions).check = .ok ()) (hordered : (after actions).DefOrdered)
    (hunused : (after actions).WritesUnused) (hb : (after actions).block? b ≠ none)
    : ∀ pass ∈ [foldConstants b debug, deduplicate b debug, resolveLoads b debug,
          forwardRegisters b debug, removeDeadCode b],
        (left pass (after actions)).Small →
          ∃ n r', pass (after actions) = .ok n r' ∧ r'.check = .ok () := by
  have hkeeps : ∀ pass ∈ [foldConstants b debug, deduplicate b debug, resolveLoads b debug,
      forwardRegisters b debug, removeDeadCode b], Within Keeps pass := by
    simp only [List.forall_mem_cons]
    exact ⟨covers_keeps.foldConstants b debug, covers_keeps.deduplicate b debug,
      covers_keeps.resolveLoads b debug, covers_keeps.forwardRegisters b debug,
      covers_keeps.removeDeadCode b, nofun⟩
  intro pass hpass hsmall
  have hkeep := hkeeps pass hpass (after actions)
  have hstart := hkeep.grows.small hsmall
  have hr := intact_after actions hstart
  have hformed := (hr.tracked.check_eq_ok hstart).mp hcheck
  have hlaid := ((wired_after actions hstart).laid b).mpr hb
  have hrun : ∃ n r', pass (after actions) = .ok n r' ∧ r'.WellFormed Eq := by
    simp only [List.mem_cons, List.not_mem_nil, or_false] at hpass
    rcases hpass with rfl | rfl | rfl | rfl | rfl
    . exact foldConstants_typed hr hformed hlaid hsmall
    . exact deduplicate_typed hr hformed hlaid hsmall
    . exact resolveLoads_typed hr hformed hlaid hsmall
    . exact forwardRegisters_typed hr hformed hlaid hordered hunused hsmall
    . exact removeDeadCode_run hr.tracked hformed hlaid hsmall
  obtain ⟨n, r', hrun, hformed'⟩ := hrun
  rw [left_of_ok hrun] at hkeep hsmall
  exact ⟨n, r', hrun, ((hkeep.tracked hsmall hr.tracked).check_eq_ok hsmall).mpr hformed'⟩

def recast : List Action :=
  [.addBlock,
    .pushBack (.ofNat 0) (.readReg .i64 (.ofNat 0 1)),
    .pushBack (.ofNat 0) (.binop .i64 .mul (.const (.i64 2)) (.const (.i64 3))),
    .pushBack (.ofNat 0) (.writeReg (.ofNat 1 1) (.insn (.ofNat 1)) .i64),
    .pushBack (.ofNat 0) (.readReg .f64 (.ofNat 1 1)),
    .pushBack (.ofNat 0) (.writeReg (.ofNat 1 1) (.insn (.ofNat 0)) .i64),
    .pushBack (.ofNat 0) (.writeReg (.ofNat 2 1) (.insn (.ofNat 3)) .f64)]

theorem passes_keep_types_recast
    : (after recast).check = .ok () ∧ (after recast).DefOrdered ∧ (after recast).WritesUnused ∧
        (after recast).block? (.ofNat 0) ≠ none ∧
        EStateM.run' (forwardRegisters (.ofNat 0) true) (after recast) = some 4 ∧
        ∃ n r', forwardRegisters (.ofNat 0) true (after recast) = .ok n r' ∧ r'.check = .ok () := by
  have hcheck : (after recast).check = .ok () := by decide +kernel
  have hordered : (after recast).DefOrdered :=
    defOrdered_of_handles (by decide +kernel) (by decide +kernel)
  have hunused : (after recast).WritesUnused := writesUnused_of_entries (by decide +kernel)
  have hb : (after recast).block? (.ofNat 0) ≠ none := by decide +kernel
  refine ⟨hcheck, hordered, hunused, hb, by decide +kernel, ?_⟩
  exact passes_keep_types recast (.ofNat 0) true hcheck hordered hunused hb
    (forwardRegisters (.ofNat 0) true) (by simp) (by decide +kernel)

end Routine

end MachineIR
