import MachineIR.Proofs.Bisimilarity
import MachineIR.Proofs.Frames
import MachineIR.Proofs.Idle

/-!
This module contains what the passes see of a routine when they work on a block: if two routines agree
on some blocks that refer to no others, then a pass has nothing to do there in both or in none.
-/

namespace MachineIR

open Routine Edit

section Codes

variable {α : Type} {i i' : Insn} {id : InsnId}

theorem Insn.const?_of_code_eq (h : i'.code = i.code) (k : Nat) : i'.const? k = i.const? k := by
  unfold const?
  rw [operand?_of_code_eq h]

theorem Insn.opcode_of_code_eq (h : i'.code = i.code) : i'.opcode = i.opcode :=
  congrArg Instruction.opcode h

theorem Insn.template_of_code_eq (h : i'.code = i.code) (k : Nat) : i'.template k = i.template k := by
  unfold template
  rw [h]

theorem Insn.operator?_of_code_eq (h : i'.code = i.code) : i'.operator? = i.operator? := by
  unfold operator?
  rw [h]

theorem Insn.ty_of_code_eq (h : i'.code = i.code) : i'.ty = i.ty := by
  unfold ty
  rw [h]

theorem Insn.fold?_of_code_eq (h : i'.code = i.code) : i'.fold? id = i.fold? id := by
  unfold fold? evaluate? chosenArm?
  simp only [opcode_of_code_eq h, operator?_of_code_eq h, const?_of_code_eq h, template_of_code_eq h,
    operand?_of_code_eq h, ty_of_code_eq h]

theorem Insn.loadAddress?_of_code_eq (h : i'.code = i.code) : i'.loadAddress? = i.loadAddress? := by
  unfold loadAddress?
  simp only [opcode_of_code_eq h, const?_of_code_eq h, operand?_of_code_eq h]

theorem Insn.bind_of_code_eq {o o' : Option Insn} {f : Insn → Option α}
    (h : o'.map Insn.code = o.map Insn.code) (hf : ∀ {i i'}, i'.code = i.code → f i' = f i)
    : o'.bind f = o.bind f := by
  cases o with
  | none =>
    rw [Option.map_none, Option.map_eq_none_iff] at h
    rw [h]
  | some i =>
    obtain ⟨i', rfl, hcode⟩ := Option.map_eq_some_iff.mp h
    exact hf hcode

end Codes

structure SameView (r r' : Routine) (i i' : Insn) : Prop where
  code : i'.code = i.code
  producer? : ∀ k x, i.operand? k = some x →
    (r'.producer? x).map Insn.code = (r.producer? x).map Insn.code
  identical : ∀ k m x y, i.operand? k = some x → i.operand? m = some y →
    r'.identical x y = r.identical x y

namespace SameView

variable {r r' : Routine} {i i' : Insn} {k : Nat} {x : Operand}

theorem producerOf? (h : SameView r r' i i') (hx : i.operand? k = some x) (o : Opcode)
    : (r'.producerOf? o x).map Insn.code = (r.producerOf? o x).map Insn.code := by
  have hfilter : ∀ {p : Option Insn},
      (p.filter (·.opcode == o)).map Insn.code = (p.map Insn.code).filter (·.opcode == o) := by
    intro p
    cases p with
    | none => rfl
    | some i =>
      rw [Option.map_some, Option.filter_some, Option.filter_some]
      change _ = if i.opcode == o then some i.code else none
      split <;> rfl
  unfold Routine.producerOf?
  rw [hfilter, hfilter, h.producer? k x hx]

theorem mergeAdditions? {o : Operator} {c : Constant} {t : Ty} (h : SameView r r' i i')
    (hx : i.operand? k = some x) : r'.mergeAdditions? o x c t = r.mergeAdditions? o x c t := by
  unfold Routine.mergeAdditions?
  apply Insn.bind_of_code_eq (h.producerOf? hx .binop)
  intro inner inner' hinner
  simp only [Insn.operator?_of_code_eq hinner, Insn.template_of_code_eq hinner,
    Insn.const?_of_code_eq hinner, Insn.operand?_of_code_eq hinner]

theorem combineBinop? (h : SameView r r' i i') : r'.combineBinop? i' = r.combineBinop? i := by
  unfold Routine.combineBinop?
  rw [Insn.operator?_of_code_eq h.code, Insn.operand?_of_code_eq h.code,
    Insn.operand?_of_code_eq h.code, Insn.template_of_code_eq h.code]
  refine Option.bind_congr fun o _ => ?_
  refine Option.bind_congr fun x hx => ?_
  refine Option.bind_congr fun y hy => ?_
  have hmerge : ∀ c, r'.mergeAdditions? o x c (i.template 0) =
      r.mergeAdditions? o x c (i.template 0) := fun c => h.mergeAdditions? hx
  simp only [h.identical 1 2 x y hx hy, hmerge]

theorem combineCmp? (h : SameView r r' i i') : r'.combineCmp? i' = r.combineCmp? i := by
  unfold Routine.combineCmp?
  rw [Insn.operator?_of_code_eq h.code, Insn.operand?_of_code_eq h.code,
    Insn.operand?_of_code_eq h.code, Insn.template_of_code_eq h.code]
  refine Option.bind_congr fun o _ => ?_
  refine Option.bind_congr fun x hx => ?_
  refine Option.bind_congr fun y hy => ?_
  rw [h.identical 1 2 x y hx hy]

theorem combineUnop? (h : SameView r r' i i') : r'.combineUnop? i' = r.combineUnop? i := by
  unfold Routine.combineUnop?
  rw [Insn.operator?_of_code_eq h.code, Insn.operand?_of_code_eq h.code,
    Insn.template_of_code_eq h.code]
  refine Option.bind_congr fun o _ => ?_
  refine Option.bind_congr fun x hx => ?_
  apply Insn.bind_of_code_eq (h.producerOf? hx .unop)
  intro inner inner' hinner
  simp only [Insn.operator?_of_code_eq hinner, Insn.template_of_code_eq hinner,
    Insn.operand?_of_code_eq hinner]

theorem combineBitcast? (h : SameView r r' i i') : r'.combineBitcast? i' = r.combineBitcast? i := by
  unfold Routine.combineBitcast?
  rw [Insn.operand?_of_code_eq h.code, Insn.template_of_code_eq h.code,
    Insn.template_of_code_eq h.code]
  refine Option.bind_congr fun x hx => ?_
  split
  . rfl
  . apply Insn.bind_of_code_eq (h.producerOf? hx .bitcast)
    intro inner inner' hinner
    simp only [Insn.template_of_code_eq hinner, Insn.operand?_of_code_eq hinner]

theorem combineCast? (h : SameView r r' i i') (outer : Extension)
    : r'.combineCast? outer i' = r.combineCast? outer i := by
  unfold Routine.combineCast?
  rw [Insn.operand?_of_code_eq h.code, Insn.template_of_code_eq h.code,
    Insn.template_of_code_eq h.code]
  refine Option.bind_congr fun x hx => ?_
  split
  . rfl
  . apply Insn.bind_of_code_eq (h.producer? 0 x hx)
    intro inner inner' hinner
    simp only [Insn.opcode_of_code_eq hinner, Insn.template_of_code_eq hinner,
      Insn.operand?_of_code_eq hinner]

theorem combineSelect? (h : SameView r r' i i') : r'.combineSelect? i' = r.combineSelect? i := by
  unfold Routine.combineSelect?
  rw [Insn.operand?_of_code_eq h.code, Insn.operand?_of_code_eq h.code]
  refine Option.bind_congr fun x hx => ?_
  refine Option.bind_congr fun y hy => ?_
  rw [h.identical 1 2 x y hx hy]

theorem combine? (h : SameView r r' i i') : r'.combine? i' = r.combine? i := by
  unfold Routine.combine?
  rw [Insn.opcode_of_code_eq h.code, h.combineBinop?, h.combineCmp?, h.combineUnop?,
    h.combineBitcast?, h.combineCast?, h.combineCast?, h.combineSelect?]

end SameView

structure Routine.Agree (B : List BlockId) (r r' : Routine) : Prop where
  intact : r.Intact
  intact' : r'.Intact
  setting : r'.setting = r.setting
  live : ∀ b ∈ B, r'.block? b ≠ none ↔ r.block? b ≠ none
  insnsOf : ∀ b ∈ B, r'.insnsOf b = r.insnsOf b
  within : r.RefersWithin B
  code : ∀ id, r.Inhabits B id → r'.code? id = r.code? id

theorem Routine.Confined.agree {b : BlockId} {B : List BlockId} {r r' : Routine}
    (h : r.Confined b r') (hr : r.Intact) (hr' : r'.Intact) (hb : b ∉ B) (hB : r.RefersWithin B)
    : r.Agree B r' where
  intact := hr
  intact' := hr'
  setting := h.setting
  live d _ := h.live d
  insnsOf d hd := h.insnsOf d fun heq => hb (heq ▸ hd)
  within := hB
  code := h.code B hb hB

namespace Routine.Agree

variable {r r' : Routine} {b : BlockId} {debug : Bool} {B : List BlockId} {id : InsnId} {i i' : Insn}
  {u v : ValueId} {x y : Operand} {e : BlockId → Edit Nat}

theorem inhabits_iff (h : r.Agree B r') : r'.Inhabits B id ↔ r.Inhabits B id := by
  unfold Inhabits
  refine exists_congr fun b => and_congr_right fun hb => ?_
  rw [h.insnsOf b hb]

theorem symm (h : r.Agree B r') : r'.Agree B r where
  intact := h.intact'
  intact' := h.intact
  setting := h.setting.symm
  live b hb := (h.live b hb).symm
  insnsOf b hb := (h.insnsOf b hb).symm
  within id j hid hrefers := by
    rw [h.inhabits_iff] at hid ⊢
    unfold Refers at hrefers
    rw [h.code id hid] at hrefers
    exact h.within id j hid hrefers
  code id hid := (h.code id (h.inhabits_iff.mp hid)).symm

theorem exists_insn? (h : r.Agree B r') (hid : r.Inhabits B id) (hi : r.insn? id = some i)
    : ∃ i', r'.insn? id = some i' ∧ i'.code = i.code := by
  apply exists_insn?_of_code?
  rw [h.code id hid, code?_of_insn? hi]

def Houses (r : Routine) (B : List BlockId) (v : ValueId) : Prop :=
  ∀ j, v = .insn j → r.Inhabits B j

theorem houses (h : r.Agree B r') (hid : r.Inhabits B id) (hi : r.insn? id = some i)
    (hv : .value v ∈ i.operands) : Houses r B v := by
  rintro j rfl
  exact h.within id j hid ⟨i.code, code?_of_insn? hi, hv⟩

theorem bisimilar (h : r.Agree B r') (hu : Houses r B u) (hv : Houses r B v)
    (huv : r.Bisimilar u v) : r'.Bisimilar u v := by
  refine huv.restrict (P := Houses r B) hu hv (fun j hj => h.code j (hj j rfl)) ?_
  rintro j w hj hrefers k rfl
  exact h.within j k (hj j rfl) hrefers

theorem identicalValues (h : r.Agree B r') (hu : Houses r B u) (hv : Houses r B v)
    : r'.identicalValues u v = r.identicalValues u v := by
  have hhouses : ∀ {w}, Houses r B w → Houses r' B w :=
    fun hw j hj => h.inhabits_iff.mpr (hw j hj)
  rw [Bool.eq_iff_iff, identicalValues_iff_bisimilar, identicalValues_iff_bisimilar]
  exact ⟨h.symm.bisimilar (hhouses hu) (hhouses hv), h.bisimilar hu hv⟩

theorem identical (h : r.Agree B r') (hx : ∀ v, x = .value v → Houses r B v)
    (hy : ∀ v, y = .value v → Houses r B v) : r'.identical x y = r.identical x y := by
  unfold Routine.identical
  cases x with
  | value u =>
    cases y with
    | value v => exact h.identicalValues (hx u rfl) (hy v rfl)
    | _ => rfl
  | _ => rfl

theorem producer? (h : r.Agree B r') (hx : ∀ v, x = .value v → Houses r B v)
    : (r'.producer? x).map Insn.code = (r.producer? x).map Insn.code := by
  cases x with
  | value v =>
    cases v with
    | insn j => exact h.code j (hx _ rfl j rfl)
    | block c => rfl
  | _ => rfl

theorem sameView (h : r.Agree B r') (hid : r.Inhabits B id) (hi : r.insn? id = some i)
    (hcode : i'.code = i.code) : SameView r r' i i' := by
  have hhouses : ∀ {k x}, i.operand? k = some x → ∀ v, x = .value v → Houses r B v := by
    rintro k x hx v rfl
    exact h.houses hid hi (Insn.mem_operands hx)
  refine ⟨hcode, ?_, ?_⟩
  . intro k x hx
    exact h.producer? (hhouses hx)
  . intro k m x y hx hy
    exact h.identical (hhouses hx) (hhouses hy)

theorem duplicateAmong? {constant : Bool} {candidates : List InsnId} (h : r.Agree B r')
    (hid : r.Inhabits B id) (hcandidates : ∀ j ∈ candidates, r.Inhabits B j)
    : r'.duplicateAmong? id constant candidates = r.duplicateAmong? id constant candidates := by
  have hhouses : ∀ {j}, r.Inhabits B j → Houses r B (.insn j) := by
    rintro j hj k heq
    cases heq
    exact hj
  induction candidates with
  | nil => rfl
  | cons candidate rest ih =>
    rw [List.forall_mem_cons] at hcandidates
    obtain ⟨hcandidate, hrest⟩ := hcandidates
    obtain ⟨c, hc⟩ := hcandidate.live h.intact.arranged
    obtain ⟨i, hi, rfl⟩ := exists_insn?_of_code? hc
    obtain ⟨i', hi', hcode⟩ := h.exists_insn? hcandidate hi
    unfold Routine.duplicateAmong?
    rw [h.identicalValues (hhouses hid) (hhouses hcandidate), hi, hi', Option.any_some,
      Option.any_some, Insn.opcode_of_code_eq hcode, ih hrest]

theorem duplicate? (h : r.Agree B r') (hb : b ∈ B) (hlive : r.block? b ≠ none)
    (hid : id ∈ r.insnsOf b) : r'.duplicate? id = r.duplicate? id := by
  have hinhabits : r.Inhabits B id := ⟨b, hb, hid⟩
  obtain ⟨c, hc⟩ := hinhabits.live h.intact.arranged
  obtain ⟨front, back, hlist⟩ := List.append_of_mem hid
  have hlists := (h.intact.arranged.holds_insnsOf hlive).lists
  have hlists' := (h.intact'.arranged.holds_insnsOf ((h.live b hb).mpr hlive)).lists
  rw [h.insnsOf b hb] at hlists'
  rw [hlist] at hlists hlists'
  rw [duplicate?_eq hlists, duplicate?_eq hlists', h.code id hinhabits, hc, Option.bind_some,
    Option.bind_some]
  apply h.duplicateAmong? hinhabits
  intro j hj
  rw [List.mem_reverse] at hj
  exact ⟨b, hb, by rw [hlist]; exact List.mem_append_left _ hj⟩

section Visits

theorem foldInsn (h : r.Agree B r') (hid : r.Inhabits B id) (hvisit : foldInsn id r = .ok 0 r)
    : Edit.foldInsn id r' = .ok 0 r' := by
  obtain ⟨-, i, hi, hfold⟩ := foldInsn_eq_zero_iff.mp hvisit
  obtain ⟨i', hi', hcode⟩ := h.exists_insn? hid hi
  exact foldInsn_eq_zero_iff.mpr ⟨rfl, i', hi', by rw [Insn.fold?_of_code_eq hcode, hfold]⟩

theorem mergeInsn (h : r.Agree B r') (hb : b ∈ B) (hlive : r.block? b ≠ none)
    (hid : id ∈ r.insnsOf b) (hused : r'.Used id → r.Used id) (hvisit : mergeInsn id r = .ok 0 r)
    : Edit.mergeInsn id r' = .ok 0 r' := by
  obtain ⟨-, i, hi, hrest⟩ := mergeInsn_eq_zero_iff.mp hvisit
  obtain ⟨i', hi', hcode⟩ := h.exists_insn? ⟨b, hb, hid⟩ hi
  refine mergeInsn_eq_zero_iff.mpr ⟨rfl, i', hi', hrest.imp ?_ ?_⟩
  . rw [h.intact.tracked.len_eq_zero_iff hi, h.intact'.tracked.len_eq_zero_iff hi']
    exact mt hused
  . rw [h.duplicate? hb hlive hid]
    exact fun hnone => hnone

theorem combineInsn (h : r.Agree B r') (hid : r.Inhabits B id)
    (hvisit : combineInsn id r = .ok 0 r) : Edit.combineInsn id r' = .ok 0 r' := by
  obtain ⟨-, i, hi, hcombine⟩ := combineInsn_eq_zero_iff.mp hvisit
  obtain ⟨i', hi', hcode⟩ := h.exists_insn? hid hi
  refine combineInsn_eq_zero_iff.mpr ⟨rfl, i', hi', ?_⟩
  rw [(h.sameView hid hi hcode).combine?]
  exact hcombine

theorem resolveLoad {image : Image} (h : r.Agree B r') (hid : r.Inhabits B id)
    (hused : r'.Used id → r.Used id) (hvisit : resolveLoad image id r = .ok 0 r)
    : Edit.resolveLoad image id r' = .ok 0 r' := by
  obtain ⟨i, hi, hrest⟩ := (resolveLoad_eq_zero_iff h.intact).mp hvisit
  obtain ⟨i', hi', hcode⟩ := h.exists_insn? hid hi
  refine (resolveLoad_eq_zero_iff h.intact').mpr ⟨i', hi', hrest.imp (mt hused) ?_⟩
  have harch : r'.arch = r.arch := congrArg (·.2.2) h.setting
  unfold readConstant? decode?
  rw [Insn.loadAddress?_of_code_eq hcode, Insn.ty_of_code_eq hcode, harch]
  exact fun hnone => hnone

theorem eraseWhen (h : r.Agree B r') (hb : b ∈ B) (hid : id ∈ r.insnsOf b)
    (hused : r.Used id → r'.Used id) (hvisit : eraseWhen isDead id r = .ok 0 r)
    : Edit.eraseWhen isDead id r' = .ok 0 r' := by
  obtain ⟨-, hdead⟩ := eraseWhen_eq_zero_iff.mp hvisit
  refine eraseWhen_eq_zero_iff.mpr ⟨rfl, ?_⟩
  have hid' : id ∈ r'.insnsOf b := by rwa [h.insnsOf b hb]
  rw [Bool.eq_false_iff, ne_eq, isDead_iff h.intact' hid']
  rintro ⟨-, hfree, hcode⟩
  rw [h.code id ⟨b, hb, hid⟩] at hcode
  rw [Bool.eq_false_iff, ne_eq, isDead_iff h.intact hid] at hdead
  exact hdead ⟨hid, mt hused hfree, hcode⟩

end Visits

section Registers

variable {known known' : Producers} {n : Nat} {todo : List InsnId} {s s' : Producers × Nat}

def Sourced (r : Routine) (B : List BlockId) (known : Producers) : Prop :=
  ∀ x p, known.lookup x = some p → r.Inhabits B p.insn

theorem accesses_iff {o : Opcode} {z : Register} (h : r.Agree B r') (hid : r.Inhabits B id)
    : r'.Accesses o id z ↔ r.Accesses o id z := by
  unfold Accesses
  rw [h.code id hid]

theorem forwards (h : r.Agree B r') (hid : r.Inhabits B id) (hknown : Sourced r B known)
    (hforwards : Forwards r known id known' 0 r) : Forwards r' known id known' 0 r' := by
  have hcontent : ∀ {z p}, known.lookup z = some p → r'.content? p = r.content? p := by
    intro z p hp
    unfold content?
    rw [h.code _ (hknown z p hp)]
  cases hforwards with
  | skip hi hother =>
    refine .skip (by rw [h.code id hid, hi]) ?_
    intro z
    rw [Writes, Reads, h.accesses_iff hid, h.accesses_iff hid]
    exact hother z
  | learn hread hnone => exact .learn ((h.accesses_iff hid).mpr hread) hnone
  | write hwrite hnone => exact .write ((h.accesses_iff hid).mpr hwrite) hnone
  | blank hread hlookup hnone =>
    exact .blank ((h.accesses_iff hid).mpr hread) hlookup (by rw [hcontent hlookup, hnone])

theorem visitRegister (h : r.Agree B r') (hid : r.Inhabits B id) (hknown : Sourced r B known)
    (hvisit : visitRegister (known, n) id r = .ok (known', n) r)
    : Edit.visitRegister (known, n) id r' = .ok (known', n) r' ∧ Sourced r B known' := by
  obtain ⟨m, hm, hforwards⟩ := forwards_of_ok h.intact hvisit h.intact.small
  have hm : m = 0 := by omega
  subst hm
  constructor
  . apply visitRegister_of_forwards (h.forwards hid hknown hforwards)
    intro z p hp
    rw [h.code _ (hknown z p hp)]
    obtain ⟨i, hi⟩ := (hknown z p hp).live h.intact.arranged
    simp [hi]
  . intro z p hp
    rcases hforwards.lookup hp with heq | hp
    . rwa [heq]
    . exact hknown z p hp

theorem rests (h : r.Agree B r') (htodo : ∀ id ∈ todo, r.Inhabits B id)
    (hknown : Sourced r B s.1) (hrests : Rests Edit.visitRegister r s todo s') (hcount : s'.2 = s.2)
    : Rests Edit.visitRegister r' s todo s' := by
  induction hrests with
  | nil => exact .nil
  | @cons id todo s s₁ s' hvisit hrest ih =>
    have hle := counts_visitRegister.le hvisit
    have hle' := hrest.le Prod.snd counts_visitRegister.le
    have hsame : s₁.2 = s.2 := by omega
    obtain ⟨known, n⟩ := s
    obtain ⟨known₁, n₁⟩ := s₁
    dsimp only at hsame hknown
    subst hsame
    rw [List.forall_mem_cons] at htodo
    obtain ⟨hvisit', hknown'⟩ := h.visitRegister htodo.1 hknown hvisit
    exact .cons hvisit' (ih htodo.2 hknown' hcount)

end Registers

section Passes

theorem sweep {visit : InsnId → Edit Nat} {d : Direction} (h : r.Agree B r') (hb : b ∈ B)
    (hzero : ∀ {id r r'}, visit id r = .ok 0 r' → r' = r)
    (hvisit : r.block? b ≠ none → ∀ id ∈ r.insnsOf b, visit id r = .ok 0 r → visit id r' = .ok 0 r')
    (hrun : sweep b d visit r = .ok 0 r) : Edit.sweep b d visit r' = .ok 0 r' := by
  obtain ⟨-, hlive, hvisits⟩ := (sweep_eq_zero_iff hzero h.intact.arranged).mp hrun
  refine (sweep_eq_zero_iff hzero h.intact'.arranged).mpr ⟨rfl, (h.live b hb).mpr hlive, ?_⟩
  intro id hid
  rw [h.insnsOf b hb] at hid
  exact hvisit hlive id hid (hvisits id hid)

theorem foldConstants (h : r.Agree B r') (hb : b ∈ B) (hidle : foldConstants b debug r = .ok 0 r)
    : Edit.foldConstants b debug r' = .ok 0 r' := by
  rw [foldConstants_eq, bind_complete_eq_zero_iff] at hidle ⊢
  refine h.sweep hb (fun hrun => (foldInsn_eq_zero_iff.mp hrun).1) ?_ hidle
  intro hlive id hid
  exact h.foldInsn ⟨b, hb, hid⟩

theorem deduplicate (h : r.Agree B r') (hb : b ∈ B)
    (hused : ∀ id, r.Inhabits B id → r'.Used id → r.Used id) (hidle : deduplicate b debug r = .ok 0 r)
    : Edit.deduplicate b debug r' = .ok 0 r' := by
  rw [deduplicate_eq, bind_complete_eq_zero_iff] at hidle ⊢
  refine h.sweep hb (fun hrun => (mergeInsn_eq_zero_iff.mp hrun).1) ?_ hidle
  intro hlive id hid
  exact h.mergeInsn hb hlive hid (hused id ⟨b, hb, hid⟩)

theorem combine (h : r.Agree B r') (hb : b ∈ B) (hidle : combine b debug r = .ok 0 r)
    : Edit.combine b debug r' = .ok 0 r' := by
  unfold Edit.combine at hidle ⊢
  rw [bind_complete_eq_zero_iff] at hidle ⊢
  refine h.sweep hb (fun hrun => (combineInsn_eq_zero_iff.mp hrun).1) ?_ hidle
  intro hlive id hid
  exact h.combineInsn ⟨b, hb, hid⟩

theorem resolveLoads (h : r.Agree B r') (hb : b ∈ B)
    (hused : ∀ id, r.Inhabits B id → r'.Used id → r.Used id) (hidle : resolveLoads b debug r = .ok 0 r)
    : Edit.resolveLoads b debug r' = .ok 0 r' := by
  have himage : r'.image = r.image := congrArg (·.2.1) h.setting
  cases hfound : r.image with
  | none => exact resolveLoads_of_no_image (himage.trans hfound) b debug
  | some image =>
    rw [resolveLoads_of_image hfound, bind_complete_eq_zero_iff] at hidle
    rw [resolveLoads_of_image (himage.trans hfound), bind_complete_eq_zero_iff]
    refine h.sweep hb (fun hrun => resolveLoad_eq_zero hrun) ?_ hidle
    intro hlive id hid
    exact h.resolveLoad ⟨b, hb, hid⟩ (hused id ⟨b, hb, hid⟩)

theorem forwardRegisters (h : r.Agree B r') (hb : b ∈ B) (hidle : forwardRegisters b debug r = .ok 0 r)
    : Edit.forwardRegisters b debug r' = .ok 0 r' := by
  obtain ⟨hlive, known, hrests⟩ := (forwardRegisters_eq_zero_iff h.intact.arranged).mp hidle
  refine (forwardRegisters_eq_zero_iff h.intact'.arranged).mpr
    ⟨(h.live b hb).mpr hlive, known, ?_⟩
  rw [h.insnsOf b hb]
  exact h.rests (fun id hid => ⟨b, hb, hid⟩) nofun hrests rfl

theorem removeDeadCode (h : r.Agree B r') (hb : b ∈ B)
    (hused : ∀ id, r.Inhabits B id → r.Used id → r'.Used id) (hidle : removeDeadCode b r = .ok 0 r)
    : Edit.removeDeadCode b r' = .ok 0 r' := by
  refine h.sweep hb (fun hrun => (eraseWhen_eq_zero_iff.mp hrun).1) ?_ hidle
  intro hlive id hid
  exact h.eraseWhen hb hid (hused id ⟨b, hb, hid⟩)

end Passes

end Routine.Agree

end MachineIR
