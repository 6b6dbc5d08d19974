import MachineIR.Proofs.Deduplication
import MachineIR.Proofs.PassTypes
import MachineIR.Proofs.PeepholeValues

/-!
This module contains what constant folding does to the values of operands. An instruction that the
algebra of literals computes denotes what the algebra makes of its operands; for all other operands
it is given what they denote. What takes the place of a folded instruction is its value or one of its
operands, so everything that refers to it denotes what it did, and what is removed in the end was
referred to by nothing.
-/

namespace MachineIR

def Opcode.isComputed : Opcode → Bool
  | binop | cmp | unop | cast | castSx | bitcast | select => true
  | _ => false

def Operand.substitute (x : Operand) (v : ValueId) (y : Operand) : Operand :=
  if x = .value v then y else x

namespace Insn

variable {i i' : Insn} {id : InsnId} {v : ValueId} {x : Operand} {k : Nat}
  {arg arg' : Nat → Option Constant} {c d : Constant}

theorem isComputed_of_perform? (h : i.perform? arg = some c) : i.opcode.isComputed = true := by
  unfold perform? at h
  cases hopcode : i.opcode <;> rw [hopcode] at h
  case binop | cmp | unop | cast | castSx | bitcast | select => rfl
  all_goals cases h

theorem perform?_agree (hagree : ∀ k a b, arg k = some a → arg' k = some b → a = b)
    (h : i.perform? arg = some c) (h' : i.perform? arg' = some d) : c = d := by
  have hc : i.perform? (fun k => (arg k).or (arg' k)) = some c := by
    refine perform?_mono rfl rfl (fun o ho => ho) ?_ h
    intro k a ha
    rw [ha, Option.some_or]
  have hd : i.perform? (fun k => (arg k).or (arg' k)) = some d := by
    refine perform?_mono rfl rfl (fun o ho => ho) ?_ h'
    intro k b hb
    cases ha : arg k with
    | none => rw [Option.none_or, hb]
    | some a => rw [Option.some_or, hagree k a b ha hb]
  rw [hc] at hd
  exact Option.some.inj hd

theorem perform?_of_const? (hopcode : i'.opcode = i.opcode) (htemplates : i'.templates = i.templates)
    (hconst : ∀ a, i.const? 0 = some a → i'.const? 0 = some a) (h : i.perform? arg = some c)
    : i'.perform? arg = some c := by
  -- Only the operator is read off the operands themselves, and it is a literal.
  refine perform?_mono hopcode htemplates ?_ (fun k a ha => ha) h
  intro o ho
  have ha := const?_of_operator? ho
  rw [operator?_eq, ha] at ho
  rw [operator?_eq, hopcode, hconst _ ha]
  exact ho

theorem evaluate?_eq (h : i.opcode ≠ .select) : i.evaluate? = i.perform? i.const? := by
  unfold evaluate? perform?
  cases hopcode : i.opcode
  case select => exact absurd hopcode h
  all_goals rfl

theorem operand?_of_const? (h : i.const? k = some c) : i.operand? k = some (.const c) := by
  obtain ⟨x, hx, hc⟩ := Option.bind_eq_some_iff.mp h
  cases x <;> cases hc
  exact hx

theorem fold?_cases (hfold : i.fold? id = some x)
    (hagree : ∀ k a b, arg k = some a → i.const? k = some b → a = b) (hc : i.perform? arg = some c)
    : x = .const c ∨ ∃ k, arg k = some c ∧ i.operand? k = some x := by
  unfold fold? at hfold
  split at hfold
  . next hopcode =>
    have harm := (Option.filter_eq_some_iff.mp hfold).1
    unfold chosenArm? at harm
    unfold perform? at hc
    rw [hopcode] at hc
    simp only [Option.bind_eq_bind, Option.bind_eq_some_iff] at harm hc
    obtain ⟨a, ha, p, hp, harm⟩ := harm
    obtain ⟨b, hb, q, hq, hc⟩ := hc
    cases hagree 0 b a hb ha
    rw [hp] at hq
    cases hq
    right
    refine ⟨if p then 1 else 2, ?_, harm⟩
    cases p <;> exact hc
  . next hopcode =>
    obtain ⟨d, hd, rfl⟩ := Option.map_eq_some_iff.mp hfold
    have hd := (Option.filter_eq_some_iff.mp hd).1
    rw [evaluate?_eq hopcode] at hd
    left
    rw [perform?_agree hagree hc hd]

theorem isComputed_of_fold? (h : i.fold? id = some x) : i.opcode.isComputed = true := by
  unfold fold? at h
  split at h
  . next hopcode => rw [hopcode, Opcode.isComputed]
  . next hopcode =>
    obtain ⟨d, hd, -⟩ := Option.map_eq_some_iff.mp h
    have hd := (Option.filter_eq_some_iff.mp hd).1
    rw [evaluate?_eq hopcode] at hd
    exact isComputed_of_perform? hd

theorem operand?_of_substitute (h : i'.code = i.code.substitute v x) (k : Nat)
    : i'.operand? k = (i.operand? k).map (·.substitute v x) := by
  have hoperands : i'.operands = i.operands.map (·.substitute v x) :=
    congrArg Instruction.operands h
  rw [operand?_eq, operand?_eq, hoperands, List.getElem?_map]

theorem const?_of_substitute (h : i'.code = i.code.substitute v x) (hc : i.const? k = some c)
    : i'.const? k = some c := by
  unfold const?
  rw [operand?_of_substitute h, operand?_of_const? hc]
  rfl

end Insn

namespace Routine

open Edit

variable {r r' r'' : Routine} {given : Operand → Option Constant} {id : InsnId} {i : Insn}
  {y z : Operand} {c d : Constant}

def isGiven (r : Routine) : Operand → Bool
  | .const _ => false
  | .value (.insn id) => (r.code? id).any fun k => !k.opcode.isComputed
  | _ => true

/--
What an operand stands for, if `given` says so for the operands that are not computed. In contrast to
`evaluate?`, those are all other instructions, registers and addresses, and no types are asked for.
-/
inductive Denotes (r : Routine) (given : Operand → Option Constant) : Operand → Constant → Prop
  | const (c : Constant) : Denotes r given (.const c) c
  | given {x : Operand} {c : Constant} (hx : r.isGiven x = true) (hc : given x = some c)
    : Denotes r given x c
  | computed {id : InsnId} {i : Insn} {x : Nat → Operand} {arg : Nat → Option Constant}
    {c : Constant} (hi : r.insn? id = some i)
    (hx : ∀ k a, arg k = some a → i.operand? k = some (x k))
    (harg : ∀ k a, arg k = some a → Denotes r given (x k) a) (hc : i.perform? arg = some c)
    : Denotes r given (.insn id) c

theorem isGiven_of_computed (hi : r.insn? id = some i) (h : i.opcode.isComputed = true)
    : r.isGiven (.insn id) = false := by
  change (r.code? id).any _ = false
  rw [code?_of_insn? hi, Option.any_some, Bool.not_eq_false']
  exact h

theorem isGiven_of_code? {f : Instruction → Instruction} (hf : ∀ k, (f k).opcode = k.opcode)
    (hcode : ∀ j, z = .insn j → r'.code? j = (r.code? j).map f) : r'.isGiven z = r.isGiven z := by
  cases z with
  | value v =>
    cases v with
    | insn j =>
      change (r'.code? j).any _ = (r.code? j).any _
      rw [hcode j rfl, Option.any_map]
      congr 1
      funext k
      exact congrArg (fun o => !Opcode.isComputed o) (hf k)
    | block b => rfl
  | _ => rfl

namespace Denotes

theorem unique (h : r.Denotes given z c) (h' : r.Denotes given z d) : c = d := by
  induction h generalizing d with
  | const c =>
    cases h' with
    | const => rfl
    | given hx => cases hx
  | given hx hc =>
    cases h' with
    | const => cases hx
    | given _ hd =>
      rw [hc] at hd
      exact Option.some.inj hd
    | computed hi _ _ hd =>
      rw [isGiven_of_computed hi (Insn.isComputed_of_perform? hd)] at hx
      cases hx
  | computed hi hx harg hc ih =>
    cases h' with
    | given hgiven =>
      rw [isGiven_of_computed hi (Insn.isComputed_of_perform? hc)] at hgiven
      cases hgiven
    | computed hi' hx' harg' hd =>
      rw [hi] at hi'
      cases hi'
      refine Insn.perform?_agree ?_ hc hd
      intro k a b ha hb
      have hk := hx' k b hb
      rw [hx k a ha, Option.some.injEq] at hk
      exact ih k a ha (hk ▸ harg' k b hb)

theorem replaced (h : r.Denotes given z c) (hi : r.insn? id = some i) (hfold : i.fold? id = some y)
    (hreplaced : Replaced r r' (.insn id) y)
    : r'.Denotes given z c ∧ r'.Denotes given (z.substitute (.insn id) y) c := by
  induction h with
  | const c => exact ⟨.const c, .const c⟩
  | @given z c hx hc =>
    have hz : r'.isGiven z = true := by
      rw [isGiven_of_code? (f := (·.substitute (.insn id) y)) (fun _ => rfl), hx]
      exact fun j _ => hreplaced.code j
    refine ⟨.given hz hc, ?_⟩
    unfold Operand.substitute
    split
    . next heq =>
      subst heq
      rw [isGiven_of_computed hi (Insn.isComputed_of_fold? hfold)] at hx
      cases hx
    . exact .given hz hc
  | @computed j k x arg c hk hx harg hc ih =>
    -- What has come into the places of the operands denotes the same, by induction.
    have hself : r'.Denotes given (.insn j) c := by
      have hj := hreplaced.code j
      rw [code?_of_insn? hk] at hj
      obtain ⟨k', hk', hcode⟩ := exists_insn?_of_code? hj
      refine .computed (x := fun n => (x n).substitute (.insn id) y) hk' ?_ ?_
        (Insn.perform?_of_const? (congrArg Instruction.opcode hcode)
          (congrArg Instruction.templates hcode) (fun a => Insn.const?_of_substitute hcode) hc)
      . intro n a ha
        rw [Insn.operand?_of_substitute hcode, hx n a ha, Option.map_some]
      . intro n a ha
        exact (ih n a ha).2
    refine ⟨hself, ?_⟩
    unfold Operand.substitute
    split
    . next heq =>
      cases heq
      rw [hi] at hk
      cases hk
      -- This is the folded instruction itself, and its literal operands are the arguments that it
      -- was computed from.
      have hagree : ∀ n a b, arg n = some a → i.const? n = some b → a = b := by
        intro n a b ha hb
        have hn := Insn.operand?_of_const? hb
        rw [hx n a ha, Option.some.injEq] at hn
        exact (harg n a ha).unique (hn ▸ .const b)
      rcases Insn.fold?_cases hfold hagree hc with rfl | ⟨n, ha, hn⟩
      . exact .const c
      . rw [hx n c ha, Option.some.injEq] at hn
        exact hn ▸ (ih n c ha).1
    . exact hself

theorem erased (h : r.Denotes given z c) (herased : Erased r r' id) (hz : z ≠ .insn id)
    : r'.Denotes given z c := by
  -- What nothing refers to plays no part in what other operands denote.
  induction h with
  | const c => exact .const c
  | given hx hc =>
    refine .given ?_ hc
    rw [isGiven_of_code? (f := fun k => k) (fun _ => rfl), hx]
    rintro j rfl
    rw [herased.code, if_neg (by simpa using hz), Option.map_id']
  | @computed j k x arg c hk hx harg hc ih =>
    have hne : j ≠ id := by simpa using hz
    have hj := herased.code j
    rw [if_neg hne, code?_of_insn? hk] at hj
    obtain ⟨k', hk', hcode⟩ := exists_insn?_of_code? hj
    have hoperand := Insn.operand?_of_code_eq hcode
    refine .computed hk' (fun n a ha => (hoperand n).trans (hx n a ha)) ?_
      (Insn.perform?_of_const? (congrArg Instruction.opcode hcode)
        (congrArg Instruction.templates hcode) ?_ hc)
    . intro n a ha
      apply ih n a ha
      intro heq
      have hmem := Insn.mem_operands (hx n a ha)
      rw [heq] at hmem
      exact hne (herased.free j ⟨k.code, code?_of_insn? hk, hmem⟩)
    . intro a ha
      unfold Insn.const?
      rw [hoperand]
      exact ha

end Denotes

structure KeepsDenotations (given : Operand → Option Constant) (r r' : Routine) : Prop where
  live : ∀ id, r'.insn? id ≠ none → r.insn? id ≠ none
  insn : ∀ id c, r'.insn? id ≠ none → r.Denotes given (.insn id) c → r'.Denotes given (.insn id) c
  operand : ∀ id k x c, r'.insn? id ≠ none → r.operand? id k = some x → r.Denotes given x c →
    ∃ y, r'.operand? id k = some y ∧ r'.Denotes given y c

namespace KeepsDenotations

theorem refl (given : Operand → Option Constant) (r : Routine) : KeepsDenotations given r r :=
  ⟨fun _ h => h, fun _ _ _ h => h, fun _ _ x _ _ hx hc => ⟨x, hx, hc⟩⟩

theorem trans (h : KeepsDenotations given r r') (h' : KeepsDenotations given r' r'')
    : KeepsDenotations given r r'' := by
  refine ⟨fun id hid => h.live id (h'.live id hid), ?_, ?_⟩
  . intro id c hid hc
    exact h'.insn id c hid (h.insn id c (h'.live id hid) hc)
  . intro id k x c hid hx hc
    obtain ⟨y, hy, hc⟩ := h.operand id k x c (h'.live id hid) hx hc
    exact h'.operand id k y c hid hy hc

theorem of_replaced (hi : r.insn? id = some i) (hfold : i.fold? id = some y)
    (hreplaced : Replaced r r' (.insn id) y) : KeepsDenotations given r r' := by
  constructor
  . intro j hj
    rw [Ne, ← code?_eq_none_iff, hreplaced.code, Option.map_eq_none_iff, code?_eq_none_iff] at hj
    exact hj
  . intro j c _ hc
    exact (hc.replaced hi hfold hreplaced).1
  . intro j n x c _ hx hc
    refine ⟨x.substitute (.insn id) y, ?_, (hc.replaced hi hfold hreplaced).2⟩
    rw [hreplaced.operand?, hx, Option.map_some, Operand.substitute]

theorem of_erased (herased : Erased r r' id) : KeepsDenotations given r r' := by
  have hne : ∀ j, r'.insn? j ≠ none → j ≠ id := by
    rintro j hj rfl
    rw [Ne, ← code?_eq_none_iff, herased.code, if_pos rfl] at hj
    exact hj rfl
  constructor
  . intro j hj
    have hj' := hj
    rw [Ne, ← code?_eq_none_iff, herased.code, if_neg (hne j hj), code?_eq_none_iff] at hj'
    exact hj'
  . intro j c hj hc
    exact hc.erased herased (by simpa using hne j hj)
  . intro j n x c hj hx hc
    rw [operand?_eq_code?] at hx
    obtain ⟨k, hk, hmem⟩ := Option.bind_eq_some_iff.mp hx
    refine ⟨x, ?_, hc.erased herased ?_⟩
    . rw [operand?_eq_code?, herased.code, if_neg (hne j hj), hx]
    . rintro rfl
      exact hne j hj (herased.free j ⟨k, hk, List.mem_of_getElem? hmem⟩)

theorem of_discards {b : BlockId} (h : Relation.ReflTransGen (Discards b) r r')
    : KeepsDenotations given r r' := by
  induction h with
  | refl => exact refl given r
  | tail _ hlast ih =>
    obtain ⟨id, -, -, herased⟩ := hlast
    exact ih.trans (of_erased herased)

end KeepsDenotations

end Routine

namespace Edit

open Routine

variable {r r' start : Routine} {given : Operand → Option Constant} {b : BlockId} {id : InsnId}
  {todo : List InsnId} {n : Nat}

section Sweep

structure Folding (given : Operand → Option Constant) (start : Routine) (todo : List InsnId)
    (r : Routine) : Prop where
  intact : r.Intact
  formed : r.WellFormed Eq
  live : ∀ id ∈ todo, r.insn? id ≠ none
  keeps : KeepsDenotations given start r

theorem Folding.step (h : Folding given start (id :: todo) r)
    : ∃ n r', foldInsn id r = .ok n r' ∧ Folding given start todo r' := by
  obtain ⟨hid, hlive⟩ := List.forall_mem_cons.mp h.live
  obtain ⟨i, hi⟩ := Option.ne_none_iff_exists'.mp hid
  obtain ⟨n, r', hrun, rfl | ⟨x, hfold, hreplaced⟩⟩ := foldInsn_run h.intact hi
  . exact ⟨n, r', hrun, h.intact, h.formed, hlive, h.keeps⟩
  . refine ⟨n, r', hrun, ⟨hreplaced.tracked, hreplaced.samePlaces.arranged h.intact.arranged,
      hreplaced.small h.intact.small⟩, ?_, ?_, h.keeps.trans (.of_replaced hi hfold hreplaced)⟩
    . apply h.formed.replaced hreplaced
      rw [operandType_of_fold? (h.formed.fits id i hi) hfold, valueType_of_code? (code?_of_insn? hi)]
      rfl
    . intro j hj
      rw [Ne, ← code?_eq_none_iff, hreplaced.code, Option.map_eq_none_iff, code?_eq_none_iff]
      exact hlive j hj

theorem folding_of_sweep (given : Operand → Option Constant) (hr : r.Intact)
    (hformed : r.WellFormed Eq) (hb : r.block? b ≠ none)
    : ∃ n r', sweep b .forward foldInsn r = .ok n r' ∧ Folding given r [] r' := by
  rw [sweep_eq_foldlM coversInPlace_samePlaces.foldInsn (hr.arranged.holds_insnsOf hb).lists]
  have hends : Ends (counting foldInsn) (fun todo _ r' => Folding given r todo r')
      ((Direction.forward.along (r.insnsOf b)).foldlM (counting foldInsn) 0 r) := by
    apply foldlM_ends (J := fun _ => True)
    . intro total id r _
      trivial
    . intro id todo total r₁ total' r' h hrun _
      obtain ⟨n, hvisit, -⟩ := of_counting_ok hrun
      obtain ⟨m, r₂, hstep, h⟩ := h.step
      rw [hstep] at hvisit
      cases hvisit
      exact h
    . refine ⟨hr, hformed, ?_, .refl given r⟩
      intro id hid
      obtain ⟨i, hi, -⟩ := hr.arranged.mem_insnsOf.mp (Direction.mem_along.mp hid)
      simp [hi]
    . trivial
  generalize (Direction.forward.along (r.insnsOf b)).foldlM (counting foldInsn) 0 r = result
    at hends ⊢
  cases hends with
  | done h => exact ⟨_, _, rfl, h⟩
  | failed h hrun =>
    obtain ⟨m, r₁, hstep, -⟩ := h.step
    rw [counting_of_ok hstep] at hrun
    cases hrun

end Sweep

theorem complete_discards (hr : r.Intact) (hformed : r.WellFormed Eq) (hb : b ∈ r.order) (n : Nat)
    (debug : Bool) : ∃ m r', complete b n debug r = .ok m r' ∧ Relation.ReflTransGen (Discards b) r r' := by
  by_cases hn : n = 0
  . rw [hn]
    exact ⟨0, r, complete_zero b debug r, .refl⟩
  . have hcheck : r.checkBlock b = .ok () := by
      cases hcheck : r.checkBlock b with
      | ok u => rfl
      | error e =>
        obtain ⟨id, k, x, t, hexpects, hne, -⟩ := hformed.checkBlock_eq_error hb hcheck
        exact absurd (hformed.types hexpects) hne
    obtain ⟨m, r', hrun, hcleaning⟩ := removeDeadCode_succeeds hr (hformed.laid b hb)
    refine ⟨n + m, r', ?_, hcleaning.discards⟩
    rw [complete_of_ok hn fun _ => hcheck, bind_of_ok hrun, pure_run]

theorem foldConstants_keeps_values (actions : List Action) (hsmall : (after actions).Small)
    (hcheck : (after actions).check = .ok ()) {b : BlockId} (hb : (after actions).block? b ≠ none)
    (debug : Bool) (given : Operand → Option Constant)
    : ∃ n r', foldConstants b debug (after actions) = .ok n r' ∧
        KeepsDenotations given (after actions) r' := by
  have hr := intact_after actions hsmall
  have hformed := (hr.tracked.check_eq_ok hsmall).mp hcheck
  obtain ⟨n, r₁, hsweep, hfolding⟩ := folding_of_sweep given hr hformed hb
  have hedges := Within.sweep (covers_sameEdges.toCoversInPlace.foldInsn) b .forward (after actions)
  rw [left_of_ok hsweep] at hedges
  have hlaid : b ∈ r₁.order := hedges.order ▸ ((wired_after actions hsmall).laid b).mpr hb
  obtain ⟨m, r', hcomplete, hdiscards⟩ := complete_discards hfolding.intact hfolding.formed hlaid n debug
  refine ⟨m, r', ?_, hfolding.keeps.trans (.of_discards hdiscards)⟩
  rw [foldConstants_eq, bind_of_ok hsweep, hcomplete]

def selectedRead : List Action :=
  [.addBlock, .addBlock,
    .pushBack (.ofNat 0) (.readReg .i64 (.ofNat 0 1)),
    .pushBack (.ofNat 0) (.cmp .i64 .ult (.const (.i64 2)) (.const (.i64 3))),
    .pushBack (.ofNat 0) (.select .i64 (.insn (.ofNat 1)) (.insn (.ofNat 0)) (.const (.i64 9))),
    .pushBack (.ofNat 1) (.unop .i64 .neg (.insn (.ofNat 2))),
    .pushBack (.ofNat 1) (.writeReg (.ofNat 1 1) (.insn (.ofNat 3)) .i64)]

def sevenRead (x : Operand) : Option Constant := if x = .insn (.ofNat 0) then some (.i64 7) else none

def selectedReadInsn (n : Nat) : Insn := ((after selectedRead).insn? (.ofNat n)).getD default

theorem denotes_selectedRead : (after selectedRead).Denotes sevenRead (.insn (.ofNat 2)) (.i64 7) := by
  have hread : (after selectedRead).Denotes sevenRead (.insn (.ofNat 0)) (.i64 7) :=
    .given (by decide +kernel) rfl
  have hcompare : (after selectedRead).Denotes sevenRead (.insn (.ofNat 1)) (.i1 1) := by
    refine @Denotes.computed _ _ _ (selectedReadInsn 1) (fun k => .const (.i64 (.ofNat 64 (k + 1))))
      (fun k => if k = 1 ∨ k = 2 then some (.i64 (.ofNat 64 (k + 1))) else none) _
      (by decide +kernel) ?_ ?_ (by decide +kernel)
    . intro k a ha
      match k, ha with
      | 1, _ => decide +kernel
      | 2, _ => decide +kernel
    . intro k a ha
      match k, ha with
      | 1, rfl => exact .const _
      | 2, rfl => exact .const _
  refine @Denotes.computed _ _ _ (selectedReadInsn 2)
    (fun k => if k = 0 then .insn (.ofNat 1) else .insn (.ofNat 0))
    (fun k => if k = 0 then some (.i1 1) else if k = 1 then some (.i64 7) else none) _
    (by decide +kernel) ?_ ?_ (by decide +kernel)
  . intro k a ha
    match k, ha with
    | 0, _ => decide +kernel
    | 1, _ => decide +kernel
  . intro k a ha
    match k, ha with
    | 0, rfl => exact hcompare
    | 1, rfl => exact hread

theorem foldConstants_keeps_values_selectedRead
    : (after selectedRead).Small ∧ (after selectedRead).check = .ok () ∧
        (after selectedRead).block? (.ofNat 0) ≠ none ∧
        (after selectedRead).operand? (.ofNat 3) 1 = some (.insn (.ofNat 2)) ∧
        (after selectedRead).Denotes sevenRead (.insn (.ofNat 2)) (.i64 7) ∧
        ∃ r', foldConstants (.ofNat 0) true (after selectedRead) = .ok 6 r' ∧
          r'.insn? (.ofNat 2) = none ∧ r'.operand? (.ofNat 3) 1 = some (.insn (.ofNat 0)) ∧
          r'.Denotes sevenRead (.insn (.ofNat 0)) (.i64 7) := by
  have hsmall : (after selectedRead).Small := by decide +kernel
  have hcheck : (after selectedRead).check = .ok () := by decide +kernel
  have hb : (after selectedRead).block? (.ofNat 0) ≠ none := by decide +kernel
  have hoperand : (after selectedRead).operand? (.ofNat 3) 1 = some (.insn (.ofNat 2)) := by
    decide +kernel
  refine ⟨hsmall, hcheck, hb, hoperand, denotes_selectedRead, ?_⟩
  have hrun : foldConstants (.ofNat 0) true (after selectedRead) = .ok 6 _ :=
    run_of_run' (by decide +kernel)
  obtain ⟨n, r', hrun', hkeeps⟩ := foldConstants_keeps_values selectedRead hsmall hcheck hb true sevenRead
  rw [hrun, EStateM.Result.ok.injEq] at hrun'
  obtain ⟨-, rfl⟩ := hrun'
  have hgone : (left (foldConstants (.ofNat 0) true) (after selectedRead)).insn? (.ofNat 2) = none := by
    decide +kernel
  have hplace : (left (foldConstants (.ofNat 0) true) (after selectedRead)).operand? (.ofNat 3) 1 =
      some (.insn (.ofNat 0)) := by
    decide +kernel
  obtain ⟨y, hy, hdenotes⟩ :=
    hkeeps.operand (.ofNat 3) 1 _ _ (by decide +kernel) hoperand denotes_selectedRead
  rw [hplace, Option.some.injEq] at hy
  exact ⟨_, hrun, hgone, hplace, hy ▸ hdenotes⟩

end Edit

end MachineIR
