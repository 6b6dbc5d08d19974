import Mathlib.Algebra.BigOperators.Ring.Finset
import Mathlib.Logic.Relation
import MachineIR.Lifting
import MachineIR.Proofs.Sequences

/-!
This module contains what becomes of a block that machine code is lifted into. The lifter is known
only to append to the block; whatever lengths and errors it gives, the bytes that count as used, the
addresses of the block and the point at which lifting stops agree with its answers.
-/

namespace MachineIR

namespace Routine

variable {r r' r'' : Routine} {b c : BlockId} {id : InsnId}

def range? (r : Routine) (b : BlockId) : Option (Option UInt64 × Option UInt64) :=
  (r.block? b).map fun b => (b.ip, b.endIp)

theorem range?_ne_none_iff : r.range? b ≠ none ↔ r.block? b ≠ none := by
  simp [range?]

theorem range?_of_bare_eq (h : r'.bare = r.bare) : r'.range? b = r.range? b := by
  have hbare : ∀ r : Routine, r.bare.range? b = r.range? b := by
    intro r
    unfold range?
    rw [block?_bare, Option.map_map]
    rfl
  rw [← hbare, h, hbare]

theorem range?_modifyBlock {f : Block → Block} (hf : ∀ x, (f x).ip = x.ip ∧ (f x).endIp = x.endIp)
    : (r.modifyBlock b f).range? c = r.range? c := by
  unfold range?
  rw [block?_modifyBlock]
  split
  . rw [Option.map_map]
    congr 1
    funext x
    simp [hf]
  . rfl

theorem range?_attach {prev next : Option InsnId}
    : (Edit.attach b prev next id r).range? c = r.range? c := by
  have hnext : ∀ (p n : Option InsnId) (r : Routine), (Edit.setNext b p n r).range? c = r.range? c := by
    intro p n r
    cases p with
    | some p => rfl
    | none => exact range?_modifyBlock fun _ => ⟨rfl, rfl⟩
  have hprev : ∀ (n p : Option InsnId) (r : Routine), (Edit.setPrev b n p r).range? c = r.range? c := by
    intro n p r
    cases n with
    | some n => rfl
    | none => exact range?_modifyBlock fun _ => ⟨rfl, rfl⟩
  unfold Edit.attach Edit.joinBetween
  rw [range?_modifyBlock, hprev, hnext]
  intro x
  exact ⟨rfl, rfl⟩

def Terminated (r : Routine) (b : BlockId) : Prop :=
  ∃ id i, (r.insnsOf b).getLast? = some id ∧ r.code? id = some i ∧ i.opcode.isTerminator = true

/-- Some instructions have been put at the end of the block `b`; all others are as they were. -/
structure Extended (b : BlockId) (r r' : Routine) : Prop where
  arranged : r'.Arranged
  listed : r.insnsOf b <+: r'.insnsOf b
  others : ∀ c, c ≠ b → r'.insnsOf c = r.insnsOf c
  code : ∀ id i, r.code? id = some i → r'.code? id = some i
  live : ∀ c, r'.block? c ≠ none ↔ r.block? c ≠ none

namespace Extended

theorem refl (b : BlockId) (h : r.Arranged) : Extended b r r :=
  ⟨h, List.prefix_refl _, fun _ _ => rfl, fun _ _ h => h, fun _ => Iff.rfl⟩

theorem trans (h : Extended b r r') (h' : Extended b r' r'') : Extended b r r'' where
  arranged := h'.arranged
  listed := h.listed.trans h'.listed
  others c hc := (h'.others c hc).trans (h.others c hc)
  code id i hi := h'.code id i (h.code id i hi)
  live c := (h'.live c).trans (h.live c)

end Extended

end Routine

namespace Edit

open Routine

variable {r r' r'' : Routine} {b : BlockId} {i : Instruction} {id : InsnId}

theorem size_lt_of_pushBack (hrun : pushBack b i r = .ok id r') (hroomy : r'.Roomy)
    : r.insns.size < UInt32.size := by
  obtain ⟨found, r₁, hblock, hplace⟩ := of_bind_ok hrun
  obtain rfl : r₁ = r := by rw [← left_of_ok hblock, left_block]
  rcases forM_requireLive_run i.operands r₁ with ⟨hlive, -⟩ | ⟨e, he⟩
  . have hgrows : (pushInsn (placed b found.last none i r₁) r₁).Grows
        (left (place b found.last none i) r₁) := by
      unfold left
      rw [place_of_live hlive]
      apply Within.bind (grows_linkOperands _ _ _)
      intro u
      exact (keeps_join _ _ _ _).mono fun _ _ h => h.grows
    rw [left_of_ok hplace] at hgrows
    have := (hgrows.roomy hroomy).insns
    simp only [pushInsn, Store.size_push] at this
    omega
  . unfold place at hplace
    rw [bind_of_error he] at hplace
    cases hplace

theorem pushBack_extends (harranged : r.Arranged) (hrun : pushBack b i r = .ok id r')
    (hroomy : r'.Roomy)
    : Extended b r r' ∧ (∀ c, r'.range? c = r.range? c) ∧ r'.insnsOf b = r.insnsOf b ++ [id] ∧
        ∃ ip, r'.code? id = some { i with ip } ∧ (i.ip ≠ none → ip = i.ip) := by
  have hsize := size_lt_of_pushBack hrun hroomy
  have happlies : r.block? b ≠ none ∧ ∀ x ∈ i.operands, r.Admits x := by
    rcases settles_pushBack b i r with ⟨happlies, -⟩ | ⟨-, e, herror⟩
    . exact happlies
    . rw [herror] at hrun
      cases hrun
  have hputs := ((ensures_pushBack harranged hsize b i).2 id r' hrun).2
  have hlist : r'.insnsOf b = r.insnsOf b ++ [id] := by
    rw [hputs, if_pos rfl]
  have hholds : r.Holds b (r.insnsOf b ++ []) := by
    rw [List.append_nil]
    exact harranged.holds_insnsOf happlies.1
  obtain ⟨found, hfound, -, hlast, -⟩ := (harranged.holds_insnsOf happlies.1).shows.ends
  unfold pushBack at hrun
  rw [bind_of_ok (block_run_some hfound), hlast] at hrun
  obtain ⟨r₁, hrun₁, hbare, -⟩ := place_run b (r.insnsOf b).getLast? none hsize happlies.2
  rw [hrun₁] at hrun
  cases hrun
  have hcode : ∀ j, r'.code? j =
      if j = .ofNat r.insns.size then some (placed b (r.insnsOf b).getLast? none i r).code
      else r.code? j := by
    intro j
    rw [code?_of_bare_eq hbare, code?_attach, code?_pushInsn hsize]
  have hrange : ∀ c, r'.range? c = r.range? c := by
    intro c
    rw [range?_of_bare_eq hbare, range?_attach]
    rfl
  refine ⟨⟨?_, ?_, ?_, ?_, ?_⟩, hrange, hlist, (placed b (r.insnsOf b).getLast? none i r).ip, ?_, ?_⟩
  . exact (SamePlaces.of_bare_eq hbare).arranged (arranged_attach hsize harranged hholds rfl rfl rfl)
  . rw [hlist]
    exact List.prefix_append _ _
  . intro c hc
    rw [hputs, if_neg hc]
  . intro j k hj
    rw [hcode, if_neg, hj]
    rintro rfl
    rw [code?, insn?_ofNat_size hsize] at hj
    cases hj
  . intro c
    rw [← range?_ne_none_iff, hrange, range?_ne_none_iff]
  . rw [hcode, if_pos rfl]
    unfold Insn.code Insn.operands placed
    simp [Function.comp_def]
  . intro hip
    obtain ⟨ip, hip⟩ := Option.ne_none_iff_exists'.mp hip
    unfold placed
    dsimp only
    rw [hip]
    rfl

theorem attempt_of_ok {α : Type} {e : Edit α} {a : α} (h : e r = .ok a r')
    : attempt e r = .ok (.ok a) r' := by
  unfold attempt
  rw [h]

theorem attempt_of_error {α : Type} {e : Edit α} {err : Error} (h : e r = .error err r')
    : attempt e r = .ok (.error err) r' := by
  unfold attempt
  rw [h]

def Appends (b : BlockId) : Routine → Routine → Prop :=
  Relation.ReflTransGen fun r r' => ∃ i id, pushBack b i r = .ok id r'

namespace Appends

theorem grows (h : Appends b r r') : r.Grows r' := by
  induction h with
  | refl => exact Grows.refl r
  | tail _ hpush ih =>
    obtain ⟨i, id, hpush⟩ := hpush
    refine ih.trans ?_
    rw [← left_of_ok hpush]
    exact (keeps_pushBack b i _).grows

theorem extended (h : Appends b r r') (harranged : r.Arranged) (hroomy : r'.Roomy)
    : Extended b r r' ∧ ∀ c, r'.range? c = r.range? c := by
  induction h with
  | refl => exact ⟨.refl b harranged, fun _ => rfl⟩
  | @tail r₁ r₂ hfirst hpush ih =>
    obtain ⟨i, id, hpush⟩ := hpush
    have hgrows := (keeps_pushBack b i r₁).grows
    rw [left_of_ok hpush] at hgrows
    obtain ⟨hextended, hrange⟩ := ih (hgrows.roomy hroomy)
    obtain ⟨hextended', hrange', -⟩ := pushBack_extends hextended.arranged hpush hroomy
    exact ⟨hextended.trans hextended', fun c => (hrange' c).trans (hrange c)⟩

theorem pushBack_bind {α : Type} {f : InsnId → Edit α} (hf : ∀ id r, left (f id) r = r)
    (b : BlockId) (i : Instruction) (r : Routine) : Appends b r (left (pushBack b i >>= f) r) := by
  rcases settles_pushBack b i r with ⟨-, id, r', hrun⟩ | ⟨-, e, hrun⟩
  . rw [left_bind_of_ok hrun, hf]
    exact .single ⟨i, id, hrun⟩
  . rw [left_bind_of_error hrun]
    exact .refl

end Appends

end Edit

open Routine Edit

structure Call where
  data : List UInt8
  address : UInt64
  -- The routine that it started from.
  before : Routine
  result : EStateM.Result Error Routine Nat

namespace Call

def left (c : Call) : Routine :=
  match c.result with
  | .ok _ r => r
  | .error _ r => r

def length (c : Call) : Nat :=
  match c.result with
  | .ok n _ => n
  | .error _ _ => 0

def failure? (c : Call) : Option Error :=
  match c.result with
  | .ok 0 _ => some (.lifting s!"no progress at {Text.prefixedHex c.address.toNat}")
  | .ok _ _ => none
  | .error e _ => some e

theorem length_pos_iff {c : Call} : 0 < c.length ↔ c.failure? = none := by
  unfold length failure?
  cases c.result with
  | ok n r => cases n <;> simp
  | error e r => simp

theorem length_of_failure {c : Call} {e : Error} (h : c.failure? = some e) : c.length = 0 := by
  have := length_pos_iff (c := c)
  rw [h] at this
  simpa using this

def consumed (calls : List Call) : Nat := (calls.map length).sum

def leftBy (calls : List Call) (r : Routine) : Routine := calls.foldl (fun _ c => c.left) r

end Call

namespace Lifter

variable {lift : Lifter} {b : BlockId} {data : List UInt8} {ip address : UInt64} {r : Routine}
  {e : Error}

def call (lift : Lifter) (b : BlockId) (data : List UInt8) (address : UInt64) (r : Routine) : Call where
  data
  address
  before := r
  result := lift b data address r

def OnlyAppends (lift : Lifter) (b : BlockId) : Prop :=
  ∀ data address r, Appends b r (Edit.left (lift b data address) r)

theorem left_call : (lift.call b data address r).left = Edit.left (lift b data address) r := by
  unfold Call.left call Edit.left
  cases lift b data address r <;> rfl

theorem liftInsn_of_failure (h : (lift.call b data address r).failure? = some e)
    : liftInsn lift b data address r = .ok (.error e) (lift.call b data address r).left := by
  rw [left_call]
  unfold Call.failure? call at h
  unfold liftInsn
  cases hrun : lift b data address r with
  | ok n r' =>
    rw [hrun] at h
    cases n with
    | zero =>
      cases h
      rw [bind_of_ok (attempt_of_ok hrun), Edit.left_of_ok hrun]
      rfl
    | succ n => cases h
  | error e r' =>
    rw [hrun] at h
    cases h
    rw [bind_of_ok (attempt_of_error hrun), Edit.left_of_error hrun]
    rfl

theorem liftInsn_of_length {n : Nat} {r' : Routine} (hrun : lift b data address r = .ok n r')
    (hpos : 0 < n) : liftInsn lift b data address r = .ok (.ok ⟨n, hpos⟩) r' := by
  unfold liftInsn
  rw [bind_of_ok (attempt_of_ok hrun)]
  cases n with
  | zero => cases hpos
  | succ n => rfl

theorem liftInsn_of_success (h : (lift.call b data address r).failure? = none)
    : liftInsn lift b data address r =
        .ok (.ok ⟨(lift.call b data address r).length, Call.length_pos_iff.mpr h⟩)
          (lift.call b data address r).left := by
  apply liftInsn_of_length
  unfold Call.failure? at h
  unfold Call.length Call.left
  unfold call at h ⊢
  cases hrun : lift b data address r with
  | ok n r' => rfl
  | error e r' =>
    rw [hrun] at h
    cases h

end Lifter

namespace Edit

variable {lift : Lifter} {b : BlockId} {data : List UInt8} {ip : UInt64} {offset k : Nat}
  {r r' : Routine} {c : Call} {calls : List Call} {e : Error} {id : InsnId}

def ranged (b : BlockId) (ip : UInt64) (offset : Nat) (r : Routine) : Routine :=
  r.modifyBlock b ({ · with ip := some ip, endIp := some (ip + UInt64.ofNat offset) })

theorem setBlockRange_run (hb : r.block? b ≠ none)
    : setBlockRange b ip (some (ip + UInt64.ofNat offset)) r = .ok () (ranged b ip offset r) := by
  obtain ⟨found, hfound⟩ := Option.ne_none_iff_exists'.mp hb
  unfold setBlockRange
  rw [bind_of_ok (block_run_some hfound)]
  rfl

theorem grows_ranged : r.Grows (ranged b ip offset r) := by
  constructor <;> simp [ranged, modifyBlock]

theorem range?_ranged (hb : r.block? b ≠ none)
    : (ranged b ip offset r).range? b = some (some ip, some (ip + UInt64.ofNat offset)) := by
  obtain ⟨found, hfound⟩ := Option.ne_none_iff_exists'.mp hb
  simp [ranged, range?, hfound]

theorem samePlaces_ranged (b : BlockId) (ip : UInt64) (offset : Nat) (r : Routine)
    : r.SamePlaces (ranged b ip offset r) := by
  apply SamePlaces.modifyBlock
  intro x
  exact ⟨rfl, rfl, rfl⟩

theorem extended_ranged (h : r.Arranged) (b : BlockId) (ip : UInt64) (offset : Nat)
    : Extended b r (ranged b ip offset r) := by
  have hsame := samePlaces_ranged b ip offset r
  constructor
  . exact hsame.arranged h
  . rw [hsame.insnsOf h]
  . intro c _
    exact hsame.insnsOf h c
  . intro id i hi
    exact hi
  . intro c
    exact hsame.block?_ne_none

theorem isTerminated_run (h : r.Arranged) (hb : r.block? b ≠ none)
    : ∃ t, isTerminated b r = .ok t r ∧ (t = true ↔ r.Terminated b) := by
  -- Whether a block is terminated can be told, as its last instruction is there.
  obtain ⟨found, hfound, -, hlast, -⟩ := (h.holds_insnsOf hb).shows.ends
  have hblock : knownBlock b r = .ok found r := by simp [knownBlock, hfound]
  unfold isTerminated Terminated
  rw [bind_of_ok hblock, hlast]
  cases hids : (r.insnsOf b).getLast? with
  | none => exact ⟨false, rfl, by simp⟩
  | some id =>
    obtain ⟨i, hi, -⟩ := h.mem_insnsOf.mp (List.mem_of_getLast? hids)
    refine ⟨i.opcode.isTerminator, ?_, ?_⟩
    . dsimp only
      rw [bind_of_ok (knownInsn_run hi)]
      rfl
    . simp [code?_of_insn? hi, Insn.code]

def trapFor (e : Error) (address : UInt64) : Instruction :=
  (Instruction.trap s!"lifter error: {e.message}").withIp address

structure Called (lift : Lifter) (b : BlockId) (data : List UInt8) (ip : UInt64) (offset : Nat)
    (r : Routine) (c : Call) : Prop where
  within : offset < data.length
  call : c = lift.call b (data.drop offset) (ip + UInt64.ofNat offset) r
  extended : Extended b r c.left
  range : c.left.range? b = r.range? b

structure Trapped (b : BlockId) (e : Error) (address : UInt64) (r r' : Routine) (id : InsnId) : Prop where
  run : pushBack b (trapFor e address) r = .ok id r'
  extended : Extended b r r'
  range : r'.range? b = r.range? b
  listed : r'.insnsOf b = r.insnsOf b ++ [id]
  code : r'.code? id = some (trapFor e address)

/-- What lifting from an offset on can come to: the calls, the bytes used in the end and what is left. -/
inductive Lifting (lift : Lifter) (b : BlockId) (data : List UInt8) (ip : UInt64)
    : Nat → Routine → List Call → Nat → Routine → Prop
  | finished {offset : Nat} {r : Routine} (h : data.length ≤ offset) : Lifting lift b data ip offset r [] offset r
  | failed {offset : Nat} {r r' : Routine} {c : Call} {e : Error} {id : InsnId}
      (hcall : Called lift b data ip offset r c) (hfailure : c.failure? = some e)
      (htrap : Trapped b e (ip + UInt64.ofNat offset) c.left r' id)
      : Lifting lift b data ip offset r [c] offset r'
  | ended {offset : Nat} {r r' : Routine} {c : Call} (hcall : Called lift b data ip offset r c)
      (hfailure : c.failure? = none) (hr' : r' = ranged b ip (offset + c.length) c.left)
      (hrun : isTerminated b r' = .ok true r') (hterminated : r'.Terminated b)
      : Lifting lift b data ip offset r [c] (offset + c.length) r'
  | next {offset k : Nat} {r r₁ r' : Routine} {c : Call} {calls : List Call}
      (hcall : Called lift b data ip offset r c) (hfailure : c.failure? = none)
      (hr₁ : r₁ = ranged b ip (offset + c.length) c.left) (hrun : isTerminated b r₁ = .ok false r₁)
      (hrest : Lifting lift b data ip (offset + c.length) r₁ calls k r')
      : Lifting lift b data ip offset r (c :: calls) k r'

section Run

theorem liftFrom_of_le (h : data.length ≤ offset) : liftFrom lift b data ip offset r = .ok offset r := by
  unfold liftFrom
  rw [if_neg (by omega)]
  rfl

theorem liftFrom_of_failure (hdata : offset < data.length)
    (h : (lift.call b (data.drop offset) (ip + UInt64.ofNat offset) r).failure? = some e)
    : liftFrom lift b data ip offset r =
        (do
          let _ ← pushBack b (trapFor e (ip + UInt64.ofNat offset))
          return offset : Edit Nat)
          (lift.call b (data.drop offset) (ip + UInt64.ofNat offset) r).left := by
  rw [liftFrom, if_pos hdata]
  exact bind_of_ok (Lifter.liftInsn_of_failure h)

def proceed (lift : Lifter) (b : BlockId) (data : List UInt8) (ip : UInt64) (offset : Nat) : Edit Nat := do
  setBlockRange b ip (some (ip + UInt64.ofNat offset))
  if ← isTerminated b then
    return offset
  else
    liftFrom lift b data ip offset

theorem proceed_run {t : Bool} (hb : r.block? b ≠ none)
    (hrun : isTerminated b (ranged b ip offset r) = .ok t (ranged b ip offset r))
    : proceed lift b data ip offset r =
        if t then .ok offset (ranged b ip offset r)
        else liftFrom lift b data ip offset (ranged b ip offset r) := by
  unfold proceed
  rw [bind_of_ok (setBlockRange_run hb), bind_of_ok hrun]
  cases t <;> rfl

theorem liftFrom_of_success (hdata : offset < data.length)
    (hcall : c = lift.call b (data.drop offset) (ip + UInt64.ofNat offset) r)
    (h : c.failure? = none)
    : liftFrom lift b data ip offset r = proceed lift b data ip (offset + c.length) c.left := by
  subst hcall
  rw [liftFrom, if_pos hdata]
  exact bind_of_ok (Lifter.liftInsn_of_success h)

theorem Lifting.run (h : Lifting lift b data ip offset r calls k r') (hb : r.block? b ≠ none)
    : liftFrom lift b data ip offset r = .ok k r' := by
  induction h with
  | finished h => exact liftFrom_of_le h
  | failed hcall hfailure htrap =>
    rw [liftFrom_of_failure hcall.within (hcall.call ▸ hfailure), ← hcall.call, bind_of_ok htrap.run]
    rfl
  | ended hcall hfailure hr' hrun _ =>
    subst hr'
    rw [liftFrom_of_success hcall.within hcall.call hfailure,
      proceed_run ((hcall.extended.live b).mpr hb) hrun, if_pos rfl]
  | next hcall hfailure hr₁ hrun _ ih =>
    subst hr₁
    have hlive := (hcall.extended.live b).mpr hb
    rw [liftFrom_of_success hcall.within hcall.call hfailure, proceed_run hlive hrun,
      if_neg Bool.false_ne_true]
    exact ih (((extended_ranged hcall.extended.arranged b ip _).live b).mpr hlive)

theorem Lifting.congr {lift' : Lifter} (h : Lifting lift b data ip offset r calls k r')
    (hsame : ∀ c ∈ calls, lift' b c.data c.address c.before = c.result)
    : Lifting lift' b data ip offset r calls k r' := by
  have hcalled : ∀ {offset r c}, Called lift b data ip offset r c →
      lift' b c.data c.address c.before = c.result → Called lift' b data ip offset r c := by
    intro offset r c hcall heq
    refine ⟨hcall.within, ?_, hcall.extended, hcall.range⟩
    rw [hcall.call] at heq ⊢
    exact congrArg (Call.mk _ _ _) heq.symm
  induction h with
  | finished h => exact .finished h
  | failed hcall hfailure htrap =>
    exact .failed (hcalled hcall (hsame _ List.mem_cons_self)) hfailure htrap
  | ended hcall hfailure hr' hrun hterminated =>
    exact .ended (hcalled hcall (hsame _ List.mem_cons_self)) hfailure hr' hrun hterminated
  | next hcall hfailure hr₁ hrun _ ih =>
    rw [List.forall_mem_cons] at hsame
    exact .next (hcalled hcall hsame.1) hfailure hr₁ hrun (ih hsame.2)

theorem left_isTerminated (b : BlockId) (r : Routine) : left (isTerminated b) r = r := by
  unfold isTerminated
  cases hb : r.block? b with
  | none =>
    have hblock : knownBlock b r = .error (.stale (.block b)) r := by simp [knownBlock, hb]
    rw [left_bind_of_error hblock]
  | some found =>
    have hblock : knownBlock b r = .ok found r := by simp [knownBlock, hb]
    rw [left_bind_of_ok hblock]
    cases found.last with
    | none => rfl
    | some id =>
      dsimp only
      rw [left_bind_pure, left_knownInsn]

theorem grows_proceed (h : Within Grows (liftFrom lift b data ip offset))
    : Within Grows (proceed lift b data ip offset) := by
  unfold proceed
  refine Within.bind ?_ fun _ => Within.bind ?_ fun t => ?_
  . exact (keeps_setBlockRange b _ _).mono fun _ _ h => h.grows
  . exact Within.of_left_eq (left_isTerminated b)
  . split
    . exact Within.pure _
    . exact h

theorem grows_liftFrom (hlift : lift.OnlyAppends b)
    : Within Grows (liftFrom lift b data ip offset) := by
  induction hn : data.length - offset using Nat.strong_induction_on generalizing offset with
  | _ n ih =>
    intro r
    by_cases hdata : offset < data.length
    . generalize hcall : lift.call b (data.drop offset) (ip + UInt64.ofNat offset) r = c
      have hgrows : r.Grows c.left := by
        rw [← hcall, Lifter.left_call]
        exact (hlift _ _ r).grows
      refine hgrows.trans ?_
      cases hfailure : c.failure? with
      | some e =>
        subst hcall
        rw [left_eq_of_run_eq (liftFrom_of_failure hdata hfailure)]
        refine Within.bind ?_ (fun _ => Within.pure _) _
        exact (keeps_pushBack b _).mono fun _ _ h => h.grows
      | none =>
        have hpos := Call.length_pos_iff.mpr hfailure
        rw [left_eq_of_run_eq (liftFrom_of_success hdata hcall.symm hfailure)]
        exact grows_proceed (ih _ (by omega) rfl) _
    . rw [left_of_ok (liftFrom_of_le (by omega))]
      exact Grows.refl r

theorem trapped_of_live (harranged : r.Arranged) (hb : r.block? b ≠ none) (address : UInt64)
    (hroomy : (left (pushBack b (trapFor e address)) r).Roomy)
    : ∃ id r', Trapped b e address r r' id := by
  have hadmits : ∀ x ∈ (trapFor e address).operands, r.Admits x := by
    intro x hx v hv
    subst hv
    simp [trapFor, Instruction.trap, Instruction.make, Instruction.withIp] at hx
  rcases settles_pushBack b (trapFor e address) r with ⟨-, id, r', hrun⟩ | ⟨hnot, -⟩
  . rw [left_of_ok hrun] at hroomy
    obtain ⟨hextended, hrange, hlisted, ip, hcode, hip⟩ := pushBack_extends harranged hrun hroomy
    refine ⟨id, r', hrun, hextended, hrange b, hlisted, ?_⟩
    rw [hcode, hip (by simp [trapFor, Instruction.withIp])]
  . exact absurd ⟨hb, hadmits⟩ hnot

theorem exists_lifting (hlift : lift.OnlyAppends b) (harranged : r.Arranged) (hb : r.block? b ≠ none)
    (hroomy : (left (liftFrom lift b data ip offset) r).Roomy)
    : ∃ calls k r', Lifting lift b data ip offset r calls k r' := by
  -- On the bytes that are left: a call that does not fail uses at least one.
  induction hn : data.length - offset using Nat.strong_induction_on generalizing offset r with
  | _ n ih =>
    by_cases hdata : offset < data.length
    . generalize hcall : lift.call b (data.drop offset) (ip + UInt64.ofNat offset) r = c
      have happends : Appends b r c.left := by
        rw [← hcall, Lifter.left_call]
        exact hlift _ _ r
      have hcalled : c.left.Roomy → Called lift b data ip offset r c := by
        intro hroomy'
        obtain ⟨hextended, hrange⟩ := happends.extended harranged hroomy'
        exact ⟨hdata, hcall.symm, hextended, hrange b⟩
      cases hfailure : c.failure? with
      | some e =>
        rw [left_eq_of_run_eq (liftFrom_of_failure hdata (hcall ▸ hfailure)), hcall,
          left_bind_pure] at hroomy
        have hcalled := hcalled ((keeps_pushBack b _ _).grows.roomy hroomy)
        obtain ⟨id, r', htrap⟩ := trapped_of_live hcalled.extended.arranged
          ((hcalled.extended.live b).mpr hb) _ hroomy
        exact ⟨_, _, _, .failed hcalled hfailure htrap⟩
      | none =>
        have hpos := Call.length_pos_iff.mpr hfailure
        rw [left_eq_of_run_eq (liftFrom_of_success hdata hcall.symm hfailure)] at hroomy
        have hcalled := hcalled ((grows_proceed (grows_liftFrom hlift) _).roomy hroomy)
        have hlive := (hcalled.extended.live b).mpr hb
        have hextended := extended_ranged hcalled.extended.arranged b ip (offset + c.length)
        have hlive' := (hextended.live b).mpr hlive
        obtain ⟨t, hrun, hiff⟩ := isTerminated_run hextended.arranged hlive'
        cases t with
        | true => exact ⟨_, _, _, .ended hcalled hfailure rfl hrun (hiff.mp rfl)⟩
        | false =>
          rw [left_eq_of_run_eq (proceed_run hlive hrun)] at hroomy
          obtain ⟨calls, k, r', hrest⟩ := ih _ (by omega) hextended.arranged hlive' hroomy rfl
          exact ⟨_, _, _, .next hcalled hfailure rfl hrun hrest⟩
    . exact ⟨_, _, _, .finished (by omega)⟩

end Run

namespace Lifting

theorem consumed_eq (h : Lifting lift b data ip offset r calls k r') : k = offset + Call.consumed calls := by
  induction h with
  | finished h => simp [Call.consumed]
  | failed hcall hfailure htrap => simp [Call.consumed, Call.length_of_failure hfailure]
  | ended hcall hfailure hr' hrun hterminated => simp [Call.consumed]
  | next hcall hfailure hr₁ hrun hrest ih =>
    rw [ih]
    simp only [Call.consumed, List.map_cons, List.sum_cons]
    omega

theorem length_le (h : Lifting lift b data ip offset r calls k r')
    : calls.length ≤ data.length - offset := by
  -- Every call but the last uses a byte, and the last one finds one.
  induction h with
  | finished h => simp
  | failed hcall hfailure htrap =>
    have := hcall.within
    rw [List.length_singleton]
    omega
  | ended hcall hfailure hr' hrun hterminated =>
    have := hcall.within
    rw [List.length_singleton]
    omega
  | next hcall hfailure hr₁ hrun hrest ih =>
    have := hcall.within
    have := Call.length_pos_iff.mpr hfailure
    rw [List.length_cons]
    omega

theorem head (h : Lifting lift b data ip offset r (c :: calls) k r')
    : Called lift b data ip offset r c := by
  cases h <;> assumption

theorem tail (h : Lifting lift b data ip offset r (c :: calls) k r') (hcalls : calls ≠ [])
    : Lifting lift b data ip (offset + c.length) (ranged b ip (offset + c.length) c.left) calls k r' := by
  cases h with
  | failed => exact absurd rfl hcalls
  | ended => exact absurd rfl hcalls
  | next _ _ hr₁ _ hrest => exact hr₁ ▸ hrest

theorem called {r₀ : Routine} {n : Nat} (hc : calls[n]? = some c)
    (h : Lifting lift b data ip offset (ranged b ip offset r₀) calls k r')
    : Called lift b data ip (offset + Call.consumed (calls.take n)) c.before c ∧
        c.before = ranged b ip (offset + Call.consumed (calls.take n))
          (Call.leftBy (calls.take n) r₀) := by
  induction n generalizing calls offset r₀ with
  | zero =>
    cases calls with
    | nil => cases hc
    | cons d rest =>
      cases hc
      have hbefore : c.before = ranged b ip offset r₀ := by rw [h.head.call]; rfl
      rw [hbefore]
      exact ⟨h.head, rfl⟩
  | succ n ih =>
    cases calls with
    | nil => cases hc
    | cons d rest =>
      rw [List.getElem?_cons_succ] at hc
      have hrest : rest ≠ [] := by
        rintro rfl
        cases hc
      have hsum : offset + Call.consumed ((d :: rest).take (n + 1)) =
          offset + d.length + Call.consumed (rest.take n) := by
        simp only [Call.consumed, List.take_succ_cons, List.map_cons, List.sum_cons]
        omega
      rw [hsum]
      exact ih hc (h.tail hrest)

theorem range (h : Lifting lift b data ip offset r calls k r')
    (hr : r.range? b = some (some ip, some (ip + UInt64.ofNat offset)))
    : r'.range? b = some (some ip, some (ip + UInt64.ofNat k)) := by
  have hranged : ∀ {offset n r c}, Called lift b data ip offset r c →
      r.range? b = some (some ip, some (ip + UInt64.ofNat offset)) →
      (ranged b ip n c.left).range? b = some (some ip, some (ip + UInt64.ofNat n)) := by
    intro offset n r c hcall hr
    apply range?_ranged
    rw [← range?_ne_none_iff, hcall.range, hr]
    simp
  induction h with
  | finished h => exact hr
  | failed hcall hfailure htrap => rw [htrap.range, hcall.range, hr]
  | ended hcall hfailure hr' hrun hterminated => rw [hr', hranged hcall hr]
  | next hcall hfailure hr₁ hrun hrest ih =>
    apply ih
    rw [hr₁, hranged hcall hr]

theorem stops (h : Lifting lift b data ip offset r calls k r')
    : r'.Terminated b ∨ data.length ≤ k := by
  induction h with
  | finished h => exact Or.inr h
  | @failed offset r r' c e id hcall hfailure htrap =>
    left
    refine ⟨id, trapFor e (ip + UInt64.ofNat offset), ?_, htrap.code, rfl⟩
    rw [htrap.listed, List.getLast?_append]
    rfl
  | ended hcall hfailure hr' hrun hterminated => exact Or.inl hterminated
  | next hcall hfailure hr₁ hrun hrest ih => exact ih

theorem trapped (h : Lifting lift b data ip offset r calls k r') (hc : c ∈ calls)
    (hfailure : c.failure? = some e)
    : calls.getLast? = some c ∧ ∃ id, Trapped b e (ip + UInt64.ofNat k) c.left r' id := by
  induction h with
  | finished h => cases hc
  | failed hcall hfailure' htrap =>
    obtain rfl := List.mem_singleton.mp hc
    rw [hfailure'] at hfailure
    cases hfailure
    exact ⟨rfl, _, htrap⟩
  | ended hcall hfailure' hr' hrun hterminated =>
    obtain rfl := List.mem_singleton.mp hc
    rw [hfailure'] at hfailure
    cases hfailure
  | next hcall hfailure' hr₁ hrun hrest ih =>
    rcases List.mem_cons.mp hc with rfl | hc
    . rw [hfailure'] at hfailure
      cases hfailure
    . obtain ⟨hlast, htrap⟩ := ih hc
      refine ⟨?_, htrap⟩
      rw [List.getLast?_cons, hlast]
      rfl

theorem extended (h : Lifting lift b data ip offset r calls k r') (hr : r.Arranged)
    : Extended b r r' ∧ ∀ c ∈ calls, Extended b c.left r' := by
  induction h with
  | finished h => exact ⟨.refl b hr, by simp⟩
  | failed hcall hfailure htrap =>
    refine ⟨hcall.extended.trans htrap.extended, ?_⟩
    simpa using htrap.extended
  | @ended offset r r' c hcall hfailure hr' hrun hterminated =>
    have hextended : Extended b c.left r' := by
      rw [hr']
      exact extended_ranged hcall.extended.arranged b ip _
    refine ⟨hcall.extended.trans hextended, ?_⟩
    simpa using hextended
  | @next offset k r r₁ r' c calls hcall hfailure hr₁ hrun hrest ih =>
    have hextended : Extended b c.left r₁ := by
      rw [hr₁]
      exact extended_ranged hcall.extended.arranged b ip _
    obtain ⟨hfirst, hcalls⟩ := ih hextended.arranged
    refine ⟨hcall.extended.trans (hextended.trans hfirst), ?_⟩
    rw [List.forall_mem_cons]
    exact ⟨hextended.trans hfirst, hcalls⟩

theorem insnsOf_eq {r₀ : Routine} (h : Lifting lift b data ip offset r calls k r')
    (hr : r.insnsOf b = r₀.insnsOf b) (hsuccess : ∀ c ∈ calls, c.failure? = none)
    : r'.insnsOf b = (Call.leftBy calls r₀).insnsOf b := by
  induction h generalizing r₀ with
  | finished h => exact hr
  | failed hcall hfailure htrap =>
    rw [hsuccess _ List.mem_cons_self] at hfailure
    cases hfailure
  | ended hcall hfailure hr' hrun hterminated =>
    rw [hr']
    exact (samePlaces_ranged b ip _ _).insnsOf hcall.extended.arranged b
  | next hcall hfailure hr₁ hrun hrest ih =>
    rw [List.forall_mem_cons] at hsuccess
    refine ih ?_ hsuccess.2
    rw [hr₁]
    exact (samePlaces_ranged b ip _ _).insnsOf hcall.extended.arranged b

end Lifting

structure Lifted (lift : Lifter) (b : BlockId) (data : List UInt8) (ip : UInt64) (r : Routine)
    (calls : List Call) (k : Nat) (r' : Routine) : Prop where
  count : calls.length ≤ data.length
  made : ∀ n c, calls[n]? = some c →
    c.data = data.drop (Call.consumed (calls.take n)) ∧
      c.address.toNat = ip.toNat + Call.consumed (calls.take n) ∧
      c.before = ranged b ip (Call.consumed (calls.take n)) (Call.leftBy (calls.take n) r) ∧
      c.result = lift b c.data c.address c.before
  -- No other call has been made.
  only : ∀ lift' : Lifter, (∀ c ∈ calls, lift' b c.data c.address c.before = c.result) →
    liftBlock lift' b data ip r = .ok k r'
  sum : k = Call.consumed calls
  range : ∃ stop : UInt64, stop.toNat = ip.toNat + k ∧ r'.range? b = some (some ip, some stop)
  stops : r'.Terminated b ∨ data.length ≤ k
  failure : ∀ c ∈ calls, ∀ e, c.failure? = some e →
    calls.getLast? = some c ∧ ∃ id address, address.toNat = ip.toNat + k ∧
      r'.insnsOf b = c.left.insnsOf b ++ [id] ∧ r'.code? id = some (trapFor e address)
  success : (∀ c ∈ calls, c.failure? = none) → r'.insnsOf b = (Call.leftBy calls r).insnsOf b
  kept : Extended b r r' ∧ ∀ c ∈ calls, Extended b c.left r'

theorem toNat_add_ofNat {n : Nat} (h : ip.toNat + n < UInt64.size)
    : (ip + UInt64.ofNat n).toNat = ip.toNat + n := by
  have hsize : UInt64.size = 2 ^ 64 := rfl
  rw [UInt64.toNat_add, UInt64.toNat_ofNat']
  omega

theorem liftBlock_eq (hb : r.block? b ≠ none)
    : liftBlock lift b data ip r = liftFrom lift b data ip 0 (ranged b ip 0 r) := by
  have hrun : setBlockRange b ip (some ip) r = .ok () (ranged b ip 0 r) := by
    rw [← setBlockRange_run hb]
    simp
  unfold liftBlock
  rw [bind_of_ok hrun]

theorem Lifting.lifted (h : Lifting lift b data ip 0 (ranged b ip 0 r) calls k r') (hr : r.Arranged)
    (hb : r.block? b ≠ none) (hfits : ip.toNat + k < UInt64.size)
    : Lifted lift b data ip r calls k r' := by
  have hextended := extended_ranged hr b ip 0
  have hk : k = Call.consumed calls := by rw [h.consumed_eq, Nat.zero_add]
  have hle : ∀ n, Call.consumed (calls.take n) ≤ k := by
    intro n
    have hsplit : Call.consumed calls =
        Call.consumed (calls.take n) + Call.consumed (calls.drop n) := by
      unfold Call.consumed
      rw [← List.sum_append, ← List.map_append, List.take_append_drop]
    omega
  constructor
  . exact h.length_le
  . intro n c hc
    obtain ⟨hcalled, hbefore⟩ := Lifting.called hc h
    rw [Nat.zero_add] at hcalled hbefore
    refine ⟨?_, ?_, hbefore, ?_⟩
    . rw [hcalled.call]
      rfl
    . rw [hcalled.call]
      have := hle n
      exact toNat_add_ofNat (by omega)
    . rw [hcalled.call]
      rfl
  . intro lift' hsame
    rw [liftBlock_eq hb]
    exact (h.congr hsame).run ((hextended.live b).mpr hb)
  . exact hk
  . exact ⟨_, toNat_add_ofNat hfits, h.range (range?_ranged hb)⟩
  . exact h.stops
  . intro c hc e hfailure
    obtain ⟨hlast, id, htrap⟩ := h.trapped hc hfailure
    exact ⟨hlast, id, _, toNat_add_ofNat hfits, htrap.listed, htrap.code⟩
  . exact h.insnsOf_eq ((samePlaces_ranged b ip 0 r).insnsOf hr b)
  . obtain ⟨hwhole, hcalls⟩ := h.extended hextended.arranged
    exact ⟨hextended.trans hwhole, hcalls⟩

theorem liftBlock_follows_lifter (actions : List Action) (hlift : lift.OnlyAppends b)
    (hb : (after actions).block? b ≠ none)
    (hroomy : (left (liftBlock lift b data ip) (after actions)).Roomy)
    (hfits : ∀ k r', liftBlock lift b data ip (after actions) = .ok k r' →
      ip.toNat + k < UInt64.size)
    : ∃ calls k r', liftBlock lift b data ip (after actions) = .ok k r' ∧
        Lifted lift b data ip (after actions) calls k r' := by
  rw [left_eq_of_run_eq (liftBlock_eq hb)] at hroomy
  have hstart := (grows_ranged.trans (grows_liftFrom hlift _)).roomy hroomy
  have harranged := arranged_of_roomy actions hstart
  have hextended := extended_ranged harranged b ip 0
  have hlive := (hextended.live b).mpr hb
  obtain ⟨calls, k, r', hlifting⟩ := exists_lifting hlift hextended.arranged hlive hroomy
  have hrun : liftBlock lift b data ip (after actions) = .ok k r' := by
    rw [liftBlock_eq hb]
    exact hlifting.run hlive
  exact ⟨calls, k, r', hrun, hlifting.lifted harranged hb (hfits k r' hrun)⟩

def byteLifter : Lifter := fun b data _ =>
  match data.head? with
  | some 0x90 => do
    let _ ← pushBack b .nop
    return 1
  | some 0x0f => do
    let _ ← pushBack b (.undef .i64)
    throw (.lifting "truncated")
  | _ => return 0

theorem onlyAppends_byteLifter (b : BlockId) : byteLifter.OnlyAppends b := by
  intro data address r
  unfold byteLifter
  split
  . exact Appends.pushBack_bind (fun _ _ => rfl) b _ r
  . exact Appends.pushBack_bind (fun _ _ => rfl) b _ r
  . exact .refl

def occupied : List Action :=
  [.addBlock, .addBlock, .pushBack (.ofNat 0) (.readReg .i64 (.ofNat 1 1))]

theorem liftBlock_follows_lifter_byteLifter
    : EStateM.run' (liftBlock byteLifter (.ofNat 0) [0x90, 0x90, 0x0f, 0x90] 0x2000) (after occupied) =
          some 2 ∧
        (left (liftBlock byteLifter (.ofNat 0) [0x90, 0x90, 0x0f, 0x90] 0x2000)
          (after occupied)).insnsOf (.ofNat 0) = [.ofNat 0, .ofNat 1, .ofNat 2, .ofNat 3, .ofNat 4] ∧
        (left (liftBlock byteLifter (.ofNat 0) [0x90, 0x90, 0x0f, 0x90] 0x2000)
          (after occupied)).code? (.ofNat 4) = some (trapFor (.lifting "truncated") 0x2002) ∧
        ∃ calls k r', liftBlock byteLifter (.ofNat 0) [0x90, 0x90, 0x0f, 0x90] 0x2000 (after occupied) =
            .ok k r' ∧
          Lifted byteLifter (.ofNat 0) [0x90, 0x90, 0x0f, 0x90] 0x2000 (after occupied) calls k r' := by
  have hrun : EStateM.run' (liftBlock byteLifter (.ofNat 0) [0x90, 0x90, 0x0f, 0x90] 0x2000)
      (after occupied) = some 2 := by decide +kernel
  refine ⟨hrun, by decide +kernel, by decide +kernel, ?_⟩
  apply liftBlock_follows_lifter occupied (onlyAppends_byteLifter _)
  . decide +kernel
  . exact ⟨by decide +kernel, by decide +kernel⟩
  . intro k r' hrun'
    rw [run_of_run' hrun] at hrun'
    cases hrun'
    decide

end Edit

end MachineIR
