import MachineIR.Proofs.Identity
import MachineIR.Proofs.UseSoundness

/-!
This module contains the execution of a block in a straight line, and with it the question whether
values that are structurally identical are equal. They are if the reads of registers and memory that
they rest on give the same; nothing in their structure says so.
-/

namespace MachineIR

structure Machine (W M : Type) where
  literal : Constant → W
  -- A register that is named by an operand.
  register : Register → W
  label : BlockId → W
  address : MemoryRef → (Register → W) → W
  -- The result of an instruction that depends on its operands only.
  result : Opcode → Ty × Ty → List W → W
  load : Ty → M → W → W → W
  store : Ty → M → W → W → W → M

structure Execution (W M : Type) extends Machine W M where
  registers : Register → W
  memory : M
  -- The number of the edge over which the block was entered.
  edge : Nat
  -- The results of instructions from before.
  outside : InsnId → W
  -- What a call makes of registers and memory.
  call : InsnId → (Register → W) → M → (Register → W) × M

structure Snapshot (W M : Type) where
  registers : Register → W
  memory : M
  values : InsnId → W

def Opcode.isExpression (o : Opcode) : Bool := o.isConstant && o != .phi

namespace Execution

variable {W M : Type} (E : Execution W M)

def start : Snapshot W M := ⟨E.registers, E.memory, E.outside⟩

def operand (s : Snapshot W M) : Operand → W
  | .const c => E.literal c
  | .reg x => E.register x
  | .mem m => E.address m s.registers
  | .value (.insn id) => s.values id
  | .value (.block b) => E.label b

def value (s : Snapshot W M) (i : Insn) : W :=
  match i.opcode, i.operands with
  | .readReg, [.reg x] => s.registers x
  | .loadMem, [a, offset] => E.load (i.template 0) s.memory (E.operand s a) (E.operand s offset)
  | .phi, xs =>
    match xs[E.edge]? with
    | some x => E.operand E.start x
    | none => E.result .phi i.templates []
  | o, xs => E.result o i.templates (xs.map (E.operand s))

def effect (s : Snapshot W M) (id : InsnId) (i : Insn) : Snapshot W M :=
  match i.opcode, i.operands with
  | .writeReg, [.reg x, y] =>
    { s with registers := fun z => if z = x then E.operand s y else s.registers z }
  | .storeMem, [a, offset, y] =>
    { s with
      memory := E.store (i.template 0) s.memory (E.operand s a) (E.operand s offset)
        (E.operand s y) }
  | o, _ =>
    if o.touchesRegisters then
      let (registers, memory) := E.call id s.registers s.memory
      { s with registers, memory }
    else
      s

def step (r : Routine) (s : Snapshot W M) (id : InsnId) : Snapshot W M :=
  match r.insn? id with
  | some i =>
    { E.effect s id i with values := fun j => if j = id then E.value s i else s.values j }
  | none => s

def after (r : Routine) (ids : List InsnId) (n : Nat) : Snapshot W M :=
  (ids.take n).foldl (E.step r) E.start

end Execution

structure Site where
  time : Nat
  operand : Operand

def Execution.found {W M : Type} (E : Execution W M) (r : Routine) (ids : List InsnId) (s : Site) : W :=
  E.operand (E.after r ids s.time) s.operand

structure Computes (ids : List InsnId) (n : Nat) (id : InsnId) (m : Nat) : Prop where
  lt : m < n
  found : ids[m]? = some id
  last : ∀ k, m < k → k < n → ids[k]? ≠ some id

structure Unfolds (r : Routine) (ids : List InsnId) (s t : Site) (p q : InsnId) (i j : Insn)
    (m n : Nat) : Prop where
  left : s.operand = .insn p
  right : t.operand = .insn q
  ne : p ≠ q
  insnLeft : r.insn? p = some i
  insnRight : r.insn? q = some j
  expressionLeft : i.opcode.isExpression = true
  expressionRight : j.opcode.isExpression = true
  computedLeft : Computes ids s.time p m
  computedRight : Computes ids t.time q n

/--
To compare two sites comes down to comparing two others: those that are reached through the operands
of expressions, as long as there are expressions on both sides.
-/
inductive RestsOn (r : Routine) (ids : List InsnId) : Site → Site → Site → Site → Prop where
  | here {s t : Site} (h : ∀ p q i j m n, ¬ Unfolds r ids s t p q i j m n) : RestsOn r ids s t s t
  | operand {s t s' t' : Site} {p q : InsnId} {i j : Insn} {m n k : Nat} {x y : Operand}
    (h : Unfolds r ids s t p q i j m n) (hx : i.operands[k]? = some x) (hy : j.operands[k]? = some y)
    (rest : RestsOn r ids ⟨m, x⟩ ⟨n, y⟩ s' t') : RestsOn r ids s t s' t'

namespace Execution

variable {W M : Type} (E : Execution W M) {r : Routine} {ids : List InsnId}

theorem value_of_isExpression {i : Insn} (h : i.opcode.isExpression = true) (s : Snapshot W M)
    : E.value s i = E.result i.opcode i.templates (i.operands.map (E.operand s)) := by
  unfold value
  split
  . next heq _ =>
    rw [heq] at h
    cases h
  . next heq _ =>
    rw [heq] at h
    cases h
  . next heq =>
    rw [heq] at h
    cases h
  . rfl

theorem after_succ {n : Nat} {id : InsnId} (h : ids[n]? = some id)
    : E.after r ids (n + 1) = E.step r (E.after r ids n) id := by
  unfold after
  rw [List.take_add_one, h]
  simp

theorem after_succ_of_none {n : Nat} (h : ids[n]? = none)
    : E.after r ids (n + 1) = E.after r ids n := by
  unfold after
  rw [List.take_add_one, h]
  simp

theorem values_step {i : Insn} {id : InsnId} (hi : r.insn? id = some i) (s : Snapshot W M)
    (j : InsnId) : (E.step r s id).values j = if j = id then E.value s i else s.values j := by
  unfold step
  rw [hi]

theorem values_step_of_ne {id j : InsnId} (h : j ≠ id) (s : Snapshot W M)
    : (E.step r s id).values j = s.values j := by
  unfold step
  split
  . simp [h]
  . rfl

theorem values_after {n m : Nat} {id : InsnId} {i : Insn} (hi : r.insn? id = some i)
    (h : Computes ids n id m) : (E.after r ids n).values id = E.value (E.after r ids m) i := by
  induction n with
  | zero => exact absurd h.lt (Nat.not_lt_zero m)
  | succ n ih =>
    rcases Nat.lt_or_eq_of_le (Nat.le_of_lt_succ h.lt) with hlt | rfl
    . have hlast := h.last n hlt (Nat.lt_succ_self n)
      have hbefore : Computes ids n id m :=
        ⟨hlt, h.found, fun k hm hn => h.last k hm (Nat.lt_succ_of_lt hn)⟩
      rw [← ih hbefore]
      cases hj : ids[n]? with
      | none => rw [E.after_succ_of_none hj]
      | some j =>
        rw [E.after_succ hj]
        apply E.values_step_of_ne
        intro heq
        rw [hj, heq] at hlast
        exact hlast rfl
    . rw [E.after_succ h.found, E.values_step hi, if_pos rfl]

theorem found_of_unfolds {s t : Site} {p q : InsnId} {i j : Insn} {m n : Nat}
    (h : Unfolds r ids s t p q i j m n)
    : E.found r ids s = E.result i.opcode i.templates
          (i.operands.map fun x => E.found r ids ⟨m, x⟩) ∧
        E.found r ids t = E.result j.opcode j.templates
          (j.operands.map fun y => E.found r ids ⟨n, y⟩) := by
  have hleft : E.found r ids s = (E.after r ids s.time).values p := by
    unfold found
    rw [h.left]
    rfl
  have hright : E.found r ids t = (E.after r ids t.time).values q := by
    unfold found
    rw [h.right]
    rfl
  constructor
  . rw [hleft, E.values_after h.insnLeft h.computedLeft, E.value_of_isExpression h.expressionLeft]
    rfl
  . rw [hright, E.values_after h.insnRight h.computedRight,
      E.value_of_isExpression h.expressionRight]
    rfl

theorem found_eq_of_restsOn {s t : Site} (h : s.operand.Related (r.Alike []) t.operand)
    (hrests : ∀ s' t', RestsOn r ids s t s' t' → E.found r ids s' = E.found r ids t')
    : E.found r ids s = E.found r ids t := by
  by_cases hunfolds : ∃ p q i j m n, Unfolds r ids s t p q i j m n
  . obtain ⟨p, q, i, j, m, n, hu⟩ := hunfolds
    rw [hu.left, hu.right] at h
    -- The instructions differ, so they have one shape and operands that are alike.
    rcases Routine.Alike.cases h with heq | hmem | ⟨-, p', q', i', j', hp, hq, hi, hj, hshape, hops⟩
    . cases heq
      exact absurd rfl hu.ne
    . cases hmem
    . cases hp
      cases hq
      rw [hu.insnLeft] at hi
      rw [hu.insnRight] at hj
      cases hi
      cases hj
      obtain ⟨hopcode, htemplates, hlength⟩ := Insn.eq_of_sameShape hshape
      obtain ⟨hleft, hright⟩ := E.found_of_unfolds hu
      rw [hleft, hright, hopcode, htemplates]
      congr 1
      apply List.ext_getElem?
      intro k
      simp only [List.getElem?_map]
      cases hx : i.operands[k]? with
      | none =>
        have hy : j.operands[k]? = none := by
          rw [List.getElem?_eq_none_iff] at hx ⊢
          omega
        rw [hy]
        rfl
      | some x =>
        obtain ⟨y, hy⟩ : ∃ y, j.operands[k]? = some y := by
          have hlt := (List.getElem?_eq_some_iff.mp hx).1
          exact ⟨_, List.getElem?_eq_getElem (by omega)⟩
        rw [hy, Option.map_some, Option.map_some]
        congr 1
        have := hu.computedLeft.lt
        apply found_eq_of_restsOn
        . exact hops k x y hx hy
        . intro s' t' hrest
          exact hrests s' t' (RestsOn.operand hu hx hy hrest)
  . apply hrests
    apply RestsOn.here
    intro p q i j m n hu
    exact hunfolds ⟨p, q, i, j, m, n, hu⟩
termination_by s.time

end Execution

section Traced

inductive Traced (W : Type) where
  | given (w : W)
  | computed (w : W) (args : List (Traced W))

def Traced.word {W : Type} : Traced W → W
  | given w => w
  | computed w _ => w

namespace Execution

variable {W M : Type} (E : Execution W M) {r : Routine} {ids : List InsnId}

def traced : Execution (Traced W) M where
  literal c := .given (E.literal c)
  register x := .given (E.register x)
  label b := .given (E.label b)
  address m registers := .given (E.address m fun x => (registers x).word)
  result o t args := .computed (E.result o t (args.map Traced.word)) args
  load t memory a offset := .given (E.load t memory a.word offset.word)
  store t memory a offset w := E.store t memory a.word offset.word w.word
  registers x := .given (E.registers x)
  memory := E.memory
  edge := E.edge
  outside id := .given (E.outside id)
  call id registers memory :=
    let (registers, memory) := E.call id (fun x => (registers x).word) memory
    (fun x => .given (registers x), memory)

structure Traces (s' : Snapshot (Traced W) M) (s : Snapshot W M) : Prop where
  registers : ∀ x, (s'.registers x).word = s.registers x
  memory : s'.memory = s.memory
  values : ∀ id, (s'.values id).word = s.values id

variable {s' : Snapshot (Traced W) M} {s : Snapshot W M}

theorem traces_start : Traces E.traced.start E.start := by
  constructor
  . intro x
    rfl
  . rfl
  . intro id
    rfl

theorem word_operand (h : Traces s' s) (x : Operand)
    : (E.traced.operand s' x).word = E.operand s x := by
  have hregisters : (fun x => (s'.registers x).word) = s.registers := funext h.registers
  cases x with
  | const c => rfl
  | reg x => rfl
  | mem m =>
    change E.address m (fun x => (s'.registers x).word) = E.address m s.registers
    rw [hregisters]
  | value v =>
    cases v with
    | insn id => exact h.values id
    | block b => rfl

theorem word_value (h : Traces s' s) (i : Insn) : (E.traced.value s' i).word = E.value s i := by
  unfold value
  generalize i.opcode = o
  generalize i.operands = xs
  split
  . next x => exact h.registers x
  . next a offset =>
    change E.load _ s'.memory (E.traced.operand s' a).word (E.traced.operand s' offset).word = _
    rw [h.memory, E.word_operand h, E.word_operand h]
  . change (match xs[E.edge]? with
      | some x => E.traced.operand E.traced.start x
      | none => E.traced.result .phi i.templates []).word = _
    split
    . exact E.word_operand E.traces_start _
    . rfl
  . change E.result o _ ((xs.map (E.traced.operand s')).map Traced.word) = _
    rw [List.map_map]
    congr 1
    apply List.map_congr_left
    intro x hx
    exact E.word_operand h x

theorem traces_effect (h : Traces s' s) (id : InsnId) (i : Insn)
    : Traces (E.traced.effect s' id i) (E.effect s id i) := by
  have hregisters : (fun x => (s'.registers x).word) = s.registers := funext h.registers
  unfold effect
  generalize i.opcode = o
  generalize i.operands = xs
  split
  . next x y =>
    refine ⟨?_, h.memory, h.values⟩
    intro z
    dsimp only
    split
    . exact E.word_operand h y
    . exact h.registers z
  . next a offset y =>
    refine ⟨h.registers, ?_, h.values⟩
    change E.store _ s'.memory (E.traced.operand s' a).word (E.traced.operand s' offset).word
      (E.traced.operand s' y).word = _
    rw [h.memory, E.word_operand h, E.word_operand h, E.word_operand h]
  . split
    . refine ⟨?_, ?_, h.values⟩
      . intro z
        change (E.call id (fun x => (s'.registers x).word) s'.memory).1 z = _
        rw [hregisters, h.memory]
      . change (E.call id (fun x => (s'.registers x).word) s'.memory).2 = _
        rw [hregisters, h.memory]
    . exact h

theorem traces_step (h : Traces s' s) (id : InsnId)
    : Traces (E.traced.step r s' id) (E.step r s id) := by
  unfold step
  split
  . next i hi =>
    have heffect := E.traces_effect h id i
    refine ⟨heffect.registers, heffect.memory, ?_⟩
    intro j
    dsimp only
    split
    . exact E.word_value h i
    . exact h.values j
  . exact h

theorem traces_after (n : Nat) : Traces (E.traced.after r ids n) (E.after r ids n) := by
  induction n with
  | zero => exact E.traces_start
  | succ n ih =>
    cases hid : ids[n]? with
    | none =>
      rw [after_succ_of_none _ hid, after_succ_of_none _ hid]
      exact ih
    | some id =>
      rw [after_succ _ hid, after_succ _ hid]
      exact E.traces_step ih id

theorem word_found (s : Site) : (E.traced.found r ids s).word = E.found r ids s :=
  E.word_operand (E.traces_after s.time) s.operand

theorem traced_found_eq {s t s' t' : Site} (hrests : RestsOn r ids s t s' t')
    (h : E.traced.found r ids s = E.traced.found r ids t)
    : E.traced.found r ids s' = E.traced.found r ids t' := by
  induction hrests with
  | here hnot => exact h
  | @operand s t s' t' p q i j m n k x y hu hx hy hrest ih =>
    apply ih
    obtain ⟨hleft, hright⟩ := E.traced.found_of_unfolds hu
    rw [hleft, hright] at h
    have hargs : i.operands.map (fun x => E.traced.found r ids ⟨m, x⟩) =
        j.operands.map (fun y => E.traced.found r ids ⟨n, y⟩) := (Traced.computed.inj h).2
    have hk := congrArg (·[k]?) hargs
    simpa [hx, hy] using hk

end Execution

end Traced

section Undisturbed

variable {r : Routine} {ids : List InsnId}

def Insn.sparesRegister (i : Insn) (x : Register) : Prop :=
  i.opcode.touchesRegisters = false ∧ ¬ (i.opcode = .writeReg ∧ i.operand? 0 = some (.reg x))

def SparesRegister (r : Routine) (ids : List InsnId) (x : Register) (m n : Nat) : Prop :=
  ∀ k id i, m ≤ k → k < n → ids[k]? = some id → r.insn? id = some i → i.sparesRegister x

inductive Undisturbed (r : Routine) (ids : List InsnId) : Site → Site → Prop where
  | literal (m n : Nat) (c : Constant) : Undisturbed r ids ⟨m, .const c⟩ ⟨n, .const c⟩
  | register (m n : Nat) (x : Register) : Undisturbed r ids ⟨m, .reg x⟩ ⟨n, .reg x⟩
  | label (m n : Nat) (b : BlockId) : Undisturbed r ids ⟨m, .block b⟩ ⟨n, .block b⟩
  | result {m n k : Nat} {p : InsnId} (hm : Computes ids m p k) (hn : Computes ids n p k)
    (hlive : (r.insn? p).isSome = true) : Undisturbed r ids ⟨m, .insn p⟩ ⟨n, .insn p⟩
  | read {m n m' n' : Nat} {p q : InsnId} {i j : Insn} {x : Register}
    (hi : r.insn? p = some i) (hj : r.insn? q = some j) (hm : Computes ids m p m')
    (hn : Computes ids n q n') (hopcode : i.opcode = .readReg) (hopcode' : j.opcode = .readReg)
    (hreg : i.operands = [.reg x]) (hreg' : j.operands = [.reg x])
    (hspares : SparesRegister r ids x (min m' n') (max m' n'))
    : Undisturbed r ids ⟨m, .insn p⟩ ⟨n, .insn q⟩

namespace Execution

variable {W M : Type} (E : Execution W M)

theorem registers_effect {i : Insn} {x : Register} (h : i.sparesRegister x) (s : Snapshot W M)
    (id : InsnId) : (E.effect s id i).registers x = s.registers x := by
  obtain ⟨htouches, hwrite⟩ := h
  have hoperand : i.operand? 0 = i.operands[0]? := by
    simp [Insn.operand?, Insn.operands]
  rw [hoperand] at hwrite
  unfold effect
  split
  . next y w hopcode hoperands =>
    have hne : x ≠ y := by
      intro heq
      apply hwrite
      rw [hopcode, hoperands, heq]
      exact ⟨rfl, rfl⟩
    simp [hne]
  . rfl
  . rw [htouches]
    rfl

theorem registers_after {x : Register} {m n : Nat} (hle : m ≤ n)
    (h : SparesRegister r ids x m n)
    : (E.after r ids n).registers x = (E.after r ids m).registers x := by
  induction n with
  | zero =>
    have : m = 0 := by omega
    rw [this]
  | succ n ih =>
    rcases Nat.lt_or_eq_of_le hle with hlt | heq
    . rw [← ih (by omega) fun k id i hm hn => h k id i hm (by omega)]
      cases hid : ids[n]? with
      | none => rw [E.after_succ_of_none hid]
      | some id =>
        rw [E.after_succ hid]
        unfold step
        split
        . next i hi => exact E.registers_effect (h n id i (by omega) (by omega) hid hi) _ id
        . rfl
    . rw [heq]

theorem found_of_undisturbed {s t : Site} (h : Undisturbed r ids s t)
    : E.found r ids s = E.found r ids t := by
  cases h with
  | literal m n c => rfl
  | register m n x => rfl
  | label m n b => rfl
  | @result m n k p hm hn hlive =>
    obtain ⟨i, hi⟩ := Option.isSome_iff_exists.mp hlive
    change (E.after r ids m).values p = (E.after r ids n).values p
    rw [E.values_after hi hm, E.values_after hi hn]
  | @read m n m' n' p q i j x hi hj hm hn hopcode hopcode' hreg hreg' hspares =>
    change (E.after r ids m).values p = (E.after r ids n).values q
    rw [E.values_after hi hm, E.values_after hj hn]
    unfold value
    rw [hopcode, hopcode', hreg, hreg']
    dsimp only
    rcases Nat.le_total m' n' with hle | hle
    . rw [Nat.min_eq_left hle, Nat.max_eq_right hle] at hspares
      exact (E.registers_after hle hspares).symm
    . rw [Nat.min_eq_right hle, Nat.max_eq_left hle] at hspares
      exact E.registers_after hle hspares

end Execution

end Undisturbed

namespace Routine

variable {r : Routine}

theorem identicalValues_of_duplicate? {id earlier : InsnId} (h : r.duplicate? id = some earlier)
    : r.identicalValues (.insn id) (.insn earlier) = true := by
  have hamong : ∀ constant candidates, r.duplicateAmong? id constant candidates = some earlier →
      r.identicalValues (.insn id) (.insn earlier) = true := by
    intro constant candidates hsome
    induction candidates with
    | nil => cases hsome
    | cons candidate rest ih =>
      unfold duplicateAmong? at hsome
      split at hsome
      . next hidentical =>
        cases hsome
        exact hidentical
      . split at hsome
        . cases hsome
        . exact ih hsome
  obtain ⟨i, -, hsome⟩ := Option.bind_eq_some_iff.mp h
  exact hamong _ _ hsome

/--
The places where a pass takes two operands for equal, read after `n` instructions of a block: an
instruction and the earlier one that its users get instead, and the two sides of an operator, of a
comparison or of a choice to which the laws for equal operands apply.
-/
inductive Merges (r : Routine) (b : BlockId) : Nat → Operand → Operand → Prop where
  | duplicate {n : Nat} {id earlier : InsnId} (hid : (r.insnsOf b)[n]? = some id)
    (h : r.duplicate? id = some earlier) : Merges r b (n + 1) (.insn id) (.insn earlier)
  | operands {n : Nat} {id : InsnId} {i : Insn} {x y : Operand} (hid : (r.insnsOf b)[n]? = some id)
    (hi : r.insn? id = some i) (hopcode : i.opcode ∈ [.binop, .cmp, .select])
    (hx : i.operand? 1 = some x) (hy : i.operand? 2 = some y) (h : r.identical x y = true)
    : Merges r b n x y

theorem Merges.alike {b : BlockId} {n : Nat} {x y : Operand} (h : r.Merges b n x y)
    : x.Related (r.Alike []) y := by
  cases h with
  | duplicate hid h => exact identicalValues_iff.mp (identicalValues_of_duplicate? h)
  | operands hid hi hopcode hx hy h => exact identical_iff.mp h

end Routine

theorem merges_agree_iff {r : Routine} {b : BlockId} {n : Nat} {x y : Operand}
    (h : r.Merges b n x y)
    : (∀ (W M : Type) (E : Execution W M),
          (∀ s t, RestsOn r (r.insnsOf b) ⟨n, x⟩ ⟨n, y⟩ s t →
            E.found r (r.insnsOf b) s = E.found r (r.insnsOf b) t) →
          E.found r (r.insnsOf b) ⟨n, x⟩ = E.found r (r.insnsOf b) ⟨n, y⟩) ∧
        ((∀ (W M : Type) (E : Execution W M),
            E.found r (r.insnsOf b) ⟨n, x⟩ = E.found r (r.insnsOf b) ⟨n, y⟩) ↔
          ∀ s t, RestsOn r (r.insnsOf b) ⟨n, x⟩ ⟨n, y⟩ s t →
            ∀ (W M : Type) (E : Execution W M),
              E.found r (r.insnsOf b) s = E.found r (r.insnsOf b) t) ∧
        ((∀ s t, RestsOn r (r.insnsOf b) ⟨n, x⟩ ⟨n, y⟩ s t →
            Undisturbed r (r.insnsOf b) s t) →
          ∀ (W M : Type) (E : Execution W M),
            E.found r (r.insnsOf b) ⟨n, x⟩ = E.found r (r.insnsOf b) ⟨n, y⟩) := by
  refine ⟨?_, ⟨?_, ?_⟩, ?_⟩
  . intro W M E hrests
    exact E.found_eq_of_restsOn h.alike hrests
  . intro hall s t hrest W M E
    rw [← E.word_found s, ← E.word_found t, E.traced_found_eq hrest (hall _ _ E.traced)]
  . intro hrests W M E
    exact E.found_eq_of_restsOn h.alike fun s t hrest => hrests s t hrest W M E
  . intro hundisturbed W M E
    exact E.found_eq_of_restsOn h.alike fun s t hrest =>
      E.found_of_undisturbed (hundisturbed s t hrest)

def twoReads : Routine :=
  .after [.addBlock,
    .pushBack (.ofNat 0) (.readReg .i64 (.ofNat 1 1)),
    .pushBack (.ofNat 0) (.writeReg (.ofNat 2 1) (.insn (.ofNat 0)) .i64),
    .pushBack (.ofNat 0) (.readReg .i64 (.ofNat 1 1)),
    .pushBack (.ofNat 0) (.binop .i64 .sub (.insn (.ofNat 0)) (.insn (.ofNat 2)))]

theorem twoReads_agree
    : twoReads.Merges (.ofNat 0) 3 (.insn (.ofNat 0)) (.insn (.ofNat 2)) ∧
        ∀ (W M : Type) (E : Execution W M),
          E.found twoReads (twoReads.insnsOf (.ofNat 0)) ⟨3, .insn (.ofNat 0)⟩ =
            E.found twoReads (twoReads.insnsOf (.ofNat 0)) ⟨3, .insn (.ofNat 2)⟩ := by
  have hids : twoReads.insnsOf (.ofNat 0) = [.ofNat 0, .ofNat 1, .ofNat 2, .ofNat 3] := by
    decide +kernel
  have hmerges : twoReads.Merges (.ofNat 0) 3 (.insn (.ofNat 0)) (.insn (.ofNat 2)) := by
    have hsub : (twoReads.insn? (.ofNat 3)).map (fun i => (i.opcode, i.operand? 1, i.operand? 2)) =
        some (.binop, some (.insn (.ofNat 0)), some (.insn (.ofNat 2))) := by
      decide +kernel
    obtain ⟨i, hi, heq⟩ := Option.map_eq_some_iff.mp hsub
    simp only [Prod.mk.injEq] at heq
    obtain ⟨hopcode, hx, hy⟩ := heq
    refine .operands ?_ hi (by simp [hopcode]) hx hy (by decide +kernel)
    rw [hids]
    rfl
  refine ⟨hmerges, (merges_agree_iff hmerges).2.2 ?_⟩
  have hread : ∀ p ∈ [InsnId.ofNat 0, .ofNat 2], ∃ i, twoReads.insn? p = some i ∧
      i.opcode = .readReg ∧ i.operands = [.reg (.ofNat 1 1)] := by
    have hfields : ∀ p ∈ [InsnId.ofNat 0, .ofNat 2],
        (twoReads.insn? p).map (fun i => (i.opcode, i.operands)) =
          some (.readReg, [.reg (.ofNat 1 1)]) := by
      decide +kernel
    intro p hp
    obtain ⟨i, hi, heq⟩ := Option.map_eq_some_iff.mp (hfields p hp)
    simp only [Prod.mk.injEq] at heq
    exact ⟨i, hi, heq⟩
  obtain ⟨i, hi, hopcode, hreg⟩ := hread (.ofNat 0) (by simp)
  obtain ⟨j, hj, hopcode', hreg'⟩ := hread (.ofNat 2) (by simp)
  intro s t hrest
  cases hrest with
  | here hnot =>
    have hfirst : Computes (twoReads.insnsOf (.ofNat 0)) 3 (.ofNat 0) 0 := by
      rw [hids]
      have hlast : ∀ k < 3, 0 < k → [InsnId.ofNat 0, .ofNat 1, .ofNat 2, .ofNat 3][k]? ≠
          some (.ofNat 0) := by
        decide
      exact ⟨by decide, rfl, fun k hm hn => hlast k hn hm⟩
    have hsecond : Computes (twoReads.insnsOf (.ofNat 0)) 3 (.ofNat 2) 2 := by
      rw [hids]
      exact ⟨by decide, rfl, fun k hm hn => by omega⟩
    refine .read hi hj hfirst hsecond hopcode hopcode' hreg hreg' ?_
    -- What stands between the reads writes another register.
    have hbetween : ∀ k < 2, (((twoReads.insnsOf (.ofNat 0))[k]?).bind twoReads.insn?).all (fun i =>
        !i.opcode.touchesRegisters &&
          !(i.opcode == .writeReg && i.operand? 0 == some (.reg (.ofNat 1 1)))) = true := by
      decide +kernel
    intro k id i' hm hn hid hi'
    have hk := hbetween k (by simpa using hn)
    rw [hid, Option.bind_some, hi', Option.all_some] at hk
    simpa [Insn.sparesRegister, imp_iff_not_or] using hk
  | operand hu hx hy hrest =>
    -- A read is no expression.
    have hleft := hu.insnLeft
    cases hu.left
    rw [hi] at hleft
    cases hleft
    have := hu.expressionLeft
    rw [hopcode] at this
    cases this

def literalMachine : Machine Constant Unit where
  literal c := c
  register _ := .void
  label _ := .void
  address _ _ := .void
  result o t args :=
    match o, args with
    | .binop, [.op f, x, y] => (Constant.binary? f x y).getD .void
    | .cmp, [.op f, x, y] => (Constant.binary? f x y).getD .void
    | .unop, [.op f, x] => (Constant.unary? f x).getD .void
    | .cast, [x] => (x.convert? .zero t.2).getD .void
    | .castSx, [x] => (x.convert? .sign t.2).getD .void
    | .bitcast, [x] => (x.bitcast? t.2).getD .void
    | .select, [c, x, y] => if c.toBool? = some true then x else y
    | _, _ => .void
  load _ _ _ _ := .void
  store _ m _ _ _ := m

def literalExecution : Execution Constant Unit where
  toMachine := literalMachine
  registers _ := .i64 0
  memory := ()
  edge := 0
  outside _ := .void
  call _ registers memory := (registers, memory)

def complementTwice : Routine :=
  .after [.addBlock,
    .pushBack (.ofNat 0) (.readReg .i64 (.ofNat 0 1)),
    .pushBack (.ofNat 0) (.unop .i64 .not (.insn (.ofNat 0))),
    .pushBack (.ofNat 0) (.writeReg (.ofNat 0 1) (.const (.i64 1)) .i64),
    .pushBack (.ofNat 0) (.readReg .i64 (.ofNat 0 1)),
    .pushBack (.ofNat 0) (.unop .i64 .not (.insn (.ofNat 3))),
    .pushBack (.ofNat 0) (.writeReg (.ofNat 1 1) (.insn (.ofNat 1)) .i64),
    .pushBack (.ofNat 0) (.writeReg (.ofNat 2 1) (.insn (.ofNat 4)) .i64)]

theorem complementTwice_differ
    : complementTwice.check = .ok () ∧
        complementTwice.duplicate? (.ofNat 4) = some (.ofNat 1) ∧
        ((Edit.left (Edit.deduplicate (.ofNat 0) true) complementTwice).slot? (.ofNat 6) 1).map
          Slot.operand = some (.insn (.ofNat 1)) ∧
        literalExecution.found complementTwice (complementTwice.insnsOf (.ofNat 0))
            ⟨5, .insn (.ofNat 4)⟩ = .i64 (-2) ∧
        literalExecution.found complementTwice (complementTwice.insnsOf (.ofNat 0))
            ⟨5, .insn (.ofNat 1)⟩ = .i64 (-1) := by
  refine ⟨?_, ?_, ?_, ?_, ?_⟩
  . rfl
  . decide +kernel
  . decide +kernel
  . decide +kernel
  . decide +kernel

end MachineIR
