import MachineIR.Constant.Arithmetic
import MachineIR.Constant.Conversion
import MachineIR.Pass.DeadCode
import MachineIR.Routine.Identity

/-!
This module contains the local simplifications: algebraic laws, comparisons of a value with itself,
chains of conversions and constants on the wrong side. A rule looks at one instruction and those
that compute its operands, and says what to do; the first rule that applies is used.
-/

namespace MachineIR

/-- What a rule does to its instruction. -/
inductive Simplification where
  -- Lets an operand stand for the result.
  | replace (x : Operand)
  -- Puts operands into two slots.
  | operands (i : Nat) (x : Operand) (j : Nat) (y : Operand)
  -- Reads the operand directly from a source of another type.
  | source (t : Ty) (x : Operand)
deriving DecidableEq, Repr

inductive CastChain where
  | keep
  -- Both together give back what they were given.
  | drop
  -- The outer one alone, applied to the source of the inner one, gives the same.
  | shorten
deriving DecidableEq, Repr

def castChain (inner outer : Extension) (a b c : Ty) : CastChain :=
  if !(a.isInteger && b.isInteger && c.isInteger) then
    .keep
  else if a.bitWidth ≤ b.bitWidth then
    if c.bitWidth = a.bitWidth then
      .drop
    else if c.bitWidth < a.bitWidth || (b.bitWidth ≤ c.bitWidth && inner == outer) then
      .shorten
    else
      .keep
  else if c.bitWidth ≤ b.bitWidth then
    .shorten
  else
    .keep

namespace Operator

def withConstant? (o : Operator) (x : Operand) (c : Constant) (t : Ty) : Option Operand :=
  let zero := (Constant.ofInt? t 0).map Operand.const
  match o with
  | .add | .sub | .xor | .shl | .shr | .sar | .rol | .ror => if c.isZero then some x else none
  | .or =>
    if c.isZero then some x
    else if c.isAllOnes then some (.const c)
    else none
  | .mul =>
    if c.isOne then some x
    else if c.isZero then zero
    else none
  | .div | .udiv => if c.isOne then some x else none
  | .and =>
    if c.isAllOnes then some x
    else if c.isZero then zero
    else none
  | .rem | .urem => if c.isOne then zero else none
  | _ => none

def withSelf? (o : Operator) (x : Operand) (t : Ty) : Option Operand :=
  match o with
  | .or | .and | .max | .umax | .min | .umin => some x
  | .xor | .sub => (Constant.ofInt? t 0).map .const
  | _ => none

def isInvolution : Operator → Bool
  | .not | .neg | .byteswap => true
  | _ => false

end Operator

def Opcode.extension? : Opcode → Option Extension
  | .cast => some .zero
  | .castSx => some .sign
  | _ => .none

namespace Routine

def producer? (r : Routine) (x : Operand) : Option Insn := x.insn?.bind r.insn?

def producerOf? (r : Routine) (o : Opcode) (x : Operand) : Option Insn :=
  (r.producer? x).filter (·.opcode == o)

def commute? (o : Operator) (x y : Operand) : Option Simplification :=
  if o.isCommutative && x.isConst && !y.isConst then some (.operands 1 y 2 x) else none

def addNegated? (o : Operator) (x : Operand) (c : Constant) (t : Ty) : Option Simplification :=
  if o = .sub ∧ !x.isConst then do
    let negated ← Constant.binary? .sub (← Constant.ofInt? t 0) c
    return .operands 0 (.const (.op .add)) 2 (.const negated)
  else
    none

def mergeAdditions? (r : Routine) (o : Operator) (x : Operand) (c : Constant) (t : Ty) :
    Option Simplification := do
  let inner ← r.producerOf? .binop x
  if o = .add ∧ inner.operator? = some .add ∧ inner.template 0 = t then
    let merged ← Constant.binary? .add (← inner.const? 2) c
    return .operands 1 (← inner.operand? 1) 2 (.const merged)
  else
    none

def combineBinop? (r : Routine) (i : Insn) : Option Simplification := do
  let o ← i.operator?
  let x ← i.operand? 1
  let y ← i.operand? 2
  let t := i.template 0
  if !t.isInteger then
    none
  else
    commute? o x y
      <|> (y.const?.bind (o.withConstant? x · t)).map .replace
      <|> (if r.identical x y then (o.withSelf? x t).map .replace else none)
      <|> y.const?.bind (addNegated? o x · t)
      <|> y.const?.bind (r.mergeAdditions? o x · t)

def combineCmp? (r : Routine) (i : Insn) : Option Simplification := do
  let o ← i.operator?
  let x ← i.operand? 1
  let y ← i.operand? 2
  if !(i.template 0).isInteger then
    none
  else
    commute? o x y
      <|> (if r.identical x y then o.onEqual?.map (.replace <| .const <| .ofBool ·) else none)

def combineUnop? (r : Routine) (i : Insn) : Option Simplification := do
  let o ← i.operator?
  let inner ← r.producerOf? .unop (← i.operand? 1)
  if o.isInvolution && inner.operator? == some o && inner.template 0 == i.template 0 then
    inner.operand? 1 |>.map .replace
  else
    none

def combineBitcast? (r : Routine) (i : Insn) : Option Simplification := do
  let x ← i.operand? 0
  if i.template 0 = i.template 1 then
    some (.replace x)
  else
    let inner ← r.producerOf? .bitcast x
    return .source (inner.template 0) (← inner.operand? 0)

def combineCast? (r : Routine) (outer : Extension) (i : Insn) : Option Simplification := do
  let x ← i.operand? 0
  if i.template 0 = i.template 1 then
    some (.replace x)
  else
    let j ← r.producer? x
    let inner ← j.opcode.extension?
    let y ← j.operand? 0
    if j.template 1 = i.template 0 then
      match castChain inner outer (j.template 0) (i.template 0) (i.template 1) with
      | .keep => none
      | .drop => some (.replace y)
      | .shorten => some (.source (j.template 0) y)
    else
      none

def combineSelect? (r : Routine) (i : Insn) : Option Simplification := do
  let x ← i.operand? 1
  let y ← i.operand? 2
  if r.identical x y then some (.replace x) else none

def combine? (r : Routine) (i : Insn) : Option Simplification :=
  match i.opcode with
  | .binop => r.combineBinop? i
  | .cmp => r.combineCmp? i
  | .unop => r.combineUnop? i
  | .bitcast => r.combineBitcast? i
  | .cast => r.combineCast? .zero i
  | .castSx => r.combineCast? .sign i
  | .select => r.combineSelect? i
  | _ => none

end Routine

namespace Edit

def simplify (id : InsnId) : Simplification → Edit Nat
  | .replace x => do
    if x = .insn id then
      return 0
    return 1 + (← replaceUses (.insn id) x)
  | .operands i x j y => do
    setOperand id i x
    setOperand id j y
    return 1
  | .source t x => do
    setTemplate id 0 t
    setOperand id 0 x
    return 1

def combineInsn (id : InsnId) : Edit Nat := do
  match (← get).combine? (← knownInsn id) with
  | some s => simplify id s
  | none => return 0

def combine (b : BlockId) (debug : Bool) : Edit Nat := do
  let n ← sweep b .forward combineInsn
  complete b n debug

end Edit

end MachineIR
