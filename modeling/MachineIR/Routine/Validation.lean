import MachineIR.Error
import MachineIR.Routine.Text

/-!
This module contains the checks of a routine: that operands have the types that their opcodes ask
for, that the links between instructions agree with each other, and that every reference to a value
has exactly one record on the list of that value.
-/

namespace MachineIR.Routine

abbrev Check := Except Error Unit

def defect (d : Defect) : Check := throw (.integrity d)

def checkTypes (r : Routine) (id : InsnId) (i : Insn) (index : Nat) : List Operand → Check
  | [] => pure ()
  | x :: rest => do
    match i.code.slotType? index with
    | none => pure ()
    | some expected =>
      let found := r.operandType x
      if found ≠ expected then
        throw (.typeMismatch index expected found (r.renderInsn id))
    checkTypes r id i (index + 1) rest

def checkConstants (r : Routine) (id : InsnId) (i : Insn) : List Nat → Check
  | [] => pure ()
  | index :: rest => do
    if ((i.operand? index).bind Operand.value?).isSome then
      throw (.constantExpected index (r.renderInsn id))
    checkConstants r id i rest

def checkInsn (r : Routine) (id : InsnId) : Check :=
  match r.insn? id with
  | none => throw (.invalidHandle (.insn id))
  | some i => do
    let s := i.opcode.signature
    let fixed := s.operands.length
    let count := i.slots.length
    if count < fixed || (s.variadic.isNone && count != fixed) then
      defect (.operandCount (r.renderInsn id) count fixed)
    checkTypes r id i 0 i.operands
    checkConstants r id i s.constants

def checkLink (b : BlockId) (id : InsnId) (i : Insn) (prev : Option InsnId) : Check :=
  if i.block ≠ b ∨ i.prev ≠ prev then defect (.brokenLinks id b) else pure ()

def checkLinksFrom (r : Routine) (b : BlockId) (found : Block) :
    Nat → Option InsnId → Option InsnId → Check
  | room, none, prev =>
    if room ≠ 0 ∨ found.last ≠ prev then defect (.wrongLength b) else pure ()
  | room, some id, prev =>
    match r.insn? id with
    | none => throw (.invalidHandle (.insn id))
    | some i => do
      checkLink b id i prev
      match room with
      | 0 => defect (.tooLong b found.len)
      | room + 1 => checkLinksFrom r b found room i.next (some id)

def checkLinks (r : Routine) (b : BlockId) : Check :=
  match r.block? b with
  | none => throw (.invalidHandle (.block b))
  | some found => checkLinksFrom r b found found.len found.first none

def checkUse (r : Routine) (v : ValueId) (id : UseId) (u : Use) : Check :=
  if u.value ≠ v then
    defect (.foreignRecord id v u.value)
  else
    match (r.insn? u.user).bind (·.slots[u.slot]?) with
    | none => defect (.noSuchSlot id v)
    | some slot =>
      if slot.use ≠ some id ∨ slot.operand ≠ .value v then
        defect (.slotMismatch u.slot u.user v)
      else
        pure ()

def checkUsesFrom (r : Routine) (v : ValueId) (l : UseList) : Nat → Option UseId → Check
  | room, next =>
    match next.bind fun id => (r.uses.get? id).map (id, ·) with
    | none => if room ≠ 0 then defect (.useCount v (l.len - room) l.len) else pure ()
    | some (id, u) => do
      checkUse r v id u
      match room with
      | 0 => defect (.cyclicUses v)
      | room + 1 => checkUsesFrom r v l room u.next

def checkUses (r : Routine) (v : ValueId) (l : UseList) : Check := checkUsesFrom r v l l.len l.head

/-- Checks that an operand slot has its own record if it refers to a value, and else none. -/
def checkSlot (r : Routine) (id : InsnId) (index : Nat) (s : Slot) : Check :=
  match s.operand, s.use with
  | .value v, some use =>
    match r.uses.get? use with
    | none => defect (.freedUse index id)
    | some u =>
      if u.value ≠ v ∨ u.user ≠ id ∨ u.slot ≠ index then
        defect (.foreignUse index id)
      else if r.contains v then
        pure ()
      else
        defect (.dangling index id)
  | .value _, none => defect (.untracked index id)
  | _, some _ => defect (.staleUse index id)
  | _, none => pure ()

def checkBlock (r : Routine) (b : BlockId) : Check := do
  r.checkLinks b
  (r.insnsOf b).forM r.checkInsn

def referenceCount (r : Routine) : Nat :=
  (r.insns.entries.flatMap fun (_, i) => i.operands.filter fun x => x.value?.isSome).length

def check (r : Routine) : Check := do
  r.insns.entries.forM fun (index, i) => do
    let id := InsnId.ofNat index
    if (r.block? i.block).isNone then
      defect (.outsideBlocks id)
    r.checkInsn id
    i.slots.zipIdx.forM fun (s, index) => r.checkSlot id index s
    r.checkUses (.insn id) i.uses
  r.order.forM fun b => do
    r.checkLinks b
    match r.block? b with
    | none => throw (.invalidHandle (.block b))
    | some found => r.checkUses (.block b) found.uses
  if r.referenceCount ≠ r.uses.live then
    defect (.recordCount r.uses.live r.referenceCount)

end MachineIR.Routine
