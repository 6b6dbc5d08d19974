import MachineIR.Routine.Basic

/-!
This module contains the text of routines. An instruction with a result is printed as
`%name = opcode.T0.T1 operand, operand`, a block as its label and its instructions.
-/

namespace MachineIR.Routine

def renderOperand (r : Routine) : Operand → String
  | .const c => c.render
  | .reg x => (r.arch.bind (·.registerName? x)).getD x.render
  | .mem m => m.render
  | .value (.insn id) =>
    match r.insn? id with
    | some i => s!"%{i.name}"
    | none => "%?"
  | .value (.block id) =>
    match r.block? id with
    | some b => "$" ++ Text.hex b.name
    | none => "$?"

def renderInsn (r : Routine) (id : InsnId) : String :=
  match r.insn? id with
  | none => s!"<erased {id.render}>"
  | some i =>
    let result := if i.ty = .none ∨ i.ty = .pack then "" else s!"%{i.name} = "
    let templates := (List.range i.opcode.signature.templates).map fun k => "." ++ (i.template k).name
    let operands := ", ".intercalate (i.operands.map r.renderOperand)
    let separator := if i.operands.isEmpty then "" else " "
    result ++ i.opcode.name ++ String.join templates ++ separator ++ operands

def renderBlock (r : Routine) (id : BlockId) : String :=
  match r.block? id with
  | none => s!"<deleted {id.render}>"
  | some b =>
    "$" ++ Text.hex b.name ++ ":" ++
      String.join ((r.insnsOf id).map fun i => "\n\t" ++ r.renderInsn i)

def render (r : Routine) : String :=
  let title := match r.ip with
    | some ip => "routine sub_" ++ Text.hex ip.toNat
    | none => "routine"
  title ++ String.join (r.order.map fun b => "\n" ++ r.renderBlock b)

end MachineIR.Routine
