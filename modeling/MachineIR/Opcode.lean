import MachineIR.Ty

/-!
This module contains the instruction kinds. Every opcode has a signature: the types of its result
and its operands, the slots that must not refer to values, the number of its template types, and
what the passes may assume about it.
-/

namespace MachineIR

inductive Opcode where
  | none
  | readReg
  | writeReg
  | loadMem
  | storeMem
  | undef
  | poison
  | castSx
  | cast
  | bitcast
  | binop
  | unop
  | cmp
  | phi
  | select
  | xcall
  | xjmp
  | jmp
  | xjs
  | js
  | xret
  | trap
  | nop
  | unreachable
deriving DecidableEq, Repr, Inhabited

inductive TypeSlot where
  | fixed (t : Ty)
  -- The template type with this index.
  | template (i : Nat)
  | any
deriving DecidableEq, Repr

/-- What executing an instruction can do besides giving its result. -/
structure Effects where
  -- The result depends on the operands, registers and memory only.
  isPure : Bool := false
  -- Executing the instruction can be observed.
  hasSideEffect : Bool := false
  -- The result depends on the operands only.
  isConstant : Bool := false
  -- Any register can be read or written.
  touchesRegisters : Bool := false
  isTerminator : Bool := false
  -- Control leaves the routine.
  leavesRoutine : Bool := false
  isAnnotation : Bool := false
deriving DecidableEq, Repr

def Effects.toBits (e : Effects) : Nat :=
  [e.isPure, e.hasSideEffect, e.isConstant, e.touchesRegisters, e.isTerminator, e.leavesRoutine,
    e.isAnnotation].foldr (fun b n => 2 * n + b.toNat) 0

structure Signature where
  result : TypeSlot
  operands : List TypeSlot := []
  -- The operand slots that hold literals or registers, never values.
  constants : List Nat := []
  -- The type of further operands, if there can be any.
  variadic : Option TypeSlot := Option.none
  templates : Nat := 0
  effects : Effects := {}
deriving DecidableEq, Repr

namespace Opcode

def expression : Effects := { isPure := true, isConstant := true }

def branch : Effects := { hasSideEffect := true, isTerminator := true }

def exit : Effects := { branch with leavesRoutine := true }

def signature : Opcode → Signature
  | none => { result := .fixed .none, effects := { isAnnotation := true } }
  | readReg =>
    { result := .template 0, operands := [.fixed .reg], constants := [0], templates := 1,
      effects := { isPure := true } }
  | writeReg =>
    { result := .fixed .none, operands := [.fixed .reg, .template 0], constants := [0],
      templates := 1, effects := { hasSideEffect := true } }
  | loadMem =>
    { result := .template 0, operands := [.fixed .pointer, .fixed .i64], constants := [1],
      templates := 1, effects := { isPure := true } }
  | storeMem =>
    { result := .fixed .none, operands := [.fixed .pointer, .fixed .i64, .template 0],
      constants := [1], templates := 1, effects := { hasSideEffect := true } }
  | undef => { result := .template 0, templates := 1, effects := expression }
  | poison =>
    { result := .template 0, operands := [.fixed .str], constants := [0], templates := 1,
      effects := expression }
  | castSx | cast | bitcast =>
    { result := .template 1, operands := [.template 0], templates := 2, effects := expression }
  | binop =>
    { result := .template 0, operands := [.fixed .op, .template 0, .template 0], constants := [0],
      templates := 1, effects := expression }
  | unop =>
    { result := .template 0, operands := [.fixed .op, .template 0], constants := [0],
      templates := 1, effects := expression }
  | cmp =>
    { result := .fixed .i1, operands := [.fixed .op, .template 0, .template 0], constants := [0],
      templates := 1, effects := expression }
  | phi =>
    { result := .template 0, variadic := some (.template 0), templates := 1,
      effects := expression }
  | select =>
    { result := .template 0, operands := [.fixed .i1, .template 0, .template 0], templates := 1,
      effects := expression }
  | xcall =>
    { result := .fixed .none, operands := [.fixed .pointer],
      effects := { hasSideEffect := true, touchesRegisters := true } }
  | xjmp => { result := .fixed .none, operands := [.fixed .pointer], effects := exit }
  | jmp => { result := .fixed .none, operands := [.fixed .label], effects := branch }
  | xjs =>
    { result := .fixed .none, operands := [.fixed .i1, .fixed .pointer, .fixed .pointer],
      constants := [1, 2], effects := exit }
  | js =>
    { result := .fixed .none, operands := [.fixed .i1, .fixed .label, .fixed .label],
      effects := branch }
  | xret =>
    { result := .fixed .none, operands := [.fixed .pointer],
      effects := { exit with touchesRegisters := true } }
  | trap =>
    { result := .fixed .none, operands := [.fixed .str], constants := [0], effects := exit }
  | nop => { result := .fixed .pack, variadic := some .any }
  | unreachable => { result := .fixed .none, effects := exit }

def effects (o : Opcode) : Effects := o.signature.effects

def hasSideEffect (o : Opcode) : Bool := o.effects.hasSideEffect

def isPure (o : Opcode) : Bool := o.effects.isPure

def isConstant (o : Opcode) : Bool := o.effects.isConstant

def touchesRegisters (o : Opcode) : Bool := o.effects.touchesRegisters

def isTerminator (o : Opcode) : Bool := o.effects.isTerminator

def leavesRoutine (o : Opcode) : Bool := o.effects.leavesRoutine

def name : Opcode → String
  | none => "none"
  | readReg => "read_reg"
  | writeReg => "write_reg"
  | loadMem => "load_mem"
  | storeMem => "store_mem"
  | undef => "undef"
  | poison => "poison"
  | castSx => "cast_sx"
  | cast => "cast"
  | bitcast => "bitcast"
  | binop => "binop"
  | unop => "unop"
  | cmp => "cmp"
  | phi => "phi"
  | select => "select"
  | xcall => "xcall"
  | xjmp => "xjmp"
  | jmp => "jmp"
  | xjs => "xjs"
  | js => "js"
  | xret => "xret"
  | trap => "trap"
  | nop => "nop"
  | unreachable => "unreachable"

def all : List Opcode :=
  [none, readReg, writeReg, loadMem, storeMem, undef, poison, castSx, cast, bitcast, binop, unop,
   cmp, phi, select, xcall, xjmp, jmp, xjs, js, xret, trap, nop, unreachable]

def ofName? (s : String) : Option Opcode := all.find? (·.name == s)

end Opcode

end MachineIR
