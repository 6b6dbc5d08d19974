import MachineIR.Constant.Arithmetic
import MachineIR.Decimal
import MachineIR.Text.Quoted

/-!
This module contains the text of literals.
-/

namespace MachineIR.Constant

def renderWord (t : Scalar) (a : BitVec t.width) : String :=
  match t with
  | .i1 => if a = 0 then "false" else "true"
  | .pointer => Text.prefixedHex a.toNat
  | .f32 => FloatFormat.single.render a.toNat
  | .f64 => FloatFormat.double.render a.toNat
  | _ => toString a.toInt

def render : Constant → String
  | void => "void"
  | scalar t a => renderWord t a
  | op o => o.name
  | str s => Text.quoted s

end MachineIR.Constant
