import MachineIR.Text.Visible

/-!
This module contains quoted text and hexadecimal numbers. In quoted text the quote and the backslash
are preceded by a backslash, the usual control characters have their letters, and any other
character that is not visible on its own is written by its code point.
-/

namespace MachineIR.Text

def hex (n : Nat) : String := String.ofList (Nat.toDigits 16 n)

def prefixedHex (n : Nat) : String := "0x" ++ hex n

def escape (c : Char) : String :=
  match c with
  | '"' => "\\\""
  | '\\' => "\\\\"
  | '\t' => "\\t"
  | '\n' => "\\n"
  | '\r' => "\\r"
  | '\x00' => "\\0"
  | c => if isVisible c then c.toString else "\\u\x7b" ++ hex c.toNat ++ "\x7d"

def quoted (s : String) : String := "\"" ++ String.join (s.toList.map escape) ++ "\""

end MachineIR.Text
