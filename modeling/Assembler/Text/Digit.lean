import Assembler.Text

namespace Assembler

abbrev Digit := Fin 10

namespace Digit

def ofChar? (c : Char) : Option Digit :=
  if c.isDigit then some (Fin.ofNat 10 (c.toNat - '0'.toNat)) else none

def char (d : Digit) : Char := Nat.digitChar d

@[simp] theorem ofChar?_char (d : Digit) : ofChar? d.char = some d := by decide +revert

end Digit

end Assembler
