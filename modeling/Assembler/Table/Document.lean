import Assembler.Table
import Assembler.Json

namespace Assembler.Table

inductive Key where
  | wordWidth | opcodeWidth | opcodes | registers | limits
  deriving DecidableEq, Repr

namespace Key

def all : List Key := [wordWidth, opcodeWidth, opcodes, registers, limits]

def name : Key → Text
  | wordWidth => "word_width".toList
  | opcodeWidth => "opcode_width".toList
  | opcodes => "opcodes".toList
  | registers => "registers".toList
  | limits => "limits".toList

def ofName? (t : Text) : Option Key := all.find? fun k => k.name == t

@[simp] theorem ofName?_name (k : Key) : ofName? k.name = some k := by cases k <;> decide

end Key

def opcodesDocument (map : OpcodeMap) : Json :=
  .object (map.toList.map fun entry => (entry.1.name, .ofNat entry.2.toNat))

def limitsDocument (l : Limits) : Json :=
  .object (LimitKey.all.map fun k => (k.name, .ofNat (l.get k).toNat))

def part (t : Table) : Key → Json
  | .wordWidth => .ofNat t.wordWidth.toNat
  | .opcodeWidth => .ofNat t.opcodeWidth.toNat
  | .opcodes => opcodesDocument t.opcodes
  | .registers => .array (t.registers.map .string)
  | .limits => limitsDocument t.limits

def document (t : Table) : Json := .object (Key.all.map fun k => (k.name, t.part k))

end Assembler.Table
