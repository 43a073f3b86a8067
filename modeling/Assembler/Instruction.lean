import Assembler.Encoding

namespace Assembler

structure Instruction where
  mnemonic : Text
  operands : List Text
  deriving DecidableEq, Repr

namespace Instruction

def operandsOf (t : Text) : List Text :=
  if t.isEmpty then [] else (List.splitOn ',' t).map Text.trim

def ofLine? (line : Text) : Option Instruction :=
  let parts := (Text.cut? Text.isBlank (Text.trim line)).getD (Text.trim line, [])
  if parts.1.isEmpty then none else some ⟨parts.1, operandsOf (Text.trim parts.2)⟩

def line (i : Instruction) : Text :=
  i.mnemonic ++ ' ' :: List.intercalate [',', ' '] i.operands

end Instruction

namespace Machine

def encodeInstruction (M : Machine) (i : Instruction) : Except Error Word :=
  M.encodeTokens i.mnemonic i.operands

def encodeLine (M : Machine) (line : Text) : Except Error Word :=
  match Instruction.ofLine? line with
  | none => .error (.unknownMnemonic [])
  | some i => M.encodeInstruction i

end Machine

end Assembler
