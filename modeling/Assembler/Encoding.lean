import Assembler.Literal
import Assembler.Machine
import Assembler.Register

namespace Assembler

namespace Mnemonic

def parse (token : Text) : Except Error Mnemonic :=
  match ofToken? token with
  | none => .error (.unknownMnemonic (Text.trim token))
  | some m => .ok m

end Mnemonic

namespace Machine

def fieldValue (M : Machine) (m : Mnemonic) (f : Field) (token : Text) : Except Error Word :=
  match f.max? M.table with
  | none => (M.table.resolve token).map fun r => BitVec.ofNat 16 r.code
  | some max =>
      match Literal.read? (Text.trim token) with
      | none => .error (.invalidLiteral m f.name (Text.trim token))
      | some value =>
          if value < 0 ∨ max.toNat < value then .error (.outOfRange m f.name value max)
          else .ok (BitVec.ofInt 16 value)

def pack (M : Machine) (m : Mnemonic) : List (Field × Text) → Word → Except Error Word
  | [], area => .ok area
  | (f, token) :: rest, area =>
      match M.fieldValue m f token with
      | .error e => .error e
      | .ok value => M.pack m rest (area.store f.shift (f.width M.table) value)

def encode (M : Machine) (m : Mnemonic) (operands : List Text) : Except Error Word :=
  if operands.length ≠ m.arity then .error (.operandCount m m.arity operands.length)
  else
    match M.table.opcodes.get? m with
    | none => .error (.unknownMnemonic m.name)
    | some opcode =>
        (M.pack m (m.layout.zip operands) 0).map fun (area : Word) =>
          opcode ||| (area <<< M.table.opcodeWidth.toNat)

def encodeTokens (M : Machine) (mnemonic : Text) (operands : List Text) : Except Error Word :=
  match Mnemonic.parse mnemonic with
  | .error e => .error e
  | .ok m => M.encode m operands

end Machine

end Assembler
