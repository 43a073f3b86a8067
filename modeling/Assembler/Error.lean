import Assembler.Table
import Assembler.Text.Quoted

namespace Assembler

inductive Error where
  | unknownRegister (token : Text)
  | unknownMnemonic (token : Text)
  | outOfRange (m : Mnemonic) (field : Text) (value : Int) (max : Word)
  | invalidLiteral (m : Mnemonic) (field : Text) (token : Text)
  | operandCount (m : Mnemonic) (expected found : Nat)
  | unboundPlaceholder (name : Text)
  | malformedTemplate (template : Text) (offset : Nat)
  | scratchExhausted (needed available : Nat)
  deriving DecidableEq, Repr

namespace Error

def message : Error → String
  | unknownRegister token => s!"Unknown register: {String.ofList token}"
  | unknownMnemonic token => s!"Unknown mnemonic: {String.ofList token}"
  | outOfRange m field value max =>
      s!"{m}: {String.ofList field} = {value} is outside 0..={max.toNat}"
  | invalidLiteral m field token =>
      s!"{m}: {String.ofList field} expects a base-10 literal, got " ++
        String.ofList (Text.quoted token)
  | operandCount m expected found => s!"{m} takes {expected} operand(s), got {found}"
  | unboundPlaceholder name => "Unbound placeholder \x7b" ++ String.ofList name ++ "\x7d"
  | malformedTemplate template offset =>
      s!"Malformed template {String.ofList (Text.quoted template)} at byte {offset}"
  | scratchExhausted needed available =>
      s!"Need {needed} scratch register(s), only {available} free"

end Error

end Assembler
