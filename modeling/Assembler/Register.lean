import Assembler.Error

namespace Assembler

inductive RegisterOperand where
  | register (code : Nat)
  | unused
  deriving DecidableEq, Repr

namespace RegisterOperand

def code : RegisterOperand → Nat
  | register code => code
  | unused => 0

end RegisterOperand

namespace Table

def resolve (t : Table) (token : Text) : Except Error RegisterOperand :=
  match t.registerCode? (Text.trim token) with
  | some code => .ok (.register code)
  | none =>
      if Text.trim token = ['0'] then .ok .unused
      else .error (.unknownRegister (Text.trim token))

end Table

end Assembler
