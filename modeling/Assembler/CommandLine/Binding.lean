import Assembler.Text.Blank
import Assembler.Text.Quoted

namespace Assembler.CommandLine

inductive BindingError where
  | noEquals (text : Text)
  | emptyName (text : Text)
  deriving DecidableEq, Repr

def BindingError.message : BindingError → String
  | noEquals text => s!"expected NAME=VALUE, got {String.ofList (Text.quoted text)}"
  | emptyName text => s!"empty placeholder name in {String.ofList (Text.quoted text)}"

def parseBinding (t : Text) : Except BindingError (Text × Text) :=
  match Text.cut? (· == '=') t with
  | none => .error (.noEquals t)
  | some (name, value) =>
      if (Text.trim name).isEmpty then .error (.emptyName t)
      else .ok (Text.trim name, Text.trim value)

end Assembler.CommandLine
