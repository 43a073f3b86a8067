import Assembler.Path

namespace Assembler

inductive FileError where
  | missing
  | folder
  | noFolder
  | longName
  | other (text : String)
  deriving DecidableEq, Repr

namespace FileError

def message : FileError → String
  | missing => "No such file or directory (os error 2)"
  | folder => "Is a directory (os error 21)"
  | noFolder => "Not a directory (os error 20)"
  | longName => "File name too long (os error 36)"
  | other text => text

end FileError

class FileStore (m : Type → Type) where
  read : Path → m (Except FileError (List UInt8))
  write : Path → List UInt8 → m (Except FileError Unit)

namespace Text

def bytes (t : Text) : List UInt8 := (String.ofList t).toUTF8.data.toList

def ofBytes? (b : List UInt8) : Option Text := (String.fromUTF8? ⟨b.toArray⟩).map String.toList

end Text

end Assembler
