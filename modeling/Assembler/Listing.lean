import Assembler.Instruction

namespace Assembler

structure Listing.Entry where
  line : Nat
  source : Text
  word : Word
  deriving DecidableEq, Repr

abbrev Listing := List Listing.Entry

structure SourceError where
  line : Nat
  source : Text
  cause : Error
  deriving DecidableEq, Repr

namespace SourceError

def place (e : SourceError) : String := s!"line {e.line}: {String.ofList e.source}"

def message (e : SourceError) : String := s!"{e.place}: {e.cause.message}"

end SourceError

namespace Listing

def withoutComment (line : Text) : Text :=
  if (Text.trimStart line).head? = some '#' then [] else Text.upTo ';' line

def code (line : Text) : Text := Text.trim (withoutComment line)

def ofLines (M : Machine) : Nat → List Text → Except SourceError Listing
  | _, [] => .ok []
  | n, line :: rest =>
      match Instruction.ofLine? (code line) with
      | none => ofLines M (n + 1) rest
      | some i =>
          match M.encodeInstruction i with
          | .error e => .error ⟨n, code line, e⟩
          | .ok word => (ofLines M (n + 1) rest).map (⟨n, code line, word⟩ :: ·)

def ofSource (M : Machine) (source : Text) : Except SourceError Listing :=
  ofLines M 1 (Text.lines source)

def bytes (l : Listing) : List UInt8 := l.flatMap (·.word.bytes)

end Listing

end Assembler
