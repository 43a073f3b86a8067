import Assembler.CommandLine.Invocation
import Assembler.Expansion
import Assembler.FileStore
import Assembler.Listing
import Assembler.Table.Reader

namespace Assembler

namespace Listing

def Entry.document (e : Entry) : Json :=
  .object [("line".toList, .ofNat e.line), ("source".toList, .string e.source),
    ("word".toList, .ofNat e.word.toNat)]

def document (l : Listing) : Json := .array (l.map Entry.document)

end Listing

namespace CommandLine

structure Failure where
  text : String
  causes : List String
  deriving DecidableEq, Repr

namespace Failure

def ofText (text : String) : Failure := ⟨text, []⟩

def within (context : String) (f : Failure) : Failure := ⟨context, f.text :: f.causes⟩

def indent (first later text : String) : String :=
  first ++ ("\n" ++ later).intercalate ((List.splitOn '\n' text.toList).map String.ofList)

def causeLines : List String → List String
  | [cause] => [indent "    " "    " cause]
  | causes => causes.zipIdx.map fun c => indent s!"    {c.2}: " "       " c.1

def message (f : Failure) : String :=
  if f.causes.isEmpty then s!"Error: {f.text}\n"
  else s!"Error: {f.text}\n\nCaused by:\n" ++ "\n".intercalate (causeLines f.causes) ++ "\n"

def ofLoadError : LoadError → Failure
  | .unreadable e => ⟨e.message, [e.detail]⟩
  | .invalid e => ofText e.message

end Failure

section

variable {m : Type → Type} [Monad m] [FileStore m]

def readText (path : Path) : ExceptT Failure m Text := do
  let context := s!"reading {String.ofList path}"
  match ← FileStore.read (m := m) path with
  | .error e => throw ((Failure.ofText e.message).within context)
  | .ok content =>
      match Text.ofBytes? content with
      | none => throw ((Failure.ofText "stream did not contain valid UTF-8").within context)
      | some t => return t

def writeFile (path : Path) (content : List UInt8) (frame : Failure → Failure) :
    ExceptT Failure m Unit := do
  match ← FileStore.write (m := m) path content with
  | .error e => throw (frame (.ofText e.message))
  | .ok () => return ()

def loadTable : Option Text → ExceptT Failure m Table
  | none => return .standard
  | some path => do
      let t ← readText path
      match Table.load t with
      | .error e => throw ((Failure.ofLoadError e).within s!"loading {String.ofList path}")
      | .ok table => return table

def machineOf (t : Table) : Except Failure Machine :=
  (Machine.ofTable t).mapError fun e => .ofText e.message

def operandsOf (args : List Text) : List Text :=
  (args.map fun a => (a.reverse.dropWhile (· == ',')).reverse).filter (! ·.isEmpty)

def codeFailure (e : Error) : Failure := .ofText e.message

def writeListing (l : Listing) (output : Text) (listing : Option Text) :
    ExceptT Failure m Unit := do
  writeFile output l.bytes (.within s!"writing {String.ofList output}")
  match listing with
  | none => return ()
  | some path => writeFile path (Text.bytes l.document.indented) id

def assembleFile (M : Machine) (input output : Text) (listing : Option Text) :
    ExceptT Failure m Unit := do
  let source ← readText input
  match Listing.ofSource M source with
  | .error e => throw ((codeFailure e.cause).within e.place)
  | .ok l => writeListing l output listing

def lineOf (t : Text) : Text := t ++ ['\n']

def runCommand (M : Machine) : Command → ExceptT Failure m Text
  | .encode mnemonic operands =>
      match M.encodeTokens mnemonic (operandsOf operands) with
      | .error e => throw (codeFailure e)
      | .ok w => return lineOf w.line
  | .assemble input output listing => do
      assembleFile M input output listing
      return []
  | .scratch used =>
      return lineOf ((M.table.firstFree? used).getD "no register available".toList)
  | .fill templates bindings =>
      match Template.fill (.ofList bindings) templates with
      | .error e => throw (codeFailure e)
      | .ok lines => return lines.flatMap lineOf
  | .arch => return lineOf M.table.document.indented

def runInvocation (i : Invocation) : ExceptT Failure m Text := do
  let t ← loadTable i.table
  match machineOf t with
  | .error f => throw f
  | .ok M => runCommand M i.command

end

structure Outcome where
  code : Nat
  output : Text
  errors : Text
  deriving DecidableEq, Repr

def versionLine : Text := "rcpu-asm-cli 0.1.0\n".toList

def usageLines : Text :=
  ("usage: assembler [--arch FILE] COMMAND\n" ++
    "  encode MNEMONIC [OPERAND]...\n" ++
    "  assemble --input FILE --output FILE [--listing FILE]\n" ++
    "  scratch [USED]...\n" ++
    "  fill --template TEMPLATE... [--bind NAME=VALUE]...\n" ++
    "  arch\n").toList

def Outcome.ofStop : Stop → Outcome
  | .usage => ⟨2, [], usageLines⟩
  | .help => ⟨0, usageLines, []⟩
  | .version => ⟨0, versionLine, []⟩

def run {m : Type → Type} [Monad m] [FileStore m] (args : List Text) : m Outcome :=
  match Invocation.ofArguments args with
  | .error s => return .ofStop s
  | .ok i => do
      match ← (runInvocation (m := m) i).run with
      | .ok output => return ⟨0, output, []⟩
      | .error f => return ⟨1, [], f.message.toList⟩

end CommandLine

end Assembler
