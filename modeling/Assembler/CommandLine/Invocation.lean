import Assembler.CommandLine.Argument

namespace Assembler.CommandLine

inductive Command where
  | encode (mnemonic : Text) (operands : List Text)
  | assemble (input output : Text) (listing : Option Text)
  | scratch (used : List Text)
  | fill (templates : List Text) (bindings : List (Text × Text))
  | arch
  deriving DecidableEq, Repr

structure Invocation where
  table : Option Text
  command : Command
  deriving DecidableEq, Repr

inductive Verb where
  | encode | assemble | scratch | fill | arch | help
  deriving DecidableEq, Repr

namespace Verb

def all : List Verb := [encode, assemble, scratch, fill, arch, help]

def name : Verb → Text
  | encode => "encode".toList
  | assemble => "assemble".toList
  | scratch => "scratch".toList
  | fill => "fill".toList
  | arch => "arch".toList
  | help => "help".toList

def ofName? (t : Text) : Option Verb := all.find? fun v => v.name == t

def level : Verb → Level
  | encode => { switches := [.arch], plainAfter := some 2, hyphensAfter := some 1 }
  | assemble => { switches := [.arch, .input, .output, .listing], positionals := some 0 }
  | scratch => { switches := [.arch] }
  | fill => { switches := [.arch, .template, .bind], positionals := some 0 }
  | arch => { switches := [.arch], positionals := some 0 }
  | help => { switches := [], plainAfter := some 0 }

end Verb

def topLevel : Level := { switches := [.arch], version := true, plainAfter := some 1 }

def Command.ofSorted (v : Verb) (a : Sorted) : Except Stop Command :=
  match v, a.positionals with
  | .encode, mnemonic :: operands => .ok (.encode mnemonic operands)
  | .scratch, used => .ok (.scratch used)
  | .assemble, [] =>
      match a.values .input, a.values .output with
      | [input], [output] => .ok (.assemble input output (a.values .listing).head?)
      | _, _ => .error .usage
  | .fill, [] =>
      if (a.values .template).isEmpty then .error .usage
      else
        .ok (.fill (a.values .template)
          ((a.values .bind).filterMap fun t => (parseBinding t).toOption))
  | .arch, [] => .ok .arch
  | .help, [] => .error .help
  | .help, [verb] => .error (if (Verb.ofName? verb).isSome then .help else .usage)
  | _, _ => .error .usage

def Invocation.ofArguments (args : List Text) : Except Stop Invocation := do
  let top ← topLevel.sort [] 0 args
  if top.escaped then throw .usage
  match top.positionals with
  | [] => throw .usage
  | verb :: rest =>
      match Verb.ofName? verb with
      | none => throw .usage
      | some v =>
          let a ← v.level.sort [] 0 rest
          let command ← Command.ofSorted v a
          return ⟨(a.values .arch).head? <|> (top.values .arch).head?, command⟩

end Assembler.CommandLine
