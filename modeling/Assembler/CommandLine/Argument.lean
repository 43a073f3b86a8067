import Assembler.CommandLine.Binding

namespace Assembler.CommandLine

inductive Switch where
  | arch | input | output | listing | template | bind
  deriving DecidableEq, Repr

namespace Switch

def long : Switch → Text
  | arch => "arch".toList
  | input => "input".toList
  | output => "output".toList
  | listing => "listing".toList
  | template => "template".toList
  | bind => "bind".toList

def short? : Switch → Option Char
  | input => some 'i'
  | output => some 'o'
  | _ => none

def repeatable : Switch → Bool
  | template | bind => true
  | _ => false

def admits : Switch → Text → Bool
  | template, _ => true
  | bind, t => (parseBinding t).toBool
  | _, t => !t.isEmpty

end Switch

inductive Stop where
  | usage
  | help
  | version
  deriving DecidableEq, Repr

structure Level where
  switches : List Switch
  version : Bool := false
  positionals : Option Nat := none
  plainAfter : Option Nat := none
  hyphensAfter : Option Nat := none

def reached (bound : Option Nat) (n : Nat) : Bool := bound.any (· ≤ n)

inductive Argument where
  | positional
  | escape
  | stop (s : Stop)
  | attached (s : Switch) (value : Text)
  | awaiting (s : Switch)
  | unknown
  deriving DecidableEq, Repr

namespace Level

def longArgument (l : Level) (body : Text) : Argument :=
  let parts := Text.cut? (· == '=') body
  let name := (parts.map (·.1)).getD body
  let flag (s : Stop) : Argument := .stop (if parts.isSome then .usage else s)
  if name = "help".toList then flag .help
  else if l.version && name = "version".toList then flag .version
  else
    match l.switches.find? fun s => s.long = name with
    | none => .unknown
    | some s =>
        match parts with
        | some (_, value) => .attached s value
        | none => .awaiting s

def shortArgument (l : Level) (letter : Char) (rest : Text) : Argument :=
  if letter = 'h' then .stop .help
  else if l.version && letter = 'V' then .stop .version
  else
    match l.switches.find? fun s => s.short? = some letter with
    | none => .unknown
    | some s =>
        match rest with
        | [] => .awaiting s
        | '=' :: value => .attached s value
        | value => .attached s value

def isShort (l : Level) (c : Char) : Bool :=
  c == 'h' || (l.version && c == 'V') || l.switches.any fun s => s.short? == some c

def argument (l : Level) (place : Nat) (arg : Text) : Argument :=
  match arg with
  | ['-', '-'] => .escape
  | '-' :: '-' :: body =>
      match l.longArgument body with
      | .unknown => if reached l.hyphensAfter place then .positional else .unknown
      | a => a
  | '-' :: letter :: rest =>
      if reached l.hyphensAfter place && !(letter :: rest).all l.isShort then .positional
      else l.shortArgument letter rest
  | _ => .positional

end Level

structure Sorted where
  options : List (Switch × Text)
  positionals : List Text
  escaped : Bool
  deriving DecidableEq, Repr

namespace Sorted

def addOption (s : Switch) (value : Text) (a : Sorted) : Sorted :=
  { a with options := (s, value) :: a.options }

def addPositional (t : Text) (a : Sorted) : Sorted := { a with positionals := t :: a.positionals }

def values (a : Sorted) (s : Switch) : List Text :=
  (a.options.filter (·.1 == s)).map (·.2)

end Sorted

namespace Level

def sort (l : Level) : List Switch → Nat → List Text → Except Stop Sorted
  | _, _, [] => .ok ⟨[], [], false⟩
  | seen, place, arg :: rest =>
      if reached l.plainAfter place then .ok ⟨[], arg :: rest, false⟩
      else
        match l.argument place arg with
        | .escape => .ok ⟨[], rest, true⟩
        | .positional =>
            if reached l.positionals place then .error .usage
            else (l.sort seen (place + 1) rest).map (.addPositional arg)
        | .stop s => .error s
        | .unknown => .error .usage
        | .attached s value =>
            if (s ∈ seen ∧ !s.repeatable) ∨ !s.admits value then .error .usage
            else (l.sort (s :: seen) place rest).map (.addOption s value)
        | .awaiting s =>
            match rest with
            | [] => .error .usage
            | value :: rest =>
                if l.argument place value ≠ .positional ∨ (s ∈ seen ∧ !s.repeatable) ∨
                    !s.admits value then .error .usage
                else (l.sort (s :: seen) place rest).map (.addOption s value)

end Level

end Assembler.CommandLine
