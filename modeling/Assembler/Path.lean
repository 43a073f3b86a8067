import Assembler.Text

namespace Assembler

inductive Step where
  | stay
  | up
  | enter (name : Text)
  deriving DecidableEq, Repr

def Step.ofText : Text → Step
  | ['.'] => stay
  | ['.', '.'] => up
  | name => enter name

inductive Base where
  | above (levels : Nat)
  | root
  deriving DecidableEq, Repr

def Base.parent : Base → Base
  | above levels => above (levels + 1)
  | root => root

structure Place where
  base : Base
  names : List Text
  deriving DecidableEq, Repr

namespace Place

def working : Place := ⟨.above 0, []⟩

def step (p : Place) : Step → Place
  | .stay => p
  | .up => if p.names.isEmpty then ⟨p.base.parent, []⟩ else ⟨p.base, p.names.dropLast⟩
  | .enter name => ⟨p.base, p.names ++ [name]⟩

def encloses (p q : Place) : Bool :=
  p.base = q.base && p.names.isPrefixOf q.names && p.names ≠ q.names

def text? (p : Place) : Option Text :=
  if p.base = .above 0 then some (List.intercalate ['/'] p.names) else none

end Place

abbrev Path := Text

namespace Path

def start (p : Path) : Place := if p.head? = some '/' then ⟨.root, []⟩ else .working

def steps (p : Path) : List Step := ((List.splitOn '/' p).filter (! ·.isEmpty)).map .ofText

def endsInSlash (p : Path) : Bool := p.getLast? = some '/'

def place (p : Path) : Place := p.steps.foldl Place.step p.start

end Path

end Assembler
