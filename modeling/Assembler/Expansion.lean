import Assembler.Bindings
import Assembler.Instruction
import Assembler.Scratch

namespace Assembler

structure Expansion where
  templates : List Text
  bindings : Bindings
  scratch : List Text
  deriving DecidableEq, Repr

namespace Expansion

def ofTemplates (templates : List Text) : Expansion := ⟨templates, .empty, []⟩

def bind (e : Expansion) (name value : Text) : Expansion :=
  { e with bindings := e.bindings.insert name value }

def declare (e : Expansion) (name : Text) : Expansion :=
  { e with scratch := e.scratch ++ [name] }

end Expansion

namespace Table

def canonical (t : Table) (name : Text) : Text :=
  ((t.registerCode? name).bind t.registerName?).getD name

end Table

namespace Expansion

def taken (e : Expansion) (t : Table) (used : List Text) : List Text :=
  used ++ e.bindings.values.map t.canonical

def allBindings (e : Expansion) (t : Table) (used : List Text) : Except Error Bindings :=
  if e.scratch.isEmpty then .ok e.bindings
  else
    match t.takeFree? (e.taken t used) e.scratch.length with
    | none => .error (.scratchExhausted e.scratch.length (t.freeCount (e.taken t used)))
    | some picks => .ok (e.bindings.insertAll (e.scratch.zip picks))

def expand (e : Expansion) (t : Table) (used : List Text) : Except Error (List Text) :=
  match e.allBindings t used with
  | .error err => .error err
  | .ok b => Template.fill b e.templates

def assemble (e : Expansion) (M : Machine) (used : List Text) : Except Error (List Word) :=
  match e.expand M.table used with
  | .error err => .error err
  | .ok lines => lines.mapM M.encodeLine

end Expansion

end Assembler
