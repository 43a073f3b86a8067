import Assembler.Lookup
import Assembler.Template

namespace Assembler

structure Bindings where
  entries : List (Text × Text)
  deriving DecidableEq, Repr

namespace Bindings

def empty : Bindings := ⟨[]⟩

def insert (b : Bindings) (name value : Text) : Bindings :=
  ⟨(name, value) :: b.entries.filter (·.1 != name)⟩

def get? (b : Bindings) (name : Text) : Option Text := b.entries.lookup name

def values (b : Bindings) : List Text := b.entries.map (·.2)

def insertAll (b : Bindings) (pairs : List (Text × Text)) : Bindings :=
  pairs.foldl (fun b pair => b.insert pair.1 pair.2) b

def ofList (pairs : List (Text × Text)) : Bindings := empty.insertAll pairs

@[simp] theorem get?_empty (name : Text) : empty.get? name = none := rfl

@[simp] theorem get?_insert (b : Bindings) (name value other : Text) :
    (b.insert name value).get? other = if other = name then some value else b.get? other :=
  lookup_cons_filter_ne b.entries name value other

end Bindings

namespace Template

def render (b : Bindings) : Template → Except Error Text
  | [] => .ok []
  | .text t :: pieces => (render b pieces).map (t ++ ·)
  | .hole name :: pieces =>
      match b.get? name with
      | none => .error (.unboundPlaceholder name)
      | some value => (render b pieces).map (value ++ ·)

def fillLine (b : Bindings) (line : Text) : Except Error Text :=
  match parse line with
  | .error e => .error e
  | .ok t => t.render b

def fill (b : Bindings) (lines : List Text) : Except Error (List Text) :=
  lines.mapM (fillLine b)

end Template

end Assembler
