import Assembler.Error

namespace Assembler

inductive Piece where
  | text (t : Text)
  | hole (name : Text)
  deriving DecidableEq, Repr

abbrev Template := List Piece

namespace Template

def push (c : Char) : Template → Template
  | .text t :: pieces => .text (c :: t) :: pieces
  | pieces => .text [c] :: pieces

inductive Phase where
  | plain
  | opened (start : Nat)
  -- the last character of the name first
  | named (start : Nat) (name : Text)
  | closed (start : Nat)
  deriving DecidableEq, Repr

def read : Phase → Nat → Text → Except Nat Template
  | .plain, _, [] => .ok []
  | .plain, offset, c :: t =>
      if c = '\x7b' then read (.opened offset) (offset + 1) t
      else if c = '\x7d' then read (.closed offset) (offset + 1) t
      else (read .plain (offset + c.utf8Size) t).map (push c)
  | .opened start, _, [] => .error start
  | .opened start, offset, c :: t =>
      if c = '\x7b' then (read .plain (offset + 1) t).map (push c)
      else if c = '\x7d' then .error start
      else read (.named start [c]) (offset + c.utf8Size) t
  | .named start _, _, [] => .error start
  | .named start name, offset, c :: t =>
      if c = '\x7b' then .error offset
      else if c = '\x7d' then (read .plain (offset + 1) t).map (.hole name.reverse :: ·)
      else read (.named start (c :: name)) (offset + c.utf8Size) t
  | .closed start, _, [] => .error start
  | .closed start, offset, c :: t =>
      if c = '\x7d' then (read .plain (offset + 1) t).map (push c) else .error start

def parse (t : Text) : Except Error Template :=
  (read .plain 0 t).mapError (.malformedTemplate t)

def placeholders (t : Template) : List Text :=
  t.filterMap fun
    | .hole name => some name
    | .text _ => none

def doubled (t : Text) : Text :=
  t.flatMap fun c => if c = '\x7b' ∨ c = '\x7d' then [c, c] else [c]

def source (t : Template) : Text :=
  t.flatMap fun
    | .text t => doubled t
    | .hole name => '\x7b' :: name ++ ['\x7d']

end Template

end Assembler
