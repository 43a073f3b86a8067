import Assembler.FileStore

namespace Assembler

structure Folder where
  files : List (Place × List UInt8)
  deriving DecidableEq, Repr

inductive Entry where
  | folder
  | file (content : List UInt8)
  | nothing
  | longName
  deriving DecidableEq, Repr

namespace Folder

def ofFiles (files : List (Path × List UInt8)) : Folder :=
  ⟨files.map fun file => (file.1.place, file.2)⟩

def get? (f : Folder) (p : Place) : Option (List UInt8) := f.files.lookup p

def isFolder (f : Folder) (p : Place) : Bool :=
  p.names.isEmpty || f.files.any fun file => p.encloses file.1

def entry (f : Folder) (p : Place) : Entry :=
  if p.names.getLast?.any (255 < ·.byteSize) then .longName
  else
    match f.get? p with
    | some content => .file content
    | none => if f.isFolder p then .folder else .nothing

-- Every step is taken from a folder, also one that stays there.
def walk (f : Folder) : Place → List Step → Except FileError Place
  | p, [] => .ok p
  | p, s :: rest =>
      match f.entry p with
      | .folder => f.walk (p.step s) rest
      | .file _ => .error .noFolder
      | .nothing => .error .missing
      | .longName => .error .longName

def follow (f : Folder) (path : Path) : Except FileError Place :=
  if path.isEmpty then .error .missing
  else if 4095 < path.byteSize then .error .longName
  else f.walk path.start path.steps

def read (f : Folder) (path : Path) : Except FileError (List UInt8) := do
  match f.entry (← f.follow path) with
  | .folder => throw .folder
  | .file content => if path.endsInSlash then throw .noFolder else return content
  | .nothing => throw .missing
  | .longName => throw .longName

def insert (f : Folder) (p : Place) (content : List UInt8) : Folder :=
  ⟨(p, content) :: f.files.filter (·.1 != p)⟩

def write (f : Folder) (path : Path) (content : List UInt8) : Except FileError Folder := do
  let p ← f.follow path
  if path.endsInSlash then throw .folder
  match f.entry p with
  | .folder => throw .folder
  | .longName => throw .longName
  | .file _ | .nothing => return f.insert p content

instance : FileStore (StateM Folder) where
  read path := fun f => (f.read path, f)
  write path content := fun f =>
    match f.write path content with
    | .ok g => (.ok (), g)
    | .error e => (.error e, f)

end Folder

end Assembler
