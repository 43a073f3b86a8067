namespace Assembler

abbrev Text := List Char

namespace Text

def byteSize : Text → Nat
  | [] => 0
  | c :: t => c.utf8Size + byteSize t

@[simp] theorem byteSize_append (s t : Text) : byteSize (s ++ t) = byteSize s + byteSize t := by
  induction s with
  | nil => simp [byteSize]
  | cons c s ih => simp [byteSize, ih, Nat.add_assoc]

@[simp] theorem utf8ByteSize_ofList (t : Text) : (String.ofList t).utf8ByteSize = byteSize t := by
  induction t with
  | nil => rfl
  | cons c t ih =>
      rw [String.ofList_cons, String.utf8ByteSize_append, String.utf8ByteSize_singleton, ih,
        byteSize]

def upperCase (t : Text) : Text := t.map Char.toUpper

def sameLetters (s t : Text) : Bool := upperCase s == upperCase t

def cut? (p : Char → Bool) : Text → Option (Text × Text)
  | [] => none
  | c :: t =>
      if p c then some ([], t)
      else (cut? p t).map fun parts => (c :: parts.1, parts.2)

def upTo (c : Char) (t : Text) : Text := t.takeWhile (· != c)

def dropReturn (t : Text) : Text :=
  if t.getLast? = some '\r' then t.dropLast else t

def ofEnded : List Text → List Text
  | [] => []
  | [last] => if last.isEmpty then [] else [last]
  | line :: rest => dropReturn line :: ofEnded rest

def lines (t : Text) : List Text := ofEnded (List.splitOn '\n' t)

def decimal (n : Nat) : Text := Nat.toDigits 10 n

def hexadecimal (n : Nat) : Text := Nat.toDigits 16 n

def padded (width : Nat) (t : Text) : Text := List.leftpad width '0' t

end Text

end Assembler
