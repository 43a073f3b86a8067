import Assembler.Json.Numeral

namespace Assembler

inductive Json where
  | null
  | bool (b : Bool)
  | number (n : Json.Numeral)
  | string (t : Text)
  | array (items : List Json)
  | object (members : List (Text × Json))

namespace Json

def ofNat (n : Nat) : Json := .number (.ofNat n)

def escaped (c : Char) : Text :=
  match c with
  | '"' => ['\\', '"']
  | '\\' => ['\\', '\\']
  | '\x08' => ['\\', 'b']
  | '\x0c' => ['\\', 'f']
  | '\n' => ['\\', 'n']
  | '\r' => ['\\', 'r']
  | '\t' => ['\\', 't']
  | c =>
      if c.toNat < 0x20 then ['\\', 'u'] ++ Text.padded 4 (Text.hexadecimal c.toNat) else [c]

def stringText (t : Text) : Text := '"' :: t.flatMap escaped ++ ['"']

structure Style where
  lead : Nat → Text
  gap : Text

namespace Style

def compact : Style := ⟨fun _ => [], []⟩

def indented : Style := ⟨fun depth => '\n' :: List.replicate (2 * depth) ' ', [' ']⟩

end Style

mutual

def render (style : Style) (depth : Nat) : Json → Text
  | .null => "null".toList
  | .bool true => "true".toList
  | .bool false => "false".toList
  | .number n => n.text
  | .string t => stringText t
  | .array [] => ['[', ']']
  | .array (item :: items) =>
      '[' :: style.lead (depth + 1) ++ render style (depth + 1) item ++
        renderItems style (depth + 1) items ++ style.lead depth ++ [']']
  | .object [] => ['\x7b', '\x7d']
  | .object ((key, value) :: members) =>
      '\x7b' :: style.lead (depth + 1) ++ stringText key ++ ':' :: style.gap ++
        render style (depth + 1) value ++ renderMembers style (depth + 1) members ++
        style.lead depth ++ ['\x7d']

def renderItems (style : Style) (depth : Nat) : List Json → Text
  | [] => []
  | item :: items =>
      ',' :: style.lead depth ++ render style depth item ++ renderItems style depth items

def renderMembers (style : Style) (depth : Nat) : List (Text × Json) → Text
  | [] => []
  | (key, value) :: members =>
      ',' :: style.lead depth ++ stringText key ++ ':' :: style.gap ++
        render style depth value ++ renderMembers style depth members

end

def compact (j : Json) : Text := j.render .compact 0

def indented (j : Json) : Text := j.render .indented 0

end Json

end Assembler
