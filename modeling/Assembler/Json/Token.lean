import Assembler.Json.Numeral

namespace Assembler.Json

inductive Fault where
  | unfinished
  | malformed
  deriving DecidableEq, Repr

inductive Token where
  | openObject
  | closeObject
  | openArray
  | closeArray
  | colon
  | comma
  | null
  | bool (b : Bool)
  | number (n : Numeral)
  | string (content : Text)
  | unpairedString
  | brokenNumber (f : Fault)
  | brokenString (f : Fault) (unpaired : Bool)
  | fault (f : Fault)
  deriving DecidableEq, Repr

namespace Token

structure Content where
  -- the last character first, and none once half of a surrogate pair stands alone
  chars : Option Text
  lead : Option Nat
  deriving DecidableEq, Repr

namespace Content

def empty : Content := ⟨some [], none⟩

def unpaired : Content := ⟨none, none⟩

def settled (c : Content) : Option Text := if c.lead.isSome then none else c.chars

def push (c : Content) (char : Char) : Content := ⟨c.settled.map (char :: ·), none⟩

def pushUnit (c : Content) (unit : Nat) : Content :=
  match c.lead with
  | some lead =>
      if 0xDC00 ≤ unit ∧ unit ≤ 0xDFFF then
        ⟨c.chars.map (Char.ofNat (0x10000 + (lead - 0xD800) * 0x400 + (unit - 0xDC00)) :: ·), none⟩
      else unpaired
  | none =>
      if 0xDC00 ≤ unit ∧ unit ≤ 0xDFFF then unpaired
      else if 0xD800 ≤ unit ∧ unit ≤ 0xDBFF then ⟨c.chars, some unit⟩
      else c.push (Char.ofNat unit)

def closed (c : Content) : Token :=
  match c.settled with
  | some chars => .string chars.reverse
  | none => .unpairedString

def broken (c : Content) (f : Fault) : Token := .brokenString f c.chars.isNone

end Content

def hexDigit? (c : Char) : Option Nat :=
  if c.isDigit then some (c.toNat - '0'.toNat)
  else if 'a' ≤ c ∧ c ≤ 'f' then some (c.toNat - 'a'.toNat + 10)
  else if 'A' ≤ c ∧ c ≤ 'F' then some (c.toNat - 'A'.toNat + 10)
  else none

def escape? : Char → Option Char
  | '"' => some '"'
  | '\\' => some '\\'
  | '/' => some '/'
  | 'b' => some '\x08'
  | 'f' => some '\x0c'
  | 'n' => some '\n'
  | 'r' => some '\r'
  | 't' => some '\t'
  | _ => none

inductive Mode where
  | idle
  | halted
  | word (rest : Text) (token : Token)
  | inString (c : Content)
  | escape (c : Content)
  | code (c : Content) (unit : Nat) (left : Nat)
  -- a code escape takes four bytes whatever they are; `left` of them are still to come
  | damaged (c : Content) (left : Nat)
  | minus
  | whole (n : Numeral)
  | point (n : Numeral)
  | fraction (n : Numeral)
  | mark (n : Numeral)
  | markSign (n : Numeral) (negative : Bool)
  | exponent (n : Numeral) (negative : Bool) (digits : Nat)
  deriving DecidableEq, Repr

structure Move where
  tokens : List Token
  mode : Mode

namespace Move

def enter (mode : Mode) : Move := ⟨[], mode⟩

def emit (token : Token) : Move := ⟨[token], .idle⟩

def halt (token : Token) : Move := ⟨[token], .halted⟩

end Move

def start (c : Char) : Move :=
  match c with
  | ' ' | '\n' | '\t' | '\r' => .enter .idle
  | '\x7b' => .emit .openObject
  | '\x7d' => .emit .closeObject
  | '[' => .emit .openArray
  | ']' => .emit .closeArray
  | ':' => .emit .colon
  | ',' => .emit .comma
  | 'n' => .enter (.word "ull".toList .null)
  | 't' => .enter (.word "rue".toList (.bool true))
  | 'f' => .enter (.word "alse".toList (.bool false))
  | '"' => .enter (.inString .empty)
  | '-' => .enter .minus
  | c =>
      match Digit.ofChar? c with
      | some d => .enter (.whole (.ofNat d))
      | none => .halt (.fault .malformed)

def endNumeral (n : Numeral) (c : Char) : Move :=
  ⟨.number n :: (start c).tokens, (start c).mode⟩

def badNumeral : Move := .halt (.brokenNumber .malformed)

def afterDigits (n : Numeral) (c : Char) : Move :=
  if c = 'e' ∨ c = 'E' then .enter (.mark n) else endNumeral n c

def step : Mode → Char → Move
  | .idle, c => start c
  | .halted, _ => .enter .halted
  | .word [] token, c => ⟨token :: (start c).tokens, (start c).mode⟩
  | .word [last] token, c => if c = last then .emit token else .halt (.fault .malformed)
  | .word (next :: rest) token, c =>
      if c = next then .enter (.word rest token) else .halt (.fault .malformed)
  | .inString s, c =>
      if c = '"' then .emit s.closed
      else if c = '\\' then .enter (.escape s)
      else if c.toNat < 0x20 then .halt (s.broken .malformed)
      else .enter (.inString (s.push c))
  | .escape s, c =>
      if c = 'u' then .enter (.code s 0 4)
      else match escape? c with
        | some char => .enter (.inString (s.push char))
        | none => .halt (s.broken .malformed)
  | .code s unit left, c =>
      match hexDigit? c with
      | some d =>
          if left ≤ 1 then .enter (.inString (s.pushUnit (unit * 16 + d)))
          else .enter (.code s (unit * 16 + d) (left - 1))
      | none =>
          if left ≤ c.utf8Size then .halt (s.broken .malformed)
          else .enter (.damaged s (left - c.utf8Size))
  | .damaged s left, c =>
      if left ≤ c.utf8Size then .halt (s.broken .malformed)
      else .enter (.damaged s (left - c.utf8Size))
  | .minus, c =>
      match Digit.ofChar? c with
      | some d => .enter (.whole ⟨true, d, [], none⟩)
      | none => badNumeral
  | .whole n, c =>
      match Digit.ofChar? c with
      | some d =>
          if n.whole = 0 then badNumeral else .enter (.whole { n with whole := n.whole * 10 + d })
      | none => if c = '.' then .enter (.point n) else afterDigits n c
  | .point n, c =>
      match Digit.ofChar? c with
      | some d => .enter (.fraction { n with fraction := [d] })
      | none => badNumeral
  | .fraction n, c =>
      match Digit.ofChar? c with
      | some d => .enter (.fraction { n with fraction := d :: n.fraction })
      | none => afterDigits { n with fraction := n.fraction.reverse } c
  | .mark n, c =>
      match Digit.ofChar? c with
      | some d => .enter (.exponent n false d)
      | none =>
          if c = '+' then .enter (.markSign n false)
          else if c = '-' then .enter (.markSign n true)
          else badNumeral
  | .markSign n negative, c =>
      match Digit.ofChar? c with
      | some d => .enter (.exponent n negative d)
      | none => badNumeral
  | .exponent n negative digits, c =>
      match Digit.ofChar? c with
      | some d => .enter (.exponent n negative (digits * 10 + d))
      | none => endNumeral (n.withExponent negative digits) c

def finish : Mode → List Token
  | .idle | .halted => []
  | .word [] token => [token]
  | .word _ _ => [.fault .unfinished]
  | .inString s | .escape s | .code s _ _ | .damaged s _ => [s.broken .unfinished]
  | .minus | .point _ | .mark _ | .markSign _ _ => [.brokenNumber .unfinished]
  | .whole n => [.number n]
  | .fraction n => [.number { n with fraction := n.fraction.reverse }]
  | .exponent n negative digits => [.number (n.withExponent negative digits)]

def scanFrom : Mode → Text → List Token
  | mode, [] => finish mode
  | mode, c :: t => (step mode c).tokens ++ scanFrom (step mode c).mode t

def scan (t : Text) : List Token := scanFrom .idle t

end Token

end Assembler.Json
