import Mathlib
import Assembler.Json
import Assembler.Json.Token
import Assembler.Proofs.Literal

namespace Assembler.Json

mutual

def tokens : Json → List Token
  | .null => [.null]
  | .bool b => [.bool b]
  | .number n => [.number n]
  | .string t => [.string t]
  | .array [] => [.openArray, .closeArray]
  | .array (item :: items) => .openArray :: tokens item ++ itemTokens items ++ [.closeArray]
  | .object [] => [.openObject, .closeObject]
  | .object ((key, value) :: members) =>
      .openObject :: .string key :: .colon :: tokens value ++ memberTokens members ++ [.closeObject]

def itemTokens : List Json → List Token
  | [] => []
  | item :: items => .comma :: tokens item ++ itemTokens items

def memberTokens : List (Text × Json) → List Token
  | [] => []
  | (key, value) :: members =>
      .comma :: .string key :: .colon :: tokens value ++ memberTokens members

end

namespace Token

theorem scanFrom_cons (mode : Mode) (c : Char) (t : Text) :
    scanFrom mode (c :: t) = (step mode c).tokens ++ scanFrom (step mode c).mode t := rfl

theorem scanFrom_enter {mode next : Mode} {c : Char} (h : step mode c = .enter next) (t : Text) :
    scanFrom mode (c :: t) = scanFrom next t := by
  rw [scanFrom_cons, h]
  rfl

theorem scanFrom_emit {mode : Mode} {c : Char} {token : Token} (h : step mode c = .emit token)
    (t : Text) : scanFrom mode (c :: t) = token :: scanFrom .idle t := by
  rw [scanFrom_cons, h]
  rfl

section Numerals

-- The numeral of a number other than 0 does not begin with 0, so a leading zero may be refused.
theorem scanFrom_decimal {mode : Mode} (next : Nat → Mode)
    (hfirst : ∀ d : Digit, step mode d.char = .enter (next d))
    (hnext : ∀ n, n ≠ 0 → ∀ d : Digit, step (next n) d.char = .enter (next (n * 10 + d))) (n : Nat)
    (rest : Text) : scanFrom mode (Text.decimal n ++ rest) = scanFrom (next n) rest := by
  induction n using Nat.strongRecOn generalizing rest with
  | ind n ih =>
      by_cases h : n < 10
      · rw [Digit.decimal_of_lt h, List.singleton_append, scanFrom_enter (hfirst _)]
      · rw [Digit.decimal_of_ge (by omega), List.append_assoc, ih (n / 10) (by omega),
          List.singleton_append, scanFrom_enter (hnext _ (by omega) _)]
        have hn : n / 10 * 10 + n % 10 = n := by omega
        simp only [hn]

theorem step_idle_digit (d : Digit) : step .idle d.char = .enter (.whole (.ofNat d)) := by
  fin_cases d <;> rfl

theorem step_minus_digit (d : Digit) :
    step .minus d.char = .enter (.whole ⟨true, d, [], none⟩) := by
  simp [step]

theorem step_whole_digit {n : Numeral} (h : n.whole ≠ 0) (d : Digit) :
    step (.whole n) d.char = .enter (.whole { n with whole := n.whole * 10 + d }) := by
  simp [step, h]

theorem scanFrom_whole (negative : Bool) (n : Nat) (rest : Text) :
    scanFrom .idle ((if negative then ['-'] else []) ++ Text.decimal n ++ rest) =
      scanFrom (.whole ⟨negative, n, [], none⟩) rest := by
  cases negative with
  | false =>
      exact scanFrom_decimal (fun n => .whole ⟨false, n, [], none⟩) step_idle_digit
        (fun _ h d => step_whole_digit h d) n rest
  | true =>
      rw [List.append_assoc, if_pos rfl, List.singleton_append, scanFrom_enter rfl]
      exact scanFrom_decimal (fun n => .whole ⟨true, n, [], none⟩) step_minus_digit
        (fun _ h d => step_whole_digit h d) n rest

theorem scanFrom_fraction (n : Numeral) (ds : List Digit) (rest : Text) :
    scanFrom (.fraction n) (ds.map Digit.char ++ rest) =
      scanFrom (.fraction { n with fraction := ds.reverse ++ n.fraction }) rest := by
  induction ds generalizing n with
  | nil => rfl
  | cons d ds ih =>
      have hd : step (.fraction n) d.char =
          .enter (.fraction { n with fraction := d :: n.fraction }) := by
        simp [step]
      rw [List.map_cons, List.cons_append, scanFrom_enter hd, ih]
      simp

-- What comes after a numeral must not read as a part of it.
def Delimits (t : Text) : Prop :=
  ∀ c ∈ t.head?, Digit.ofChar? c = none ∧ c ≠ '.' ∧ c ≠ 'e' ∧ c ≠ 'E'

-- The digits read so far are those of `n`, and `n` may end here.
structure Complete (mode : Mode) (n : Numeral) : Prop where
  step : ∀ c, Digit.ofChar? c = none → c ≠ '.' → Token.step mode c = afterDigits n c
  finish : Token.finish mode = [.number n]

theorem complete_whole (n : Numeral) : Complete (.whole n) n where
  step c hc hp := by simp only [Token.step, hc, if_neg hp]
  finish := rfl

theorem complete_fraction (n : Numeral) :
    Complete (.fraction n) { n with fraction := n.fraction.reverse } where
  step c hc _ := by simp only [Token.step, hc]
  finish := rfl

theorem scanFrom_endNumeral (n : Numeral) (c : Char) (t : Text) :
    (endNumeral n c).tokens ++ scanFrom (endNumeral n c).mode t =
      .number n :: scanFrom .idle (c :: t) := rfl

variable {mode : Mode} {n : Numeral} {rest : Text}

theorem Complete.scanFrom (h : Complete mode n) (hrest : Delimits rest) :
    scanFrom mode rest = .number n :: scanFrom .idle rest := by
  cases rest with
  | nil => exact h.finish
  | cons c t =>
      obtain ⟨hd, hp, he, hE⟩ := hrest c rfl
      rw [scanFrom_cons, h.step c hd hp, afterDigits, if_neg (by simp [he, hE]),
        scanFrom_endNumeral]

def fractionText : List Digit → Text
  | [] => []
  | d :: ds => '.' :: (d :: ds).map Digit.char

def exponentText : Option Int → Text
  | none => []
  | some e => 'e' :: ((if e < 0 then ['-'] else []) ++ Text.decimal e.natAbs)

theorem step_exponent_digit (n : Numeral) (negative : Bool) (k : Nat) (d : Digit) :
    step (.exponent n negative k) d.char = .enter (.exponent n negative (k * 10 + d)) := by
  simp [step]

theorem scanFrom_exponent {negative : Bool}
    (hfirst : ∀ d : Digit, step mode d.char = .enter (.exponent n negative d)) (k : Nat)
    (hrest : Delimits rest) : scanFrom mode (Text.decimal k ++ rest) =
      .number (n.withExponent negative k) :: scanFrom .idle rest := by
  rw [scanFrom_decimal (.exponent n negative) hfirst fun k _ d => step_exponent_digit n negative k d]
  cases rest with
  | nil => rfl
  | cons c t =>
      have hc : step (.exponent n negative k) c = endNumeral (n.withExponent negative k) c := by
        simp only [step, (hrest c rfl).1]
      rw [scanFrom_cons, hc, scanFrom_endNumeral]

theorem scanFrom_mark (n : Numeral) (e : Int) (hrest : Delimits rest) :
    scanFrom (.mark n) ((if e < 0 then ['-'] else []) ++ Text.decimal e.natAbs ++ rest) =
      .number { n with exponent := some e } :: scanFrom .idle rest := by
  by_cases he : e < 0
  · have hsign : step (.mark n) '-' = .enter (.markSign n true) := rfl
    have hfirst : ∀ d : Digit, step (.markSign n true) d.char = .enter (.exponent n true d) := by
      intro d
      simp [step]
    rw [if_pos he, List.append_assoc, List.singleton_append, scanFrom_enter hsign,
      scanFrom_exponent hfirst _ hrest, Numeral.withExponent, if_pos rfl,
      show -(e.natAbs : Int) = e by omega]
  · have hfirst : ∀ d : Digit, step (.mark n) d.char = .enter (.exponent n false d) := by
      intro d
      simp [step]
    rw [if_neg he, List.nil_append, scanFrom_exponent hfirst _ hrest, Numeral.withExponent,
      if_neg Bool.false_ne_true, show (e.natAbs : Int) = e by omega]

theorem Complete.scanFrom_exponent (h : Complete mode n) (hn : n.exponent = none)
    (e : Option Int) (hrest : Delimits rest) :
    Token.scanFrom mode (exponentText e ++ rest) =
      .number { n with exponent := e } :: Token.scanFrom .idle rest := by
  cases e with
  | none =>
      rw [exponentText, List.nil_append, h.scanFrom hrest, ← hn]
  | some e =>
      have hmark : Token.step mode 'e' = .enter (.mark n) := h.step 'e' rfl (by decide)
      rw [exponentText, List.cons_append, scanFrom_enter hmark, scanFrom_mark n e hrest]

theorem numeral_text (n : Numeral) :
    n.text = (if n.negative then ['-'] else []) ++ Text.decimal n.whole ++ fractionText n.fraction ++
      exponentText n.exponent := by
  obtain ⟨negative, whole, fraction, exponent⟩ := n
  cases fraction <;> cases exponent <;> simp [Numeral.text, fractionText, exponentText]

theorem scanFrom_numeral (n : Numeral) (hrest : Delimits rest) :
    scanFrom .idle (n.text ++ rest) = .number n :: scanFrom .idle rest := by
  obtain ⟨negative, whole, fraction, exponent⟩ := n
  rw [numeral_text, List.append_assoc, List.append_assoc, scanFrom_whole]
  cases fraction with
  | nil => exact (complete_whole _).scanFrom_exponent rfl exponent hrest
  | cons d ds =>
      have hpoint : step (.whole ⟨negative, whole, [], none⟩) '.' =
          .enter (.point ⟨negative, whole, [], none⟩) := rfl
      have hfirst : step (.point ⟨negative, whole, [], none⟩) d.char =
          .enter (.fraction ⟨negative, whole, [d], none⟩) := by
        simp [step]
      rw [fractionText, List.map_cons, List.cons_append, List.cons_append, scanFrom_enter hpoint,
        scanFrom_enter hfirst, scanFrom_fraction,
        (complete_fraction _).scanFrom_exponent rfl exponent hrest]
      simp

end Numerals

section Strings

theorem padded_hexadecimal : ∀ n < 0x20, Text.padded 4 (Text.hexadecimal n) =
    ['0', '0', Nat.digitChar (n / 16), Nat.digitChar (n % 16)] := by
  decide

theorem hexDigit?_digitChar : ∀ n < 16, hexDigit? (Nat.digitChar n) = some n := by
  decide

theorem step_code {content : Content} {unit left d : Nat} {c : Char} (hd : hexDigit? c = some d)
    (hleft : 1 < left) :
    step (.code content unit left) c = .enter (.code content (unit * 16 + d) (left - 1)) := by
  simp only [step, hd, if_neg (Nat.not_le.mpr hleft)]

theorem scanFrom_code (content : Content) {n : Nat} (h : n < 0x20) (rest : Text) :
    scanFrom (.code content 0 4) (Text.padded 4 (Text.hexadecimal n) ++ rest) =
      scanFrom (.inString (content.pushUnit n)) rest := by
  have hhigh := hexDigit?_digitChar (n / 16) (by omega)
  have hlow := hexDigit?_digitChar (n % 16) (by omega)
  have hzero : hexDigit? '0' = some 0 := rfl
  have hlast : step (.code content (n / 16) 1) (Nat.digitChar (n % 16)) =
      .enter (.inString (content.pushUnit n)) := by
    simp only [step, hlow, Nat.le_refl, if_true, Nat.div_add_mod']
  rw [padded_hexadecimal n h]
  simp only [List.cons_append, List.nil_append]
  rw [scanFrom_enter (step_code hzero (by decide)), scanFrom_enter (step_code hzero (by decide)),
    scanFrom_enter (step_code hhigh (by decide))]
  simp only [Nat.zero_mul, Nat.zero_add, Nat.reduceSub]
  exact scanFrom_enter hlast rest

theorem pushUnit_toNat {c : Char} (h : c.toNat < 0x20) (chars : Text) :
    Content.pushUnit ⟨some chars, none⟩ c.toNat = ⟨some (c :: chars), none⟩ := by
  have hlow : ¬(0xDC00 ≤ c.toNat ∧ c.toNat ≤ 0xDFFF) := by omega
  have hhigh : ¬(0xD800 ≤ c.toNat ∧ c.toNat ≤ 0xDBFF) := by omega
  simp only [Content.pushUnit, if_neg hlow, if_neg hhigh, Char.ofNat_toNat]
  rfl

theorem scanFrom_escaped (chars : Text) (c : Char) (rest : Text) :
    scanFrom (.inString ⟨some chars, none⟩) (escaped c ++ rest) =
      scanFrom (.inString ⟨some (c :: chars), none⟩) rest := by
  unfold escaped
  split
  all_goals try rfl
  rename_i hquote hslash _ _ _ _ _
  by_cases hc : c.toNat < 0x20
  · rw [if_pos hc]
    exact (scanFrom_code _ hc rest).trans (by rw [pushUnit_toNat hc])
  · have hstep : step (.inString ⟨some chars, none⟩) c =
        .enter (.inString ⟨some (c :: chars), none⟩) := by
      simp only [step, if_neg hc, if_neg hquote, if_neg hslash]
      rfl
    rw [if_neg hc, List.singleton_append, scanFrom_enter hstep]

theorem scanFrom_flatMap_escaped (chars t rest : Text) :
    scanFrom (.inString ⟨some chars, none⟩) (t.flatMap escaped ++ rest) =
      scanFrom (.inString ⟨some (t.reverse ++ chars), none⟩) rest := by
  induction t generalizing chars with
  | nil => rfl
  | cons c t ih =>
      rw [List.flatMap_cons, List.append_assoc, scanFrom_escaped, ih]
      simp

theorem scanFrom_string (t rest : Text) :
    scanFrom .idle (stringText t ++ rest) = .string t :: scanFrom .idle rest := by
  have hopen : step .idle '"' = .enter (.inString ⟨some [], none⟩) := rfl
  have hclose : step (.inString ⟨some (t.reverse ++ []), none⟩) '"' = .emit (.string t) := by
    simp [step, Content.closed, Content.settled]
  rw [stringText, List.cons_append, List.cons_append, List.append_assoc, scanFrom_enter hopen,
    scanFrom_flatMap_escaped, List.singleton_append, scanFrom_emit hclose]

end Strings

section Documents

def isSpace (c : Char) : Bool := c == ' ' || c == '\n' || c == '\t' || c == '\r'

theorem step_idle_space {c : Char} (h : isSpace c = true) : step .idle c = .enter .idle := by
  simp only [isSpace, Bool.or_eq_true, beq_iff_eq] at h
  rcases h with ((rfl | rfl) | rfl) | rfl <;> rfl

theorem scanFrom_spaces {spaces : Text} (h : ∀ c ∈ spaces, isSpace c = true) (rest : Text) :
    scanFrom .idle (spaces ++ rest) = scanFrom .idle rest := by
  induction spaces with
  | nil => rfl
  | cons c spaces ih =>
      rw [List.cons_append, scanFrom_enter (step_idle_space (h c (by simp))),
        ih fun d hd => h d (by simp [hd])]

theorem delimits_cons {c : Char}
    (h : Digit.ofChar? c = none ∧ c ≠ '.' ∧ c ≠ 'e' ∧ c ≠ 'E') (t : Text) : Delimits (c :: t) := by
  intro d hd
  obtain rfl : c = d := by simpa using hd
  exact h

theorem delimits_spaces {spaces : Text} (h : ∀ c ∈ spaces, isSpace c = true) {rest : Text}
    (hrest : Delimits rest) : Delimits (spaces ++ rest) := by
  cases spaces with
  | nil => exact hrest
  | cons c spaces =>
      apply delimits_cons
      have hc := h c (by simp)
      simp only [isSpace, Bool.or_eq_true, beq_iff_eq] at hc
      rcases hc with ((rfl | rfl) | rfl) | rfl <;> decide

end Documents

end Token

structure Style.Blank (style : Style) : Prop where
  lead : ∀ depth, ∀ c ∈ style.lead depth, Token.isSpace c = true
  gap : ∀ c ∈ style.gap, Token.isSpace c = true

theorem Style.blank_compact : compact.Blank := ⟨by simp [compact], by simp [compact]⟩

theorem Style.blank_indented : indented.Blank where
  lead _ := List.forall_mem_cons.mpr ⟨rfl, fun _ hc => List.eq_of_mem_replicate hc ▸ rfl⟩
  gap := List.forall_mem_singleton.mpr rfl

open Token

variable {style : Style}

theorem delimits_renderItems (depth : Nat) (items : List Json) {rest : Text}
    (hrest : Delimits rest) : Delimits (renderItems style depth items ++ rest) := by
  cases items with
  | nil => exact hrest
  | cons item items =>
      simp only [renderItems, List.cons_append]
      exact delimits_cons (by decide) _

theorem delimits_renderMembers (depth : Nat) (members : List (Text × Json)) {rest : Text}
    (hrest : Delimits rest) : Delimits (renderMembers style depth members ++ rest) := by
  cases members with
  | nil => exact hrest
  | cons member members =>
      simp only [renderMembers, List.cons_append]
      exact delimits_cons (by decide) _

mutual

theorem scanFrom_render (hs : style.Blank) (depth : Nat) (j : Json) {rest : Text}
    (hrest : Delimits rest) :
    scanFrom .idle (j.render style depth ++ rest) = j.tokens ++ scanFrom .idle rest := by
  match j with
  | .null => rfl
  | .bool true => rfl
  | .bool false => rfl
  | .number n => exact scanFrom_numeral n hrest
  | .string t => exact scanFrom_string t rest
  | .array [] => rfl
  | .array (item :: items) =>
      have hend : Delimits (style.lead depth ++ ']' :: rest) :=
        delimits_spaces (hs.lead depth) (delimits_cons (by decide) rest)
      simp only [render, tokens, List.cons_append, List.append_assoc, List.nil_append]
      rw [scanFrom_emit rfl, scanFrom_spaces (hs.lead _),
        scanFrom_render hs (depth + 1) item (delimits_renderItems _ items hend),
        scanFrom_renderItems hs (depth + 1) items hend, scanFrom_spaces (hs.lead _),
        scanFrom_emit rfl]
  | .object [] => rfl
  | .object ((key, value) :: members) =>
      have hend : Delimits (style.lead depth ++ '\x7d' :: rest) :=
        delimits_spaces (hs.lead depth) (delimits_cons (by decide) rest)
      simp only [render, tokens, List.cons_append, List.append_assoc, List.nil_append]
      rw [scanFrom_emit rfl, scanFrom_spaces (hs.lead _), scanFrom_string, scanFrom_emit rfl,
        scanFrom_spaces hs.gap,
        scanFrom_render hs (depth + 1) value (delimits_renderMembers _ members hend),
        scanFrom_renderMembers hs (depth + 1) members hend, scanFrom_spaces (hs.lead _),
        scanFrom_emit rfl]

theorem scanFrom_renderItems (hs : style.Blank) (depth : Nat) (items : List Json) {rest : Text}
    (hrest : Delimits rest) :
    scanFrom .idle (renderItems style depth items ++ rest) =
      itemTokens items ++ scanFrom .idle rest := by
  match items with
  | [] => rfl
  | item :: items =>
      simp only [renderItems, itemTokens, List.cons_append, List.append_assoc]
      rw [scanFrom_emit rfl, scanFrom_spaces (hs.lead _),
        scanFrom_render hs depth item (delimits_renderItems _ items hrest),
        scanFrom_renderItems hs depth items hrest]

theorem scanFrom_renderMembers (hs : style.Blank) (depth : Nat) (members : List (Text × Json))
    {rest : Text} (hrest : Delimits rest) :
    scanFrom .idle (renderMembers style depth members ++ rest) =
      memberTokens members ++ scanFrom .idle rest := by
  match members with
  | [] => rfl
  | (key, value) :: members =>
      simp only [renderMembers, memberTokens, List.cons_append, List.append_assoc]
      rw [scanFrom_emit rfl, scanFrom_spaces (hs.lead _), scanFrom_string, scanFrom_emit rfl,
        scanFrom_spaces hs.gap,
        scanFrom_render hs depth value (delimits_renderMembers _ members hrest),
        scanFrom_renderMembers hs depth members hrest]

end

theorem scan_render_append (hs : style.Blank) (j : Json) {spaces : Text}
    (hspaces : ∀ c ∈ spaces, isSpace c = true) :
    scan (j.render style 0 ++ spaces) = j.tokens := by
  have hnil : Delimits [] := by simp [Delimits]
  have hend : scanFrom .idle (spaces ++ []) = [] := scanFrom_spaces hspaces []
  have h := scanFrom_render hs 0 j (delimits_spaces hspaces hnil)
  rwa [hend, List.append_nil, List.append_nil] at h

end Assembler.Json
