import Assembler.Instruction
import Assembler.Proofs.Encoding

namespace Assembler

namespace Text

theorem cut?_eq_some {p : Char → Bool} {t a b : Text} (h : cut? p t = some (a, b)) :
    ∃ c, p c = true ∧ (∀ d ∈ a, p d = false) ∧ t = a ++ c :: b := by
  induction t generalizing a with
  | nil => cases h
  | cons d t ih =>
      rw [cut?] at h
      split at h
      · rename_i hd
        obtain ⟨rfl, rfl⟩ : [] = a ∧ t = b := by simpa using h
        exact ⟨d, hd, by simp, rfl⟩
      · rename_i hd
        obtain ⟨⟨a', b'⟩, hcut, hparts⟩ := Option.map_eq_some_iff.mp h
        obtain ⟨rfl, rfl⟩ : d :: a' = a ∧ b' = b := by simpa using hparts
        obtain ⟨c, hc, hbefore, rfl⟩ := ih hcut
        exact ⟨c, hc, List.forall_mem_cons.mpr ⟨by simpa using hd, hbefore⟩, rfl⟩

theorem cut?_eq_none {p : Char → Bool} {t : Text} (h : cut? p t = none) : ∀ c ∈ t, p c = false := by
  induction t with
  | nil => simp
  | cons d t ih =>
      rw [cut?] at h
      split at h
      · cases h
      · rename_i hd
        exact List.forall_mem_cons.mpr ⟨by simpa using hd, ih (Option.map_eq_none_iff.mp h)⟩

theorem mem_intercalate {sep : Text} {parts : List Text} {c : Char}
    (hc : c ∈ List.intercalate sep parts) : c ∈ sep ∨ ∃ part ∈ parts, c ∈ part := by
  induction parts with
  | nil => simp at hc
  | cons part parts ih =>
      cases parts with
      | nil =>
          rw [List.intercalate_singleton] at hc
          exact .inr ⟨part, by simp, hc⟩
      | cons next parts =>
          rw [List.intercalate_cons_cons, List.mem_append, List.mem_append] at hc
          rcases hc with (hc | hc) | hc
          · exact .inr ⟨part, by simp, hc⟩
          · exact .inl hc
          · rcases ih hc with hsep | ⟨other, hother, hmem⟩
            · exact .inl hsep
            · exact .inr ⟨other, List.mem_cons_of_mem _ hother, hmem⟩

theorem eq_or_mem_splitOn (sep : Char) {c : Char} {t : Text} (hc : c ∈ t) :
    c = sep ∨ ∃ part ∈ List.splitOn sep t, c ∈ part := by
  have hjoin : List.intercalate [sep] (List.splitOn sep t) = t := List.intercalate_splitOn sep
  rw [← hjoin] at hc
  simpa using mem_intercalate hc

section Code

def isCode (c : Char) : Bool := c.isAlphanum || c == '_' || c == '+' || c == '-'

variable {c : Char}

theorem isCode_iff : isCode c = true ↔
    (48 ≤ c.toNat ∧ c.toNat ≤ 57) ∨ (65 ≤ c.toNat ∧ c.toNat ≤ 90) ∨
      (97 ≤ c.toNat ∧ c.toNat ≤ 122) ∨ c.toNat = 95 ∨ c.toNat = 43 ∨ c.toNat = 45 := by
  have hunder : c = '_' ↔ c.toNat = 95 := Char.toNat_inj.symm
  have hplus : c = '+' ↔ c.toNat = 43 := Char.toNat_inj.symm
  have hminus : c = '-' ↔ c.toNat = 45 := Char.toNat_inj.symm
  simp only [isCode, Char.isAlphanum, Char.isAlpha, Char.isUpper, Char.isLower, Char.isDigit,
    Bool.or_eq_true, Bool.and_eq_true, decide_eq_true_eq, beq_iff_eq, hunder, hplus, hminus]
  change ((((65 ≤ c.toNat ∧ c.toNat ≤ 90 ∨ 97 ≤ c.toNat ∧ c.toNat ≤ 122) ∨
    48 ≤ c.toNat ∧ c.toNat ≤ 57) ∨ c.toNat = 95) ∨ c.toNat = 43) ∨ c.toNat = 45 ↔ _
  omega

@[simp] theorem isCode_toUpper (c : Char) : isCode c.toUpper = isCode c := by
  rw [Bool.eq_iff_iff, isCode_iff, isCode_iff, toNat_toUpper]
  split <;> omega

theorem isCode_of_isIdentifier {t : Text} (h : isIdentifier t = true) :
    ∀ c ∈ t, isCode c = true := by
  cases t with
  | nil => simp
  | cons d t =>
      simp only [isIdentifier, Bool.and_eq_true, List.all_eq_true] at h
      intro c hc
      rcases List.mem_cons.mp hc with rfl | hc
      · simp [isCode, Char.isAlphanum, h.1]
      · have hd := h.2 c hc
        simp only [isCode, hd, Bool.true_or]

theorem isBlank_of_isCode (h : isCode c = true) : isBlank c = false := by
  have hrange := isCode_iff.mp h
  exact isBlank_eq_false (by omega) (by omega)

end Code

structure IsToken (t : Text) : Prop where
  ne_nil : trim t ≠ []
  code : ∀ c ∈ trim t, isCode c = true

namespace IsToken

variable {s t : Text}

theorem of_sameLetters (h : sameLetters s (trim t) = true) (hne : s ≠ [])
    (hcode : ∀ c ∈ s, isCode c = true) : IsToken t := by
  refine ⟨?_, forall_of_sameLetters isCode_toUpper h hcode⟩
  intro hnil
  have hupper := sameLetters_iff.mp h
  rw [hnil, upperCase, upperCase, List.map_nil, List.map_eq_nil_iff] at hupper
  exact hne hupper

theorem noBlank (h : IsToken t) : ∀ c ∈ trim t, isBlank c = false :=
  fun c hc => isBlank_of_isCode (h.code c hc)

theorem isBlank_or_isCode (h : IsToken t) {c : Char} (hc : c ∈ t) :
    isBlank c = true ∨ isCode c = true :=
  (isBlank_or_mem_trim hc).imp_right (h.code c)

theorem comma_notMem (h : IsToken t) : ',' ∉ t := by
  intro hmem
  exact absurd (h.isBlank_or_isCode hmem) (by decide)

theorem nonempty (h : IsToken t) : t ≠ [] := by
  rintro rfl
  exact h.ne_nil rfl

end IsToken

end Text

@[simp] theorem Digit.isCode_char (d : Digit) : Text.isCode d.char = true := by decide +revert

theorem Literal.Numeral.isCode {t : Text} {v : Int} (h : Numeral t v) :
    ∀ c ∈ t, Text.isCode c = true := by
  obtain ⟨ds, -, hds⟩ := numeral_iff.mp h
  have hdigits : ∀ c ∈ ds.map Digit.char, Text.isCode c = true := by
    intro c hc
    obtain ⟨d, -, rfl⟩ := List.mem_map.mp hc
    exact d.isCode_char
  rcases hds with ⟨rfl, -⟩ | ⟨rfl, -⟩ | ⟨rfl, -⟩
  · exact hdigits
  · exact List.forall_mem_cons.mpr ⟨by decide, hdigits⟩
  · exact List.forall_mem_cons.mpr ⟨by decide, hdigits⟩

theorem Literal.Numeral.ne_nil {t : Text} {v : Int} (h : Numeral t v) : t ≠ [] := by
  cases h with
  | unsigned hne => simpa using hne
  | plus => simp
  | minus => simp

theorem Mnemonic.isToken_of_ofToken? {token : Text} {m : Mnemonic} (h : ofToken? token = some m) :
    Text.IsToken token := by
  have hne : m.name ≠ [] := by cases m <;> decide
  have hname : m.name.all Text.isCode = true := by cases m <;> rfl
  rw [ofToken?] at h
  have hsame := List.find?_some h
  exact .of_sameLetters hsame hne (List.all_eq_true.mp hname)

theorem Field.isToken_of_value {t : Table} (hv : t.Valid) {f : Field} {token : Text} {v : Nat}
    (h : f.Value t token v) : Text.IsToken token := by
  cases hmax : f.max? t with
  | some max =>
      have hnumeral := (value_of_max?_some hmax).mp h
      exact ⟨hnumeral.ne_nil, hnumeral.isCode⟩
  | none =>
      obtain ⟨r, hr, -⟩ := (value_of_max?_none hmax).mp h
      cases r with
      | unused =>
          have hzero := hv.resolve_unused.mp hr
          exact ⟨by simp [hzero], by simp [hzero, Text.isCode]⟩
      | register c =>
          obtain ⟨name, hname, hsame⟩ := hv.resolve_register.mp hr
          have hid := hv.identifier name (List.mem_of_getElem? hname)
          refine .of_sameLetters hsame ?_ (Text.isCode_of_isIdentifier hid)
          rintro rfl
          cases hid

theorem Table.Reads.isToken {t : Table} (hv : t.Valid) {fs : List Field} {tokens : List Text}
    {vs : List Nat} (h : t.Reads fs tokens vs) : ∀ token ∈ tokens, Text.IsToken token := by
  induction h with
  | nil => simp
  | cons hval _ ih => exact List.forall_mem_cons.mpr ⟨Field.isToken_of_value hv hval, ih⟩

namespace Instruction

variable {line : Text} {i : Instruction} {c : Char}

theorem mem_operandsOf {t : Text} (hc : c ∈ t) :
    Text.isBlank c = true ∨ c = ',' ∨ ∃ operand ∈ operandsOf t, c ∈ operand := by
  have hne : t.isEmpty = false := by
    rw [List.isEmpty_eq_false_iff]
    exact List.ne_nil_of_mem hc
  rcases Text.eq_or_mem_splitOn ',' hc with hcomma | ⟨part, hpart, hmem⟩
  · exact .inr (.inl hcomma)
  · rcases Text.isBlank_or_mem_trim hmem with hblank | hmem
    · exact .inl hblank
    · refine .inr (.inr ⟨Text.trim part, ?_, hmem⟩)
      simpa [operandsOf, hne] using ⟨part, hpart, rfl⟩

@[simp] theorem ofLine?_trim (line : Text) : ofLine? (Text.trim line) = ofLine? line := by
  simp [ofLine?]

theorem ofLine?_eq_none_iff :
    ofLine? line = none ↔ Text.trim line = [] := by
  cases htrim : Text.trim line with
  | nil => simp [ofLine?, htrim, Text.cut?]
  | cons c rest =>
      have hc : Text.isBlank c = false := Text.isBlank_of_trim_eq_cons htrim
      simp only [ofLine?, htrim, Text.cut?, hc, Bool.false_eq_true, if_false]
      cases Text.cut? Text.isBlank rest <;> simp

theorem mem_of_ofLine? (h : ofLine? line = some i) (hc : c ∈ line) :
    Text.isBlank c = true ∨ c ∈ i.mnemonic ∨ c = ',' ∨ ∃ operand ∈ i.operands, c ∈ operand := by
  rcases Text.isBlank_or_mem_trim hc with hblank | hc
  · exact .inl hblank
  · rw [ofLine?] at h
    split at h
    · cases h
    · obtain rfl := Option.some.inj h
      cases hcut : Text.cut? Text.isBlank (Text.trim line) with
      | none => exact .inr (.inl hc)
      | some parts =>
          obtain ⟨d, hd, -, htrim⟩ := Text.cut?_eq_some hcut
          rw [htrim, List.mem_append, List.mem_cons] at hc
          rcases hc with hc | rfl | hc
          · exact .inr (.inl hc)
          · exact .inl hd
          · rcases Text.isBlank_or_mem_trim hc with hblank | hc
            · exact .inl hblank
            · rcases mem_operandsOf hc with hblank | hcomma | hoperand
              · exact .inl hblank
              · exact .inr (.inr (.inl hcomma))
              · exact .inr (.inr (.inr hoperand))

end Instruction

namespace Machine

variable {M : Machine} {line : Text} {w : Word}

theorem encodeLine_eq_ok_iff : M.encodeLine line = .ok w ↔
    ∃ i, Instruction.ofLine? line = some i ∧ M.encodeInstruction i = .ok w := by
  rw [encodeLine]
  cases Instruction.ofLine? line <;> simp

@[simp] theorem encodeLine_trim (M : Machine) (line : Text) :
    M.encodeLine (Text.trim line) = M.encodeLine line := by
  simp [encodeLine]

theorem encodeTokens_eq_ok_iff {mnemonic : Text} {operands : List Text} :
    M.encodeTokens mnemonic operands = .ok w ↔
      ∃ m, Mnemonic.ofToken? mnemonic = some m ∧ M.encode m operands = .ok w := by
  rw [encodeTokens, Mnemonic.parse]
  cases Mnemonic.ofToken? mnemonic <;> simp

theorem isToken_of_encodeTokens {mnemonic : Text} {operands : List Text}
    (h : M.encodeTokens mnemonic operands = .ok w) :
    Text.IsToken mnemonic ∧ ∀ operand ∈ operands, Text.IsToken operand := by
  obtain ⟨m, hm, hw⟩ := encodeTokens_eq_ok_iff.mp h
  obtain ⟨vs, hreads, -⟩ := (M.encode_eq_ok_iff m operands w).mp hw
  exact ⟨Mnemonic.isToken_of_ofToken? hm, hreads.isToken M.valid⟩

theorem encodeLine_chars (h : M.encodeLine line = .ok w) :
    ∀ c ∈ line, Text.isBlank c = true ∨ c = ',' ∨ Text.isCode c = true := by
  obtain ⟨i, hi, hw⟩ := encodeLine_eq_ok_iff.mp h
  obtain ⟨hmnemonic, hoperands⟩ := isToken_of_encodeTokens hw
  intro c hc
  rcases Instruction.mem_of_ofLine? hi hc with hblank | hc | hcomma | ⟨operand, hoperand, hc⟩
  · exact .inl hblank
  · exact (hmnemonic.isBlank_or_isCode hc).imp_right .inr
  · exact .inr (.inl hcomma)
  · exact ((hoperands operand hoperand).isBlank_or_isCode hc).imp_right .inr

end Machine

end Assembler
