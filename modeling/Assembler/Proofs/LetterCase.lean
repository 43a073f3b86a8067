import Assembler.Proofs.Instruction
import Assembler.Proofs.Refusal

namespace Assembler

namespace Text

variable {t : Text} {c d : Char}

@[simp]
theorem upperCase_cons (c : Char) (t : Text) : upperCase (c :: t) = c.toUpper :: upperCase t := rfl

@[simp] theorem upperCase_append (s t : Text) : upperCase (s ++ t) = upperCase s ++ upperCase t :=
  List.map_append

@[simp] theorem isEmpty_upperCase (t : Text) : (upperCase t).isEmpty = t.isEmpty := List.isEmpty_map

theorem toUpper_eq_iff_of_lt (h : d.toNat < 65) : c.toUpper = d ↔ c = d := by
  rw [← Char.toNat_inj, ← Char.toNat_inj, toNat_toUpper]
  split <;> omega

theorem mem_upperCase_iff (h : d.toNat < 65) : d ∈ upperCase t ↔ d ∈ t := by
  simp only [upperCase, List.mem_map, toUpper_eq_iff_of_lt h, exists_eq_right]

theorem upperCase_eq_singleton_iff (h : d.toNat < 65) : upperCase t = [d] ↔ t = [d] := by
  simp only [upperCase, List.map_eq_singleton_iff, toUpper_eq_iff_of_lt h, exists_eq_right]

@[simp] theorem upperCase_upperCase (t : Text) : upperCase (upperCase t) = upperCase t := by
  simp only [upperCase, List.map_map, Function.comp_def, Char.toUpper_toUpper_eq_toUpper]

@[simp]
theorem sameLetters_upperCase (s t : Text) : sameLetters s (upperCase t) = sameLetters s t := by
  simp [sameLetters]

@[simp] theorem dropWhile_upperCase (t : Text) :
    (upperCase t).dropWhile isBlank = upperCase (t.dropWhile isBlank) := by
  have hblank : isBlank ∘ Char.toUpper = isBlank := funext isBlank_toUpper
  rw [upperCase, List.dropWhile_map, hblank, upperCase]

@[simp] theorem trim_upperCase (t : Text) : trim (upperCase t) = upperCase (trim t) := by
  have hreverse : ∀ s : Text, (upperCase s).reverse = upperCase s.reverse :=
    fun _ => List.map_reverse.symm
  simp [trim, trimStart, trimEnd, hreverse]

@[simp] theorem cut?_upperCase (t : Text) : cut? isBlank (upperCase t) =
    (cut? isBlank t).map fun parts => (upperCase parts.1, upperCase parts.2) := by
  induction t with
  | nil => rfl
  | cons c t ih =>
      by_cases hc : isBlank c = true
      · simp [cut?, hc, upperCase]
      · simp [cut?, hc, ih, Function.comp_def]

@[simp] theorem splitOn_upperCase (t : Text) :
    List.splitOn ',' (upperCase t) = (List.splitOn ',' t).map upperCase := by
  have hcomma : ∀ part, ',' ∉ part → ',' ∉ upperCase part :=
    fun _ => (mem_upperCase_iff (by decide)).not.mpr
  induction t using parts_induction ',' with
  | whole part hpart =>
      rw [List.splitOn_eq_singleton hpart, List.splitOn_eq_singleton (hcomma part hpart),
        List.map_singleton]
  | cons part rest hpart ih =>
      have hsplit : upperCase (part ++ ',' :: rest) = upperCase part ++ ',' :: upperCase rest := by
        simp [show ','.toUpper = ',' from rfl]
      rw [hsplit, List.splitOn_append_cons_self_of_not_mem hpart,
        List.splitOn_append_cons_self_of_not_mem (hcomma part hpart), ih, List.map_cons]

end Text

namespace Instruction

def upperCase (i : Instruction) : Instruction :=
  ⟨Text.upperCase i.mnemonic, i.operands.map Text.upperCase⟩

@[simp] theorem operandsOf_upperCase (t : Text) :
    operandsOf (Text.upperCase t) = (operandsOf t).map Text.upperCase := by
  by_cases ht : t.isEmpty = true
  · simp [operandsOf, ht]
  · simp [operandsOf, ht, Function.comp_def]

@[simp] theorem ofLine?_upperCase (line : Text) :
    ofLine? (Text.upperCase line) = (ofLine? line).map upperCase := by
  rw [ofLine?, ofLine?, Text.trim_upperCase, Text.cut?_upperCase]
  cases Text.cut? Text.isBlank (Text.trim line) with
  | none =>
      have hnil : operandsOf (Text.trim []) = [] := rfl
      cases h : (Text.trim line).isEmpty <;> simp [h, hnil, upperCase]
  | some parts => cases h : parts.1.isEmpty <;> simp [h, upperCase]

end Instruction

namespace Digit

theorem ofChar?_eq_some_iff {c : Char} {d : Digit} : ofChar? c = some d ↔ c = d.char := by
  constructor
  · exact eq_char_of_ofChar?
  · rintro rfl
    exact d.ofChar?_char

theorem toNat_char_lt (d : Digit) : d.char.toNat < 65 := by decide +revert

@[simp] theorem ofChar?_toUpper (c : Char) : ofChar? c.toUpper = ofChar? c := by
  apply Option.ext
  intro d
  rw [ofChar?_eq_some_iff, ofChar?_eq_some_iff, Text.toUpper_eq_iff_of_lt d.toNat_char_lt]

end Digit

namespace Literal

@[simp] theorem extend_upperCase (sign value : Int) (t : Text) :
    extend sign value (Text.upperCase t) = extend sign value t := by
  induction t generalizing value with
  | nil => rfl
  | cons c t ih => simp [extend, ih]

@[simp] theorem digits?_upperCase (sign : Int) (t : Text) :
    digits? sign (Text.upperCase t) = digits? sign t := by
  cases t with
  | nil => rfl
  | cons c t => exact extend_upperCase sign 0 (c :: t)

theorem read?_of_unsigned {c : Char} (hminus : c ≠ '-') (hplus : c ≠ '+') (t : Text) :
    read? (c :: t) = digits? 1 (c :: t) := by
  rw [read?]
  · simpa using hminus
  · simpa using hplus

@[simp] theorem read?_upperCase (t : Text) : read? (Text.upperCase t) = read? t := by
  cases t with
  | nil => rfl
  | cons c t =>
      rcases eq_or_ne c '-' with rfl | hminus
      · exact digits?_upperCase (-1) t
      · rcases eq_or_ne c '+' with rfl | hplus
        · exact digits?_upperCase 1 t
        · rw [Text.upperCase_cons, read?_of_unsigned hminus hplus,
            read?_of_unsigned ((Text.toUpper_eq_iff_of_lt (by decide)).not.mpr hminus)
              ((Text.toUpper_eq_iff_of_lt (by decide)).not.mpr hplus)]
          exact digits?_upperCase 1 (c :: t)

end Literal

@[simp] theorem Mnemonic.ofToken?_upperCase (token : Text) :
    ofToken? (Text.upperCase token) = ofToken? token := by
  simp [ofToken?]

namespace Error

-- Only a token that an error quotes keeps the letters of the line.
def upperCase : Error → Error
  | unknownRegister token => unknownRegister (Text.upperCase token)
  | unknownMnemonic token => unknownMnemonic (Text.upperCase token)
  | invalidLiteral m field token => invalidLiteral m field (Text.upperCase token)
  | e => e

end Error

@[simp] theorem Table.resolve_upperCase (t : Table) (token : Text) :
    t.resolve (Text.upperCase token) = (t.resolve token).mapError Error.upperCase := by
  have hcode : ∀ name, t.registerCode? (Text.upperCase name) = t.registerCode? name := by
    intro name
    simp [registerCode?]
  rw [resolve, resolve, Text.trim_upperCase, hcode]
  cases t.registerCode? (Text.trim token) with
  | some code => rfl
  | none =>
      simp only [Text.upperCase_eq_singleton_iff (d := '0') (by decide)]
      split <;> rfl

namespace Machine

variable (M : Machine)

@[simp] theorem fieldValue_upperCase (m : Mnemonic) (f : Field) (token : Text) :
    M.fieldValue m f (Text.upperCase token) =
      (M.fieldValue m f token).mapError Error.upperCase := by
  rw [fieldValue, fieldValue]
  cases f.max? M.table with
  | none =>
      rw [Table.resolve_upperCase]
      cases M.table.resolve token <;> rfl
  | some max =>
      simp only [Text.trim_upperCase, Literal.read?_upperCase]
      cases Literal.read? (Text.trim token) with
      | none => rfl
      | some value =>
          dsimp only
          split <;> rfl

@[simp] theorem encode_upperCase (m : Mnemonic) (operands : List Text) :
    M.encode m (operands.map Text.upperCase) =
      (M.encode m operands).mapError Error.upperCase := by
  rcases eq_or_ne operands.length m.arity with h | h
  · rw [encode_of_length h, encode_of_length (by simpa using h),
      M.pack_map_tokens m (M.fieldValue_upperCase m)]
    cases M.pack m (m.layout.zip operands) 0 <;> rfl
  · rw [encode_of_length_ne h, encode_of_length_ne (by simpa using h), List.length_map]
    rfl

@[simp] theorem encodeInstruction_upperCase (i : Instruction) :
    M.encodeInstruction i.upperCase = (M.encodeInstruction i).mapError Error.upperCase := by
  simp only [encodeInstruction, encodeTokens, Instruction.upperCase, Mnemonic.parse,
    Mnemonic.ofToken?_upperCase, Text.trim_upperCase]
  cases Mnemonic.ofToken? i.mnemonic with
  | none => rfl
  | some m => exact M.encode_upperCase m i.operands

@[simp] theorem encodeLine_upperCase (line : Text) :
    M.encodeLine (Text.upperCase line) = (M.encodeLine line).mapError Error.upperCase := by
  rw [encodeLine, encodeLine, Instruction.ofLine?_upperCase]
  cases Instruction.ofLine? line with
  | none => rfl
  | some i => exact M.encodeInstruction_upperCase i

theorem encodeLine_ignores_letter_case (line : Text) :
    (∀ w, M.encodeLine (Text.upperCase line) = .ok w ↔ M.encodeLine line = .ok w) ∧
    ∀ e, M.encodeLine (Text.upperCase line) = .error e ↔
      ∃ e', M.encodeLine line = .error e' ∧ e = e'.upperCase := by
  refine ⟨fun w => by simp, fun e => ?_⟩
  rw [encodeLine_upperCase, mapError_eq_error_iff]
  simp only [eq_comm (a := e)]

end Machine

end Assembler
