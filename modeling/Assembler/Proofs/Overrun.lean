import Assembler.Proofs.Refusal

namespace Assembler

namespace Literal

variable {t : Text} {v : Int}

-- The scan ends at the digit that oversteps the range: `rest` is never looked at.
def Overruns (t : Text) (n : Int) : Prop :=
  ∃ head rest, t = head ++ rest ∧ Numeral head n ∧ Overlong n

theorem reading_iff : Reading t v ↔ ∃ n, (Numeral t n ∨ Overruns t n) ∧ v = clamp n := by
  constructor
  · rintro ⟨head, rest, n, rfl, hn, rfl | hover, rfl⟩
    · exact ⟨n, .inl (by rwa [List.append_nil]), rfl⟩
    · exact ⟨n, .inr ⟨head, rest, rfl, hn, hover⟩, rfl⟩
  · rintro ⟨n, hn | ⟨head, rest, rfl, hn, hover⟩, rfl⟩
    · exact hn.reading
    · exact ⟨head, rest, n, rfl, hn, .inr hover, rfl⟩

theorem forall_not_reading_iff :
    (∀ v, ¬Reading t v) ↔ (∀ n, ¬Numeral t n) ∧ ∀ n, ¬Overruns t n := by
  rw [← forall_and]
  simp only [reading_iff, not_exists, not_and, ← not_or]
  constructor
  · intro h n hn
    exact h (clamp n) n hn rfl
  · intro h v n hn
    exact absurd hn (h n)

theorem Numeral.exists_last_digit {n : Int} (h : Numeral t n) :
    ∃ head d, t = head ++ [Digit.char d] := by
  have hdigits : ∀ ds : List Digit, ds ≠ [] →
      ∃ head d, ds.map Digit.char = head ++ [Digit.char d] := by
    intro ds hne
    refine ⟨ds.dropLast.map Digit.char, ds.getLast hne, ?_⟩
    rw [← List.map_singleton, ← List.map_append, List.dropLast_append_getLast]
  cases h with
  | unsigned hne => exact hdigits _ hne
  | plus hne =>
      obtain ⟨head, d, hhead⟩ := hdigits _ hne
      exact ⟨'+' :: head, d, congrArg ('+' :: ·) hhead⟩
  | minus hne =>
      obtain ⟨head, d, hhead⟩ := hdigits _ hne
      exact ⟨'-' :: head, d, congrArg ('-' :: ·) hhead⟩

theorem not_numeral_append {c : Char} (hc : ∀ d : Digit, d.char ≠ c) (head : Text) (n : Int) :
    ¬Numeral (head ++ [c]) n := by
  intro h
  obtain ⟨head', d, hlast⟩ := h.exists_last_digit
  obtain ⟨-, hchar⟩ := List.append_inj' hlast rfl
  exact hc d (List.head_eq_of_cons_eq hchar).symm

end Literal

namespace Machine

variable {M : Machine} {m : Mnemonic} {f : Field} {max : Word} {token : Text} {e : Error}

theorem fieldValue_eq_invalidLiteral_iff (hmax : f.max? M.table = some max) {m' : Mnemonic}
    {name text : Text} : M.fieldValue m f token = .error (.invalidLiteral m' name text) ↔
      (m' = m ∧ name = f.name ∧ text = Text.trim token) ∧
        (∀ n, ¬Literal.Numeral (Text.trim token) n) ∧
          ∀ n, ¬Literal.Overruns (Text.trim token) n := by
  rw [fieldValue_eq_error_iff, Field.refuses_of_literal hmax, Literal.forall_not_reading_iff]
  simp only [reduceCtorEq, and_false, exists_false, false_or, Error.invalidLiteral.injEq]
  exact and_comm

theorem fieldValue_eq_outOfRange_iff (hmax : f.max? M.table = some max) {m' : Mnemonic}
    {name : Text} {v : Int} {max' : Word} :
    M.fieldValue m f token = .error (.outOfRange m' name v max') ↔
      (m' = m ∧ name = f.name ∧ max' = max) ∧ (v < 0 ∨ max.toNat < v) ∧
        ∃ n, (Literal.Numeral (Text.trim token) n ∨ Literal.Overruns (Text.trim token) n) ∧
          v = Literal.clamp n := by
  rw [fieldValue_eq_error_iff, Field.refuses_of_literal hmax, ← Literal.reading_iff]
  simp only [reduceCtorEq, and_false, or_false, Error.outOfRange.injEq]
  constructor
  · rintro ⟨_, hread, hout, rfl, rfl, rfl, rfl⟩
    exact ⟨⟨rfl, rfl, rfl⟩, hout, hread⟩
  · rintro ⟨⟨rfl, rfl, rfl⟩, hout, hread⟩
    exact ⟨v, hread, hout, rfl, rfl, rfl, rfl⟩

theorem encode_eq_error_of_fieldValue {operands : List Text} (h : operands.length = m.arity)
    {before after : List (Field × Text)}
    (hsplit : m.layout.zip operands = before ++ (f, token) :: after)
    (hbefore : ∀ p ∈ before, p.1.Legal M.table p.2) (he : M.fieldValue m f token = .error e) :
    M.encode m operands = .error e := by
  have hillegal : ¬f.Legal M.table token := by
    rw [← exists_fieldValue_iff (m := m), he]
    simp
  exact (encode_eq_error_iff h).mpr
    ⟨before, f, token, after, hsplit, hillegal, fieldValue_eq_error_iff.mp he, hbefore⟩

theorem literal_diagnosis_stops_at_overrun (M : Machine) (m : Mnemonic) (f : Field) (max : Word)
    (hmax : f.max? M.table = some max) (token : Text) :
    (∀ m' name text, M.fieldValue m f token = .error (.invalidLiteral m' name text) ↔
      (m' = m ∧ name = f.name ∧ text = Text.trim token) ∧
        (∀ n, ¬Literal.Numeral (Text.trim token) n) ∧
          ∀ n, ¬Literal.Overruns (Text.trim token) n) ∧
    (∀ m' name v max', M.fieldValue m f token = .error (.outOfRange m' name v max') ↔
      (m' = m ∧ name = f.name ∧ max' = max) ∧ (v < 0 ∨ max.toNat < v) ∧
        ∃ n, (Literal.Numeral (Text.trim token) n ∨ Literal.Overruns (Text.trim token) n) ∧
          v = Literal.clamp n) ∧
    ∀ operands before after e, operands.length = m.arity →
      m.layout.zip operands = before ++ (f, token) :: after →
        (∀ p ∈ before, p.1.Legal M.table p.2) → M.fieldValue m f token = .error e →
          M.encode m operands = .error e :=
  ⟨fun _ _ _ => fieldValue_eq_invalidLiteral_iff hmax,
    fun _ _ _ _ => fieldValue_eq_outOfRange_iff hmax,
    fun _ _ _ _ h hsplit hbefore he => encode_eq_error_of_fieldValue h hsplit hbefore he⟩

def garbled : Text := "99999999999999999999x".toList

theorem literal_diagnosis_stops_at_overrun_garbled :
    Literal.Overruns (Text.trim garbled) 99999999999999999999 ∧
      standard.encode .ldv [['A'], garbled] =
        .error (.outOfRange .ldv ['V'] 9223372036854775807 1023) := by
  have hover : Literal.Overruns (Text.trim garbled) 99999999999999999999 :=
    ⟨Text.decimal 99999999999999999999, ['x'], by decide +kernel, Literal.numeral_decimal _,
      .inr (by decide)⟩
  have hlegal : Field.destination.Legal standard.table ['A'] :=
    .register rfl (Table.named_register (c := 0) rfl)
  obtain ⟨-, hrange, hencode⟩ := literal_diagnosis_stops_at_overrun standard .ldv
    (.long 'V' .ldv) 1023 rfl garbled
  have hvalue := (hrange .ldv ['V'] 9223372036854775807 1023).mpr
    ⟨⟨rfl, rfl, rfl⟩, by decide, _, .inr hover, by decide⟩
  exact ⟨hover, hencode _ [(.destination, ['A'])] [] _ rfl rfl (by simpa using hlegal) hvalue⟩

theorem garbled_reported_out_of_range :
    (¬∀ (M : Machine) (m : Mnemonic) (f : Field) (max : Word) (token : Text),
      f.max? M.table = some max →
        (M.fieldValue m f token = .error (.invalidLiteral m f.name (Text.trim token)) ↔
          ∀ n, ¬Literal.Numeral (Text.trim token) n)) ∧
    ¬∀ (M : Machine) (m : Mnemonic) (f : Field) (max : Word) (token : Text) (v : Int),
      f.max? M.table = some max → M.fieldValue m f token = .error (.outOfRange m f.name v max) →
        ∃ n, Literal.Numeral (Text.trim token) n := by
  have hnone : ∀ n, ¬Literal.Numeral (Text.trim garbled) n :=
    Literal.not_numeral_append (c := 'x') (by decide) (Text.decimal 99999999999999999999)
  have hrange : standard.fieldValue .ldv (.long 'V' .ldv) garbled =
      .error (.outOfRange .ldv ['V'] 9223372036854775807 1023) := by decide +kernel
  constructor
  · intro hall
    have hinvalid := (hall standard .ldv (.long 'V' .ldv) 1023 garbled rfl).mpr hnone
    rw [hrange] at hinvalid
    cases hinvalid
  · intro hall
    obtain ⟨n, hn⟩ := hall standard .ldv (.long 'V' .ldv) 1023 garbled _ rfl hrange
    exact hnone n hn

end Machine

end Assembler
