import Assembler.Proofs.Encoding
import Assembler.Proofs.Result

namespace Assembler

namespace Mnemonic

variable {m m' : Mnemonic} {token : Text}

theorem name_injective : Function.Injective name := by
  intro m m' h
  have hm := ofName?_name m
  rw [h, ofName?_name] at hm
  exact (Option.some.inj hm).symm

@[simp] theorem upperCase_name (m : Mnemonic) : Text.upperCase m.name = m.name := by
  cases m <;> rfl

theorem eq_of_equalUpToCase (h : Text.EqualUpToCase m.name token)
    (h' : Text.EqualUpToCase m'.name token) : m = m' := by
  rw [← Text.upperCase_eq_iff, upperCase_name] at h h'
  exact name_injective (h.trans h'.symm)

theorem equalUpToCase_of_ofToken? (h : ofToken? token = some m) :
    Text.EqualUpToCase m.name (Text.trim token) := by
  rw [ofToken?] at h
  have hsame := List.find?_some h
  exact Text.upperCase_eq_iff.mp (Text.sameLetters_iff.mp hsame)

theorem ofToken?_eq_some_iff :
    ofToken? token = some m ↔ Text.EqualUpToCase m.name (Text.trim token) := by
  refine ⟨equalUpToCase_of_ofToken?, fun h => ?_⟩
  cases hfind : ofToken? token with
  | none =>
      have hsame := Text.sameLetters_iff.mpr (Text.upperCase_eq_iff.mpr h)
      rw [ofToken?] at hfind
      exact absurd hsame (List.find?_eq_none.mp hfind m m.mem_all)
  | some k => rw [eq_of_equalUpToCase (equalUpToCase_of_ofToken? hfind) h]

theorem ofToken?_eq_none_iff :
    ofToken? token = none ↔ ∀ m : Mnemonic, ¬Text.EqualUpToCase m.name (Text.trim token) := by
  simp only [Option.eq_none_iff_forall_ne_some, ne_eq, ofToken?_eq_some_iff]

end Mnemonic

namespace Field

inductive Legal (t : Table) (f : Field) (token : Text) : Prop
  | register {c : Nat} (hkind : f.kind = .register) (h : t.Named (Text.trim token) c) :
      Legal t f token
  | unused (hkind : f.kind = .register) (h : Text.trim token = ['0']) : Legal t f token
  | literal {max : Word} {v : Int} (hmax : f.max? t = some max)
      (h : Literal.Numeral (Text.trim token) v) (hlow : 0 ≤ v) (hhigh : v ≤ max.toNat) :
      Legal t f token

inductive Refuses (t : Table) (m : Mnemonic) (f : Field) (token : Text) : Error → Prop
  | register (hkind : f.kind = .register) (hname : ∀ c, ¬t.Named (Text.trim token) c)
      (hzero : Text.trim token ≠ ['0']) : Refuses t m f token (.unknownRegister (Text.trim token))
  | range {max : Word} {v : Int} (hmax : f.max? t = some max)
      (h : Literal.Reading (Text.trim token) v) (hout : v < 0 ∨ max.toNat < v) :
      Refuses t m f token (.outOfRange m f.name v max)
  | invalid {max : Word} (hmax : f.max? t = some max)
      (h : ∀ v, ¬Literal.Reading (Text.trim token) v) :
      Refuses t m f token (.invalidLiteral m f.name (Text.trim token))

variable {t : Table} {m : Mnemonic} {f : Field} {token : Text} {e : Error}

theorem max?_eq_none_iff : f.max? t = none ↔ f.kind = .register := by
  cases hk : f.kind <;> simp [max?, hk]

theorem refuses_of_register (hkind : f.kind = .register) : f.Refuses t m token e ↔
    (∀ c, ¬t.Named (Text.trim token) c) ∧ Text.trim token ≠ ['0'] ∧
      e = .unknownRegister (Text.trim token) := by
  have hmax : f.max? t = none := max?_eq_none_iff.mpr hkind
  constructor
  · intro h
    cases h with
    | register _ hname hzero => exact ⟨hname, hzero, rfl⟩
    | range h => simp [hmax] at h
    | invalid h => simp [hmax] at h
  · rintro ⟨hname, hzero, rfl⟩
    exact .register hkind hname hzero

theorem refuses_of_literal {max : Word} (hmax : f.max? t = some max) : f.Refuses t m token e ↔
    (∃ v, Literal.Reading (Text.trim token) v ∧ (v < 0 ∨ max.toNat < v) ∧
      e = .outOfRange m f.name v max) ∨
    (∀ v, ¬Literal.Reading (Text.trim token) v) ∧
      e = .invalidLiteral m f.name (Text.trim token) := by
  constructor
  · intro h
    cases h with
    | register hkind => simp [max?_eq_none_iff.mpr hkind] at hmax
    | range h hread hout =>
        obtain rfl := Option.some.inj (hmax.symm.trans h)
        exact .inl ⟨_, hread, hout, rfl⟩
    | invalid _ h => exact .inr ⟨h, rfl⟩
  · rintro (⟨v, hread, hout, rfl⟩ | ⟨h, rfl⟩)
    · exact .range hmax hread hout
    · exact .invalid hmax h

end Field

namespace Table

-- Operands are judged one by one from the left, each for its own field.
def LeftmostFault (t : Table) (m : Mnemonic) (operands : List Text) (e : Error) : Prop :=
  ∃ before f token after, m.layout.zip operands = before ++ (f, token) :: after ∧
    ¬f.Legal t token ∧ f.Refuses t m token e ∧ ∀ p ∈ before, p.1.Legal t p.2

theorem LeftmostFault.exists_refuses {t : Table} {m : Mnemonic} {operands : List Text} {e : Error}
    (h : t.LeftmostFault m operands e) : ∃ f token, Field.Refuses t m f token e := by
  obtain ⟨before, f, token, after, hsplit, hillegal, hrefuses, hbefore⟩ := h
  exact ⟨f, token, hrefuses⟩

end Table

namespace Machine

variable {M : Machine} {m : Mnemonic} {f : Field} {token mnemonic : Text} {operands : List Text}
  {e : Error}

theorem fieldValue_eq_error_iff :
    M.fieldValue m f token = .error e ↔ f.Refuses M.table m token e := by
  rw [fieldValue]
  cases hmax : f.max? M.table with
  | none =>
      rw [Field.refuses_of_register (Field.max?_eq_none_iff.mp hmax),
        ← M.valid.resolve_eq_error_iff]
      cases M.table.resolve token <;> simp [Except.map]
  | some max =>
      simp only [Field.refuses_of_literal hmax, ← Literal.read?_eq_some_iff]
      cases hread : Literal.read? (Text.trim token) with
      | none => simp [eq_comm]
      | some v =>
          dsimp only
          split
          · rename_i hout
            simp [hout, eq_comm]
          · rename_i hin
            simp [hin]

theorem exists_fieldValue_iff : (∃ w, M.fieldValue m f token = .ok w) ↔ f.Legal M.table token := by
  cases hmax : f.max? M.table with
  | none =>
      have hkind := Field.max?_eq_none_iff.mp hmax
      simp only [M.fieldValue_register m hmax]
      constructor
      · rintro ⟨_, r, hr, rfl⟩
        cases r with
        | register c => exact .register hkind (M.valid.resolve_register.mp hr)
        | unused => exact .unused hkind (M.valid.resolve_unused.mp hr)
      · intro h
        cases h with
        | register _ h => exact ⟨_, _, M.valid.resolve_register.mpr h, rfl⟩
        | unused _ h => exact ⟨_, _, M.valid.resolve_unused.mpr h, rfl⟩
        | literal h => simp [hmax] at h
  | some max =>
      simp only [M.fieldValue_literal m hmax]
      constructor
      · rintro ⟨_, v, hv, hle, rfl⟩
        exact .literal hmax hv (by omega) (by omega)
      · intro h
        cases h with
        | register hkind => simp [Field.max?_eq_none_iff.mpr hkind] at hmax
        | unused hkind => simp [Field.max?_eq_none_iff.mpr hkind] at hmax
        | @literal _ v h hnum hlow hhigh =>
            obtain rfl := Option.some.inj (hmax.symm.trans h)
            obtain ⟨n, rfl⟩ := Int.eq_ofNat_of_zero_le hlow
            exact ⟨_, n, hnum, by omega, rfl⟩

theorem pack_eq_error_iff {ps : List (Field × Text)} {area : Word} : M.pack m ps area = .error e ↔
    ps.mapM (fun p => M.fieldValue m p.1 p.2) = .error e := by
  induction ps generalizing area with
  | nil => simp [pack, pure, Except.pure]
  | cons p ps ih =>
      obtain ⟨f, token⟩ := p
      rw [pack, List.mapM_cons]
      cases M.fieldValue m f token with
      | error e' => simp [bind, Except.bind]
      | ok w =>
          simp only [ih]
          cases ps.mapM fun p => M.fieldValue m p.1 p.2 with
          | error e' => simp [bind, Except.bind]
          | ok ws => simp [bind, Except.bind, pure, Except.pure]

theorem encode_of_length (h : operands.length = m.arity) :
    M.encode m operands = (M.pack m (m.layout.zip operands) 0).map fun (area : Word) =>
      M.table.opcode m ||| (area <<< M.table.opcodeWidth.toNat) := by
  rw [encode, if_neg (by simpa using h), M.valid.get?_opcode m]

theorem encode_eq_error_iff (h : operands.length = m.arity) :
    M.encode m operands = .error e ↔ M.table.LeftmostFault m operands e := by
  rw [encode_of_length h, map_eq_error_iff, pack_eq_error_iff, mapM_eq_error_iff]
  constructor
  · rintro ⟨before, ⟨f, token⟩, after, hsplit, he, hbefore⟩
    refine ⟨before, f, token, after, hsplit, ?_, fieldValue_eq_error_iff.mp he,
      fun p hp => exists_fieldValue_iff.mp (hbefore p hp)⟩
    intro hlegal
    obtain ⟨w, hw⟩ := exists_fieldValue_iff.mpr hlegal
    rw [he] at hw
    cases hw
  · rintro ⟨before, f, token, after, hsplit, -, he, hbefore⟩
    exact ⟨before, (f, token), after, hsplit, fieldValue_eq_error_iff.mpr he,
      fun p hp => exists_fieldValue_iff.mpr (hbefore p hp)⟩

theorem exists_encode_iff (h : operands.length = m.arity) :
    (∃ w, M.encode m operands = .ok w) ↔ ∀ p ∈ m.layout.zip operands, p.1.Legal M.table p.2 := by
  have hpack : (∃ area, M.pack m (m.layout.zip operands) 0 = .ok area) ↔
      ∃ values, (m.layout.zip operands).mapM (fun p => M.fieldValue m p.1 p.2) = .ok values := by
    simp only [exists_ok_iff, ne_eq, pack_eq_error_iff]
  simp only [← exists_fieldValue_iff (m := m)]
  rw [← exists_mapM_eq_ok_iff, ← hpack, encode_of_length h]
  simp

theorem encode_of_length_ne (h : operands.length ≠ m.arity) :
    M.encode m operands = .error (.operandCount m m.arity operands.length) := if_pos h

theorem encode_ne_unknownMnemonic (M : Machine) (m : Mnemonic) (operands : List Text)
    (token : Text) : M.encode m operands ≠ .error (.unknownMnemonic token) := by
  rcases eq_or_ne operands.length m.arity with h | h
  · rw [ne_eq, encode_eq_error_iff h]
    intro hfault
    obtain ⟨f, token, hrefuses⟩ := hfault.exists_refuses
    cases hrefuses
  · simp [encode_of_length_ne h]

theorem encode_eq_operandCount_iff {m' : Mnemonic} {expected found : Nat} :
    M.encode m operands = .error (.operandCount m' expected found) ↔
      operands.length ≠ m.arity ∧ m' = m ∧ expected = m.arity ∧ found = operands.length := by
  rcases eq_or_ne operands.length m.arity with h | h
  · rw [encode_eq_error_iff h]
    simp only [h, ne_eq, not_true_eq_false, false_and, iff_false]
    intro hfault
    obtain ⟨f, token, hrefuses⟩ := hfault.exists_refuses
    cases hrefuses
  · simp [encode_of_length_ne h, h, eq_comm]

theorem encodeTokens_of_equalUpToCase (h : Text.EqualUpToCase m.name (Text.trim mnemonic)) :
    M.encodeTokens mnemonic operands = M.encode m operands := by
  simp only [encodeTokens, Mnemonic.parse, Mnemonic.ofToken?_eq_some_iff.mpr h]

theorem encodeTokens_eq_unknownMnemonic_iff :
    M.encodeTokens mnemonic operands = .error (.unknownMnemonic token) ↔
      (∀ m : Mnemonic, ¬Text.EqualUpToCase m.name (Text.trim mnemonic)) ∧
        token = Text.trim mnemonic := by
  rw [← Mnemonic.ofToken?_eq_none_iff, encodeTokens, Mnemonic.parse]
  cases Mnemonic.ofToken? mnemonic with
  | none => simp [eq_comm]
  | some m => simp [M.encode_ne_unknownMnemonic m operands token]

theorem encodeTokens_reports_leftmost_fault (M : Machine) (mnemonic : Text)
    (operands : List Text) :
    (∀ token, M.encodeTokens mnemonic operands = .error (.unknownMnemonic token) ↔
      (∀ m : Mnemonic, ¬Text.EqualUpToCase m.name (Text.trim mnemonic)) ∧
        token = Text.trim mnemonic) ∧
    (∀ m : Mnemonic, Text.EqualUpToCase m.name (Text.trim mnemonic) →
      (∀ m' expected found,
        M.encodeTokens mnemonic operands = .error (.operandCount m' expected found) ↔
          operands.length ≠ m.arity ∧ m' = m ∧ expected = m.arity ∧ found = operands.length) ∧
      (operands.length = m.arity →
        (∀ e, M.encodeTokens mnemonic operands = .error e ↔
          M.table.LeftmostFault m operands e) ∧
        ((∃ w, M.encodeTokens mnemonic operands = .ok w) ↔
          ∀ p ∈ m.layout.zip operands, p.1.Legal M.table p.2))) ∧
    ∀ m token, M.encode m operands ≠ .error (.unknownMnemonic token) := by
  refine ⟨fun token => encodeTokens_eq_unknownMnemonic_iff, ?_,
    fun m token => M.encode_ne_unknownMnemonic m operands token⟩
  intro m hm
  simp only [encodeTokens_of_equalUpToCase hm]
  exact ⟨fun m' expected found => encode_eq_operandCount_iff,
    fun h => ⟨fun e => encode_eq_error_iff h, exists_encode_iff h⟩⟩

theorem encodeTokens_reports_leftmost_fault_ldv :
    standard.fieldValue .ldv (.long 'V' .ldv) ['x'] = .error (.invalidLiteral .ldv ['V'] ['x']) ∧
      standard.encodeTokens " ldv".toList ["Z ".toList, ['x']] =
        .error (.unknownRegister ['Z']) := by
  have hname : Text.EqualUpToCase Mnemonic.ldv.name (Text.trim " ldv".toList) :=
    Text.upperCase_eq_iff.mp (by decide)
  have hfirst : standard.fieldValue .ldv .destination "Z ".toList =
      .error (.unknownRegister ['Z']) := by decide +kernel
  have hillegal : ¬Field.destination.Legal standard.table "Z ".toList := by
    rw [← exists_fieldValue_iff (m := .ldv), hfirst]
    simp
  obtain ⟨-, hmnemonic, -⟩ :=
    encodeTokens_reports_leftmost_fault standard " ldv".toList ["Z ".toList, ['x']]
  obtain ⟨hfault, -⟩ := (hmnemonic .ldv hname).2 rfl
  refine ⟨by decide +kernel, (hfault _).mpr ?_⟩
  exact ⟨[], .destination, "Z ".toList, [(.long 'V' .ldv, ['x'])], rfl, hillegal,
    fieldValue_eq_error_iff.mp hfirst, by simp⟩

theorem fieldValue_never_wraps (M : Machine) (m : Mnemonic) (f : Field) (max : Word)
    (hmax : f.max? M.table = some max) (token : Text) :
    (∀ v, Literal.Numeral (Text.trim token) v →
      ((∃ w, M.fieldValue m f token = .ok w ∧ (w.toNat : Int) = v) ↔ 0 ≤ v ∧ v ≤ max.toNat) ∧
      (¬(0 ≤ v ∧ v ≤ max.toNat) →
        M.fieldValue m f token = .error (.outOfRange m f.name (Literal.clamp v) max))) ∧
    ((∀ v, ¬Literal.Numeral (Text.trim token) v) → ∃ e, M.fieldValue m f token = .error e) := by
  have hword : max.toNat < 2 ^ 16 := max.isLt
  have hnat : ∀ n : Nat, n ≤ max.toNat → (BitVec.ofNat 16 n).toNat = n := by
    intro n hn
    rw [BitVec.toNat_ofNat, Nat.mod_eq_of_lt (by omega)]
  refine ⟨fun v hv => ⟨⟨?_, ?_⟩, ?_⟩, ?_⟩
  · rintro ⟨w, hw, rfl⟩
    obtain ⟨n, -, hle, rfl⟩ := (M.fieldValue_literal m hmax token w).mp hw
    rw [hnat n hle]
    omega
  · rintro ⟨hlow, hhigh⟩
    obtain ⟨n, rfl⟩ := Int.eq_ofNat_of_zero_le hlow
    have hle : n ≤ max.toNat := by omega
    refine ⟨_, (M.fieldValue_literal m hmax token _).mpr ⟨n, hv, hle, rfl⟩, ?_⟩
    rw [hnat n hle]
  · intro hout
    have hclamp := Literal.clamp_outside (by simp only [Literal.greatest]; omega) hout
    exact fieldValue_eq_error_iff.mpr (.range hmax hv.reading hclamp)
  · intro hnone
    cases hvalue : M.fieldValue m f token with
    | error e => exact ⟨e, rfl⟩
    | ok w =>
        obtain ⟨n, hn, -⟩ := (M.fieldValue_literal m hmax token w).mp hvalue
        exact absurd hn (hnone n)

-- 2 ^ 64 + 5: the low bits alone would be a legal 5.
theorem fieldValue_never_wraps_twentyDigits :
    Literal.Numeral (Text.trim " 18446744073709551621".toList) 18446744073709551621 ∧
      standard.fieldValue .ldv (.long 'V' .ldv) " 18446744073709551621".toList =
        .error (.outOfRange .ldv ['V'] 9223372036854775807 1023) := by
  have hv : Literal.Numeral (Text.trim " 18446744073709551621".toList) 18446744073709551621 :=
    Literal.numeral_decimal 18446744073709551621
  obtain ⟨hnumeral, -⟩ := fieldValue_never_wraps standard .ldv (.long 'V' .ldv) 1023 rfl
    " 18446744073709551621".toList
  exact ⟨hv, (hnumeral _ hv).2 (by decide)⟩

end Machine

end Assembler
