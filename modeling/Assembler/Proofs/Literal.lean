import Mathlib
import Assembler.Literal
import Assembler.Proofs.Text

namespace Assembler

namespace Digit

def numberFrom (n : Nat) : List Digit → Nat
  | [] => n
  | d :: ds => numberFrom (n * 10 + d.val) ds

def number (ds : List Digit) : Nat := numberFrom 0 ds

theorem le_numberFrom (n : Nat) (ds : List Digit) : n ≤ numberFrom n ds := by
  induction ds generalizing n with
  | nil => exact Nat.le_refl n
  | cons d ds ih =>
      have h := ih (n * 10 + d.val)
      rw [numberFrom]
      omega

@[simp] theorem numberFrom_append (n : Nat) (ds es : List Digit) :
    numberFrom n (ds ++ es) = numberFrom (numberFrom n ds) es := by
  induction ds generalizing n with
  | nil => rfl
  | cons d ds ih => exact ih (n * 10 + d.val)

theorem ofNat_eq_char : ∀ n < 58, 48 ≤ n → Char.ofNat n = char (Fin.ofNat 10 (n - 48)) := by
  decide

theorem eq_char_of_ofChar? {c : Char} {d : Digit} (h : ofChar? c = some d) : c = d.char := by
  by_cases hc : c.isDigit = true
  · have hrange := Text.toNat_of_isDigit hc
    have hchar := ofNat_eq_char c.toNat (by omega) hrange.1
    rw [Char.ofNat_toNat] at hchar
    rw [ofChar?, if_pos hc, Option.some.injEq] at h
    exact hchar.trans (congrArg char h)
  · simp [ofChar?, hc] at h

theorem char_injective : Function.Injective char := by
  intro d e h
  exact Option.some.inj ((ofChar?_char d).symm.trans (h ▸ ofChar?_char e))

@[simp] theorem isBlank_char (d : Digit) : Text.isBlank d.char = false := by decide +revert

theorem char_ne_sign (d : Digit) : d.char ≠ '-' ∧ d.char ≠ '+' := by decide +revert

theorem decimal_of_lt {n : Nat} (h : n < 10) : Text.decimal n = [char ⟨n, h⟩] := by
  rw [Text.decimal, Nat.toDigits_eq_if (by decide), if_pos h]
  rfl

theorem decimal_of_ge {n : Nat} (h : 10 ≤ n) :
    Text.decimal n = Text.decimal (n / 10) ++ [char ⟨n % 10, Nat.mod_lt n (by decide)⟩] := by
  rw [Text.decimal, Nat.toDigits_eq_if (by decide), if_neg (by omega)]
  rfl

theorem exists_digits (n : Nat) :
    ∃ ds : List Digit, ds ≠ [] ∧ Text.decimal n = ds.map char ∧ number ds = n := by
  induction n using Nat.strongRecOn with
  | ind n ih =>
      by_cases hn : n < 10
      · exact ⟨[⟨n, hn⟩], by simp, decimal_of_lt hn, by simp [number, numberFrom]⟩
      · obtain ⟨ds, -, htext, hnum⟩ := ih (n / 10) (by omega)
        refine ⟨ds ++ [⟨n % 10, Nat.mod_lt n (by decide)⟩], by simp, ?_, ?_⟩
        · rw [decimal_of_ge (by omega), htext, List.map_append]
          rfl
        · rw [number] at hnum ⊢
          rw [numberFrom_append, hnum]
          simp only [numberFrom]
          omega

end Digit

namespace Literal

inductive Numeral : Text → Int → Prop
  | unsigned {ds : List Digit} (h : ds ≠ []) : Numeral (ds.map Digit.char) (Digit.number ds)
  | plus {ds : List Digit} (h : ds ≠ []) : Numeral ('+' :: ds.map Digit.char) (Digit.number ds)
  | minus {ds : List Digit} (h : ds ≠ []) : Numeral ('-' :: ds.map Digit.char) (-Digit.number ds)

theorem numeral_decimal (n : Nat) : Numeral (Text.decimal n) n := by
  obtain ⟨ds, hne, htext, hnum⟩ := Digit.exists_digits n
  rw [htext, ← hnum]
  exact .unsigned hne

@[simp] theorem trim_decimal (n : Nat) : Text.trim (Text.decimal n) = Text.decimal n := by
  obtain ⟨ds, -, htext, -⟩ := Digit.exists_digits n
  apply Text.trim_eq_self
  intro c hc
  rw [htext] at hc
  obtain ⟨d, -, rfl⟩ := List.mem_map.mp hc
  exact d.isBlank_char

def clamp (v : Int) : Int := max least (min v greatest)

theorem clamp_eq_self {v : Int} (hlow : least ≤ v) (hhigh : v ≤ greatest) : clamp v = v := by
  simp only [clamp]
  omega

theorem clamp_of_greatest_lt {v : Int} (h : greatest < v) : clamp v = greatest := by
  simp only [clamp, least, greatest] at h ⊢
  omega

theorem clamp_of_lt_least {v : Int} (h : v < least) : clamp v = least := by
  simp only [clamp, least, greatest] at h ⊢
  omega

theorem clamp_outside {bound : Nat} (hbound : (bound : Int) < greatest) {v : Int}
    (h : ¬(0 ≤ v ∧ v ≤ bound)) : clamp v < 0 ∨ bound < clamp v := by
  simp only [clamp, least, greatest] at hbound ⊢
  omega

theorem next_eq {sign : Int} (hsign : sign = 1 ∨ sign = -1) (n : Nat) (d : Digit) :
    sign * n * 10 + sign * d.val = sign * ((n * 10 + d.val : Nat) : Int) := by
  rcases hsign with rfl | rfl <;> push_cast <;> omega

def Overlong (v : Int) : Prop := v < least ∨ greatest < v

theorem clamp_of_overlong {v : Int} (h : Overlong v) : clamp v = least ∨ clamp v = greatest := by
  rcases h with h | h
  · exact .inl (clamp_of_lt_least h)
  · exact .inr (clamp_of_greatest_lt h)

section Scan

variable {sign : Int} {n : Nat} {t : Text} {v : Int}

-- Both signs at once: the number read so far is `sign * n`, and later digits move it away from 0.
def Extends (sign : Int) (n : Nat) (t : Text) (v : Int) : Prop :=
  ∃ ds rest, t = ds.map Digit.char ++ rest ∧
    (rest = [] ∨ Overlong (sign * Digit.numberFrom n ds)) ∧
      v = clamp (sign * Digit.numberFrom n ds)

theorem extends_nil (hlow : least ≤ sign * n) (hhigh : sign * n ≤ greatest) :
    Extends sign n [] v ↔ v = sign * n := by
  constructor
  · rintro ⟨ds, rest, ht, -, rfl⟩
    obtain ⟨hds, -⟩ := List.append_eq_nil_iff.mp ht.symm
    rw [List.map_eq_nil_iff.mp hds, Digit.numberFrom, clamp_eq_self hlow hhigh]
  · rintro rfl
    exact ⟨[], [], rfl, .inl rfl, (clamp_eq_self hlow hhigh).symm⟩

theorem extends_cons (hlow : least ≤ sign * n) (hhigh : sign * n ≤ greatest) {c : Char} :
    Extends sign n (c :: t) v ↔
      ∃ d, Digit.ofChar? c = some d ∧ Extends sign (n * 10 + d.val) t v := by
  constructor
  · rintro ⟨ds, rest, ht, hend, rfl⟩
    cases ds with
    | nil =>
        rcases hend with rfl | hover
        · simp at ht
        · rw [Digit.numberFrom, Overlong] at hover
          omega
    | cons d ds =>
        obtain ⟨rfl, rfl⟩ := List.cons.inj ht
        exact ⟨d, d.ofChar?_char, ds, rest, rfl, hend, rfl⟩
  · rintro ⟨d, hc, ds, rest, rfl, hend, rfl⟩
    rw [Digit.eq_char_of_ofChar? hc]
    exact ⟨d :: ds, rest, rfl, hend, rfl⟩

theorem extends_of_greatest_lt (hsign : sign = 1 ∨ sign = -1) (h : greatest < sign * n) :
    Extends sign n t v ↔ v = greatest := by
  constructor
  · rintro ⟨ds, rest, -, -, rfl⟩
    have hgrow := Digit.le_numberFrom n ds
    apply clamp_of_greatest_lt
    rcases hsign with rfl | rfl
    · omega
    · simp only [greatest] at h
      omega
  · rintro rfl
    exact ⟨[], t, rfl, .inr (.inr h), (clamp_of_greatest_lt h).symm⟩

theorem extends_of_lt_least (hsign : sign = 1 ∨ sign = -1) (h : sign * n < least) :
    Extends sign n t v ↔ v = least := by
  constructor
  · rintro ⟨ds, rest, -, -, rfl⟩
    have hgrow := Digit.le_numberFrom n ds
    apply clamp_of_lt_least
    rcases hsign with rfl | rfl
    · simp only [least] at h
      omega
    · omega
  · rintro rfl
    exact ⟨[], t, rfl, .inr (.inl h), (clamp_of_lt_least h).symm⟩

theorem extend_eq_some_iff (hsign : sign = 1 ∨ sign = -1) (hlow : least ≤ sign * n)
    (hhigh : sign * n ≤ greatest) : extend sign (sign * n) t = some v ↔ Extends sign n t v := by
  induction t generalizing n with
  | nil => rw [extend, extends_nil hlow hhigh, Option.some.injEq, eq_comm]
  | cons c t ih =>
      rw [extend, extends_cons hlow hhigh]
      cases hc : Digit.ofChar? c with
      | none => simp
      | some d =>
          simp only [next_eq hsign, Option.some.injEq, exists_eq_left']
          split
          · rename_i hover
            rw [extends_of_greatest_lt hsign hover, Option.some.injEq, eq_comm]
          · split
            · rename_i hunder
              rw [extends_of_lt_least hsign hunder, Option.some.injEq, eq_comm]
            · rename_i hhigh' hlow'
              exact ih (by omega) (by omega)

theorem digits?_eq_some_iff (hsign : sign = 1 ∨ sign = -1) : digits? sign t = some v ↔
    ∃ ds rest, ds ≠ [] ∧ t = ds.map Digit.char ++ rest ∧
      (rest = [] ∨ Overlong (sign * Digit.number ds)) ∧ v = clamp (sign * Digit.number ds) := by
  cases t with
  | nil => simp +contextual [digits?]
  | cons c t =>
      have hzero : sign * (0 : Nat) = 0 := by simp
      have hlow : least ≤ sign * (0 : Nat) := by simp [least]
      have hhigh : sign * (0 : Nat) ≤ greatest := by simp [greatest]
      have hscan := extend_eq_some_iff (t := c :: t) (v := v) hsign hlow hhigh
      rw [hzero] at hscan
      rw [digits?, hscan, Extends]
      · constructor
        · rintro ⟨ds, rest, ht, hend, rfl⟩
          refine ⟨ds, rest, ?_, ht, hend, rfl⟩
          rintro rfl
          rcases hend with rfl | hover
          · simp at ht
          · rw [Digit.numberFrom, Overlong] at hover
            omega
        · rintro ⟨ds, rest, -, ht, hend, rfl⟩
          exact ⟨ds, rest, ht, hend, rfl⟩
      · simp

end Scan

theorem map_char_injective {ds es : List Digit} (h : ds.map Digit.char = es.map Digit.char) :
    ds = es :=
  (List.map_inj_right fun _ _ hc => Digit.char_injective hc).mp h

theorem map_char_append_ne_cons {ds : List Digit} (hne : ds ≠ []) {c : Char}
    (hc : c = '-' ∨ c = '+') (rest t : Text) : ds.map Digit.char ++ rest ≠ c :: t := by
  intro h
  obtain ⟨d, ds, rfl⟩ := List.exists_cons_of_ne_nil hne
  obtain ⟨rfl, -⟩ := List.cons.inj h
  rcases hc with hc | hc
  · exact d.char_ne_sign.1 hc
  · exact d.char_ne_sign.2 hc

theorem map_char_ne_cons {ds : List Digit} {c : Char} (hc : c = '-' ∨ c = '+') (t : Text) :
    ds.map Digit.char ≠ c :: t := by
  cases ds with
  | nil => simp
  | cons d ds => simpa using map_char_append_ne_cons (List.cons_ne_nil d ds) hc [] t

theorem numeral_iff {t : Text} {v : Int} : Numeral t v ↔ ∃ ds : List Digit, ds ≠ [] ∧
    (t = ds.map Digit.char ∧ v = Digit.number ds ∨ t = '+' :: ds.map Digit.char ∧ v = Digit.number ds ∨
      t = '-' :: ds.map Digit.char ∧ v = -Digit.number ds) := by
  constructor
  · rintro (⟨h⟩ | ⟨h⟩ | ⟨h⟩)
    · exact ⟨_, h, .inl ⟨rfl, rfl⟩⟩
    · exact ⟨_, h, .inr (.inl ⟨rfl, rfl⟩)⟩
    · exact ⟨_, h, .inr (.inr ⟨rfl, rfl⟩)⟩
  · rintro ⟨ds, h, ⟨rfl, rfl⟩ | ⟨rfl, rfl⟩ | ⟨rfl, rfl⟩⟩
    · exact .unsigned h
    · exact .plus h
    · exact .minus h

theorem numeral_unique {t : Text} {v v' : Int} (h : Numeral t v) (h' : Numeral t v') : v = v' := by
  obtain ⟨ds, -, hd⟩ := numeral_iff.mp h
  obtain ⟨es, -, he⟩ := numeral_iff.mp h'
  rcases hd with ⟨rfl, rfl⟩ | ⟨rfl, rfl⟩ | ⟨rfl, rfl⟩
  · rcases he with ⟨ht, rfl⟩ | ⟨ht, -⟩ | ⟨ht, -⟩
    · rw [map_char_injective ht]
    · exact absurd ht (map_char_ne_cons (.inr rfl) _)
    · exact absurd ht (map_char_ne_cons (.inl rfl) _)
  · rcases he with ⟨ht, -⟩ | ⟨ht, rfl⟩ | ⟨ht, -⟩
    · exact absurd ht.symm (map_char_ne_cons (.inr rfl) _)
    · rw [map_char_injective (List.tail_eq_of_cons_eq ht)]
    · exact absurd (List.head_eq_of_cons_eq ht) (by decide)
  · rcases he with ⟨ht, -⟩ | ⟨ht, -⟩ | ⟨ht, rfl⟩
    · exact absurd ht.symm (map_char_ne_cons (.inl rfl) _)
    · exact absurd (List.head_eq_of_cons_eq ht) (by decide)
    · rw [map_char_injective (List.tail_eq_of_cons_eq ht)]

section Reading

variable {t : Text} {v : Int}

-- A numeral that leaves the range decides the value by itself, whatever stands after it.
def Reading (t : Text) (v : Int) : Prop :=
  ∃ head rest n, t = head ++ rest ∧ Numeral head n ∧ (rest = [] ∨ Overlong n) ∧ v = clamp n

theorem reading_minus : Reading ('-' :: t) v ↔ digits? (-1) t = some v := by
  simp only [digits?_eq_some_iff (.inr rfl), Int.neg_one_mul]
  constructor
  · rintro ⟨head, rest, n, ht, hn, hend, rfl⟩
    cases hn with
    | unsigned hne => exact absurd ht.symm (map_char_append_ne_cons hne (.inl rfl) _ _)
    | plus => exact absurd (List.head_eq_of_cons_eq ht) (by decide)
    | minus hne => exact ⟨_, rest, hne, List.tail_eq_of_cons_eq ht, hend, rfl⟩
  · rintro ⟨ds, rest, hne, rfl, hend, rfl⟩
    exact ⟨_, rest, _, rfl, .minus hne, hend, rfl⟩

theorem reading_plus : Reading ('+' :: t) v ↔ digits? 1 t = some v := by
  simp only [digits?_eq_some_iff (.inl rfl), Int.one_mul]
  constructor
  · rintro ⟨head, rest, n, ht, hn, hend, rfl⟩
    cases hn with
    | unsigned hne => exact absurd ht.symm (map_char_append_ne_cons hne (.inr rfl) _ _)
    | plus hne => exact ⟨_, rest, hne, List.tail_eq_of_cons_eq ht, hend, rfl⟩
    | minus => exact absurd (List.head_eq_of_cons_eq ht) (by decide)
  · rintro ⟨ds, rest, hne, rfl, hend, rfl⟩
    exact ⟨_, rest, _, rfl, .plus hne, hend, rfl⟩

theorem reading_unsigned (hminus : ∀ u, t ≠ '-' :: u) (hplus : ∀ u, t ≠ '+' :: u) :
    Reading t v ↔ digits? 1 t = some v := by
  simp only [digits?_eq_some_iff (.inl rfl), Int.one_mul]
  constructor
  · rintro ⟨head, rest, n, ht, hn, hend, rfl⟩
    cases hn with
    | unsigned hne => exact ⟨_, rest, hne, ht, hend, rfl⟩
    | plus => exact absurd ht (hplus _)
    | minus => exact absurd ht (hminus _)
  · rintro ⟨ds, rest, hne, rfl, hend, rfl⟩
    exact ⟨_, rest, _, rfl, .unsigned hne, hend, rfl⟩

theorem read?_eq_some_iff : read? t = some v ↔ Reading t v := by
  unfold read?
  split
  · exact reading_minus.symm
  · exact reading_plus.symm
  · rename_i hminus hplus
    exact (reading_unsigned hminus hplus).symm

theorem Reading.unique {v' : Int} (h : Reading t v) (h' : Reading t v') : v = v' := by
  rw [← read?_eq_some_iff] at h h'
  exact Option.some.inj (h.symm.trans h')

theorem Numeral.reading (h : Numeral t v) : Reading t (clamp v) :=
  ⟨t, [], v, by simp, h, .inl rfl, rfl⟩

theorem numeral_of_read? (h : read? t = some v) (hleast : v ≠ least) (hgreatest : v ≠ greatest) :
    Numeral t v := by
  obtain ⟨head, rest, n, rfl, hn, hend, rfl⟩ := read?_eq_some_iff.mp h
  have hfits : ¬Overlong n := by
    intro hover
    rcases clamp_of_overlong hover with heq | heq
    · exact hleast heq
    · exact hgreatest heq
  obtain rfl : rest = [] := hend.resolve_right hfits
  rw [Overlong] at hfits
  rw [List.append_nil, clamp_eq_self (by omega) (by omega)]
  exact hn

theorem read?_eq_natCast_iff {n : Nat} (hn : (n : Int) < greatest) :
    read? t = some (n : Int) ↔ Numeral t n := by
  constructor
  · intro h
    apply numeral_of_read? h
    · simp only [least]
      omega
    · omega
  · intro h
    rw [read?_eq_some_iff.mpr h.reading, clamp_eq_self (by simp only [least]; omega) (by omega)]

end Reading

end Literal

end Assembler
