import Mathlib
import Assembler.Text.Blank

namespace Assembler.Text

theorem sameLetters_iff {s t : Text} : sameLetters s t = true ↔ upperCase s = upperCase t := by
  simp [sameLetters]

theorem isBlank_eq_false {c : Char} (hlow : 0x20 < c.toNat) (hhigh : c.toNat < 0x85) :
    isBlank c = false := by
  simp only [isBlank, Bool.or_eq_false_iff, Bool.and_eq_false_iff, decide_eq_false_iff_not,
    beq_eq_false_iff_ne]
  omega

theorem toNat_of_isAlpha {c : Char} (h : c.isAlpha = true) :
    (65 ≤ c.toNat ∧ c.toNat ≤ 90) ∨ (97 ≤ c.toNat ∧ c.toNat ≤ 122) := by
  simp only [Char.isAlpha, Char.isUpper, Char.isLower, Bool.or_eq_true, Bool.and_eq_true,
    decide_eq_true_eq] at h
  exact h

theorem toNat_of_isDigit {c : Char} (h : c.isDigit = true) : 48 ≤ c.toNat ∧ c.toNat ≤ 57 := by
  simp only [Char.isDigit, Bool.and_eq_true, decide_eq_true_eq] at h
  exact h

theorem isBlank_of_isAlphanum {c : Char} (h : c.isAlphanum = true) : isBlank c = false := by
  rcases Bool.or_eq_true_iff.mp h with ha | hd
  · have hc := toNat_of_isAlpha ha
    exact isBlank_eq_false (by omega) (by omega)
  · have hc := toNat_of_isDigit hd
    exact isBlank_eq_false (by omega) (by omega)

theorem toNat_toUpper (c : Char) :
    c.toUpper.toNat = if 97 ≤ c.toNat ∧ c.toNat ≤ 122 then c.toNat - 32 else c.toNat := by
  have hiff : ('a'.val ≤ c.val ∧ c.val ≤ 'z'.val) ↔ 97 ≤ c.toNat ∧ c.toNat ≤ 122 := Iff.rfl
  by_cases h : 97 ≤ c.toNat ∧ c.toNat ≤ 122
  · rw [if_pos h, Char.toUpper, dif_pos (hiff.mpr h)]
    change (c.val + 4294967264).toNat = c.toNat - 32
    rw [UInt32.toNat_add]
    change (c.toNat + 4294967264) % 4294967296 = c.toNat - 32
    omega
  · rw [if_neg h, Char.toUpper, dif_neg (mt hiff.mp h)]

theorem toNat_toLower (c : Char) :
    c.toLower.toNat = if 65 ≤ c.toNat ∧ c.toNat ≤ 90 then c.toNat + 32 else c.toNat := by
  have hiff : ('A'.val ≤ c.val ∧ c.val ≤ 'Z'.val) ↔ 65 ≤ c.toNat ∧ c.toNat ≤ 90 := Iff.rfl
  by_cases h : 65 ≤ c.toNat ∧ c.toNat ≤ 90
  · rw [if_pos h, Char.toLower, dif_pos (hiff.mpr h)]
    change (c.val + 32).toNat = c.toNat + 32
    rw [UInt32.toNat_add]
    change (c.toNat + 32) % 4294967296 = c.toNat + 32
    omega
  · rw [if_neg h, Char.toLower, dif_neg (mt hiff.mp h)]

theorem toUpper_eq_iff {c d : Char} : c.toUpper = d.toUpper ↔ c.toLower = d.toLower := by
  rw [← Char.toNat_inj, ← Char.toNat_inj, toNat_toUpper, toNat_toUpper, toNat_toLower,
    toNat_toLower]
  split_ifs <;> omega

def EqualUpToCase (s t : Text) : Prop := List.Forall₂ (fun c d => c.toLower = d.toLower) s t

theorem upperCase_eq_iff {s t : Text} : upperCase s = upperCase t ↔ EqualUpToCase s t := by
  simp only [EqualUpToCase, ← toUpper_eq_iff]
  rw [upperCase, upperCase, ← List.forall₂_eq_eq_eq, List.forall₂_map_left_iff,
    List.forall₂_map_right_iff]

@[simp] theorem isBlank_toUpper (c : Char) : isBlank c.toUpper = isBlank c := by
  have hn := toNat_toUpper c
  by_cases h : 97 ≤ c.toNat ∧ c.toNat ≤ 122
  · rw [if_pos h] at hn
    rw [isBlank_eq_false (c := c.toUpper) (by omega) (by omega),
      isBlank_eq_false (c := c) (by omega) (by omega)]
  · rw [if_neg h] at hn
    simp only [isBlank, hn]

theorem dropWhile_of_head? {t : Text} (h : ∀ c, t.head? = some c → isBlank c = false) :
    t.dropWhile isBlank = t := by
  cases t with
  | nil => rfl
  | cons c t => rw [List.dropWhile_cons, if_neg (by simp [h c rfl])]

theorem dropWhile_eq_self {t : Text} (h : ∀ c ∈ t, isBlank c = false) : t.dropWhile isBlank = t :=
  dropWhile_of_head? fun c hc => h c (List.mem_of_head? hc)

theorem trim_eq_self {t : Text} (h : ∀ c ∈ t, isBlank c = false) : trim t = t := by
  rw [trim, trimStart, trimEnd, dropWhile_eq_self h, dropWhile_eq_self (by simpa using h),
    List.reverse_reverse]

section Trim

variable {s t : Text} {c : Char}

theorem exists_trimEnd (t : Text) :
    ∃ tail : Text, (∀ c ∈ tail, isBlank c = true) ∧ t = trimEnd t ++ tail := by
  refine ⟨(t.reverse.takeWhile isBlank).reverse, ?_, ?_⟩
  · intro c hc
    exact List.mem_takeWhile_imp (List.mem_reverse.mp hc)
  · rw [trimEnd, ← List.reverse_append, List.takeWhile_append_dropWhile, List.reverse_reverse]

theorem exists_trim (t : Text) : ∃ lead tail : Text, (∀ c ∈ lead, isBlank c = true) ∧
    (∀ c ∈ tail, isBlank c = true) ∧ t = lead ++ trim t ++ tail := by
  obtain ⟨tail, htail, hstart⟩ := exists_trimEnd (trimStart t)
  refine ⟨t.takeWhile isBlank, tail, fun c hc => List.mem_takeWhile_imp hc, htail, ?_⟩
  rw [trim, List.append_assoc, ← hstart, trimStart, List.takeWhile_append_dropWhile]

theorem isBlank_or_mem_trim (hc : c ∈ t) : isBlank c = true ∨ c ∈ trim t := by
  obtain ⟨lead, tail, hlead, htail, ht⟩ := exists_trim t
  rw [ht, List.mem_append, List.mem_append] at hc
  rcases hc with (hc | hc) | hc
  · exact .inl (hlead c hc)
  · exact .inr hc
  · exact .inl (htail c hc)

theorem notMem_of_blank (hs : ∀ d ∈ s, isBlank d = true) (hc : isBlank c = false) : c ∉ s := by
  intro hmem
  rw [hs c hmem] at hc
  cases hc

theorem trim_blank_append (hs : ∀ c ∈ s, isBlank c = true) : trim (s ++ t) = trim t := by
  rw [trim, trimStart, List.dropWhile_append_of_pos hs]
  rfl

theorem trimEnd_append_blank (hs : ∀ c ∈ s, isBlank c = true) : trimEnd (t ++ s) = trimEnd t := by
  rw [trimEnd, List.reverse_append, List.dropWhile_append_of_pos (by simpa using hs)]
  rfl

theorem trim_append_blank (hs : ∀ c ∈ s, isBlank c = true) : trim (t ++ s) = trim t := by
  rw [trim, trim, trimStart, trimStart, List.dropWhile_append]
  split
  · rename_i hempty
    rw [List.dropWhile_eq_nil_iff.mpr hs, List.isEmpty_iff.mp hempty]
  · exact trimEnd_append_blank hs

@[simp] theorem trim_trim (t : Text) : trim (trim t) = trim t := by
  obtain ⟨lead, tail, hlead, htail, ht⟩ := exists_trim t
  have h : trim t = trim (lead ++ trim t ++ tail) := congrArg trim ht
  rw [trim_append_blank htail, trim_blank_append hlead] at h
  exact h.symm

theorem trim_eq_nil_iff : trim t = [] ↔ ∀ c ∈ t, isBlank c = true := by
  constructor
  · intro h c hc
    simpa [h] using isBlank_or_mem_trim hc
  · intro h
    have hnil : trim (t ++ []) = trim [] := trim_blank_append h
    rw [List.append_nil] at hnil
    exact hnil

theorem isBlank_of_trim_eq_cons {rest : Text} (h : trim t = c :: rest) :
    isBlank c = false := by
  obtain ⟨tail, -, hstart⟩ := exists_trimEnd (trimStart t)
  rw [← trim] at hstart
  have hhead := List.head?_dropWhile_not isBlank t
  rw [← trimStart, hstart, h, List.cons_append, List.head?_cons] at hhead
  simpa using hhead

theorem dropReturn_eq_or (t : Text) : dropReturn t = t ∨ t = dropReturn t ++ ['\r'] := by
  rw [dropReturn]
  split
  · rename_i hlast
    obtain ⟨u, rfl⟩ := List.getLast?_eq_some_iff.mp hlast
    right
    rw [List.dropLast_concat]
  · exact .inl rfl

@[simp] theorem trim_dropReturn (t : Text) : trim (dropReturn t) = trim t := by
  rcases dropReturn_eq_or t with h | h
  · rw [h]
  · have hblank : ∀ c ∈ ['\r'], isBlank c = true := List.forall_mem_singleton.mpr rfl
    have htrim : trim t = trim (dropReturn t ++ ['\r']) := congrArg trim h
    rw [htrim, trim_append_blank hblank]

theorem mem_of_mem_dropReturn (hc : c ∈ dropReturn t) : c ∈ t := by
  rcases dropReturn_eq_or t with h | h
  · rwa [h] at hc
  · rw [h]
    exact List.mem_append_left _ hc

end Trim

theorem upTo_append {c : Char} {t : Text} (h : c ∉ t) (rest : Text) :
    upTo c (t ++ c :: rest) = t := by
  have ht : ∀ d ∈ t, (d != c) = true := by
    intro d hd
    simpa using ne_of_mem_of_not_mem hd h
  rw [upTo, List.takeWhile_append_of_pos ht]
  simp

theorem upTo_of_notMem {c : Char} {t : Text} (h : c ∉ t) : upTo c t = t := by
  rw [upTo, List.takeWhile_eq_self_iff]
  intro d hd
  simpa using ne_of_mem_of_not_mem hd h

section Parts

variable {sep : Char} {part s : Text}

@[elab_as_elim]
theorem parts_induction (sep : Char) {P : Text → Prop} (t : Text)
    (whole : ∀ part, sep ∉ part → P part)
    (cons : ∀ part rest, sep ∉ part → P rest → P (part ++ sep :: rest)) : P t := by
  -- `part` is what has been passed since the last separator.
  have passed : ∀ part, sep ∉ part → P (part ++ t) := by
    induction t with
    | nil =>
        intro part hpart
        rw [List.append_nil]
        exact whole part hpart
    | cons c t ih =>
        intro part hpart
        rcases eq_or_ne c sep with rfl | hc
        · exact cons part t hpart (ih [] List.not_mem_nil)
        · rw [List.append_cons]
          exact ih (part ++ [c]) (by simp [hpart, hc.symm])
  exact passed [] List.not_mem_nil

theorem notMem_of_mem_splitOn {t : Text} (h : part ∈ List.splitOn sep t) : sep ∉ part := by
  induction t using parts_induction sep with
  | whole t ht =>
      rw [List.splitOn_eq_singleton ht, List.mem_singleton] at h
      rwa [h]
  | cons first rest hfirst ih =>
      rw [List.splitOn_append_cons_self_of_not_mem hfirst, List.mem_cons] at h
      rcases h with rfl | h
      · exact hfirst
      · exact ih h

theorem length_splitOn (sep : Char) (t : Text) :
    (List.splitOn sep t).length = t.count sep + 1 := by
  induction t using parts_induction sep with
  | whole part hpart =>
      rw [List.splitOn_eq_singleton hpart, List.count_eq_zero_of_not_mem hpart]
      rfl
  | cons part rest hpart ih =>
      rw [List.splitOn_append_cons_self_of_not_mem hpart, List.length_cons, ih, List.count_append,
        List.count_eq_zero_of_not_mem hpart, List.count_cons_self, Nat.zero_add]

theorem map_splitOn_append {β : Type} {f : Text → β} (hs : sep ∉ s)
    (hf : ∀ part, f (part ++ s) = f part) (t : Text) :
    (List.splitOn sep (t ++ s)).map f = (List.splitOn sep t).map f := by
  induction t using parts_induction sep with
  | whole part hpart =>
      have hboth : sep ∉ part ++ s := by simp [hpart, hs]
      rw [List.splitOn_eq_singleton hboth, List.splitOn_eq_singleton hpart, List.map_singleton,
        List.map_singleton, hf]
  | cons part rest hpart ih =>
      rw [List.append_assoc, List.cons_append, List.splitOn_append_cons_self_of_not_mem hpart,
        List.splitOn_append_cons_self_of_not_mem hpart, List.map_cons, List.map_cons, ih]

theorem map_splitOn_prepend {β : Type} {f : Text → β} (hs : sep ∉ s)
    (hf : ∀ part, f (s ++ part) = f part) (t : Text) :
    (List.splitOn sep (s ++ t)).map f = (List.splitOn sep t).map f := by
  induction t using parts_induction sep with
  | whole part hpart =>
      have hboth : sep ∉ s ++ part := by simp [hpart, hs]
      rw [List.splitOn_eq_singleton hboth, List.splitOn_eq_singleton hpart, List.map_singleton,
        List.map_singleton, hf]
  | cons part rest hpart _ =>
      have hboth : sep ∉ s ++ part := by simp [hpart, hs]
      rw [← List.append_assoc, List.splitOn_append_cons_self_of_not_mem hboth,
        List.splitOn_append_cons_self_of_not_mem hpart, List.map_cons, List.map_cons, hf]

end Parts

theorem forall_of_sameLetters {p : Char → Bool} (hp : ∀ c, p c.toUpper = p c) {s t : Text}
    {b : Bool} (h : sameLetters s t = true) (hs : ∀ c ∈ s, p c = b) : ∀ c ∈ t, p c = b := by
  intro c hc
  have hup : c.toUpper ∈ upperCase s := by
    rw [sameLetters_iff.mp h]
    exact List.mem_map_of_mem hc
  obtain ⟨d, hd, heq⟩ := List.mem_map.mp hup
  rw [← hp c, ← heq, hp d, hs d hd]

theorem noBlank_of_sameLetters {s t : Text} (h : sameLetters s t = true)
    (hs : ∀ c ∈ s, isBlank c = false) : ∀ c ∈ t, isBlank c = false :=
  forall_of_sameLetters isBlank_toUpper h hs

end Assembler.Text
