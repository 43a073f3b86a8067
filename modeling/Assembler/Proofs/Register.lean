import Assembler.Register
import Assembler.Proofs.Validity

namespace Assembler.Table

variable {t : Table} {name : Text} {c : Nat}

def Named (t : Table) (name : Text) (c : Nat) : Prop :=
  ∃ r, t.registers[c]? = some r ∧ Text.sameLetters r name = true

theorem Named.lt_length (h : t.Named name c) : c < t.registers.length := by
  obtain ⟨r, hr, -⟩ := h
  exact (List.getElem?_eq_some_iff.mp hr).1

theorem named_register {r : Text} (h : t.registerName? c = some r) : t.Named r c :=
  ⟨r, h, Text.sameLetters_iff.mpr rfl⟩

theorem registerCode?_eq_some_iff :
    t.registerCode? name = some c ↔ c < 256 ∧ t.Named name c ∧ ∀ i < c, ¬t.Named name i := by
  rw [registerCode?, Option.filter_eq_some_iff, List.findIdx?_eq_some_iff_getElem]
  constructor
  · rintro ⟨⟨hlen, hc, hleast⟩, hbyte⟩
    refine ⟨by simpa using hbyte, ⟨_, List.getElem?_eq_getElem hlen, hc⟩, ?_⟩
    rintro i hi ⟨r, hr, hs⟩
    rw [List.getElem?_eq_getElem (hi.trans hlen)] at hr
    exact hleast i hi (Option.some.inj hr ▸ hs)
  · rintro ⟨hbyte, hnamed, hleast⟩
    have hlen := hnamed.lt_length
    obtain ⟨r, hr, hs⟩ := hnamed
    rw [List.getElem?_eq_getElem hlen] at hr
    refine ⟨⟨hlen, Option.some.inj hr ▸ hs, ?_⟩, by simpa using hbyte⟩
    intro i hi hsame
    exact hleast i hi ⟨_, List.getElem?_eq_getElem (hi.trans hlen), hsame⟩

namespace Valid

theorem register_injective (hv : t.Valid) {i j : Nat} {r s : Text} (hi : t.registers[i]? = some r)
    (hj : t.registers[j]? = some s) (h : Text.upperCase r = Text.upperCase s) : i = j := by
  have hlen := (List.getElem?_eq_some_iff.mp hi).1
  apply (List.getElem?_inj (by simpa using hlen) hv.distinct).mp
  rw [List.getElem?_map, List.getElem?_map, hi, hj, Option.map_some, Option.map_some, h]

theorem named_unique (hv : t.Valid) {i j : Nat} (hi : t.Named name i) (hj : t.Named name j) :
    i = j := by
  obtain ⟨r, hr, hrs⟩ := hi
  obtain ⟨s, hs, hss⟩ := hj
  exact hv.register_injective hr hs
    ((Text.sameLetters_iff.mp hrs).trans (Text.sameLetters_iff.mp hss).symm)

theorem registerCode?_iff (hv : t.Valid) : t.registerCode? name = some c ↔ t.Named name c := by
  rw [registerCode?_eq_some_iff]
  constructor
  · exact fun h => h.2.1
  · intro h
    have hlen := h.lt_length
    have hfour := hv.registers_le
    refine ⟨by omega, h, ?_⟩
    intro i hi hn
    exact hi.ne (hv.named_unique hn h)

theorem named_noBlank (hv : t.Valid) (h : t.Named name c) :
    ∀ d ∈ name, Text.isBlank d = false := by
  obtain ⟨r, hr, hs⟩ := h
  exact Text.noBlank_of_sameLetters hs
    (isIdentifier_iff.mp (hv.identifier r (List.mem_of_getElem? hr))).noBlank

theorem not_named_zero (hv : t.Valid) (c : Nat) : ¬t.Named ['0'] c := by
  rintro ⟨r, hr, hs⟩
  have hid := hv.identifier r (List.mem_of_getElem? hr)
  have hup := Text.sameLetters_iff.mp hs
  cases r with
  | nil => simp [isIdentifier] at hid
  | cons d r =>
      simp only [isIdentifier, Bool.and_eq_true] at hid
      have hd := Text.toNat_of_isAlpha hid.1
      have hzero : d.toUpper = '0' := List.head_eq_of_cons_eq hup
      have hnat := Text.toNat_toUpper d
      rw [hzero] at hnat
      change 48 = _ at hnat
      split at hnat <;> omega

theorem resolve_register (hv : t.Valid) {token : Text} :
    t.resolve token = .ok (.register c) ↔ t.Named (Text.trim token) c := by
  rw [← hv.registerCode?_iff, resolve]
  cases hcode : t.registerCode? (Text.trim token) with
  | some d => simp
  | none => by_cases hz : Text.trim token = ['0'] <;> simp [hz]

theorem resolve_unused (hv : t.Valid) {token : Text} :
    t.resolve token = .ok .unused ↔ Text.trim token = ['0'] := by
  rw [resolve]
  cases hcode : t.registerCode? (Text.trim token) with
  | some d =>
      have hn := hv.registerCode?_iff.mp hcode
      simp only [Except.ok.injEq, reduceCtorEq, false_iff]
      intro hz
      exact hv.not_named_zero d (hz ▸ hn)
  | none => simp

theorem resolve_eq_error_iff (hv : t.Valid) {token : Text} {e : Error} :
    t.resolve token = .error e ↔ (∀ c, ¬t.Named (Text.trim token) c) ∧
      Text.trim token ≠ ['0'] ∧ e = .unknownRegister (Text.trim token) := by
  simp only [← hv.registerCode?_iff]
  rw [resolve]
  cases hcode : t.registerCode? (Text.trim token) with
  | some c => simp
  | none =>
      rcases eq_or_ne (Text.trim token) ['0'] with hzero | hzero
      · simp [hzero]
      · simp [hzero, eq_comm]

theorem resolve_code (hv : t.Valid) {token : Text} {r : RegisterOperand}
    (h : t.resolve token = .ok r) : r.code = 0 ∨ r.code < t.registers.length := by
  cases r with
  | register c => exact .inr (hv.resolve_register.mp h).lt_length
  | unused => exact .inl rfl

theorem registerCode?_of_mem (hv : t.Valid) {r : Text} (hr : r ∈ t.registers) :
    t.registerCode? r = some c ↔ t.registerName? c = some r := by
  obtain ⟨i, hi⟩ := List.mem_iff_getElem?.mp hr
  rw [hv.registerCode?_iff]
  constructor
  · intro h
    obtain rfl := hv.named_unique h (named_register hi)
    exact hi
  · exact fun h => named_register h

end Valid

end Assembler.Table
