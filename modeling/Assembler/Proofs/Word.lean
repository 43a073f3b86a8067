import Mathlib
import Assembler.Word

namespace Assembler.Word

variable {shift width : Nat}

theorem getLsbD_of_toNat_lt {w : Word} {n i : Nat} (h : w.toNat < 2 ^ n) (hi : n ≤ i) :
    w.getLsbD i = false :=
  Nat.testBit_lt_two_pow (Nat.lt_of_lt_of_le h (Nat.pow_le_pow_right (by decide) hi))

@[simp] theorem getLsbD_slice (shift width i : Nat) :
    (slice shift width).getLsbD i = decide (i < 16 ∧ shift ≤ i ∧ i < shift + width) := by
  rw [slice, BitVec.getLsbD_shiftLeft, BitVec.getLsbD_ofNat, Nat.one_shiftLeft,
    Nat.testBit_two_pow_sub_one]
  by_cases hi : i < 16
  · by_cases hs : i < shift
    · simp [hs, Nat.not_le.mpr hs]
    · have hsub : i - shift < width ↔ i < shift + width := by omega
      simp [hi, hs, hsub, Nat.le_of_not_lt hs, show i - shift < 16 by omega]
  · simp [hi]

theorem getLsbD_store (w value : Word) (shift width i : Nat) :
    (w.store shift width value).getLsbD i =
      if shift ≤ i ∧ i < shift + width then decide (i < 16) && value.getLsbD (i - shift)
      else w.getLsbD i := by
  rw [store, BitVec.getLsbD_or, BitVec.getLsbD_and, BitVec.getLsbD_and, BitVec.getLsbD_not,
    BitVec.getLsbD_shiftLeft, getLsbD_slice]
  by_cases hi : i < 16
  · by_cases hin : shift ≤ i ∧ i < shift + width
    · simp [hi, hin, Nat.not_lt.mpr hin.1]
    · simp [hi, hin]
  · simp [hi, BitVec.getLsbD_of_ge _ i (Nat.le_of_not_lt hi)]

theorem toNat_store {area value : Word} (harea : area.toNat < 2 ^ shift)
    (hvalue : value.toNat < 2 ^ width) (hfit : shift + width ≤ 16) :
    (area.store shift width value).toNat = area.toNat + value.toNat * 2 ^ shift := by
  apply Nat.eq_of_testBit_eq
  intro i
  rw [Nat.add_comm, Nat.mul_comm, Nat.testBit_two_pow_mul_add _ harea, BitVec.testBit_toNat,
    BitVec.testBit_toNat, BitVec.testBit_toNat, getLsbD_store]
  by_cases hlow : i < shift
  · simp [hlow, Nat.not_le.mpr hlow]
  · by_cases hin : i < shift + width
    · simp [hlow, hin, Nat.le_of_not_lt hlow, show i < 16 by omega]
    · have hv : value.getLsbD (i - shift) = false := getLsbD_of_toNat_lt hvalue (by omega)
      have ha : area.getLsbD i = false := getLsbD_of_toNat_lt harea (by omega)
      simp [hlow, hin, hv, ha]

@[simp] theorem testBit_read (w : Word) (shift width j : Nat) :
    (w.read shift width).testBit j = (decide (j < width) && w.getLsbD (shift + j)) := by
  rw [read, Nat.one_shiftLeft, Nat.testBit_mod_two_pow, Nat.testBit_shiftRight,
    BitVec.testBit_toNat]

theorem read_congr {w w' : Word} (h : ∀ i, shift ≤ i → i < shift + width →
    w.getLsbD i = w'.getLsbD i) : w.read shift width = w'.read shift width := by
  apply Nat.eq_of_testBit_eq
  intro j
  by_cases hj : j < width
  · simp [h (shift + j) (by omega) (by omega)]
  · simp [hj]

theorem getLsbD_eq_of_read_eq {w w' : Word} (h : w.read shift width = w'.read shift width) {i : Nat}
    (hlow : shift ≤ i) (hhigh : i < shift + width) : w.getLsbD i = w'.getLsbD i := by
  have hbit := congrArg (Nat.testBit · (i - shift)) h
  simpa [Nat.add_sub_cancel' hlow, show i - shift < width by omega] using hbit

theorem read_store_same {w value : Word} (hvalue : value.toNat < 2 ^ width)
    (hfit : shift + width ≤ 16) : (w.store shift width value).read shift width = value.toNat := by
  apply Nat.eq_of_testBit_eq
  intro j
  rw [testBit_read, getLsbD_store, BitVec.testBit_toNat]
  by_cases hj : j < width
  · simp [hj, show shift + j < 16 by omega]
  · have hv : value.getLsbD j = false := getLsbD_of_toNat_lt hvalue (by omega)
    simp [hj, hv]

section Join

variable {low high : Word} {n : Nat}

theorem getLsbD_join (hlow : low.toNat < 2 ^ n) (i : Nat) :
    (low ||| high <<< n).getLsbD i =
      if i < n then low.getLsbD i else decide (i < 16) && high.getLsbD (i - n) := by
  rw [BitVec.getLsbD_or, BitVec.getLsbD_shiftLeft]
  by_cases hi : i < n
  · simp [hi]
  · have hl : low.getLsbD i = false := getLsbD_of_toNat_lt hlow (by omega)
    simp [hi, hl]

theorem toNat_join (hlow : low.toNat < 2 ^ n) (hhigh : high.toNat * 2 ^ n < 2 ^ 16) :
    (low ||| high <<< n).toNat = low.toNat + high.toNat * 2 ^ n := by
  rw [BitVec.toNat_or, BitVec.toNat_shiftLeft, Nat.shiftLeft_eq, Nat.mod_eq_of_lt hhigh,
    Nat.or_comm, Nat.mul_comm, ← Nat.two_pow_add_eq_or_of_lt hlow, Nat.add_comm]

theorem read_join (hlow : low.toNat < 2 ^ n) (hfit : n + shift + width ≤ 16) :
    (low ||| high <<< n).read (n + shift) width = high.read shift width := by
  apply Nat.eq_of_testBit_eq
  intro j
  rw [testBit_read, testBit_read, getLsbD_join hlow]
  by_cases hj : j < width
  · simp [hj, show ¬n + shift + j < n by omega, show n + shift + j < 16 by omega,
      show n + shift + j - n = shift + j by omega]
  · simp [hj]

end Join

end Assembler.Word
