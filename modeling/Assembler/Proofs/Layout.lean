import Mathlib
import Assembler.Proofs.Validity
import Assembler.Proofs.Word

namespace Assembler

namespace Field

def Covers (t : Table) (f : Field) (i : Nat) : Prop := f.shift ≤ i ∧ i < f.shift + f.width t

def Admits (t : Table) (f : Field) (v : Nat) : Prop :=
  match f.max? t with
  | none => v = 0 ∨ v < t.registers.length
  | some max => v ≤ max.toNat

def Ascending (t : Table) : Nat → List Field → Prop
  | low, [] => low ≤ t.operandWidth
  | low, f :: fs => low ≤ f.shift ∧ 0 < f.width t ∧ Ascending t (f.shift + f.width t) fs

variable {t : Table}

theorem Ascending.low_le {low : Nat} {fs : List Field} (h : Ascending t low fs) :
    low ≤ t.operandWidth := by
  induction fs generalizing low with
  | nil => exact h
  | cons f fs ih =>
      have hrest := ih h.2.2
      have hstart := h.1
      omega

theorem Ascending.mem {low : Nat} {fs : List Field} (h : Ascending t low fs) {f : Field}
    (hf : f ∈ fs) : low ≤ f.shift ∧ 0 < f.width t ∧ f.shift + f.width t ≤ t.operandWidth := by
  induction fs generalizing low with
  | nil => cases hf
  | cons g fs ih =>
      rcases List.mem_cons.mp hf with rfl | hf
      · exact ⟨h.1, h.2.1, h.2.2.low_le⟩
      · obtain ⟨hlow, hpos, hfit⟩ := ih h.2.2 hf
        have hstart := h.1
        exact ⟨by omega, hpos, hfit⟩

theorem Ascending.fits (hv : t.Valid) {low : Nat} {fs : List Field} (h : Ascending t low fs)
    {f : Field} (hf : f ∈ fs) : f.shift + f.width t ≤ 16 := by
  have hle := (h.mem hf).2.2
  rw [hv.operandWidth_eq] at hle
  omega

theorem Ascending.pairwise {low : Nat} {fs : List Field} (h : Ascending t low fs) :
    fs.Pairwise fun f g => f.shift + f.width t ≤ g.shift := by
  induction fs generalizing low with
  | nil => exact .nil
  | cons f fs ih => exact .cons (fun g hg => (h.2.2.mem hg).1) (ih h.2.2)

end Field

theorem Mnemonic.layout_ascending {t : Table} (hv : t.Valid) (m : Mnemonic) :
    Field.Ascending t 0 m.layout := by
  cases m <;> simp [layout, Field.Ascending, Field.destination, Field.source, Field.long, Field.width,
    registerBits, hv.literalWidth_eq, hv.operandWidth_eq]

namespace Field

variable {t : Table}

theorem admits_lt (hv : t.Valid) {f : Field} {v : Nat} (h : f.Admits t v) : v < 2 ^ f.width t := by
  cases hk : f.kind with
  | register =>
      simp only [Admits, max?, width, hk, registerBits] at h ⊢
      have hlen := hv.registers_le
      omega
  | small w =>
      simp only [Admits, max?, width, hk, Nat.one_shiftLeft] at h ⊢
      have hle : (BitVec.ofNat 16 (2 ^ w - 1)).toNat ≤ 2 ^ w - 1 := Nat.mod_le _ _
      have hpos := Nat.two_pow_pos w
      omega
  | literal k =>
      simp only [Admits, max?, width, hk] at h ⊢
      exact h.trans_lt (hv.limit k)

def storeAll (t : Table) : List Field → List Nat → Word → Word
  | f :: fs, v :: vs, area =>
      storeAll t fs vs (area.store f.shift (f.width t) (BitVec.ofNat 16 v))
  | _, _, area => area

def placed (n : Nat) (fs : List Field) (vs : List Nat) : Nat :=
  (List.zipWith (fun f v => v * 2 ^ (n + f.shift)) fs vs).sum

theorem placed_mul (n : Nat) (fs : List Field) (vs : List Nat) :
    placed 0 fs vs * 2 ^ n = placed n fs vs := by
  induction fs generalizing vs with
  | nil => simp [placed]
  | cons f fs ih =>
      cases vs with
      | nil => simp [placed]
      | cons v vs =>
          have hrest := ih vs
          simp only [placed, List.zipWith_cons_cons, List.sum_cons] at hrest ⊢
          rw [Nat.add_mul, hrest, Nat.mul_assoc, ← Nat.pow_add, Nat.zero_add, Nat.add_comm n]

theorem getLsbD_storeAll (fs : List Field) (vs : List Nat) (area : Word) {i : Nat}
    (h : ∀ f ∈ fs, ¬f.Covers t i) : (storeAll t fs vs area).getLsbD i = area.getLsbD i := by
  induction fs generalizing vs area with
  | nil => rfl
  | cons f fs ih =>
      cases vs with
      | nil => rfl
      | cons v vs =>
          rw [storeAll, ih _ _ fun g hg => h g (List.mem_cons_of_mem f hg), Word.getLsbD_store]
          exact if_neg (h f (List.mem_cons_self ..))

theorem read_storeAll_below {low : Nat} {fs : List Field} (h : Ascending t low fs) (vs : List Nat)
    (area : Word) {shift width : Nat} (hbelow : shift + width ≤ low) :
    (storeAll t fs vs area).read shift width = area.read shift width := by
  apply Word.read_congr
  intro i _ hi
  apply getLsbD_storeAll
  intro f hf hcov
  have hlow := (h.mem hf).1
  have hstart := hcov.1
  omega

theorem toNat_ofNat_of_admits (hv : t.Valid) {f : Field} (hfit : f.shift + f.width t ≤ 16) {v : Nat}
    (h : f.Admits t v) : (BitVec.ofNat 16 v).toNat = v := by
  rw [BitVec.toNat_ofNat]
  have hpow : 2 ^ f.width t ≤ 2 ^ 16 := Nat.pow_le_pow_right (by decide) (by omega)
  exact Nat.mod_eq_of_lt ((admits_lt hv h).trans_le hpow)

theorem toNat_store_value (hv : t.Valid) {f : Field} (hfit : f.shift + f.width t ≤ 16) {v : Nat}
    (h : f.Admits t v) {area : Word} (harea : area.toNat < 2 ^ f.shift) :
    (area.store f.shift (f.width t) (BitVec.ofNat 16 v)).toNat = area.toNat + v * 2 ^ f.shift := by
  have hval := toNat_ofNat_of_admits hv hfit h
  rw [Word.toNat_store harea (by rw [hval]; exact admits_lt hv h) hfit, hval]

theorem store_value_lt (hv : t.Valid) {f : Field} (hfit : f.shift + f.width t ≤ 16) {v : Nat}
    (h : f.Admits t v) {area : Word} (harea : area.toNat < 2 ^ f.shift) :
    (area.store f.shift (f.width t) (BitVec.ofNat 16 v)).toNat < 2 ^ (f.shift + f.width t) := by
  rw [toNat_store_value hv hfit h harea]
  calc area.toNat + v * 2 ^ f.shift < (v + 1) * 2 ^ f.shift := by rw [Nat.add_mul]; omega
    _ ≤ 2 ^ f.width t * 2 ^ f.shift := Nat.mul_le_mul_right _ (admits_lt hv h)
    _ = 2 ^ (f.shift + f.width t) := by rw [← Nat.pow_add, Nat.add_comm]

theorem toNat_storeAll (hv : t.Valid) {low : Nat} {fs : List Field} {vs : List Nat}
    (hasc : Ascending t low fs) (hadm : List.Forall₂ (Admits t) fs vs) (area : Word)
    (harea : area.toNat < 2 ^ low) :
    (storeAll t fs vs area).toNat = area.toNat + placed 0 fs vs ∧
      (storeAll t fs vs area).toNat < 2 ^ t.operandWidth := by
  induction hadm generalizing low area with
  | nil => exact ⟨rfl, harea.trans_le (Nat.pow_le_pow_right (by decide) hasc.low_le)⟩
  | @cons f v fs vs hfv _ ih =>
      have hfit := hasc.fits hv (List.mem_cons_self ..)
      have hstart : area.toNat < 2 ^ f.shift :=
        harea.trans_le (Nat.pow_le_pow_right (by decide) hasc.1)
      obtain ⟨hsum, hlt⟩ := ih hasc.2.2 _ (store_value_lt hv hfit hfv hstart)
      refine ⟨?_, hlt⟩
      rw [storeAll, hsum, toNat_store_value hv hfit hfv hstart]
      simp only [placed, List.zipWith_cons_cons, List.sum_cons, Nat.zero_add, Nat.add_assoc]

theorem read_storeAll (hv : t.Valid) {low : Nat} {fs : List Field} {vs : List Nat}
    (hasc : Ascending t low fs) (hadm : List.Forall₂ (Admits t) fs vs) (area : Word) :
    ∀ p ∈ fs.zip vs, (storeAll t fs vs area).read p.1.shift (p.1.width t) = p.2 := by
  induction hadm generalizing low area with
  | nil => simp
  | @cons f v fs vs hfv _ ih =>
      intro p hp
      rw [List.zip_cons_cons] at hp
      rcases List.mem_cons.mp hp with rfl | hp
      · have hfit := hasc.fits hv (List.mem_cons_self ..)
        have hval := toNat_ofNat_of_admits hv hfit hfv
        rw [storeAll, read_storeAll_below hasc.2.2 _ _ (Nat.le_refl _),
          Word.read_store_same (by rw [hval]; exact admits_lt hv hfv) hfit, hval]
      · exact ih hasc.2.2 _ p hp

end Field

end Assembler
