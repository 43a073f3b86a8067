import Assembler.Machine
import Assembler.Proofs.Result
import Assembler.Proofs.Text

namespace Assembler

namespace Mnemonic

theorem all_nodup : all.Nodup := by decide

instance : Fintype Mnemonic := ⟨⟨all, all_nodup⟩, mem_all⟩

theorem card_eq : Fintype.card Mnemonic = 16 := rfl

end Mnemonic

inductive Identifier : Text → Prop
  | intro {c : Char} {rest : Text} (hc : c.isAlpha = true)
      (hrest : ∀ d ∈ rest, d.isAlphanum = true ∨ d = '_') : Identifier (c :: rest)

theorem isIdentifier_iff {name : Text} : isIdentifier name = true ↔ Identifier name := by
  cases name with
  | nil =>
      simp only [isIdentifier, Bool.false_eq_true, false_iff]
      rintro ⟨⟩
  | cons c rest =>
      simp only [isIdentifier, Bool.and_eq_true, List.all_eq_true, Bool.or_eq_true, beq_iff_eq]
      constructor
      · rintro ⟨hc, hrest⟩
        exact ⟨hc, hrest⟩
      · rintro ⟨hc, hrest⟩
        exact ⟨hc, hrest⟩

theorem Identifier.noBlank {name : Text} (h : Identifier name) :
    ∀ c ∈ name, Text.isBlank c = false := by
  obtain ⟨hc, hrest⟩ := h
  intro d hd
  rcases List.mem_cons.mp hd with rfl | hd
  · exact Text.isBlank_of_isAlphanum (by simp [Char.isAlphanum, hc])
  · rcases hrest d hd with ha | rfl
    · exact Text.isBlank_of_isAlphanum ha
    · decide

namespace Table

structure Valid (t : Table) : Prop where
  opcodeWidth_pos : 0 < t.opcodeWidth.toNat
  wordWidth_le : t.wordWidth.toNat ≤ 16
  room : t.opcodeWidth.toNat + leastOperandWidth ≤ t.wordWidth.toNat
  opcode_fits : ∀ m, ∃ o, t.opcodes.get? m = some o ∧ o.toNat < 2 ^ t.opcodeWidth.toNat
  opcode_inj : Function.Injective t.opcodes.get?
  registers_le : t.registers.length ≤ 4
  identifier : ∀ name ∈ t.registers, isIdentifier name = true
  distinct : (t.registers.map Text.upperCase).Nodup
  limit : ∀ k, (t.limits.get k).toNat < 2 ^ t.literalWidth

theorem opcodeWidth_eq_zero_iff (t : Table) : t.opcodeWidth = 0 ↔ t.opcodeWidth.toNat = 0 := by
  rw [← UInt32.toNat_inj]
  rfl

theorem neededWidth?_eq_none_iff {t : Table} :
    t.neededWidth? = none ↔ 2 ^ 32 ≤ t.opcodeWidth.toNat + leastOperandWidth := by
  simp [neededWidth?, UInt32.size]

theorem toNat_of_neededWidth? {t : Table} {needed : UInt32} (h : t.neededWidth? = some needed) :
    needed.toNat = t.opcodeWidth.toNat + leastOperandWidth := by
  simp only [neededWidth?, Option.ite_none_right_eq_some, Option.some.injEq] at h
  obtain ⟨hfits, rfl⟩ := h
  rw [UInt32.toNat_add]
  exact Nat.mod_eq_of_lt hfits

theorem checkWidths_eq_ok_iff (t : Table) :
    t.checkWidths = .ok () ↔ 0 < t.opcodeWidth.toNat ∧ t.wordWidth.toNat ≤ 16 ∧
      t.opcodeWidth.toNat + leastOperandWidth ≤ t.wordWidth.toNat := by
  simp only [checkWidths, opcodeWidth_eq_zero_iff]
  split
  · rename_i hbad
    simp only [reduceCtorEq, false_iff]
    omega
  · rename_i hgood
    cases hneeded : t.neededWidth? with
    | none =>
        have hover := neededWidth?_eq_none_iff.mp hneeded
        simp only [reduceCtorEq, false_iff]
        omega
    | some needed =>
        have hsum := toNat_of_neededWidth? hneeded
        simp only [ite_eq_right_iff, reduceCtorEq, imp_false, UInt32.lt_iff_toNat_lt]
        omega

theorem shiftRight_eq_zero_iff (n w : Nat) : n >>> w = 0 ↔ n < 2 ^ w := by
  rw [Nat.shiftRight_eq_div_pow, Nat.div_eq_zero_iff]
  have := Nat.two_pow_pos w
  omega

theorem checkOpcodes_eq_ok_iff (t : Table) (seen : List Word) (ms : List Mnemonic) :
    t.checkOpcodes seen ms = .ok () ↔
      (∀ m ∈ ms, ∃ o, t.opcodes.get? m = some o ∧ o.toNat < 2 ^ t.opcodeWidth.toNat ∧ o ∉ seen) ∧
        (ms.map t.opcodes.get?).Nodup := by
  induction ms generalizing seen with
  | nil => simp [checkOpcodes]
  | cons m ms ih =>
      rw [checkOpcodes]
      cases hm : t.opcodes.get? m with
      | none => simp [hm]
      | some o =>
          simp only [ne_eq, shiftRight_eq_zero_iff]
          by_cases hw : o.toNat < 2 ^ t.opcodeWidth.toNat
          · by_cases hs : o ∈ seen
            · simp [hm, hw, hs]
            · rw [if_neg (by simpa using hw), if_neg hs, ih]
              simp only [List.mem_cons, not_or, forall_eq_or_imp, hm, List.map_cons,
                List.nodup_cons, List.mem_map, not_exists, not_and]
              constructor
              · rintro ⟨hall, hn⟩
                refine ⟨⟨⟨o, rfl, hw, hs⟩, ?_⟩, ?_, hn⟩
                · intro m' hm'
                  obtain ⟨o', h1, h2, -, h3⟩ := hall m' hm'
                  exact ⟨o', h1, h2, h3⟩
                · intro m' hm' heq
                  obtain ⟨o', h1, -, h2, -⟩ := hall m' hm'
                  exact h2 (Option.some.inj (h1.symm.trans heq))
              · rintro ⟨⟨-, hall⟩, hne, hn⟩
                refine ⟨?_, hn⟩
                intro m' hm'
                obtain ⟨o', h1, h2, h3⟩ := hall m' hm'
                refine ⟨o', h1, h2, ?_, h3⟩
                rintro rfl
                exact hne m' hm' h1
          · simp [hm, hw]

theorem checkNames_nil (seen : List Text) : checkNames seen [] = .ok () := rfl

theorem checkNames_cons (seen names : List Text) (name : Text) :
    checkNames seen (name :: names) =
      if !isIdentifier name then .error (.badRegisterName name)
      else if Text.upperCase name ∈ seen then .error (.duplicateRegister name)
      else checkNames (Text.upperCase name :: seen) names := rfl

theorem checkNames_eq_ok_iff (seen names : List Text) :
    checkNames seen names = .ok () ↔
      (∀ name ∈ names, isIdentifier name = true ∧ Text.upperCase name ∉ seen) ∧
        (names.map Text.upperCase).Nodup := by
  induction names generalizing seen with
  | nil => simp [checkNames_nil]
  | cons name names ih =>
      rw [checkNames_cons]
      by_cases hi : isIdentifier name = true
      · by_cases hs : Text.upperCase name ∈ seen
        · simp [hi, hs]
        · rw [if_neg (by simpa using hi), if_neg hs, ih]
          simp only [List.mem_cons, not_or, forall_eq_or_imp, List.map_cons, List.nodup_cons,
            List.mem_map, not_exists, not_and]
          constructor
          · rintro ⟨hall, hd⟩
            exact ⟨⟨⟨hi, hs⟩, fun n hn => ⟨(hall n hn).1, (hall n hn).2.2⟩⟩,
              fun n hn => (hall n hn).2.1, hd⟩
          · rintro ⟨⟨-, hall⟩, hne, hd⟩
            exact ⟨fun n hn => ⟨(hall n hn).1, hne n hn, (hall n hn).2⟩, hd⟩
      · simp [hi]

theorem checkRegisters_eq_ok_iff (t : Table) :
    t.checkRegisters = .ok () ↔ t.registers.length ≤ 4 ∧
      (∀ name ∈ t.registers, isIdentifier name = true) ∧
        (t.registers.map Text.upperCase).Nodup := by
  rw [checkRegisters, show 1 <<< registerBits = 4 from rfl]
  split
  · rename_i hlong
    simp only [reduceCtorEq, false_iff]
    omega
  · rename_i hshort
    simp [checkNames_eq_ok_iff, Nat.le_of_not_lt hshort]

theorem limit?_eq_some_iff {t : Table} {m : Mnemonic} {max : Word} :
    t.limit? m = some max ↔ ∃ k : LimitKey, k.mnemonic = m ∧ t.limits.get k = max := by
  simp [limit?, LimitKey.ofMnemonic?_eq_some_iff]

theorem checkLimits_eq_ok_iff (t : Table) (ms : List Mnemonic) :
    t.checkLimits ms = .ok () ↔
      ∀ m ∈ ms, ∀ max, t.limit? m = some max → max.toNat < 2 ^ t.literalWidth := by
  induction ms with
  | nil => simp [checkLimits]
  | cons m ms ih =>
      rw [checkLimits]
      cases hm : t.limit? m with
      | none => simp [hm, ih]
      | some max =>
          simp only [ne_eq, shiftRight_eq_zero_iff, List.mem_cons, forall_eq_or_imp, hm,
            Option.some.injEq, forall_eq']
          by_cases hmax : max.toNat < 2 ^ t.literalWidth
          · rw [if_neg (by simpa using hmax), ih]
            simp [hmax]
          · simp [hmax]

theorem check_eq_ok_iff (t : Table) : t.check = .ok () ↔ t.Valid := by
  simp only [check, seq_eq_ok_iff, checkWidths_eq_ok_iff, checkOpcodes_eq_ok_iff,
    checkRegisters_eq_ok_iff, checkLimits_eq_ok_iff]
  constructor
  · rintro ⟨⟨hpos, hle, hroom⟩, ⟨hop, hne⟩, ⟨hlen, hid, hdis⟩, hlim⟩
    refine ⟨hpos, hle, hroom, ?_, ?_, hlen, hid, hdis, fun k => ?_⟩
    · intro m
      obtain ⟨o, h1, h2, -⟩ := hop m m.mem_all
      exact ⟨o, h1, h2⟩
    · intro m m' heq
      exact List.inj_on_of_nodup_map hne m.mem_all m'.mem_all heq
    · exact hlim k.mnemonic k.mnemonic.mem_all _ (by simp [limit?])
  · intro hv
    refine ⟨⟨hv.opcodeWidth_pos, hv.wordWidth_le, hv.room⟩, ⟨?_, ?_⟩,
      ⟨hv.registers_le, hv.identifier, hv.distinct⟩, ?_⟩
    · intro m _
      obtain ⟨o, h1, h2⟩ := hv.opcode_fits m
      exact ⟨o, h1, h2, by simp⟩
    · exact Mnemonic.all_nodup.map hv.opcode_inj
    · intro m _ max hmax
      obtain ⟨k, -, rfl⟩ := limit?_eq_some_iff.mp hmax
      exact hv.limit k

def opcode (t : Table) (m : Mnemonic) : Word := (t.opcodes.get? m).getD 0

namespace Valid

variable {t : Table}

theorem get?_opcode (hv : t.Valid) (m : Mnemonic) : t.opcodes.get? m = some (t.opcode m) := by
  obtain ⟨o, ho, -⟩ := hv.opcode_fits m
  simp [opcode, ho]

theorem opcode_lt (hv : t.Valid) (m : Mnemonic) :
    (t.opcode m).toNat < 2 ^ t.opcodeWidth.toNat := by
  obtain ⟨o, ho, hlt⟩ := hv.opcode_fits m
  simpa [opcode, ho] using hlt

theorem opcode_injective (hv : t.Valid) : Function.Injective t.opcode := by
  intro m m' heq
  apply hv.opcode_inj
  rw [hv.get?_opcode, hv.get?_opcode, heq]

theorem opcode_fin_injective (hv : t.Valid) {n : Nat} (hn : ∀ m, (t.opcode m).toNat < n) :
    Function.Injective fun m => (⟨(t.opcode m).toNat, hn m⟩ : Fin n) := by
  intro m m' heq
  have hnat : (t.opcode m).toNat = (t.opcode m').toNat := by simpa using heq
  exact hv.opcode_injective (BitVec.eq_of_toNat_eq hnat)

-- Sixteen opcodes need four bits, and the operands leave no more than four.
theorem opcodeWidth_eq (hv : t.Valid) : t.opcodeWidth.toNat = 4 := by
  have hcard : 16 ≤ 2 ^ t.opcodeWidth.toNat := by
    simpa [Mnemonic.card_eq] using
      Fintype.card_le_of_injective _ (hv.opcode_fin_injective hv.opcode_lt)
  have hlow : 4 ≤ t.opcodeWidth.toNat :=
    (Nat.pow_le_pow_iff_right (by decide : 1 < 2)).mp hcard
  have hroom := hv.room
  have hword := hv.wordWidth_le
  simp only [leastOperandWidth] at hroom
  omega

theorem wordWidth_eq (hv : t.Valid) : t.wordWidth.toNat = 16 := by
  have hroom := hv.room
  have hword := hv.wordWidth_le
  rw [hv.opcodeWidth_eq, leastOperandWidth] at hroom
  omega

theorem operandWidth_eq (hv : t.Valid) : t.operandWidth = 12 := by
  rw [operandWidth, hv.wordWidth_eq, hv.opcodeWidth_eq]

theorem literalWidth_eq (hv : t.Valid) : t.literalWidth = 10 := by
  rw [literalWidth, hv.operandWidth_eq, registerBits]

theorem opcode_lt_sixteen (hv : t.Valid) (m : Mnemonic) : (t.opcode m).toNat < 16 := by
  simpa [hv.opcodeWidth_eq] using hv.opcode_lt m

theorem opcode_bijective (hv : t.Valid) :
    Function.Bijective fun m => (⟨(t.opcode m).toNat, hv.opcode_lt_sixteen m⟩ : Fin 16) := by
  apply (Fintype.bijective_iff_injective_and_card _).2
  exact ⟨hv.opcode_fin_injective hv.opcode_lt_sixteen,
    by rw [Mnemonic.card_eq, Fintype.card_fin]⟩

end Valid

theorem checked_table_shape (t : Table) (h : t.check = .ok ()) :
    t.opcodeWidth = 4 ∧ t.wordWidth = 16 ∧
      (∃ code : Mnemonic ≃ Fin 16, ∀ m, t.opcodes.get? m = some (BitVec.ofNat 16 (code m))) ∧
        t.operandWidth = 12 ∧ t.literalWidth = 10 := by
  have hv := (check_eq_ok_iff t).mp h
  refine ⟨?_, ?_, ⟨Equiv.ofBijective _ hv.opcode_bijective, ?_⟩, hv.operandWidth_eq,
    hv.literalWidth_eq⟩
  · exact UInt32.toNat_inj.mp hv.opcodeWidth_eq
  · exact UInt32.toNat_inj.mp hv.wordWidth_eq
  · intro m
    simp [hv.get?_opcode m]

def reversed : Table :=
  { standard with
    opcodes := ⟨fun m => some (15 - BitVec.ofNat 16 (Mnemonic.all.idxOf m))⟩
    registers := [['r', '1'], ['R', '2']] }

theorem checked_table_shape_reversed :
    reversed.check = .ok () ∧ reversed.opcodeWidth = 4 ∧ reversed.wordWidth = 16 ∧
      (∃ code : Mnemonic ≃ Fin 16,
        ∀ m, reversed.opcodes.get? m = some (BitVec.ofNat 16 (code m))) ∧
        reversed.operandWidth = 12 ∧ reversed.literalWidth = 10 := by
  have h : reversed.check = .ok () := by decide +kernel
  exact ⟨h, checked_table_shape reversed h⟩

end Table

theorem Machine.valid (M : Machine) : M.table.Valid := (Table.check_eq_ok_iff M.table).mp M.checked

end Assembler
