import Assembler.Proofs.Register

namespace Assembler

namespace Table

variable {t : Table} {name : Text} {c : Nat}

def Spells (t : Table) (name : Text) (c : Nat) : Prop :=
  ∃ r, t.registers[c]? = some r ∧ Text.EqualUpToCase r name

theorem spells_iff_named : t.Spells name c ↔ t.Named name c := by
  simp only [Named, Spells, Text.sameLetters_iff, Text.upperCase_eq_iff]

theorem Named.iff_equalUpToCase (h : t.Named name c) {other : Text} :
    t.Named other c ↔ Text.EqualUpToCase name other := by
  obtain ⟨r, hr, hname⟩ := h
  rw [Text.sameLetters_iff] at hname
  rw [← Text.upperCase_eq_iff, ← hname]
  simp only [Named, hr, Option.some.injEq, exists_eq_left', Text.sameLetters_iff]

theorem registerCode?_eq_some_iff_isLeast :
    t.registerCode? name = some c ↔ IsLeast {i | t.Named name i} c ∧ c ≤ 255 := by
  simp only [registerCode?_eq_some_iff, IsLeast, lowerBounds, Set.mem_ofPred_eq]
  constructor
  · rintro ⟨hbyte, hc, hleast⟩
    refine ⟨⟨hc, fun i hi => ?_⟩, by omega⟩
    exact Nat.le_of_not_lt fun hlt => hleast i hlt hi
  · rintro ⟨⟨hc, hleast⟩, hbyte⟩
    exact ⟨by omega, hc, fun i hlt hi => absurd (hleast hi) (Nat.not_le.mpr hlt)⟩

theorem Valid.resolve_registerName? (hv : t.Valid) {r : Text} (h : t.registerName? c = some r) :
    t.resolve r = .ok (.register c) := by
  have hnamed := named_register h
  rw [hv.resolve_register, Text.trim_eq_self (hv.named_noBlank hnamed)]
  exact hnamed

end Table

theorem Machine.registers_resolve_by_name (M : Machine) :
    (∀ token c, M.table.resolve token = .ok (.register c) ↔
      M.table.Spells (Text.trim token) c) ∧
    (∀ token, M.table.resolve token = .ok .unused ↔ Text.trim token = ['0']) ∧
    (∀ token e, M.table.resolve token = .error e ↔ (∀ c, ¬M.table.Spells (Text.trim token) c) ∧
      Text.trim token ≠ ['0'] ∧ e = .unknownRegister (Text.trim token)) ∧
    (∀ name c, M.table.Spells name c →
      name ≠ ['0'] ∧ c < 4 ∧ ∀ d, M.table.Spells name d → d = c) ∧
    (∀ c < M.table.registers.length, ∃ r, M.table.registerName? c = some r ∧
      M.table.resolve r = .ok (.register c) ∧
        (M.table.resolve r).map RegisterOperand.code = .ok c) ∧
    (∀ name other c, M.table.Spells name c →
      (M.table.Spells other c ↔ Text.EqualUpToCase name other)) ∧
    ∀ (t : Table) (name : Text) (c : Nat),
      t.registerCode? name = some c ↔ IsLeast {i | t.Spells name i} c ∧ c ≤ 255 := by
  have hv := M.valid
  simp only [Table.spells_iff_named]
  refine ⟨fun token c => hv.resolve_register, fun token => hv.resolve_unused,
    fun token e => hv.resolve_eq_error_iff, ?_, ?_, fun name other c h => h.iff_equalUpToCase,
    fun t name c => Table.registerCode?_eq_some_iff_isLeast⟩
  · intro name c h
    refine ⟨?_, h.lt_length.trans_le hv.registers_le, fun d hd => hv.named_unique hd h⟩
    rintro rfl
    exact hv.not_named_zero c h
  · intro c hc
    have hname : M.table.registerName? c = some M.table.registers[c] :=
      List.getElem?_eq_getElem hc
    have hresolve := hv.resolve_registerName? hname
    exact ⟨_, hname, hresolve, by rw [hresolve]; rfl⟩

def Machine.mixedCase : Machine :=
  ⟨{ Table.standard with registers := ["r1".toList, "Acc_2".toList] }, by decide +kernel⟩

def Table.crowded : Table :=
  { Table.standard with registers := List.replicate 256 ['A'] ++ [['b']] }

theorem Machine.registers_resolve_by_name_mixedCase :
    mixedCase.table.resolve "\tR1 ".toList = .ok (.register 0) ∧
      (∃ r, mixedCase.table.registerName? 1 = some r ∧
        mixedCase.table.resolve r = .ok (.register 1) ∧
          (mixedCase.table.resolve r).map RegisterOperand.code = .ok 1) ∧
      Text.EqualUpToCase "R1".toList "r1".toList ∧
      Table.crowded.Spells ['B'] 256 ∧ Table.crowded.registerCode? ['B'] = none ∧
        IsLeast {i | Table.crowded.Spells ['a'] i} 0 := by
  obtain ⟨hregister, -, -, -, hname, hcase, hleast⟩ := registers_resolve_by_name mixedCase
  have hresolve : mixedCase.table.resolve "\tR1 ".toList = .ok (.register 0) := by decide +kernel
  have hspells := (hregister _ _).mp hresolve
  have hlower := (hregister "r1".toList 0).mp (by decide +kernel)
  exact ⟨hresolve, hname 1 (by decide), (hcase _ _ _ hspells).mp hlower,
    ⟨['b'], by decide +kernel, .cons (by decide) .nil⟩, by decide +kernel,
    ((hleast Table.crowded ['a'] 0).mp (by decide +kernel)).1⟩

end Assembler
