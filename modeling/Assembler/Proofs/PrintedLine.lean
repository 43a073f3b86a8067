import Assembler.Proofs.Token

namespace Assembler

namespace Text

variable {t : Text}

structure Trimmed (t : Text) : Prop where
  head : ∀ c, t.head? = some c → isBlank c = false
  last : ∀ c, t.getLast? = some c → isBlank c = false

theorem Trimmed.trim_eq (h : Trimmed t) : trim t = t := by
  have hreverse : ∀ c, t.reverse.head? = some c → isBlank c = false := by
    intro c hc
    rw [List.head?_reverse] at hc
    exact h.last c hc
  rw [trim, trimStart, dropWhile_of_head? h.head, trimEnd, dropWhile_of_head? hreverse,
    List.reverse_reverse]

@[simp] theorem trimmed_trim (t : Text) : Trimmed (trim t) := by
  constructor
  · intro c hc
    obtain ⟨rest, hrest⟩ := List.head?_eq_some_iff.mp hc
    exact isBlank_of_trim_eq_cons hrest
  · intro c hc
    rw [trim, trimEnd, List.getLast?_reverse] at hc
    have hhead := List.head?_dropWhile_not isBlank (trimStart t).reverse
    rw [hc] at hhead
    simpa using hhead

end Text

namespace Instruction

structure Normal (i : Instruction) : Prop where
  mnemonic_ne_nil : i.mnemonic ≠ []
  mnemonic_noBlank : ∀ c ∈ i.mnemonic, Text.isBlank c = false
  operand_trimmed : ∀ op ∈ i.operands, Text.Trimmed op
  operand_noComma : ∀ op ∈ i.operands, ',' ∉ op
  operands_ne : i.operands ≠ [[]]

variable {line t op : Text} {i : Instruction}

theorem trimmed_of_mem_operandsOf (h : op ∈ operandsOf t) : Text.Trimmed op := by
  rw [operandsOf] at h
  split at h
  · cases h
  · obtain ⟨part, -, rfl⟩ := List.mem_map.mp h
    exact Text.trimmed_trim part

theorem comma_notMem_of_mem_operandsOf (h : op ∈ operandsOf t) : ',' ∉ op := by
  rw [operandsOf] at h
  split at h
  · cases h
  · obtain ⟨part, hpart, rfl⟩ := List.mem_map.mp h
    obtain ⟨lead, tail, -, -, hsplit⟩ := Text.exists_trim part
    intro hcomma
    apply Text.notMem_of_mem_splitOn hpart
    rw [hsplit]
    simp [hcomma]

-- One empty operand alone would need a text between no commas that is blank and yet not empty.
theorem operandsOf_trim_ne (t : Text) : operandsOf (Text.trim t) ≠ [[]] := by
  intro h
  rw [operandsOf] at h
  split at h
  · cases h
  · rename_i hempty
    obtain ⟨part, hsplit, hpart⟩ : ∃ part, List.splitOn ',' (Text.trim t) = [part] ∧
        Text.trim part = [] := by simpa [List.map_eq_singleton_iff] using h
    have hjoin : List.intercalate [','] (List.splitOn ',' (Text.trim t)) = Text.trim t :=
      List.intercalate_splitOn ','
    rw [hsplit, List.intercalate_singleton] at hjoin
    rw [hjoin, Text.trim_trim] at hpart
    exact hempty (List.isEmpty_iff.mpr hpart)

theorem exists_rest_of_ofLine? (h : ofLine? line = some i) : i.mnemonic ≠ [] ∧
    (∀ c ∈ i.mnemonic, Text.isBlank c = false) ∧
      ∃ rest, i.operands = operandsOf (Text.trim rest) := by
  rw [ofLine?] at h
  split at h
  · cases h
  · rename_i hempty
    obtain rfl := Option.some.inj h
    refine ⟨by simpa using hempty, ?_, _, rfl⟩
    cases hcut : Text.cut? Text.isBlank (Text.trim line) with
    | none => exact Text.cut?_eq_none hcut
    | some parts =>
        obtain ⟨-, -, hbefore, -⟩ := Text.cut?_eq_some hcut
        exact hbefore

theorem normal_of_ofLine? (h : ofLine? line = some i) : i.Normal := by
  obtain ⟨hne, hnoBlank, rest, hoperands⟩ := exists_rest_of_ofLine? h
  constructor
  · exact hne
  · exact hnoBlank
  · intro op hop
    rw [hoperands] at hop
    exact trimmed_of_mem_operandsOf hop
  · intro op hop
    rw [hoperands] at hop
    exact comma_notMem_of_mem_operandsOf hop
  · rw [hoperands]
    exact operandsOf_trim_ne rest

theorem Normal.ofLine?_line (h : i.Normal) : ofLine? i.line = some i := by
  have htrim : i.operands.map Text.trim = i.operands := by
    rw [List.map_congr_left fun op hop => (h.operand_trimmed op hop).trim_eq, List.map_id']
  have hoperands : operandsOf (Text.trim (List.intercalate [',', ' '] i.operands)) =
      i.operands := by
    rw [operandsOf_intercalate h.operand_noComma (by rw [htrim]; exact h.operands_ne), htrim]
  rw [line, ofLine?_append h.mnemonic_ne_nil h.mnemonic_noBlank rfl, hoperands]

theorem ofLine?_inverts_line :
    (∀ line i, ofLine? line = some i → i.Normal) ∧
    (∀ i : Instruction, i.Normal → ofLine? i.line = some i) ∧
    (∀ line, ofLine? line = none ↔ ∀ c ∈ line, Text.isBlank c = true) ∧
    ∀ line i, ofLine? line = some i → ofLine? i.line = some i := by
  refine ⟨fun _ _ => normal_of_ofLine?, fun _ => Normal.ofLine?_line, fun line => ?_,
    fun _ _ h => (normal_of_ofLine? h).ofLine?_line⟩
  rw [ofLine?_eq_none_iff, Text.trim_eq_nil_iff]

theorem ofLine?_inverts_line_trailingComma :
    ofLine? "X a,".toList = some ⟨['X'], [['a'], []]⟩ ∧
      Normal ⟨['X'], [['a'], []]⟩ ∧ ofLine? "X a, ".toList = some ⟨['X'], [['a'], []]⟩ ∧
        ofLine? "X, a b,c".toList = some ⟨"X,".toList, ["a b".toList, ['c']]⟩ ∧
          ofLine? "X, a b, c".toList = some ⟨"X,".toList, ["a b".toList, ['c']]⟩ := by
  have hcomma : ofLine? "X a,".toList = some ⟨['X'], [['a'], []]⟩ := by decide +kernel
  have hinner : ofLine? "X, a b,c".toList = some ⟨"X,".toList, ["a b".toList, ['c']]⟩ := by
    decide +kernel
  obtain ⟨hnormal, hline, -, hagain⟩ := ofLine?_inverts_line
  exact ⟨hcomma, hnormal _ _ hcomma, hline _ (hnormal _ _ hcomma), hinner, hagain _ _ hinner⟩

end Instruction

end Assembler
