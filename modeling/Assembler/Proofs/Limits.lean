import Assembler.Proofs.Instruction
import Assembler.Proofs.Refusal

namespace Assembler

namespace Field

variable {t t' : Table} {m : Mnemonic} {f : Field} {token : Text} {k : LimitKey}

theorem mnemonic_of_literal (hf : f ∈ m.layout) (hk : f.kind = .literal k) : m = k.mnemonic := by
  have hkey : ∀ f ∈ m.layout, ∀ k, f.kind = .literal k → m = k.mnemonic := by
    cases m <;> simp [Mnemonic.layout, destination, source, long, LimitKey.mnemonic]
  exact hkey f hf k hk

theorem literal_of_max?_lt {max max' : Word} (h : f.max? t = some max) (h' : f.max? t' = some max')
    (hlt : max.toNat < max'.toNat) :
    ∃ k, f.kind = .literal k ∧ max = t.limits.get k ∧ max' = t'.limits.get k := by
  cases hkind : f.kind with
  | register => simp [max?, hkind] at h
  | small w =>
      simp only [max?, hkind, Option.some.injEq] at h h'
      obtain rfl := h.symm.trans h'
      exact absurd hlt (Nat.lt_irrefl _)
  | literal k =>
      simp only [max?, hkind, Option.some.injEq] at h h'
      exact ⟨k, rfl, h.symm, h'.symm⟩

theorem kind_ne_register {max : Word} (h : f.max? t = some max) : f.kind ≠ .register := by
  rw [ne_eq, ← max?_eq_none_iff (t := t), h]
  simp

theorem Legal.exists_reading (h : f.Legal t token) (hkind : f.kind ≠ .register) :
    ∃ max v, f.max? t = some max ∧ Literal.Reading (Text.trim token) v ∧ 0 ≤ v ∧
      v ≤ max.toNat := by
  cases h with
  | register hregister => exact absurd hregister hkind
  | unused hregister => exact absurd hregister hkind
  | @literal max v hmax hv hlow hhigh =>
      have hword : max.toNat < 2 ^ 16 := max.isLt
      have hread := hv.reading
      rw [Literal.clamp_eq_self (by simp only [Literal.least]; omega)
        (by simp only [Literal.greatest]; omega)] at hread
      exact ⟨max, v, hmax, hread, hlow, hhigh⟩

end Field

namespace Table

-- The tables differ at most in their limits, and no limit of the first is the larger one.
structure Tighter (t t' : Table) : Prop where
  same : t = { t' with limits := t.limits }
  le : ∀ k, t.limits.get k ≤ t'.limits.get k

namespace Tighter

variable {t t' : Table} {m : Mnemonic} {f : Field} {token : Text} {e : Error} {v : Nat}

theorem registers_eq (h : t.Tighter t') : t.registers = t'.registers := by
  rw [h.same]

theorem opcodeWidth_eq (h : t.Tighter t') : t.opcodeWidth = t'.opcodeWidth := by
  rw [h.same]

theorem opcode_eq (h : t.Tighter t') (m : Mnemonic) : t.opcode m = t'.opcode m := by
  rw [h.same]
  rfl

theorem width_eq (h : t.Tighter t') (f : Field) : f.width t = f.width t' := by
  rw [h.same]
  rfl

theorem resolve_eq (h : t.Tighter t') (token : Text) : t.resolve token = t'.resolve token := by
  rw [h.same]
  rfl

theorem named_iff (h : t.Tighter t') {c : Nat} : t.Named token c ↔ t'.Named token c := by
  rw [Named, Named, h.registers_eq]

theorem value_iff (h : t.Tighter t') : f.Value t token v ↔ f.Value t' token v := by
  simp only [Field.Value, h.resolve_eq]

theorem admits (h : t.Tighter t') (hv : f.Admits t v) : f.Admits t' v := by
  cases hkind : f.kind with
  | register => simpa only [Field.Admits, Field.max?, hkind, h.registers_eq] using hv
  | small w => simpa only [Field.Admits, Field.max?, hkind] using hv
  | literal k =>
      simp only [Field.Admits, Field.max?, hkind] at hv ⊢
      exact hv.trans (h.le k)

-- Of the reasons to refuse a token only the limit of its own field depends on the limits.
theorem range_of_refuses (h : t.Tighter t') (hrefuses : f.Refuses t m token e)
    (hlegal : f.Legal t' token) :
    ∃ k v, f.kind = .literal k ∧ e = .outOfRange m f.name v (t.limits.get k) ∧
      (t.limits.get k).toNat < v ∧ v ≤ (t'.limits.get k).toNat := by
  cases hrefuses with
  | register hkind hname hzero =>
      cases hlegal with
      | register _ hnamed => exact absurd (h.named_iff.mpr hnamed) (hname _)
      | unused _ htoken => exact absurd htoken hzero
      | literal hmax => simp [Field.max?_eq_none_iff.mpr hkind] at hmax
  | invalid hmax hno =>
      obtain ⟨-, v, -, hread, -⟩ := hlegal.exists_reading (Field.kind_ne_register hmax)
      exact absurd hread (hno v)
  | range hmax hread hout =>
      obtain ⟨max', v, hmax', hread', hlow, hhigh⟩ :=
        hlegal.exists_reading (Field.kind_ne_register hmax)
      obtain rfl := hread.unique hread'
      obtain ⟨k, hk, rfl, rfl⟩ := Field.literal_of_max?_lt hmax hmax' (by omega)
      exact ⟨k, _, hk, rfl, by omega, hhigh⟩

end Tighter

end Table

namespace Machine

variable {M M' : Machine} {m : Mnemonic} {operands : List Text} {line : Text} {w : Word}
  {e : Error}

theorem fieldValue_of_tighter (h : M.table.Tighter M'.table) {f : Field} {token : Text}
    (hw : M.fieldValue m f token = .ok w) : M'.fieldValue m f token = .ok w := by
  rw [fieldValue_eq_ok_iff] at hw ⊢
  obtain ⟨v, hvalue, hadmits, rfl⟩ := hw
  exact ⟨v, h.value_iff.mp hvalue, h.admits hadmits, rfl⟩

theorem pack_of_tighter (h : M.table.Tighter M'.table) {ps : List (Field × Text)} {area : Word}
    (hw : M.pack m ps area = .ok w) : M'.pack m ps area = .ok w := by
  induction ps generalizing area with
  | nil => exact hw
  | cons p ps ih =>
      obtain ⟨f, token⟩ := p
      rw [pack] at hw ⊢
      cases hvalue : M.fieldValue m f token with
      | error e => simp [hvalue] at hw
      | ok x =>
          rw [hvalue, h.width_eq] at hw
          rw [fieldValue_of_tighter h hvalue]
          exact ih hw

theorem encode_of_tighter (h : M.table.Tighter M'.table) (hw : M.encode m operands = .ok w) :
    M'.encode m operands = .ok w := by
  rcases eq_or_ne operands.length m.arity with hlen | hlen
  · rw [encode_of_length hlen, map_eq_ok_iff] at hw ⊢
    obtain ⟨area, harea, rfl⟩ := hw
    exact ⟨area, pack_of_tighter h harea, by rw [h.opcode_eq, h.opcodeWidth_eq]⟩
  · rw [encode_of_length_ne hlen] at hw
    cases hw

theorem range_of_encode (h : M.table.Tighter M'.table) (hw : M'.encode m operands = .ok w)
    (he : M.encode m operands = .error e) :
    ∃ (k : LimitKey) (field : Text) (v : Int),
      e = .outOfRange k.mnemonic field v (M.table.limits.get k) ∧
        (M.table.limits.get k).toNat < v ∧ v ≤ (M'.table.limits.get k).toNat := by
  rcases eq_or_ne operands.length m.arity with hlen | hlen
  · obtain ⟨before, f, token, after, hsplit, -, hrefuses, -⟩ := (encode_eq_error_iff hlen).mp he
    have hmem : (f, token) ∈ m.layout.zip operands := by simp [hsplit]
    have hlegal := (exists_encode_iff hlen).mp ⟨w, hw⟩ _ hmem
    obtain ⟨k, v, hk, rfl, hlow, hhigh⟩ := h.range_of_refuses hrefuses hlegal
    obtain rfl := Field.mnemonic_of_literal (List.of_mem_zip hmem).1 hk
    exact ⟨k, f.name, v, rfl, hlow, hhigh⟩
  · rw [encode_of_length_ne hlen] at hw
    cases hw

-- Which mnemonic and operands a line holds does not depend on the machine.
theorem exists_encode_of_encodeLine (hw : M.encodeLine line = .ok w) : ∃ m operands,
    M.encode m operands = .ok w ∧ ∀ M' : Machine, M'.encodeLine line = M'.encode m operands := by
  obtain ⟨i, hi, hi'⟩ := encodeLine_eq_ok_iff.mp hw
  obtain ⟨m, hm, hm'⟩ := encodeTokens_eq_ok_iff.mp hi'
  refine ⟨m, i.operands, hm', fun M' => ?_⟩
  simp only [encodeLine, hi, encodeInstruction, encodeTokens, Mnemonic.parse, hm]

end Machine

theorem Machine.limits_only_gate (M M' : Machine) (h : M.table.Tighter M'.table) (line : Text)
    (w : Word) :
    (M.encodeLine line = .ok w → M'.encodeLine line = .ok w) ∧
    (M'.encodeLine line = .ok w → M.encodeLine line = .ok w ∨
      ∃ (k : LimitKey) (field : Text) (v : Int),
        M.encodeLine line = .error (.outOfRange k.mnemonic field v (M.table.limits.get k)) ∧
          (M.table.limits.get k).toNat < v ∧ v ≤ (M'.table.limits.get k).toNat) := by
  constructor
  · intro hw
    obtain ⟨m, operands, hencode, hline⟩ := exists_encode_of_encodeLine hw
    rw [hline]
    exact encode_of_tighter h hencode
  · intro hw
    obtain ⟨m, operands, hencode, hline⟩ := exists_encode_of_encodeLine hw
    rw [hline]
    cases hfirst : M.encode m operands with
    | error e =>
        obtain ⟨k, field, v, rfl, hbounds⟩ := range_of_encode h hencode hfirst
        exact .inr ⟨k, field, v, rfl, hbounds⟩
    | ok w' =>
        have hsame := encode_of_tighter h hfirst
        rw [hencode] at hsame
        exact .inl hsame.symm

def Machine.tight : Machine :=
  ⟨{ Table.standard with limits := ⟨5, 1023, 0, 1023⟩ }, by decide +kernel⟩

theorem Machine.limits_only_gate_tight :
    tight.table.Tighter standard.table ∧
      standard.encodeLine "ldv b, 5".toList = .ok 337 ∧
      ∃ (k : LimitKey) (field : Text) (v : Int), tight.encodeLine "LDM A, 8".toList =
          .error (.outOfRange k.mnemonic field v (tight.table.limits.get k)) ∧
        (tight.table.limits.get k).toNat < v ∧ v ≤ (standard.table.limits.get k).toNat := by
  have htight : tight.table.Tighter standard.table := ⟨rfl, by intro k; cases k <;> decide⟩
  obtain ⟨hkept, -⟩ := limits_only_gate tight standard htight "ldv b, 5".toList 337
  obtain ⟨-, hgate⟩ := limits_only_gate tight standard htight "LDM A, 8".toList 515
  exact ⟨htight, hkept (by decide +kernel), (hgate (by decide +kernel)).resolve_left
    (by decide +kernel)⟩

end Assembler
