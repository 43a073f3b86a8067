import Assembler.Encoding
import Assembler.Proofs.Layout
import Assembler.Proofs.Literal
import Assembler.Proofs.Register

namespace Assembler

namespace Field

variable {t : Table} {f : Field} {token : Text} {v : Nat}

def Value (t : Table) (f : Field) (token : Text) (v : Nat) : Prop :=
  match f.kind with
  | .register => ∃ r, t.resolve token = .ok r ∧ r.code = v
  | .small _ | .literal _ => Literal.Numeral (Text.trim token) v

theorem value_of_max?_none (h : f.max? t = none) :
    f.Value t token v ↔ ∃ r, t.resolve token = .ok r ∧ r.code = v := by
  cases hk : f.kind with
  | register => simp [Value, hk]
  | small w => simp [max?, hk] at h
  | literal k => simp [max?, hk] at h

theorem value_of_max?_some {max : Word} (h : f.max? t = some max) :
    f.Value t token v ↔ Literal.Numeral (Text.trim token) v := by
  cases hk : f.kind with
  | register => simp [max?, hk] at h
  | small w => simp [Value, hk]
  | literal k => simp [Value, hk]

theorem value_unique {v' : Nat} (h : f.Value t token v) (h' : f.Value t token v') : v = v' := by
  cases hmax : f.max? t with
  | none =>
      obtain ⟨r, hr, rfl⟩ := (value_of_max?_none hmax).mp h
      obtain ⟨r', hr', rfl⟩ := (value_of_max?_none hmax).mp h'
      rw [hr] at hr'
      rw [Except.ok.inj hr']
  | some max =>
      have hn := (value_of_max?_some hmax).mp h
      have hn' := (value_of_max?_some hmax).mp h'
      exact Int.ofNat.inj (Literal.numeral_unique hn hn')

end Field

namespace Table

inductive Reads (t : Table) : List Field → List Text → List Nat → Prop
  | nil : Reads t [] [] []
  | cons {f token v fs tokens vs} : f.Value t token v → Reads t fs tokens vs →
      Reads t (f :: fs) (token :: tokens) (v :: vs)

variable {t : Table} {fs : List Field} {tokens : List Text} {vs : List Nat}

theorem Reads.length_eq (h : t.Reads fs tokens vs) : tokens.length = fs.length := by
  induction h with
  | nil => rfl
  | cons _ _ ih => simp [ih]

theorem Reads.unique {vs' : List Nat} (h : t.Reads fs tokens vs) (h' : t.Reads fs tokens vs') :
    vs = vs' := by
  induction h generalizing vs' with
  | nil =>
      cases h'
      rfl
  | cons hval _ ih =>
      cases h' with
      | cons hval' hrest' => rw [Field.value_unique hval hval', ih hrest']

def word (t : Table) (m : Mnemonic) (vs : List Nat) : Word :=
  t.opcode m ||| Field.storeAll t m.layout vs 0 <<< t.opcodeWidth.toNat

end Table

namespace Machine

theorem fieldValue_register (M : Machine) (m : Mnemonic) {f : Field} (hmax : f.max? M.table = none)
    (token : Text) (x : Word) : M.fieldValue m f token = .ok x ↔
      ∃ r, M.table.resolve token = .ok r ∧ x = BitVec.ofNat 16 r.code := by
  rw [fieldValue, hmax]
  cases hr : M.table.resolve token with
  | error e => simp [Except.map]
  | ok r => simp [Except.map, eq_comm]

theorem fieldValue_literal (M : Machine) (m : Mnemonic) {f : Field} {max : Word}
    (hmax : f.max? M.table = some max) (token : Text) (x : Word) :
    M.fieldValue m f token = .ok x ↔ ∃ v : Nat, Literal.Numeral (Text.trim token) v ∧
      v ≤ max.toNat ∧ x = BitVec.ofNat 16 v := by
  have hword : max.toNat < 65536 := max.isLt
  have hread : ∀ v : Nat, v ≤ max.toNat →
      (Literal.Numeral (Text.trim token) v ↔ Literal.read? (Text.trim token) = some (v : Int)) := by
    intro v hle
    rw [Literal.read?_eq_natCast_iff (by simp only [Literal.greatest]; omega)]
  rw [fieldValue, hmax]
  cases hr : Literal.read? (Text.trim token) with
  | none =>
      simp only [reduceCtorEq, false_iff]
      rintro ⟨v, hnum, hle, -⟩
      rw [hread v hle, hr] at hnum
      cases hnum
  | some value =>
      by_cases hout : value < 0 ∨ max.toNat < value
      · simp only [hout, if_true, reduceCtorEq, false_iff]
        rintro ⟨v, hnum, hle, -⟩
        rw [hread v hle, hr, Option.some.injEq] at hnum
        omega
      · obtain ⟨v, rfl⟩ := Int.eq_ofNat_of_zero_le (show 0 ≤ value by omega)
        simp only [hout, if_false, Except.ok.injEq, BitVec.ofInt_natCast]
        constructor
        · rintro rfl
          exact ⟨v, (hread v (by omega)).mpr hr, by omega, rfl⟩
        · rintro ⟨v', hnum, hle, rfl⟩
          rw [hread v' hle, hr, Option.some.injEq, Int.natCast_inj] at hnum
          rw [hnum]

theorem fieldValue_eq_ok_iff (M : Machine) (m : Mnemonic) (f : Field) (token : Text) (x : Word) :
    M.fieldValue m f token = .ok x ↔
      ∃ v, f.Value M.table token v ∧ f.Admits M.table v ∧ x = BitVec.ofNat 16 v := by
  cases hmax : f.max? M.table with
  | none =>
      rw [M.fieldValue_register m hmax]
      simp only [Field.value_of_max?_none hmax, Field.Admits, hmax]
      constructor
      · rintro ⟨r, hr, rfl⟩
        exact ⟨r.code, ⟨r, hr, rfl⟩, M.valid.resolve_code hr, rfl⟩
      · rintro ⟨_, ⟨r, hr, rfl⟩, -, rfl⟩
        exact ⟨r, hr, rfl⟩
  | some max =>
      rw [M.fieldValue_literal m hmax]
      simp only [Field.value_of_max?_some hmax, Field.Admits, hmax]

theorem pack_map_tokens (M : Machine) (m : Mnemonic) {g : Text → Text} {e : Error → Error}
    (h : ∀ f token, M.fieldValue m f (g token) = (M.fieldValue m f token).mapError e)
    (fs : List Field) (tokens : List Text) (area : Word) :
    M.pack m (fs.zip (tokens.map g)) area = (M.pack m (fs.zip tokens) area).mapError e := by
  induction fs generalizing tokens area with
  | nil => rfl
  | cons f fs ih =>
      cases tokens with
      | nil => rfl
      | cons token tokens =>
          rw [List.map_cons, List.zip_cons_cons, List.zip_cons_cons, pack, pack, h]
          cases M.fieldValue m f token with
          | error err => rfl
          | ok value => exact ih tokens _

theorem pack_eq_ok_iff (M : Machine) (m : Mnemonic) {fs : List Field} {tokens : List Text}
    (hlen : tokens.length = fs.length) (area area' : Word) :
    M.pack m (fs.zip tokens) area = .ok area' ↔ ∃ vs, M.table.Reads fs tokens vs ∧
      List.Forall₂ (Field.Admits M.table) fs vs ∧ area' = Field.storeAll M.table fs vs area := by
  induction fs generalizing tokens area with
  | nil =>
      obtain rfl : tokens = [] := List.length_eq_zero_iff.mp hlen
      simp only [List.zip_nil_right, pack, Except.ok.injEq]
      constructor
      · rintro rfl
        exact ⟨[], .nil, .nil, rfl⟩
      · rintro ⟨vs, hreads, -, rfl⟩
        cases hreads
        rfl
  | cons f fs ih =>
      cases tokens with
      | nil => simp at hlen
      | cons token tokens =>
          have hrest : tokens.length = fs.length := by simpa using hlen
          rw [List.zip_cons_cons, pack]
          constructor
          · intro h
            cases hf : M.fieldValue m f token with
            | error e => simp [hf] at h
            | ok x =>
                obtain ⟨v, hval, hadm, rfl⟩ := (M.fieldValue_eq_ok_iff m f token x).mp hf
                rw [hf] at h
                obtain ⟨vs, hreads, hall, rfl⟩ := (ih hrest _).mp h
                exact ⟨v :: vs, .cons hval hreads, .cons hadm hall, rfl⟩
          · rintro ⟨_, hreads, hall, rfl⟩
            cases hreads with
            | @cons _ _ v _ _ vs hval hreads =>
                cases hall with
                | cons hadm hall =>
                    rw [(M.fieldValue_eq_ok_iff m f token _).mpr ⟨v, hval, hadm, rfl⟩]
                    exact (ih hrest _).mpr ⟨vs, hreads, hall, rfl⟩

theorem encode_eq_ok_iff (M : Machine) (m : Mnemonic) (operands : List Text) (w : Word) :
    M.encode m operands = .ok w ↔ ∃ vs, M.table.Reads m.layout operands vs ∧
      List.Forall₂ (Field.Admits M.table) m.layout vs ∧ w = M.table.word m vs := by
  by_cases hlen : operands.length = m.layout.length
  · rw [encode, if_neg (by simpa [Mnemonic.arity] using hlen), M.valid.get?_opcode m]
    constructor
    · intro h
      cases hp : M.pack m (m.layout.zip operands) 0 with
      | error e =>
          rw [hp] at h
          cases h
      | ok area =>
          obtain ⟨vs, hreads, hall, rfl⟩ := (M.pack_eq_ok_iff m hlen 0 area).mp hp
          rw [hp] at h
          exact ⟨vs, hreads, hall, (Except.ok.inj h).symm⟩
    · rintro ⟨vs, hreads, hall, rfl⟩
      have hp := (M.pack_eq_ok_iff m hlen 0 _).mpr ⟨vs, hreads, hall, rfl⟩
      simp only [hp, Except.map, Table.word]
  · rw [encode, if_pos (by simpa [Mnemonic.arity] using hlen)]
    simp only [reduceCtorEq, false_iff]
    rintro ⟨vs, hreads, -⟩
    exact hlen hreads.length_eq

end Machine

namespace Table

variable {t : Table} {m : Mnemonic} {vs : List Nat}

theorem toNat_storeAll_layout (hv : t.Valid) (hadm : List.Forall₂ (Field.Admits t) m.layout vs) :
    (Field.storeAll t m.layout vs 0).toNat = Field.placed 0 m.layout vs ∧
      (Field.storeAll t m.layout vs 0).toNat < 2 ^ 12 := by
  have hzero : (0 : Word).toNat = 0 := rfl
  have h := Field.toNat_storeAll hv (m.layout_ascending hv) hadm 0 (by decide)
  rwa [hzero, Nat.zero_add, hv.operandWidth_eq] at h

theorem toNat_word (hv : t.Valid) (hadm : List.Forall₂ (Field.Admits t) m.layout vs) :
    (t.word m vs).toNat = (t.opcode m).toNat + Field.placed t.opcodeWidth.toNat m.layout vs := by
  obtain ⟨hsum, hlt⟩ := toNat_storeAll_layout hv hadm
  rw [word, Word.toNat_join (hv.opcode_lt m) (by rw [hv.opcodeWidth_eq]; omega), hsum,
    Field.placed_mul]

theorem toNat_word_mod (hv : t.Valid) (hadm : List.Forall₂ (Field.Admits t) m.layout vs) :
    (t.word m vs).toNat % 2 ^ t.opcodeWidth.toNat = (t.opcode m).toNat := by
  rw [toNat_word hv hadm, ← Field.placed_mul, Nat.add_mul_mod_self_right]
  exact Nat.mod_eq_of_lt (hv.opcode_lt m)

theorem read_word (hv : t.Valid) (hadm : List.Forall₂ (Field.Admits t) m.layout vs) :
    ∀ p ∈ m.layout.zip vs,
      (t.word m vs).read (t.opcodeWidth.toNat + p.1.shift) (p.1.width t) = p.2 := by
  intro p hp
  have hfit := ((m.layout_ascending hv).mem (List.of_mem_zip hp).1).2.2
  rw [hv.operandWidth_eq] at hfit
  rw [word, Word.read_join (hv.opcode_lt m) (by rw [hv.opcodeWidth_eq]; omega)]
  exact Field.read_storeAll hv (m.layout_ascending hv) hadm 0 p hp

theorem getLsbD_word (hv : t.Valid) (m : Mnemonic) (vs : List Nat) {i : Nat}
    (h : (t.word m vs).getLsbD i = true) :
    i < t.opcodeWidth.toNat ∨ ∃ f ∈ m.layout, t.opcodeWidth.toNat + f.shift ≤ i ∧
      i < t.opcodeWidth.toNat + f.shift + f.width t := by
  by_cases hi : i < t.opcodeWidth.toNat
  · exact .inl hi
  · right
    by_contra hno
    have hcov : ∀ f ∈ m.layout, ¬f.Covers t (i - t.opcodeWidth.toNat) := by
      rintro f hf ⟨hlow, hhigh⟩
      exact hno ⟨f, hf, by omega, by omega⟩
    rw [word, Word.getLsbD_join (hv.opcode_lt m), if_neg hi, Field.getLsbD_storeAll _ _ _ hcov] at h
    simp at h

end Table

theorem Machine.encode_places_fields (M : Machine) (m : Mnemonic) (operands : List Text) (w : Word)
    (h : M.encode m operands = .ok w) :
    (∀ f ∈ m.layout, 0 < f.width M.table ∧ f.shift + f.width M.table ≤ 16) ∧
      (m.layout.Pairwise fun f g => f.shift + f.width M.table ≤ g.shift) ∧
      ∃ opcode values, M.table.opcodes.get? m = some opcode ∧
        M.table.Reads m.layout operands values ∧
        w.toNat = opcode.toNat + (List.zipWith
          (fun f v => v * 2 ^ (M.table.opcodeWidth.toNat + f.shift)) m.layout values).sum ∧
        w.toNat < 2 ^ M.table.wordWidth.toNat ∧
        w.toNat % 2 ^ M.table.opcodeWidth.toNat = opcode.toNat ∧
        (∀ p ∈ m.layout.zip values,
          w.toNat >>> (M.table.opcodeWidth.toNat + p.1.shift) % 2 ^ p.1.width M.table = p.2) ∧
        ∀ i, w.getLsbD i = true → i < M.table.opcodeWidth.toNat ∨
          ∃ f ∈ m.layout, M.table.opcodeWidth.toNat + f.shift ≤ i ∧
            i < M.table.opcodeWidth.toNat + f.shift + f.width M.table := by
  have hv := M.valid
  have hasc := m.layout_ascending hv
  obtain ⟨vs, hreads, hadm, rfl⟩ := (M.encode_eq_ok_iff m operands w).mp h
  refine ⟨fun f hf => ⟨(hasc.mem hf).2.1, hasc.fits hv hf⟩, hasc.pairwise, M.table.opcode m, vs,
    hv.get?_opcode m, hreads, Table.toNat_word hv hadm, ?_, Table.toNat_word_mod hv hadm, ?_,
    fun i => Table.getLsbD_word hv m vs⟩
  · rw [hv.wordWidth_eq]
    exact (M.table.word m vs).isLt
  · intro p hp
    have hread := Table.read_word hv hadm p hp
    rwa [Word.read, Nat.one_shiftLeft] at hread

theorem Machine.encode_places_fields_ath :
    standard.encode .ath [['b'], ['C'], ['5'], ['1'], ['+', '7']] = .ok 62870 ∧
      ∃ opcode values, Table.standard.opcodes.get? .ath = some opcode ∧
        Table.standard.Reads Mnemonic.ath.layout [['b'], ['C'], ['5'], ['1'], ['+', '7']] values ∧
        62870 = opcode.toNat + (List.zipWith (fun f v => v * 2 ^ (4 + f.shift))
          Mnemonic.ath.layout values).sum := by
  have h : standard.encode .ath [['b'], ['C'], ['5'], ['1'], ['+', '7']] = .ok 62870 := by
    decide +kernel
  obtain ⟨-, -, opcode, values, hop, hreads, hsum, -⟩ := encode_places_fields _ _ _ _ h
  exact ⟨h, opcode, values, hop, hreads, hsum⟩

end Assembler
