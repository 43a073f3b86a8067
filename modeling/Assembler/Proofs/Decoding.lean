import Assembler.Proofs.Encoding

namespace Assembler

namespace Field

def stored (t : Table) (w : Word) (f : Field) : Nat :=
  w.read (t.opcodeWidth.toNat + f.shift) (f.width t)

def written (t : Table) (f : Field) (v : Nat) : Text :=
  match f.kind with
  | .register => (t.registerName? v).getD ['0']
  | .small _ | .literal _ => Text.decimal v

end Field

namespace Table

variable {t : Table} {m : Mnemonic} {vs : List Nat} {w : Word}

structure Image (t : Table) (m : Mnemonic) (w : Word) : Prop where
  clear : ∀ i, w.getLsbD i = true → i < t.opcodeWidth.toNat ∨
    ∃ f ∈ m.layout, t.opcodeWidth.toNat + f.shift ≤ i ∧
      i < t.opcodeWidth.toNat + f.shift + f.width t
  admits : ∀ f ∈ m.layout, f.Admits t (f.stored t w)

def operandsOf (t : Table) (m : Mnemonic) (w : Word) : List Text :=
  m.layout.map fun f => f.written t (f.stored t w)

theorem Valid.resolve_written (hv : t.Valid) {v : Nat} (h : v = 0 ∨ v < t.registers.length) :
    ∃ r, t.resolve ((t.registerName? v).getD ['0']) = .ok r ∧ r.code = v := by
  cases hr : t.registerName? v with
  | some name =>
      have hnamed : t.Named name v := named_register hr
      refine ⟨.register v, ?_, rfl⟩
      rw [hv.resolve_register, Option.getD_some, Text.trim_eq_self (hv.named_noBlank hnamed)]
      exact hnamed
  | none =>
      have hlen : t.registers.length ≤ v := List.getElem?_eq_none_iff.mp hr
      refine ⟨.unused, hv.resolve_unused.mpr rfl, ?_⟩
      rw [RegisterOperand.code]
      omega

theorem Valid.value_written (hv : t.Valid) {f : Field} {v : Nat} (h : f.Admits t v) :
    f.Value t (f.written t v) v := by
  cases hk : f.kind with
  | register =>
      simp only [Field.Admits, Field.max?, hk] at h
      simp only [Field.Value, Field.written, hk]
      exact hv.resolve_written h
  | small w =>
      simp only [Field.Value, Field.written, hk, Literal.trim_decimal]
      exact Literal.numeral_decimal v
  | literal k =>
      simp only [Field.Value, Field.written, hk, Literal.trim_decimal]
      exact Literal.numeral_decimal v

theorem Valid.reads_written (hv : t.Valid) (fs : List Field) (value : Field → Nat)
    (h : ∀ f ∈ fs, f.Admits t (value f)) :
    t.Reads fs (fs.map fun f => f.written t (value f)) (fs.map value) := by
  induction fs with
  | nil => exact .nil
  | cons f fs ih =>
      exact .cons (hv.value_written (h f (List.mem_cons_self ..)))
        (ih fun g hg => h g (List.mem_cons_of_mem f hg))

theorem eq_map_stored (hv : t.Valid) (hadm : List.Forall₂ (Field.Admits t) m.layout vs) :
    vs = m.layout.map (Field.stored t (t.word m vs)) := by
  have hread := read_word hv hadm
  have hlen := hadm.length_eq
  apply List.ext_getElem (by simpa using hlen.symm)
  intro i hi hi'
  rw [List.getElem_map]
  have hmem : (m.layout[i], vs[i]) ∈ m.layout.zip vs := by
    rw [List.mem_iff_getElem]
    exact ⟨i, by simp [hlen, hi], by simp⟩
  exact (hread _ hmem).symm

theorem forall₂_admits_map (fs : List Field) (value : Field → Nat) :
    List.Forall₂ (Field.Admits t) fs (fs.map value) ↔ ∀ f ∈ fs, f.Admits t (value f) := by
  rw [List.forall₂_map_right_iff, List.forall₂_same]

theorem image_word (hv : t.Valid) (hadm : List.Forall₂ (Field.Admits t) m.layout vs) :
    t.Image m (t.word m vs) := by
  refine ⟨fun i => getLsbD_word hv m vs, ?_⟩
  rw [← forall₂_admits_map, ← eq_map_stored hv hadm]
  exact hadm

theorem Image.ext {w' : Word} (h : t.Image m w) (h' : t.Image m w')
    (hmod : w.toNat % 2 ^ t.opcodeWidth.toNat = w'.toNat % 2 ^ t.opcodeWidth.toNat)
    (hread : ∀ f ∈ m.layout, f.stored t w = f.stored t w') : w = w' := by
  apply BitVec.eq_of_getLsbD_eq
  intro i _
  by_cases hi : i < t.opcodeWidth.toNat
  · have hbit := congrArg (Nat.testBit · i) hmod
    simp only [Nat.testBit_mod_two_pow, hi, decide_true, Bool.true_and] at hbit
    exact hbit
  by_cases hcov : ∃ f ∈ m.layout, t.opcodeWidth.toNat + f.shift ≤ i ∧
      i < t.opcodeWidth.toNat + f.shift + f.width t
  · obtain ⟨f, hf, hlow, hhigh⟩ := hcov
    exact Word.getLsbD_eq_of_read_eq (hread f hf) hlow hhigh
  · have hclear : ∀ {x : Word}, t.Image m x → x.getLsbD i = false := by
      intro x hx
      rw [Bool.eq_false_iff]
      intro hbit
      exact (hx.clear i hbit).elim hi hcov
    rw [hclear h, hclear h']

theorem Image.eq_word (hv : t.Valid) (h : t.Image m w)
    (hop : w.toNat % 2 ^ t.opcodeWidth.toNat = (t.opcode m).toNat) :
    w = t.word m (m.layout.map (Field.stored t w)) := by
  have hadm := (forall₂_admits_map m.layout (Field.stored t w)).mpr h.admits
  apply h.ext (image_word hv hadm)
  · rw [hop, toNat_word_mod hv hadm]
  · intro f hf
    exact List.map_inj_left.mp (eq_map_stored hv hadm) f hf

theorem Valid.exists_opcode_eq (hv : t.Valid) (w : Word) :
    ∃ m, (t.opcode m).toNat = w.toNat % 2 ^ t.opcodeWidth.toNat := by
  have hlt : w.toNat % 2 ^ t.opcodeWidth.toNat < 16 := by
    rw [hv.opcodeWidth_eq]
    omega
  obtain ⟨m, hm⟩ := hv.opcode_bijective.2 ⟨_, hlt⟩
  exact ⟨m, congrArg Fin.val hm⟩

theorem Valid.get?_eq_some_iff (hv : t.Valid) {m m' : Mnemonic} {n : Nat}
    (h : (t.opcode m).toNat = n) :
    t.opcodes.get? m' = some (BitVec.ofNat 16 n) ↔ m' = m := by
  rw [← h, BitVec.ofNat_toNat, BitVec.setWidth_eq, ← hv.get?_opcode m]
  exact hv.opcode_inj.eq_iff

end Table

namespace Machine

theorem encode_operandsOf (M : Machine) {m : Mnemonic} {w : Word} (h : M.table.Image m w)
    (hop : w.toNat % 2 ^ M.table.opcodeWidth.toNat = (M.table.opcode m).toNat) :
    M.encode m (M.table.operandsOf m w) = .ok w := by
  rw [encode_eq_ok_iff]
  exact ⟨_, M.valid.reads_written m.layout (Field.stored M.table w) h.admits,
    (Table.forall₂_admits_map m.layout _).mpr h.admits, h.eq_word M.valid hop⟩

theorem image_of_encode (M : Machine) {m : Mnemonic} {operands : List Text} {w : Word}
    (h : M.encode m operands = .ok w) : M.table.Image m w ∧
      w.toNat % 2 ^ M.table.opcodeWidth.toNat = (M.table.opcode m).toNat := by
  obtain ⟨vs, -, hadm, rfl⟩ := (M.encode_eq_ok_iff m operands w).mp h
  exact ⟨Table.image_word M.valid hadm, Table.toNat_word_mod M.valid hadm⟩

theorem encode_eq_iff (M : Machine) {m m' : Mnemonic} {operands operands' : List Text} {w w' : Word}
    (h : M.encode m operands = .ok w) (h' : M.encode m' operands' = .ok w') :
    w = w' ↔ m = m' ∧ ∃ values, M.table.Reads m.layout operands values ∧
      M.table.Reads m'.layout operands' values := by
  have hv := M.valid
  obtain ⟨vs, hreads, hadm, rfl⟩ := (M.encode_eq_ok_iff m operands w).mp h
  obtain ⟨vs', hreads', hadm', rfl⟩ := (M.encode_eq_ok_iff m' operands' w').mp h'
  constructor
  · intro heq
    have hop := Table.toNat_word_mod hv hadm
    rw [heq, Table.toNat_word_mod hv hadm'] at hop
    obtain rfl := hv.opcode_injective (BitVec.eq_of_toNat_eq hop.symm)
    have hvs := Table.eq_map_stored hv hadm
    rw [heq, ← Table.eq_map_stored hv hadm'] at hvs
    exact ⟨rfl, vs, hreads, hvs ▸ hreads'⟩
  · rintro ⟨rfl, values, hval, hval'⟩
    rw [hreads.unique hval, hreads'.unique hval']

theorem encode_uniquely_decodable (M : Machine) :
    (∀ m m' operands operands' w w', M.encode m operands = .ok w → M.encode m' operands' = .ok w' →
      (w = w' ↔ m = m' ∧ ∃ values, M.table.Reads m.layout operands values ∧
        M.table.Reads m'.layout operands' values)) ∧
    ∀ w : Word, ∃ m,
      (∀ m', M.table.opcodes.get? m' =
        some (BitVec.ofNat 16 (w.toNat % 2 ^ M.table.opcodeWidth.toNat)) ↔ m' = m) ∧
      ((∃ m' operands, M.encode m' operands = .ok w) ↔ M.table.Image m w) ∧
      (M.table.Image m w → M.encode m (M.table.operandsOf m w) = .ok w) := by
  refine ⟨fun m m' operands operands' w w' h h' => M.encode_eq_iff h h', ?_⟩
  intro w
  obtain ⟨m, hop⟩ := M.valid.exists_opcode_eq w
  refine ⟨m, fun m' => M.valid.get?_eq_some_iff hop, ⟨?_, ?_⟩,
    fun himage => M.encode_operandsOf himage hop.symm⟩
  · rintro ⟨m', operands, h⟩
    obtain ⟨himage, hop'⟩ := M.image_of_encode h
    obtain rfl := M.valid.opcode_injective (BitVec.eq_of_toNat_eq (hop.trans hop'))
    exact himage
  · intro himage
    exact ⟨m, _, M.encode_operandsOf himage hop.symm⟩

theorem encode_uniquely_decodable_standard :
    standard.encode .mov [[' ', 'a'], ['B']] = .ok 0x40 ∧
      standard.encode .mov [['A'], ['b', '\t']] = .ok 0x40 ∧
      (∃ values, Table.standard.Reads Mnemonic.mov.layout [[' ', 'a'], ['B']] values ∧
        Table.standard.Reads Mnemonic.mov.layout [['A'], ['b', '\t']] values) := by
  have h : standard.encode .mov [[' ', 'a'], ['B']] = .ok 0x40 := by decide +kernel
  have h' : standard.encode .mov [['A'], ['b', '\t']] = .ok 0x40 := by decide +kernel
  exact ⟨h, h', (((encode_uniquely_decodable standard).1 _ _ _ _ _ _ h h').mp rfl).2⟩

end Machine

end Assembler
