import Assembler.Proofs.Validity

namespace Assembler

section Loops

variable {α ε σ : Type} {fault : List α → α → ε → Prop} {done xs : List α} {x : α} {e : ε}

-- An element is judged together with the elements before it.
def Clear (fault : List α → α → ε → Prop) (xs : List α) : Prop :=
  ∀ before x after, xs = before ++ x :: after → ∀ e, ¬fault before x e

def FirstFault (fault : List α → α → ε → Prop) (xs : List α) (e : ε) : Prop :=
  ∃ before x after, xs = before ++ x :: after ∧ fault before x e ∧ Clear fault before

@[simp] theorem clear_nil : Clear fault [] := by
  intro before x after h
  simp at h

@[simp] theorem clear_concat : Clear fault (xs ++ [x]) ↔ Clear fault xs ∧ ∀ e, ¬fault xs x e := by
  constructor
  · intro h
    refine ⟨?_, h xs x [] rfl⟩
    rintro before y after rfl
    exact h before y (after ++ [x]) (by simp)
  · rintro ⟨hxs, hx⟩ before y after hsplit
    rcases List.eq_nil_or_concat' after with rfl | ⟨after, z, rfl⟩
    · obtain ⟨rfl, hlast⟩ := List.append_inj' hsplit rfl
      obtain rfl : x = y := List.head_eq_of_cons_eq hlast
      exact hx
    · rw [← List.cons_append, ← List.append_assoc] at hsplit
      exact hxs before y after (List.append_inj' hsplit rfl).1

theorem Clear.not_firstFault (h : Clear fault xs) : ¬FirstFault fault xs e := by
  rintro ⟨before, x, after, hsplit, hx, -⟩
  exact h before x after hsplit e hx

theorem firstFault_append (hdone : Clear fault done) {e₀ : ε} (hx : fault done x e₀)
    (rest : List α) : FirstFault fault (done ++ x :: rest) e ↔ fault done x e := by
  constructor
  · rintro ⟨before, y, after, hsplit, hy, hbefore⟩
    rcases List.append_eq_append_iff.mp hsplit with ⟨mid, rfl, hmid⟩ | ⟨mid, rfl, hmid⟩
    · cases mid with
      | nil =>
          obtain rfl : x = y := List.head_eq_of_cons_eq hmid
          simpa using hy
      | cons z mid =>
          obtain rfl : x = z := List.head_eq_of_cons_eq hmid
          exact absurd hx (hbefore done x mid rfl e₀)
    · cases mid with
      | nil =>
          obtain rfl : y = x := List.head_eq_of_cons_eq hmid
          simpa using hy
      | cons z mid =>
          obtain rfl : y = z := List.head_eq_of_cons_eq hmid
          exact absurd hy (hdone before y mid rfl e)
  · intro h
    exact ⟨done, x, rest, rfl, h, hdone⟩

-- `Seen` ties the state of a loop to the elements it has passed; a fault ends the loop at once.
structure Loop (fault : List α → α → ε → Prop) (Seen : List α → σ → Prop)
    (check : σ → List α → Except ε Unit) : Prop where
  nil : ∀ s, check s [] = .ok ()
  cons : ∀ {done s}, Seen done s → ∀ x rest,
    (∃ e, (∀ e', fault done x e' ↔ e' = e) ∧ check s (x :: rest) = .error e) ∨
      (∀ e, ¬fault done x e) ∧ ∃ s', Seen (done ++ [x]) s' ∧ check s (x :: rest) = check s' rest

namespace Loop

variable {Seen : List α → σ → Prop} {check : σ → List α → Except ε Unit} {s : σ}

theorem run (hl : Loop fault Seen check) (hs : Seen done s) (hdone : Clear fault done)
    (rest : List α) :
    (check s rest = .ok () ∧ Clear fault (done ++ rest)) ∨
      ∃ e, check s rest = .error e ∧ ∀ e', FirstFault fault (done ++ rest) e' ↔ e' = e := by
  induction rest generalizing done s with
  | nil => exact .inl ⟨hl.nil s, by simpa using hdone⟩
  | cons x rest ih =>
      rcases hl.cons hs x rest with ⟨e, hfault, hcheck⟩ | ⟨hclear, s', hs', hcheck⟩
      · refine .inr ⟨e, hcheck, fun e' => ?_⟩
        rw [firstFault_append hdone ((hfault e).mpr rfl), hfault]
      · have hnext := ih hs' (clear_concat.mpr ⟨hdone, hclear⟩)
        rwa [List.append_assoc, List.singleton_append, ← hcheck] at hnext

theorem eq_ok_iff (hl : Loop fault Seen check) (hs : Seen [] s) :
    check s xs = .ok () ↔ Clear fault xs := by
  rcases hl.run hs clear_nil xs with ⟨hok, hclear⟩ | ⟨e, herror, hfirst⟩
  · exact iff_of_true hok hclear
  · have hfault : FirstFault fault xs e := (hfirst e).mpr rfl
    simp only [herror, reduceCtorEq, false_iff]
    exact fun hclear => hclear.not_firstFault hfault

theorem eq_error_iff (hl : Loop fault Seen check) (hs : Seen [] s) :
    check s xs = .error e ↔ FirstFault fault xs e := by
  rcases hl.run hs clear_nil xs with ⟨hok, hclear⟩ | ⟨e', herror, hfirst⟩
  · simp only [hok, reduceCtorEq, false_iff]
    exact hclear.not_firstFault
  · rw [herror, Except.error.injEq, eq_comm]
    exact (hfirst e).symm

end Loop

end Loops

namespace Table

variable {t : Table} {e : TableError}

inductive WidthFault (t : Table) : TableError → Prop
  | noRoom (h : t.opcodeWidth.toNat = 0 ∨ 16 < t.wordWidth.toNat ∨
      t.opcodeWidth.toNat + 12 < 2 ^ 32 ∧ t.wordWidth.toNat < t.opcodeWidth.toNat + 12) :
      WidthFault t (.badWidths (.noRoom t.opcodeWidth t.wordWidth))
  | overflow (hword : t.wordWidth.toNat ≤ 16) (hsum : 2 ^ 32 ≤ t.opcodeWidth.toNat + 12) :
      WidthFault t (.badWidths (.overflow t.opcodeWidth))

inductive OpcodeFault (t : Table) (before : List Mnemonic) (m : Mnemonic) : TableError → Prop
  | missing (h : t.opcodes.get? m = none) : OpcodeFault t before m (.missingMnemonic m)
  | tooWide {o : Word} (h : t.opcodes.get? m = some o) (hwide : 2 ^ t.opcodeWidth.toNat ≤ o.toNat) :
      OpcodeFault t before m (.opcodeTooWide m o t.opcodeWidth)
  | duplicate {o : Word} {earlier : Mnemonic} (h : t.opcodes.get? m = some o)
      (hfits : o.toNat < 2 ^ t.opcodeWidth.toNat) (hmem : earlier ∈ before)
      (hheld : t.opcodes.get? earlier = some o) : OpcodeFault t before m (.duplicateOpcode o)

def CountFault (t : Table) (e : TableError) : Prop :=
  4 < t.registers.length ∧ e = .tooManyRegisters t.registers.length

inductive RegisterFault (before : List Text) (name : Text) : TableError → Prop
  | badName (h : ¬Identifier name) : RegisterFault before name (.badRegisterName name)
  | duplicate {earlier : Text} (h : Identifier name) (hmem : earlier ∈ before)
      (hsame : Text.EqualUpToCase earlier name) :
      RegisterFault before name (.duplicateRegister name)

def LimitFault (t : Table) (_ : List Mnemonic) (m : Mnemonic) (e : TableError) : Prop :=
  ∃ max, t.limit? m = some max ∧ 2 ^ t.literalWidth ≤ max.toNat ∧
    e = .limitTooWide m max t.literalWidth

inductive Reports (t : Table) (e : TableError) : Prop
  | widths (h : t.WidthFault e) : Reports t e
  | opcodes (hwidths : ∀ e, ¬t.WidthFault e) (h : FirstFault t.OpcodeFault Mnemonic.all e) :
      Reports t e
  | count (hwidths : ∀ e, ¬t.WidthFault e) (hopcodes : Clear t.OpcodeFault Mnemonic.all)
      (h : t.CountFault e) : Reports t e
  | registers (hwidths : ∀ e, ¬t.WidthFault e) (hopcodes : Clear t.OpcodeFault Mnemonic.all)
      (hcount : ∀ e, ¬t.CountFault e) (h : FirstFault RegisterFault t.registers e) : Reports t e
  | limits (hwidths : ∀ e, ¬t.WidthFault e) (hopcodes : Clear t.OpcodeFault Mnemonic.all)
      (hcount : ∀ e, ¬t.CountFault e) (hregisters : Clear RegisterFault t.registers)
      (h : FirstFault t.LimitFault Mnemonic.all e) : Reports t e

theorem widthFault_iff : t.WidthFault e ↔
    ((t.opcodeWidth.toNat = 0 ∨ 16 < t.wordWidth.toNat ∨
        t.opcodeWidth.toNat + 12 < 2 ^ 32 ∧ t.wordWidth.toNat < t.opcodeWidth.toNat + 12) ∧
      e = .badWidths (.noRoom t.opcodeWidth t.wordWidth)) ∨
    t.wordWidth.toNat ≤ 16 ∧ 2 ^ 32 ≤ t.opcodeWidth.toNat + 12 ∧
      e = .badWidths (.overflow t.opcodeWidth) := by
  constructor
  · intro h
    cases h with
    | noRoom h => exact .inl ⟨h, rfl⟩
    | overflow hword hsum => exact .inr ⟨hword, hsum, rfl⟩
  · rintro (⟨h, rfl⟩ | ⟨hword, hsum, rfl⟩)
    · exact .noRoom h
    · exact .overflow hword hsum

theorem checkWidths_eq_error_iff : t.checkWidths = .error e ↔ t.WidthFault e := by
  simp only [checkWidths, opcodeWidth_eq_zero_iff, widthFault_iff]
  split
  · rename_i hbad
    rw [Except.error.injEq, eq_comm]
    constructor
    · rintro rfl
      exact .inl ⟨by omega, rfl⟩
    · rintro (⟨-, rfl⟩ | ⟨hword, hsum, -⟩)
      · rfl
      · omega
  · rename_i hgood
    cases hneeded : t.neededWidth? with
    | none =>
        have hover := neededWidth?_eq_none_iff.mp hneeded
        rw [leastOperandWidth] at hover
        rw [Except.error.injEq, eq_comm, or_iff_right (by omega), and_iff_right (by omega),
          and_iff_right hover]
    | some needed =>
        have hsum : t.opcodeWidth.toNat + 12 = needed.toNat := (toNat_of_neededWidth? hneeded).symm
        have hfits := needed.toNat_lt
        simp only [hsum, hfits, UInt32.lt_iff_toNat_lt, true_and]
        rw [or_iff_left (by omega)]
        by_cases hroom : t.wordWidth.toNat < needed.toNat
        · simp [hroom, eq_comm]
        · rw [if_neg hroom]
          simp only [reduceCtorEq, false_iff]
          rintro ⟨hbad, -⟩
          omega

section Opcodes

variable {before : List Mnemonic} {m : Mnemonic}

theorem opcodeFault_of_none (hm : t.opcodes.get? m = none) :
    t.OpcodeFault before m e ↔ e = .missingMnemonic m := by
  constructor
  · intro h
    cases h with
    | missing => rfl
    | tooWide h => simp [hm] at h
    | duplicate h => simp [hm] at h
  · rintro rfl
    exact .missing hm

theorem opcodeFault_of_some {o : Word} (hm : t.opcodes.get? m = some o) :
    t.OpcodeFault before m e ↔
      (2 ^ t.opcodeWidth.toNat ≤ o.toNat ∧ e = .opcodeTooWide m o t.opcodeWidth) ∨
        o.toNat < 2 ^ t.opcodeWidth.toNat ∧
          (∃ earlier ∈ before, t.opcodes.get? earlier = some o) ∧ e = .duplicateOpcode o := by
  constructor
  · intro h
    cases h with
    | missing h => simp [hm] at h
    | tooWide h hwide =>
        obtain rfl := Option.some.inj (hm.symm.trans h)
        exact .inl ⟨hwide, rfl⟩
    | duplicate h hfits hmem hheld =>
        obtain rfl := Option.some.inj (hm.symm.trans h)
        exact .inr ⟨hfits, ⟨_, hmem, hheld⟩, rfl⟩
  · rintro (⟨hwide, rfl⟩ | ⟨hfits, ⟨earlier, hmem, hheld⟩, rfl⟩)
    · exact .tooWide hm hwide
    · exact .duplicate hm hfits hmem hheld

theorem opcodes_loop (t : Table) :
    Loop t.OpcodeFault (fun done seen => ∀ o, o ∈ seen ↔ ∃ m ∈ done, t.opcodes.get? m = some o)
      t.checkOpcodes where
  nil _ := rfl
  cons {done seen} hseen m rest := by
    rw [checkOpcodes]
    cases hm : t.opcodes.get? m with
    | none => exact .inl ⟨_, fun e => opcodeFault_of_none hm, rfl⟩
    | some o =>
        simp only [opcodeFault_of_some hm, ne_eq, shiftRight_eq_zero_iff, ← hseen o]
        rcases Nat.lt_or_ge o.toNat (2 ^ t.opcodeWidth.toNat) with hfits | hwide
        · by_cases hheld : o ∈ seen
          · exact .inl ⟨.duplicateOpcode o, by simp [hfits, hheld], by simp [hfits, hheld]⟩
          · refine .inr ⟨by simp [hfits, hheld], o :: seen, ?_, by simp [hfits, hheld]⟩
            intro o'
            simp [hseen, hm, or_comm, eq_comm]
        · exact .inl ⟨.opcodeTooWide m o t.opcodeWidth, by simp [hwide], by simp [hwide]⟩

end Opcodes

section Registers

variable {before : List Text} {name : Text}

theorem registerFault_iff :
    RegisterFault before name e ↔
      (isIdentifier name = false ∧ e = .badRegisterName name) ∨
        isIdentifier name = true ∧
          (∃ earlier ∈ before, Text.upperCase earlier = Text.upperCase name) ∧
            e = .duplicateRegister name := by
  simp only [Text.upperCase_eq_iff, isIdentifier_iff, ← Bool.not_eq_true]
  constructor
  · intro h
    cases h with
    | badName h => exact .inl ⟨h, rfl⟩
    | duplicate h hmem hsame => exact .inr ⟨h, ⟨_, hmem, hsame⟩, rfl⟩
  · rintro (⟨h, rfl⟩ | ⟨h, ⟨earlier, hmem, hsame⟩, rfl⟩)
    · exact .badName h
    · exact .duplicate h hmem hsame

theorem registers_loop :
    Loop RegisterFault
      (fun done seen => ∀ u, u ∈ seen ↔ ∃ name ∈ done, Text.upperCase name = u) checkNames where
  nil _ := rfl
  cons {done seen} hseen name rest := by
    rw [checkNames_cons]
    simp only [registerFault_iff, ← hseen (Text.upperCase name)]
    cases hid : isIdentifier name with
    | false => exact .inl ⟨.badRegisterName name, by simp, by simp⟩
    | true =>
        by_cases hheld : Text.upperCase name ∈ seen
        · exact .inl ⟨.duplicateRegister name, by simp [hheld], by simp [hheld]⟩
        · refine .inr ⟨by simp [hheld], Text.upperCase name :: seen, ?_, by simp [hheld]⟩
          intro u
          simp [hseen, or_comm, eq_comm]

theorem checkRegisters_eq_error_iff : t.checkRegisters = .error e ↔
    t.CountFault e ∨ (∀ e, ¬t.CountFault e) ∧ FirstFault RegisterFault t.registers e := by
  simp only [checkRegisters, show 1 <<< registerBits = 4 from rfl, CountFault]
  split
  · rename_i hlong
    simp [hlong, eq_comm]
  · rename_i hshort
    simp [hshort, registers_loop.eq_error_iff]

theorem checkRegisters_eq_ok_iff_clear : t.checkRegisters = .ok () ↔
    (∀ e, ¬t.CountFault e) ∧ Clear RegisterFault t.registers := by
  simp only [checkRegisters, show 1 <<< registerBits = 4 from rfl, CountFault]
  split
  · rename_i hlong
    simp [hlong]
  · rename_i hshort
    simp [hshort, registers_loop.eq_ok_iff]

end Registers

theorem limits_loop (t : Table) :
    Loop t.LimitFault (fun _ _ => True) (fun (_ : Unit) ms => t.checkLimits ms) where
  nil _ := rfl
  cons {_ _} _ m rest := by
    simp only [checkLimits, LimitFault]
    cases hm : t.limit? m with
    | none => exact .inr ⟨by simp, (), trivial, rfl⟩
    | some max =>
        simp only [Option.some.injEq, exists_eq_left', ne_eq, shiftRight_eq_zero_iff]
        rcases Nat.lt_or_ge max.toNat (2 ^ t.literalWidth) with hfits | hwide
        · exact .inr ⟨by simp [hfits], (), trivial, by simp [hfits]⟩
        · exact .inl ⟨.limitTooWide m max t.literalWidth, by simp [hwide], by simp [hwide]⟩

theorem check_eq_error_iff : t.check = .error e ↔ t.Reports e := by
  have hwidths : t.checkWidths = .ok () ↔ ∀ e, ¬t.WidthFault e := by
    rw [← Unique.exists_iff (p := fun u => t.checkWidths = .ok u), exists_ok_iff]
    simp only [ne_eq, checkWidths_eq_error_iff]
  have hnone : ∀ o, o ∈ ([] : List Word) ↔ ∃ m ∈ [], t.opcodes.get? m = some o := by simp
  have hlimits : t.checkLimits Mnemonic.all = .error e ↔ FirstFault t.LimitFault Mnemonic.all e :=
    (limits_loop t).eq_error_iff (s := ()) trivial
  simp only [check, seq_eq_error_iff, checkWidths_eq_error_iff, hwidths,
    (opcodes_loop t).eq_ok_iff hnone, (opcodes_loop t).eq_error_iff hnone,
    checkRegisters_eq_ok_iff_clear, checkRegisters_eq_error_iff, hlimits]
  constructor
  · rintro (h | ⟨hw, h | ⟨ho, (h | ⟨hc, h⟩) | ⟨⟨hc, hr⟩, h⟩⟩⟩)
    · exact .widths h
    · exact .opcodes hw h
    · exact .count hw ho h
    · exact .registers hw ho hc h
    · exact .limits hw ho hc hr h
  · rintro (h | ⟨hw, h⟩ | ⟨hw, ho, h⟩ | ⟨hw, ho, hc, h⟩ | ⟨hw, ho, hc, hr, h⟩)
    · exact .inl h
    · exact .inr ⟨hw, .inl h⟩
    · exact .inr ⟨hw, .inr ⟨ho, .inl (.inl h)⟩⟩
    · exact .inr ⟨hw, .inr ⟨ho, .inl (.inr ⟨hc, h⟩)⟩⟩
    · exact .inr ⟨hw, .inr ⟨ho, .inr ⟨⟨hc, hr⟩, h⟩⟩⟩

theorem check_reports_first_fault (t : Table) :
    (t.check = .ok () ↔
      (1 ≤ t.opcodeWidth.toNat ∧ t.wordWidth.toNat ≤ 16 ∧
        t.opcodeWidth.toNat + 12 ≤ t.wordWidth.toNat) ∧
      ((∀ m, ∃ o, t.opcodes.get? m = some o ∧ o.toNat < 2 ^ t.opcodeWidth.toNat) ∧
        ∀ m m', m ≠ m' → t.opcodes.get? m ≠ t.opcodes.get? m') ∧
      (t.registers.length ≤ 4 ∧ (∀ name ∈ t.registers, Identifier name) ∧
        t.registers.Pairwise fun r s => ¬Text.EqualUpToCase r s) ∧
      ∀ k, (t.limits.get k).toNat < 2 ^ t.literalWidth) ∧
    ∀ e, t.check = .error e ↔ t.Reports e := by
  refine ⟨?_, fun e => check_eq_error_iff⟩
  have hdistinct : (t.registers.map Text.upperCase).Nodup ↔
      t.registers.Pairwise fun r s => ¬Text.EqualUpToCase r s := by
    simp only [List.Nodup, List.pairwise_map, ne_eq, Text.upperCase_eq_iff]
  rw [check_eq_ok_iff]
  constructor
  · intro hv
    exact ⟨⟨hv.opcodeWidth_pos, hv.wordWidth_le, hv.room⟩,
      ⟨hv.opcode_fits, fun m m' => hv.opcode_inj.ne⟩,
      ⟨hv.registers_le, fun name hname => isIdentifier_iff.mp (hv.identifier name hname),
        hdistinct.mp hv.distinct⟩, hv.limit⟩
  · rintro ⟨⟨hpos, hle, hroom⟩, ⟨hfits, hinj⟩, ⟨hfour, hid, hdis⟩, hlim⟩
    exact ⟨hpos, hle, hroom, hfits, Function.injective_iff_pairwise_ne.mpr hinj, hfour,
      fun name hname => isIdentifier_iff.mpr (hid name hname), hdistinct.mpr hdis, hlim⟩

-- A fifth register is noticed before the bad name, the repeated name and the wide limit.
example : ({ standard with
    registers := [['1'], ['A'], ['a'], ['B'], ['C']]
    limits := ⟨1023, 1024, 1023, 1023⟩ } : Table).check = .error (.tooManyRegisters 5) := by
  decide

end Table

end Assembler
