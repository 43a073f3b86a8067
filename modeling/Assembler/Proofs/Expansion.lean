import Assembler.Expansion
import Assembler.Proofs.Encoding
import Assembler.Proofs.Scratch

namespace Assembler

def LastAt (names : List Text) (name : Text) (k : Nat) : Prop :=
  names[k]? = some name ∧ ∀ j, k < j → names[j]? ≠ some name

@[simp] theorem lastAt_cons_zero {n name : Text} {names : List Text} :
    LastAt (n :: names) name 0 ↔ n = name ∧ name ∉ names := by
  simp only [LastAt, List.getElem?_cons_zero, Option.some.injEq, List.mem_iff_getElem?, not_exists]
  constructor
  · rintro ⟨rfl, h⟩
    exact ⟨rfl, fun k => by simpa using h (k + 1) (by omega)⟩
  · rintro ⟨rfl, h⟩
    refine ⟨rfl, fun j hj => ?_⟩
    obtain ⟨k, rfl⟩ := Nat.exists_eq_succ_of_ne_zero (Nat.ne_of_gt hj)
    simpa using h k

@[simp] theorem lastAt_cons_succ {n name : Text} {names : List Text} {k : Nat} :
    LastAt (n :: names) name (k + 1) ↔ LastAt names name k := by
  simp only [LastAt, List.getElem?_cons_succ]
  constructor
  · rintro ⟨hk, h⟩
    exact ⟨hk, fun j hj => by simpa using h (j + 1) (by omega)⟩
  · rintro ⟨hk, h⟩
    refine ⟨hk, fun j hj => ?_⟩
    obtain ⟨i, rfl⟩ := Nat.exists_eq_succ_of_ne_zero (show j ≠ 0 by omega)
    simpa using h i (by omega)

namespace Bindings

theorem insertAll_cons (b : Bindings) (name value : Text) (pairs : List (Text × Text)) :
    b.insertAll ((name, value) :: pairs) = (b.insert name value).insertAll pairs := rfl

theorem get?_insertAll_of_notMem (b : Bindings) {pairs : List (Text × Text)} {name : Text}
    (h : name ∉ pairs.map (·.1)) : (b.insertAll pairs).get? name = b.get? name := by
  induction pairs generalizing b with
  | nil => rfl
  | cons pair pairs ih =>
      obtain ⟨key, value⟩ := pair
      simp only [List.map_cons, List.mem_cons, not_or] at h
      simp [insertAll_cons, ih _ h.2, h.1]

theorem get?_insertAll_zip (b : Bindings) {names values : List Text}
    (hlen : names.length ≤ values.length) {name value : Text} (hname : name ∈ names) :
    (b.insertAll (names.zip values)).get? name = some value ↔
      ∃ k, LastAt names name k ∧ values[k]? = some value := by
  induction names generalizing b values with
  | nil => cases hname
  | cons n names ih =>
      cases values with
      | nil => simp at hlen
      | cons x values =>
          have hrest : names.length ≤ values.length := by simpa using hlen
          rw [List.zip_cons_cons, insertAll_cons]
          by_cases hmem : name ∈ names
          · rw [ih _ hrest hmem]
            constructor
            · rintro ⟨k, hlast, hval⟩
              exact ⟨k + 1, by simpa using hlast, by simpa using hval⟩
            · rintro ⟨k, hlast, hval⟩
              cases k with
              | zero => exact absurd hmem (lastAt_cons_zero.mp hlast).2
              | succ k => exact ⟨k, lastAt_cons_succ.mp hlast, by simpa using hval⟩
          · obtain rfl : name = n := (List.mem_cons.mp hname).resolve_right hmem
            have hkeys : name ∉ (names.zip values).map (·.1) := by
              rw [List.map_fst_zip hrest]
              exact hmem
            rw [get?_insertAll_of_notMem _ hkeys, get?_insert, if_pos rfl]
            constructor
            · intro h
              exact ⟨0, by simpa using hmem, by simpa using h⟩
            · rintro ⟨k, hlast, hval⟩
              cases k with
              | zero => simpa using hval
              | succ k =>
                  exact absurd (List.mem_of_getElem? (lastAt_cons_succ.mp hlast).1) hmem

end Bindings

namespace Table

theorem Valid.canonical_eq_iff {t : Table} (hv : t.Valid) {r v : Text} (hr : r ∈ t.registers) :
    t.canonical v = r ↔ Text.sameLetters r v = true := by
  obtain ⟨c, hc⟩ := List.mem_iff_getElem?.mp hr
  cases hcode : t.registerCode? v with
  | some d =>
      have hnamed := hv.registerCode?_iff.mp hcode
      obtain ⟨s, hs, hsame⟩ := hnamed
      have hcanon : t.canonical v = s := by simp [canonical, hcode, registerName?, hs]
      rw [hcanon]
      constructor
      · rintro rfl
        exact hsame
      · intro h
        obtain rfl := hv.named_unique ⟨r, hc, h⟩ ⟨s, hs, hsame⟩
        exact Option.some.inj (hs.symm.trans hc)
  | none =>
      have hno : ∀ d, ¬t.Named v d := by
        intro d hd
        rw [hv.registerCode?_iff.mpr hd] at hcode
        cases hcode
      have hcanon : t.canonical v = v := by simp [canonical, hcode]
      rw [hcanon]
      constructor
      · rintro rfl
        exact absurd (named_register hc) (hno c)
      · intro h
        exact absurd ⟨r, hc, h⟩ (hno c)

end Table

namespace Expansion

def spare (e : Expansion) (t : Table) (used : List Text) : List Text :=
  t.registers.filter fun r =>
    !used.contains r && e.bindings.values.all fun v => !Text.sameLetters r v

variable {t : Table} {e : Expansion} {used : List Text} {b : Bindings}

@[simp] theorem mem_spare {r : Text} : r ∈ e.spare t used ↔ r ∈ t.registers ∧ r ∉ used ∧
    ∀ v ∈ e.bindings.values, Text.sameLetters r v = false := by
  simp [spare]

theorem free_taken (hv : t.Valid) (e : Expansion) (used : List Text) :
    t.free (e.taken t used) = e.spare t used := by
  apply List.filter_congr
  intro r hr
  rw [Bool.eq_iff_iff]
  simp only [taken, List.mem_append, List.mem_map, hv.canonical_eq_iff hr, not_or, not_exists,
    not_and, Bool.not_eq_true, decide_eq_true_eq, Bool.and_eq_true, Bool.not_eq_eq_eq_not,
    Bool.not_true, List.contains_eq_mem, decide_eq_false_iff_not, List.all_eq_true]

theorem allBindings_eq_ok_iff (hv : t.Valid) :
    e.allBindings t used = .ok b ↔ e.scratch.length ≤ (e.spare t used).length ∧
      b = e.bindings.insertAll (e.scratch.zip ((e.spare t used).take e.scratch.length)) := by
  rw [allBindings]
  split
  · rename_i hempty
    have hnil : e.scratch = [] := List.isEmpty_iff.mp hempty
    simp [hnil, Bindings.insertAll, eq_comm]
  · cases hpicks : t.takeFree? (e.taken t used) e.scratch.length with
    | none =>
        simp only [reduceCtorEq, false_iff, not_and]
        intro hle
        rw [(t.takeFree?_eq_some_iff _ _ _).mpr ⟨by rwa [free_taken hv], rfl⟩] at hpicks
        cases hpicks
    | some picks =>
        obtain ⟨hle, rfl⟩ := (t.takeFree?_eq_some_iff _ _ _).mp hpicks
        rw [free_taken hv] at hle ⊢
        simp [hle, eq_comm]

theorem expand_eq_ok_iff (e : Expansion) (t : Table) (used lines : List Text) :
    e.expand t used = .ok lines ↔ ∃ b, e.allBindings t used = .ok b ∧
      Template.fill b e.templates = .ok lines := by
  rw [expand]
  cases e.allBindings t used <;> simp

theorem expand_eq_fill_free (e : Expansion) (t : Table) (used : List Text) :
    e.expand t used =
      if (t.free (e.taken t used)).length < e.scratch.length then
        .error (.scratchExhausted e.scratch.length (t.free (e.taken t used)).length)
      else
        Template.fill (e.bindings.insertAll
          (e.scratch.zip ((t.free (e.taken t used)).take e.scratch.length))) e.templates := by
  rw [expand, allBindings]
  by_cases hnil : e.scratch = []
  · simp [hnil, Bindings.insertAll]
  · rw [if_neg (by simpa using hnil)]
    by_cases hlt : (t.free (e.taken t used)).length < e.scratch.length
    · have hnone := Table.takeFree?_eq_none_iff.mpr hlt
      rw [if_pos hlt, hnone, Table.freeCount]
    · have hsome := (t.takeFree?_eq_some_iff (e.taken t used) e.scratch.length _).mpr
        ⟨Nat.le_of_not_lt hlt, rfl⟩
      rw [if_neg hlt, hsome]

theorem get?_scratch_iff (hv : t.Valid) (hb : e.allBindings t used = .ok b) {name r : Text}
    (hname : name ∈ e.scratch) :
    b.get? name = some r ↔ ∃ k, LastAt e.scratch name k ∧ (e.spare t used)[k]? = some r := by
  obtain ⟨hle, rfl⟩ := (allBindings_eq_ok_iff hv).mp hb
  rw [Bindings.get?_insertAll_zip _ (by simpa using hle) hname]
  refine exists_congr fun k => and_congr_right fun hlast => ?_
  rw [List.getElem?_take_of_lt (List.getElem?_eq_some_iff.mp hlast.1).1]

end Expansion

theorem Expansion.scratch_collides_iff (M : Machine) (e : Expansion) (used lines : List Text)
    (h : e.expand M.table used = .ok lines) :
    ∃ b, e.allBindings M.table used = .ok b ∧ Template.fill b e.templates = .ok lines ∧
      ∀ v ∈ e.bindings.values, ∀ c, M.table.resolve v = .ok (.register c) →
        ((∃ name ∈ e.scratch, ∃ r, b.get? name = some r ∧ M.table.registerCode? r = some c) ↔
          Text.trim v ≠ v ∧ ∃ k name r, LastAt e.scratch name k ∧
            (e.spare M.table used)[k]? = some r ∧ M.table.registerName? c = some r) := by
  have hv := M.valid
  obtain ⟨b, hb, hfill⟩ := (expand_eq_ok_iff e M.table used lines).mp h
  refine ⟨b, hb, hfill, ?_⟩
  intro v hvalue c hc
  have hnamed := hv.resolve_register.mp hc
  constructor
  · rintro ⟨name, hname, r, hget, hcode⟩
    obtain ⟨k, hlast, hk⟩ := (get?_scratch_iff hv hb hname).mp hget
    have hspare := mem_spare.mp (List.mem_of_getElem? hk)
    have hreg := (hv.registerCode?_of_mem hspare.1).mp hcode
    refine ⟨?_, k, name, r, hlast, hk, hreg⟩
    -- Without blanks around it the value names the register itself, and `spare` leaves that out.
    intro htrim
    rw [htrim] at hnamed
    obtain ⟨s, hs, hsame⟩ := hnamed
    obtain rfl := Option.some.inj (hs.symm.trans hreg)
    simp [hspare.2.2 v hvalue] at hsame
  · rintro ⟨-, k, name, r, hlast, hk, hreg⟩
    have hname : name ∈ e.scratch := List.mem_of_getElem? hlast.1
    have hmem := (mem_spare.mp (List.mem_of_getElem? hk)).1
    exact ⟨name, hname, r, (get?_scratch_iff hv hb hname).mpr ⟨k, hlast, hk⟩,
      (hv.registerCode?_of_mem hmem).mpr hreg⟩

def Expansion.paddedMove : Expansion :=
  ((ofTemplates ["MOV \x7bT\x7d, \x7bP\x7d".toList]).bind ['P'] [' ', 'A']).declare ['T']

theorem Expansion.scratch_collides_iff_paddedMove :
    paddedMove.expand Machine.standard.table [] = .ok ["MOV A,  A".toList] ∧
      ∃ b, paddedMove.allBindings Machine.standard.table [] = .ok b ∧
        ∃ name ∈ paddedMove.scratch, ∃ r, b.get? name = some r ∧
          Machine.standard.table.registerCode? r = some 0 := by
  have h : paddedMove.expand Machine.standard.table [] = .ok ["MOV A,  A".toList] := by
    decide +kernel
  obtain ⟨b, hb, -, hall⟩ := scratch_collides_iff Machine.standard paddedMove [] _ h
  have hiff := hall [' ', 'A'] (by decide +kernel) 0 (by decide +kernel)
  exact ⟨h, b, hb, hiff.mpr ⟨by decide +kernel, 0, ['T'], ['A'],
    lastAt_cons_zero.mpr ⟨rfl, by decide⟩, by decide +kernel, rfl⟩⟩

theorem Expansion.scratch_can_collide :
    ¬∀ (M : Machine) (e : Expansion) (used lines : List Text) (b : Bindings),
      e.expand M.table used = .ok lines → e.allBindings M.table used = .ok b →
        ∀ name ∈ e.scratch, ∀ r, b.get? name = some r → ∀ v ∈ e.bindings.values, ∀ c,
          M.table.resolve v = .ok (.register c) → M.table.registerCode? r ≠ some c := by
  intro hall
  exact hall Machine.standard paddedMove [] ["MOV A,  A".toList]
    (paddedMove.bindings.insert ['T'] ['A']) (by decide +kernel) (by decide +kernel)
    ['T'] (by decide +kernel) ['A'] (by decide +kernel) [' ', 'A'] (by decide +kernel) 0
    (by decide +kernel) (by decide +kernel)

end Assembler
