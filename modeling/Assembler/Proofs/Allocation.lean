import Assembler.Proofs.Expansion
import Assembler.Proofs.Filling

namespace Assembler

section LastAt

variable {names : List Text} {name : Text} {k : Nat}

theorem LastAt.lt_length (h : LastAt names name k) : k < names.length :=
  (List.getElem?_eq_some_iff.mp h.1).1

theorem LastAt.exists_value (h : LastAt names name k) {values : List Text}
    (hle : names.length ≤ values.length) : ∃ value, values[k]? = some value := by
  have hk : k < values.length := h.lt_length.trans_le hle
  exact ⟨values[k], List.getElem?_eq_getElem hk⟩

theorem exists_lastAt (h : name ∈ names) : ∃ k, LastAt names name k := by
  induction names with
  | nil => cases h
  | cons n names ih =>
      by_cases hmem : name ∈ names
      · obtain ⟨k, hk⟩ := ih hmem
        exact ⟨k + 1, lastAt_cons_succ.mpr hk⟩
      · obtain rfl : name = n := (List.mem_cons.mp h).resolve_right hmem
        exact ⟨0, lastAt_cons_zero.mpr ⟨rfl, hmem⟩⟩

end LastAt

namespace Expansion

variable {t : Table} {e : Expansion} {used free : List Text} {b b' : Bindings}

structure Assigns (e : Expansion) (free : List Text) (b : Bindings) : Prop where
  scratch : ∀ name k, LastAt e.scratch name k → b.get? name = free[k]?
  bound : ∀ name, name ∉ e.scratch → b.get? name = e.bindings.get? name

namespace Assigns

theorem get?_eq (h : e.Assigns free b) (h' : e.Assigns free b') (name : Text) :
    b.get? name = b'.get? name := by
  by_cases hname : name ∈ e.scratch
  · obtain ⟨k, hk⟩ := exists_lastAt hname
    rw [h.scratch name k hk, h'.scratch name k hk]
  · rw [h.bound name hname, h'.bound name hname]

theorem exists_pick (h : e.Assigns free b) (hle : e.scratch.length ≤ free.length) {name : Text}
    (hname : name ∈ e.scratch) :
    ∃ k r, LastAt e.scratch name k ∧ free[k]? = some r ∧ b.get? name = some r := by
  obtain ⟨k, hk⟩ := exists_lastAt hname
  obtain ⟨r, hr⟩ := hk.exists_value hle
  exact ⟨k, r, hk, hr, (h.scratch name k hk).trans hr⟩

theorem pick_injective (h : e.Assigns free b) (hle : e.scratch.length ≤ free.length)
    (hnodup : free.Nodup) {name name' : Text} (hname : name ∈ e.scratch)
    (hname' : name' ∈ e.scratch) (heq : b.get? name = b.get? name') : name = name' := by
  obtain ⟨k, r, hk, hr, hget⟩ := h.exists_pick hle hname
  obtain ⟨k', r', hk', hr', hget'⟩ := h.exists_pick hle hname'
  have hfree : free[k]? = free[k']? := by rw [hr, hr', ← hget, ← hget', heq]
  obtain rfl : k = k' := (List.getElem?_inj (hk.lt_length.trans_le hle) hnodup).mp hfree
  exact Option.some.inj (hk.1.symm.trans hk'.1)

end Assigns

theorem assigns_insertAll (hle : e.scratch.length ≤ free.length) :
    e.Assigns free (e.bindings.insertAll (e.scratch.zip (free.take e.scratch.length))) where
  scratch name k hk := by
    obtain ⟨r, hr⟩ := hk.exists_value hle
    rw [hr, Bindings.get?_insertAll_zip _ (by simpa using hle) (List.mem_of_getElem? hk.1)]
    exact ⟨k, hk, by rw [List.getElem?_take_of_lt hk.lt_length, hr]⟩
  bound name hname := by
    apply Bindings.get?_insertAll_of_notMem
    rwa [List.map_fst_zip (by simpa using hle)]

theorem allBindings_of_le (hv : t.Valid) (hle : e.scratch.length ≤ (e.spare t used).length) :
    ∃ b, e.allBindings t used = .ok b ∧ e.Assigns (e.spare t used) b :=
  ⟨_, (allBindings_eq_ok_iff hv).mpr ⟨hle, rfl⟩, assigns_insertAll hle⟩

theorem expand_eq_fill (hv : t.Valid) (hle : e.scratch.length ≤ (e.spare t used).length)
    (hb : e.Assigns (e.spare t used) b) :
    e.expand t used = Template.fill b e.templates := by
  obtain ⟨b', hall, hb'⟩ := allBindings_of_le hv hle
  rw [expand, hall]
  exact Template.fill_congr fun _ _ _ _ name _ => hb'.get?_eq hb name

theorem expand_eq_scratchExhausted_iff (hv : t.Valid) (e : Expansion) (used : List Text)
    (needed available : Nat) :
    e.expand t used = .error (.scratchExhausted needed available) ↔
      (e.spare t used).length < e.scratch.length ∧ needed = e.scratch.length ∧
        available = (e.spare t used).length := by
  by_cases hle : e.scratch.length ≤ (e.spare t used).length
  · obtain ⟨b, -, hb⟩ := allBindings_of_le hv hle
    rw [expand_eq_fill hv hle hb]
    constructor
    · exact fun h => absurd h (Template.fill_ne_scratchExhausted b e.templates needed available)
    · exact fun h => absurd hle (Nat.not_le.mpr h.1)
  · rw [expand_eq_fill_free, free_taken hv, if_pos (Nat.not_le.mp hle)]
    simp [Nat.not_le.mp hle, eq_comm]

theorem spare_sublist (e : Expansion) (t : Table) (used : List Text) :
    (e.spare t used).Sublist t.registers := List.filter_sublist

theorem spare_nodup (hv : t.Valid) (e : Expansion) (used : List Text) :
    (e.spare t used).Nodup := (hv.distinct.of_map _).sublist (e.spare_sublist t used)

end Expansion

theorem Expansion.expand_assigns_lowest_free (M : Machine) (e : Expansion) (used : List Text) :
    (∀ needed available, e.expand M.table used = .error (.scratchExhausted needed available) ↔
      (e.spare M.table used).length < e.scratch.length ∧ needed = e.scratch.length ∧
        available = (e.spare M.table used).length) ∧
    (e.scratch.length ≤ (e.spare M.table used).length →
      (∃ b, e.Assigns (e.spare M.table used) b) ∧
        ∀ b, e.Assigns (e.spare M.table used) b →
          e.expand M.table used = Template.fill b e.templates ∧
          (∀ name ∈ e.scratch, ∃ r, b.get? name = some r ∧ r ∈ M.table.registers ∧ r ∉ used ∧
            ∀ v ∈ e.bindings.values, Text.sameLetters r v = false) ∧
          ∀ name ∈ e.scratch, ∀ name' ∈ e.scratch, b.get? name = b.get? name' → name = name') ∧
    (e.spare M.table used).Nodup ∧ (e.spare M.table used).Sublist M.table.registers := by
  have hv := M.valid
  refine ⟨expand_eq_scratchExhausted_iff hv e used, ?_, spare_nodup hv e used,
    spare_sublist e M.table used⟩
  intro hle
  obtain ⟨b, -, hb⟩ := allBindings_of_le hv hle
  refine ⟨⟨b, hb⟩, fun b hb => ⟨expand_eq_fill hv hle hb, ?_, ?_⟩⟩
  · intro name hname
    obtain ⟨k, r, -, hr, hget⟩ := hb.exists_pick hle hname
    exact ⟨r, hget, mem_spare.mp (List.mem_of_getElem? hr)⟩
  · intro name hname name' hname'
    exact hb.pick_injective hle (spare_nodup hv e used) hname hname'

def Expansion.repeatedScratch : Expansion :=
  ((((ofTemplates ["MOV \x7bT\x7d, \x7bU\x7d".toList]).bind ['T'] ['c']).declare ['T']).declare
    ['U']).declare ['T']

theorem Expansion.expand_assigns_lowest_free_repeatedScratch :
    repeatedScratch.scratch.length ≤ (repeatedScratch.spare Machine.standard.table []).length ∧
      ∃ b : Bindings, b.get? ['T'] = some ['D'] ∧ b.get? ['U'] = some ['B'] ∧
        repeatedScratch.expand Machine.standard.table [] =
          Template.fill b repeatedScratch.templates := by
  have hle : repeatedScratch.scratch.length ≤
      (repeatedScratch.spare Machine.standard.table []).length := by decide +kernel
  obtain ⟨⟨b, hb⟩, hall⟩ :=
    (expand_assigns_lowest_free Machine.standard repeatedScratch []).2.1 hle
  have hT : LastAt repeatedScratch.scratch ['T'] 2 :=
    lastAt_cons_succ.mpr (lastAt_cons_succ.mpr (lastAt_cons_zero.mpr ⟨rfl, by decide⟩))
  have hU : LastAt repeatedScratch.scratch ['U'] 1 :=
    lastAt_cons_succ.mpr (lastAt_cons_zero.mpr ⟨rfl, by decide⟩)
  refine ⟨hle, b, ?_, ?_, (hall b hb).1⟩
  · exact (hb.scratch _ _ hT).trans (by decide +kernel)
  · exact (hb.scratch _ _ hU).trans (by decide +kernel)

end Assembler
