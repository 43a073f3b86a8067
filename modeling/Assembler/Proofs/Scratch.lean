import Mathlib
import Assembler.Scratch
import Assembler.Proofs.Validity

namespace Assembler

namespace Table

variable {t : Table} {used used' : List Text} {r r' : Text} {n : Nat}

section Free

theorem takeFree?_eq_some_iff (t : Table) (used : List Text) (n : Nat) (picks : List Text) :
    t.takeFree? used n = some picks ↔
      n ≤ (t.free used).length ∧ picks = (t.free used).take n := by
  simp only [takeFree?, List.length_take]
  constructor
  · intro h
    split at h
    · exact ⟨by omega, (Option.some.inj h).symm⟩
    · cases h
  · rintro ⟨hle, rfl⟩
    rw [if_pos (by omega)]

theorem takeFree?_eq_none_iff : t.takeFree? used n = none ↔ t.freeCount used < n := by
  simp [takeFree?, freeCount]

theorem firstFree?_eq_head? (t : Table) (used : List Text) :
    t.firstFree? used = (t.free used).head? := List.head?_filter.symm

theorem free_congr (t : Table) (h : ∀ r ∈ t.registers, r ∈ used ↔ r ∈ used') :
    t.free used = t.free used' := by
  apply List.filter_congr
  intro r hr
  simp only [h r hr]

theorem free_sublist (t : Table) (used : List Text) : (t.free used).Sublist t.registers :=
  List.filter_sublist

theorem free_sublist_free (t : Table) (h : ∀ r ∈ used, r ∈ used') :
    (t.free used').Sublist (t.free used) := by
  apply List.monotone_filter_right
  intro r hr
  simp only [decide_eq_true_eq] at hr ⊢
  exact fun hmem => hr (h r hmem)

theorem free_append_singleton (hdistinct : t.registers.Nodup) {rest : List Text}
    (h : t.free used = r :: rest) : t.free (used ++ [r]) = rest := by
  have hnodup : (t.free used).Nodup := (t.free_sublist used).nodup hdistinct
  rw [h, List.nodup_cons] at hnodup
  calc t.free (used ++ [r])
    _ = (t.free used).filter (· ≠ r) := by
        simp only [free, List.filter_filter]
        refine List.filter_congr fun s _ => ?_
        simp [and_comm]
    _ = rest.filter (· ≠ r) := by simp [h]
    _ = rest := by
        rw [List.filter_eq_self]
        intro s hs
        simpa using ne_of_mem_of_not_mem hs hnodup.1

end Free

section InTurn

-- One register after the other; each is among the used ones from then on.
def pickInTurn? (t : Table) : List Text → Nat → Option (List Text)
  | _, 0 => some []
  | used, n + 1 =>
      match t.firstFree? used with
      | none => none
      | some r => (t.pickInTurn? (used ++ [r]) n).map (r :: ·)

theorem pickInTurn?_eq_takeFree? (hdistinct : t.registers.Nodup) (used : List Text) (n : Nat) :
    t.pickInTurn? used n = t.takeFree? used n := by
  induction n generalizing used with
  | zero => rfl
  | succ n ih =>
      rw [pickInTurn?, firstFree?_eq_head?]
      cases h : t.free used with
      | nil => simp [takeFree?, h]
      | cons r rest =>
          simp only [List.head?_cons, ih, takeFree?, free_append_singleton hdistinct h, h,
            List.take_succ_cons, List.length_cons, Nat.add_right_cancel_iff]
          split <;> rfl

theorem pickInTurn?_eq_none_iff : t.pickInTurn? used n = none ↔
    ∃ i < n, ∃ picks, t.pickInTurn? used i = some picks ∧ t.firstFree? (used ++ picks) = none := by
  induction n generalizing used with
  | zero => simp [pickInTurn?]
  | succ n ih =>
      rw [pickInTurn?]
      cases hfirst : t.firstFree? used with
      | none =>
          simp only [true_iff]
          exact ⟨0, n.succ_pos, [], rfl, by rwa [List.append_nil]⟩
      | some r =>
          simp only [Option.map_eq_none_iff, ih]
          constructor
          · rintro ⟨i, hi, picks, hpicks, hnone⟩
            refine ⟨i + 1, by omega, r :: picks, ?_, ?_⟩
            · simp [pickInTurn?, hfirst, hpicks]
            · rwa [List.append_assoc, List.singleton_append] at hnone
          · rintro ⟨i, hi, picks, hpicks, hnone⟩
            cases i with
            | zero =>
                obtain rfl : [] = picks := Option.some.inj hpicks
                rw [List.append_nil, hfirst] at hnone
                cases hnone
            | succ i =>
                simp only [pickInTurn?, hfirst, Option.map_eq_some_iff] at hpicks
                obtain ⟨rest, hrest, rfl⟩ := hpicks
                refine ⟨i, by omega, rest, hrest, ?_⟩
                rwa [List.append_assoc, List.singleton_append]

theorem takeFree?_take {k : Nat} {picks : List Text} (h : t.takeFree? used (n + k) = some picks) :
    t.takeFree? used n = some (picks.take n) := by
  obtain ⟨hle, rfl⟩ := (t.takeFree?_eq_some_iff _ _ _).mp h
  rw [takeFree?_eq_some_iff, List.take_take, Nat.min_eq_left (Nat.le_add_right n k)]
  exact ⟨by omega, rfl⟩

end InTurn

section Positions

-- `r` stands at the place of `r'` in the table or at an earlier one.
def NotAfter (t : Table) (r r' : Text) : Prop :=
  r ∈ t.registers ∧ r' ∈ t.registers ∧ t.registers.idxOf r ≤ t.registers.idxOf r'

theorem notAfter_of_getElem? (hdistinct : t.registers.Nodup) {i j : Nat} (hle : i ≤ j)
    (hi : t.registers[i]? = some r) (hj : t.registers[j]? = some r') : t.NotAfter r r' := by
  refine ⟨List.mem_of_getElem? hi, List.mem_of_getElem? hj, ?_⟩
  obtain ⟨hi, rfl⟩ := List.getElem?_eq_some_iff.mp hi
  obtain ⟨hj, rfl⟩ := List.getElem?_eq_some_iff.mp hj
  rwa [hdistinct.idxOf_getElem, hdistinct.idxOf_getElem]

-- Each list is a selection from the one before it, and a selection moves no element to the front.
theorem notAfter_of_sublist (hdistinct : t.registers.Nodup) {l l' : List Text}
    (hl : l.Sublist t.registers) (hl' : l'.Sublist l) {i : Nat} (hr : l[i]? = some r)
    (hr' : l'[i]? = some r') : t.NotAfter r r' := by
  obtain ⟨f, hf⟩ := List.sublist_iff_exists_orderEmbedding_getElem?_eq.mp hl
  obtain ⟨g, hg⟩ := List.sublist_iff_exists_orderEmbedding_getElem?_eq.mp hl'
  have hlater : i ≤ g i := g.strictMono.le_apply
  rw [hf] at hr
  rw [hg, hf] at hr'
  exact notAfter_of_getElem? hdistinct (f.monotone hlater) hr hr'

theorem notAfter_free (hdistinct : t.registers.Nodup) (h : ∀ r ∈ used, r ∈ used') {i : Nat}
    (hi : i < (t.free used').length) :
    ∃ r r', (t.free used)[i]? = some r ∧ (t.free used')[i]? = some r' ∧ t.NotAfter r r' := by
  have hsub := t.free_sublist_free h
  have hr := List.getElem?_eq_getElem (hi.trans_le hsub.length_le)
  have hr' := List.getElem?_eq_getElem hi
  exact ⟨_, _, hr, hr', notAfter_of_sublist hdistinct (t.free_sublist used) hsub hr hr'⟩

end Positions

theorem takeFree?_picks_in_turn :
    (∀ M : Machine, M.table.registers.Nodup) ∧
    ∀ t : Table, t.registers.Nodup → ∀ used n,
      t.takeFree? used n = t.pickInTurn? used n ∧
      (t.takeFree? used n = none ↔ ∃ i < n, ∃ picks,
        t.pickInTurn? used i = some picks ∧ t.firstFree? (used ++ picks) = none) ∧
      (t.takeFree? used n = none ↔ t.freeCount used < n) ∧
      ∀ k picks, t.takeFree? used (n + k) = some picks →
        t.takeFree? used n = some (picks.take n) := by
  refine ⟨fun M => M.valid.distinct.of_map, fun t hdistinct used n => ?_⟩
  have hturn := pickInTurn?_eq_takeFree? hdistinct used n
  refine ⟨hturn.symm, ?_, takeFree?_eq_none_iff, fun k picks => takeFree?_take⟩
  rw [← hturn]
  exact pickInTurn?_eq_none_iff

theorem takeFree?_picks_in_turn_oneTaken :
    Table.standard.registers.Nodup ∧
      Table.standard.pickInTurn? [['B'], ['a']] 3 = some [['A'], ['C'], ['D']] ∧
      Table.standard.takeFree? [['B'], ['a']] 2 = some [['A'], ['C']] ∧
      Table.standard.freeCount [['B'], ['a']] < 4 ∧
      ∃ i < 4, ∃ picks, Table.standard.pickInTurn? [['B'], ['a']] i = some picks ∧
        Table.standard.firstFree? ([['B'], ['a']] ++ picks) = none := by
  obtain ⟨hchecked, hall⟩ := takeFree?_picks_in_turn
  have hdistinct := hchecked Machine.standard
  have hthree : Table.standard.takeFree? [['B'], ['a']] 3 = some [['A'], ['C'], ['D']] := by
    decide
  have hnone : Table.standard.takeFree? [['B'], ['a']] 4 = none := by decide
  obtain ⟨hturn, -⟩ := hall _ hdistinct [['B'], ['a']] 3
  obtain ⟨-, -, -, hextends⟩ := hall _ hdistinct [['B'], ['a']] 2
  obtain ⟨-, hcall, hcount, -⟩ := hall _ hdistinct [['B'], ['a']] 4
  exact ⟨hdistinct, hturn.symm.trans hthree, hextends 1 _ hthree, hcount.mp hnone, hcall.mp hnone⟩

theorem takeFree?_antitone (t : Table) (hdistinct : t.registers.Nodup) (used used' : List Text)
    (h : ∀ r ∈ used, r ∈ used') (n : Nat) :
    t.freeCount used' ≤ t.freeCount used ∧
    (∀ picks', t.takeFree? used' n = some picks' →
      ∃ picks, t.takeFree? used n = some picks ∧ ∀ i < n, ∃ r r', picks[i]? = some r ∧
        picks'[i]? = some r' ∧ t.NotAfter r r') ∧
    ∀ other, (∀ r ∈ t.registers, r ∈ other ↔ r ∈ used') →
      t.freeCount other = t.freeCount used' ∧ t.firstFree? other = t.firstFree? used' ∧
        t.takeFree? other n = t.takeFree? used' n := by
  have hfewer : (t.free used').length ≤ (t.free used).length := (t.free_sublist_free h).length_le
  refine ⟨hfewer, ?_, ?_⟩
  · intro picks' hpicks'
    obtain ⟨hle, rfl⟩ := (t.takeFree?_eq_some_iff _ _ _).mp hpicks'
    refine ⟨_, (t.takeFree?_eq_some_iff _ _ _).mpr ⟨hle.trans hfewer, rfl⟩, fun i hi => ?_⟩
    rw [List.getElem?_take_of_lt hi, List.getElem?_take_of_lt hi]
    exact notAfter_free hdistinct h (hi.trans_le hle)
  · intro other hother
    have hfree := t.free_congr hother
    simp only [freeCount, firstFree?_eq_head?, takeFree?, hfree, and_self]

theorem takeFree?_antitone_stranger :
    Table.standard.takeFree? [['B'], "b ".toList, ['A']] 2 = some [['C'], ['D']] ∧
      (∃ picks, Table.standard.takeFree? [['B']] 2 = some picks ∧ ∀ i < 2, ∃ r r',
        picks[i]? = some r ∧ [['C'], ['D']][i]? = some r' ∧ Table.standard.NotAfter r r') ∧
      Table.standard.takeFree? [['A'], ['B']] 2 = some [['C'], ['D']] := by
  have hpicks : Table.standard.takeFree? [['B'], "b ".toList, ['A']] 2 = some [['C'], ['D']] := by
    decide
  obtain ⟨-, hsome, hother⟩ := takeFree?_antitone Table.standard (by decide) [['B']]
    [['B'], "b ".toList, ['A']] (by decide) 2
  exact ⟨hpicks, hsome _ hpicks, (hother [['A'], ['B']] (by decide)).2.2.trans hpicks⟩

end Table

end Assembler
