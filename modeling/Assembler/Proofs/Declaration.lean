import Assembler.Proofs.Expansion
import Assembler.Proofs.Filling

namespace Assembler

namespace Bindings

variable {b b' : Bindings} {name value : Text}

def Distinct (b : Bindings) : Prop := (b.entries.map (·.1)).Nodup

theorem distinct_empty : empty.Distinct := List.nodup_nil

theorem Distinct.insert (h : b.Distinct) (name value : Text) : (b.insert name value).Distinct := by
  refine List.nodup_cons.mpr ⟨?_, h.sublist (List.filter_sublist.map _)⟩
  intro hmem
  obtain ⟨entry, hentry, hname⟩ := List.mem_map.mp hmem
  simpa [hname] using (List.mem_filter.mp hentry).2

theorem Distinct.insertAll (h : b.Distinct) (pairs : List (Text × Text)) :
    (b.insertAll pairs).Distinct := by
  induction pairs generalizing b with
  | nil => exact h
  | cons pair pairs ih => exact ih (h.insert pair.1 pair.2)

theorem Distinct.get?_eq_some_iff (h : b.Distinct) :
    b.get? name = some value ↔ (name, value) ∈ b.entries := by
  constructor
  · intro hget
    obtain ⟨before, after, hsplit, -⟩ := List.lookup_eq_some_iff.mp hget
    simp [hsplit]
  · exact lookup_of_mem h

theorem Distinct.mem_values (h : b.Distinct) :
    value ∈ b.values ↔ ∃ name, b.get? name = some value := by
  simp [values, h.get?_eq_some_iff]

theorem Distinct.perm (h : b.Distinct) (hperm : b'.entries.Perm b.entries) : b'.Distinct :=
  ((hperm.map _).nodup_iff).mpr h

theorem Distinct.get?_perm (h : b.Distinct) (hperm : b'.entries.Perm b.entries) (name : Text) :
    b'.get? name = b.get? name := by
  apply Option.ext
  intro value
  rw [(h.perm hperm).get?_eq_some_iff, h.get?_eq_some_iff, hperm.mem_iff]

theorem get?_insertAll (b : Bindings) (pairs : List (Text × Text)) (name : Text) :
    (b.insertAll pairs).get? name = (pairs.reverse.lookup name).or (b.get? name) := by
  induction pairs generalizing b with
  | nil => simp [insertAll]
  | cons pair pairs ih =>
      obtain ⟨key, value⟩ := pair
      rw [insertAll_cons, ih, get?_insert, List.reverse_cons, List.lookup_append, Option.or_assoc]
      by_cases h : name = key
      · simp [h]
      · simp [h, List.lookup_cons, beq_eq_false_iff_ne.mpr h]

@[simp] theorem get?_ofList (pairs : List (Text × Text)) (name : Text) :
    (ofList pairs).get? name = pairs.reverse.lookup name := by
  simp [ofList, get?_insertAll]

end Bindings

namespace Expansion

variable {t : Table} {e e' : Expansion} {used used' : List Text}

-- All that `expand` reads of an expansion. The order of the entries is not part of it.
structure Same (e e' : Expansion) : Prop where
  templates : e.templates = e'.templates
  scratch : e.scratch = e'.scratch
  get? : ∀ name, e.bindings.get? name = e'.bindings.get? name
  distinct : e.bindings.Distinct
  distinct' : e'.bindings.Distinct

theorem Same.perm (h : e.Same e') {b b' : Bindings} (hb : b.entries.Perm e.bindings.entries)
    (hb' : b'.entries.Perm e'.bindings.entries) :
    Same { e with bindings := b } { e' with bindings := b' } where
  templates := h.templates
  scratch := h.scratch
  get? name := by rw [h.distinct.get?_perm hb, h.distinct'.get?_perm hb', h.get?]
  distinct := h.distinct.perm hb
  distinct' := h.distinct'.perm hb'

theorem Same.ofTemplates (templates : List Text) :
    (ofTemplates templates).Same (ofTemplates templates) :=
  ⟨rfl, rfl, fun _ => rfl, Bindings.distinct_empty, Bindings.distinct_empty⟩

theorem Same.bind (h : e.Same e') (name value : Text) :
    (e.bind name value).Same (e'.bind name value) where
  templates := h.templates
  scratch := h.scratch
  get? other := by simp [Expansion.bind, h.get?]
  distinct := h.distinct.insert name value
  distinct' := h.distinct'.insert name value

theorem Same.declare (h : e.Same e') (name : Text) : (e.declare name).Same (e'.declare name) :=
  ⟨h.templates, congrArg (· ++ [name]) h.scratch, h.get?, h.distinct, h.distinct'⟩

theorem Same.mem_values (h : e.Same e') (value : Text) :
    value ∈ e.bindings.values ↔ value ∈ e'.bindings.values := by
  rw [h.distinct.mem_values, h.distinct'.mem_values]
  simp only [h.get?]

theorem Same.free_taken (h : e.Same e') (hused : ∀ r, r ∈ used ↔ r ∈ used') (t : Table) :
    t.free (e.taken t used) = t.free (e'.taken t used') := by
  apply t.free_congr
  intro r _
  simp only [taken, List.mem_append, List.mem_map, hused, h.mem_values]

theorem Same.expand_eq (h : e.Same e') (hused : ∀ r, r ∈ used ↔ r ∈ used') (t : Table) :
    e.expand t used = e'.expand t used' := by
  rw [expand_eq_fill_free, expand_eq_fill_free, h.free_taken hused, h.scratch, h.templates]
  split
  · rfl
  · apply Template.fill_congr
    intro _ _ _ _ name _
    rw [Bindings.get?_insertAll, Bindings.get?_insertAll, h.get?]

inductive Declaration where
  | bind (name value : Text)
  | scratch (name : Text)
  deriving DecidableEq, Repr

def apply (e : Expansion) : Declaration → Expansion
  | .bind name value => e.bind name value
  | .scratch name => e.declare name

def declared (templates : List Text) (ds : List Declaration) : Expansion :=
  ds.foldl apply (ofTemplates templates)

def binds (ds : List Declaration) : List (Text × Text) :=
  ds.filterMap fun
    | .bind name value => some (name, value)
    | .scratch _ => none

def scratches (ds : List Declaration) : List Text :=
  ds.filterMap fun
    | .bind _ _ => none
    | .scratch name => some name

theorem foldl_apply (e : Expansion) (ds : List Declaration) :
    ds.foldl apply e =
      ⟨e.templates, e.bindings.insertAll (binds ds), e.scratch ++ scratches ds⟩ := by
  induction ds generalizing e with
  | nil => simp [binds, scratches, Bindings.insertAll]
  | cons d ds ih =>
      cases d with
      | bind name value => exact ih (e.bind name value)
      | scratch name =>
          rw [List.foldl_cons, ih]
          simp [apply, declare, binds, scratches]

theorem declared_eq (templates : List Text) (ds : List Declaration) :
    declared templates ds = ⟨templates, Bindings.ofList (binds ds), scratches ds⟩ :=
  foldl_apply (ofTemplates templates) ds

theorem declared_distinct (templates : List Text) (ds : List Declaration) :
    (declared templates ds).bindings.Distinct := by
  rw [declared_eq]
  exact Bindings.distinct_empty.insertAll (binds ds)

theorem declared_same (templates : List Text) {ds ds' : List Declaration}
    (hbinds : ∀ name, (binds ds).reverse.lookup name = (binds ds').reverse.lookup name)
    (hscratch : scratches ds = scratches ds') :
    (declared templates ds).Same (declared templates ds') where
  templates := by rw [declared_eq, declared_eq]
  scratch := by rw [declared_eq, declared_eq, hscratch]
  get? name := by simp [declared_eq, hbinds]
  distinct := declared_distinct templates ds
  distinct' := declared_distinct templates ds'

end Expansion

theorem Expansion.expand_depends_on_declarations (t : Table) (templates : List Text)
    (ds ds' : List Declaration) (used used' : List Text) (b b' : Bindings)
    (hbinds : ∀ name, (binds ds).reverse.lookup name = (binds ds').reverse.lookup name)
    (hscratch : scratches ds = scratches ds') (hused : ∀ r, r ∈ used ↔ r ∈ used')
    (hb : b.entries.Perm (declared templates ds).bindings.entries)
    (hb' : b'.entries.Perm (declared templates ds').bindings.entries) :
    expand { declared templates ds with bindings := b } t used =
      expand { declared templates ds' with bindings := b' } t used' := by
  exact ((declared_same templates hbinds hscratch).perm hb hb').expand_eq hused t

def Expansion.late : List Declaration :=
  [.bind ['P'] ['D'], .scratch ['T'], .bind ['Q'] ['a'], .bind ['P'] ['b']]

def Expansion.early : List Declaration :=
  [.bind ['Q'] ['a'], .bind ['P'] ['D'], .bind ['P'] ['b'], .scratch ['T']]

theorem Expansion.expand_depends_on_declarations_late :
    expand { declared ["MOV \x7bT\x7d, \x7bP\x7d".toList] late with
        bindings := ⟨[(['Q'], ['a']), (['P'], ['b'])]⟩ } .standard [['C'], ['C']] =
      expand (declared ["MOV \x7bT\x7d, \x7bP\x7d".toList] early) .standard [['C']] ∧
    expand (declared ["MOV \x7bT\x7d, \x7bP\x7d".toList] early) .standard [['C']] =
      .ok ["MOV D, b".toList] := by
  have hbinds : ∀ name,
      (binds late).reverse.lookup name = (binds early).reverse.lookup name := by
    intro name
    by_cases hP : name = ['P']
    · subst hP
      rfl
    · have hne : (name == ['P']) = false := beq_eq_false_iff_ne.mpr hP
      simp [late, early, binds, List.lookup_cons, hne]
  refine ⟨?_, by decide +kernel⟩
  exact expand_depends_on_declarations .standard _ late early _ _ _ _ hbinds rfl (by simp)
    (by decide +kernel) (.refl _)

end Assembler
