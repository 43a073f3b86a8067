import Assembler.Proofs.Members

namespace Assembler

section Repeats

variable {α β : Type} {l before after : List α} {x : α}

-- `x` stands at the earliest place whose element also stands before it.
def FirstRepeat (l : List α) (x : α) : Prop :=
  ∃ before after, l = before ++ x :: after ∧ before.Nodup ∧ x ∈ before

theorem exists_firstRepeat (h : ¬l.Nodup) : ∃ x, FirstRepeat l x := by
  induction l using List.reverseRecOn with
  | nil => exact absurd List.nodup_nil h
  | append_singleton l y ih =>
      rcases em l.Nodup with hl | hl
      · have hy : y ∈ l := by
          by_contra hy
          exact h (List.nodup_append_comm.mp (List.nodup_cons.mpr ⟨hy, hl⟩))
        exact ⟨y, l, [], rfl, hl, hy⟩
      · obtain ⟨x, before, after, rfl, hbefore, hx⟩ := ih hl
        exact ⟨x, before, after ++ [y], by simp, hbefore, hx⟩

theorem FirstRepeat.not_nodup (h : FirstRepeat l x) : ¬l.Nodup := by
  obtain ⟨before, after, rfl, -, hx⟩ := h
  exact fun hnodup => (List.nodup_append.mp hnodup).2.2 x hx x (by simp) rfl

theorem FirstRepeat.unique {y : α} (hx : FirstRepeat l x) (hy : FirstRepeat l y) : x = y := by
  obtain ⟨before, after, rfl, hbefore, hmem⟩ := hx
  obtain ⟨before', after', hsplit, hbefore', hmem'⟩ := hy
  rcases List.append_eq_append_iff.mp hsplit with ⟨more, rfl, hmore⟩ | ⟨more, rfl, hmore⟩
  · cases more with
    | nil => exact (List.cons.inj hmore).1
    | cons z more =>
        obtain rfl := (List.cons.inj hmore).1
        exact absurd rfl ((List.nodup_append.mp hbefore').2.2 x hmem x List.mem_cons_self)
  · cases more with
    | nil => exact (List.cons.inj hmore).1.symm
    | cons z more =>
        obtain rfl := (List.cons.inj hmore).1
        exact absurd rfl ((List.nodup_append.mp hbefore).2.2 y hmem' y List.mem_cons_self)

theorem exists_part_of_flatMap_eq {f : β → List α} {parts : List β}
    (h : parts.flatMap f = before ++ x :: after) :
    ∃ earlier part later start rest, parts = earlier ++ part :: later ∧
      f part = start ++ x :: rest ∧ before = earlier.flatMap f ++ start := by
  induction parts generalizing before with
  | nil => simp at h
  | cons part parts ih =>
      rw [List.flatMap_cons, List.append_eq_append_iff] at h
      rcases h with ⟨more, rfl, hrest⟩ | ⟨more, hpart, hrest⟩
      · obtain ⟨earlier, other, later, start, rest, rfl, hother, rfl⟩ := ih hrest
        exact ⟨part :: earlier, other, later, start, rest, rfl, hother, by simp⟩
      · cases more with
        | nil =>
            obtain ⟨earlier, other, later, start, rest, rfl, hother, hnil⟩ := @ih [] hrest.symm
            refine ⟨part :: earlier, other, later, start, rest, rfl, hother, ?_⟩
            rw [List.append_nil] at hpart
            rw [List.flatMap_cons, hpart, List.append_assoc, ← hnil, List.append_nil]
        | cons y more =>
            obtain ⟨rfl, -⟩ := List.cons.inj hrest
            exact ⟨[], part, parts, before, more, rfl, hpart, rfl⟩

end Repeats

namespace Table

section Keys

variable {members : List TableMember} {k : Key ⊕ LimitKey}

def keyName : Key ⊕ LimitKey → Text := Sum.elim Key.name LimitKey.name

theorem inl_mem_keysOf {m : TableMember} {k : Key} : .inl k ∈ keysOf m ↔ m.key? = some k := by
  cases m with
  | known i v => cases i <;> simp [keysOf, Member.key?, eq_comm]
  | unknown => simp [keysOf, Member.key?]

theorem inl_mem_keys {k : Key} :
    .inl k ∈ members.flatMap keysOf ↔ k ∈ members.filterMap Member.key? := by
  simp only [List.mem_flatMap, List.mem_filterMap, inl_mem_keysOf]

theorem inl_limits_mem_keys {i : LimitKey} (h : .inr i ∈ members.flatMap keysOf) :
    .inl .limits ∈ members.flatMap keysOf := by
  obtain ⟨m, hm, hi⟩ := List.mem_flatMap.mp h
  refine List.mem_flatMap.mpr ⟨m, hm, ?_⟩
  cases m with
  | known k v =>
      cases k with
      | limits => exact List.mem_cons_self
      | _ => simp [keysOf] at hi
  | unknown => simp [keysOf] at hi

theorem nodup_keys_of_nodup (h : (members.flatMap keysOf).Nodup) :
    (members.filterMap Member.key?).Nodup := by
  induction members with
  | nil => exact List.nodup_nil
  | cons m members ih =>
      rw [List.flatMap_cons, List.nodup_append] at h
      obtain ⟨-, hrest, hdisjoint⟩ := h
      cases m with
      | known k v =>
          refine List.nodup_cons.mpr ⟨fun hk => ?_, ih hrest⟩
          exact hdisjoint _ (inl_mem_keysOf.mpr rfl) _ (inl_mem_keys.mpr hk) rfl
      | unknown => exact ih hrest

theorem nodup_limits_of_nodup (h : (members.flatMap keysOf).Nodup) (v : LimitsValue)
    (hv : .known .limits v ∈ members) : (v.members.filterMap Member.key?).Nodup := by
  have hkeys : (keysOf (.known .limits v)).Nodup := (List.nodup_flatMap.mp h).1 _ hv
  exact List.Nodup.of_map _ (List.nodup_cons.mp hkeys).2

theorem keysOf_eq_append {m : TableMember} {start rest : List (Key ⊕ LimitKey)}
    (h : keysOf m = start ++ k :: rest) :
    (∃ i v, m = .known i v ∧ start = [] ∧ k = .inl i) ∨
      ∃ v before i after, m = .known .limits v ∧ start = .inl .limits :: before.map .inr ∧
        k = .inr i ∧ v.members.filterMap Member.key? = before ++ i :: after := by
  cases m with
  | known i v =>
      cases start with
      | nil =>
          have hk : (keysOf (.known i v)).head? = some (.inl i) := by cases i <;> rfl
          rw [h, List.nil_append, List.head?_cons, Option.some.injEq] at hk
          exact .inl ⟨i, v, rfl, rfl, hk⟩
      | cons first start =>
          cases i with
          | limits =>
              obtain ⟨rfl, hkeys⟩ := List.cons.inj h
              obtain ⟨before, more, hsplit, rfl, hmore⟩ := List.map_eq_append_iff.mp hkeys
              obtain ⟨i, after, rfl, rfl, -⟩ := List.map_eq_cons_iff.mp hmore
              exact .inr ⟨v, before, i, after, rfl, rfl, rfl, hsplit⟩
          | _ => simp [keysOf] at h
  | unknown => simp [keysOf] at h

end Keys

namespace Reader

section Repeated

variable {κ : Type} {name : κ → Text} {Value : κ → Type} {R : Record name Value}
  {members : List (Member name Value)}

theorem map_name_sublist (write : (k : κ) → Value k → Json) :
    List.Sublist ((members.filterMap Member.key?).map name)
      ((members.map (Member.json write)).map (·.1)) := by
  induction members with
  | nil => exact .slnil
  | cons m members ih =>
      cases m with
      | known k v => exact ih.cons_cons (name k)
      | unknown key j hkey => exact ih.cons key

theorem Record.Reads.fails_firstRepeat (h : R.Reads members) (hkeys : R.keys.Nodup) {k : κ}
    (hk : FirstRepeat (members.filterMap Member.key?) k) {j : Json}
    (hj : Spelling (R.keys.map name) (members.map (Member.json R.write)) j) (t : Table) :
    Fails R.place j t (.duplicateKey (name k)) := by
  cases hj with
  | object =>
      obtain ⟨before, after, hsplit, hnodup, hmem⟩ := hk
      obtain ⟨earlier, more, rfl, rfl, hmore⟩ := List.filterMap_eq_append_iff.mp hsplit
      obtain ⟨skipped, m, later, rfl, hskipped, hm, -⟩ := List.filterMap_eq_cons_iff.mp hmore
      cases m with
      | known i v =>
          obtain rfl := Option.some.inj hm
          have hnone : skipped.filterMap Member.key? = [] :=
            List.filterMap_eq_nil_iff.mpr hskipped
          have hsame : (earlier ++ skipped).filterMap Member.key? =
              earlier.filterMap Member.key? := by
            rw [List.filterMap_append, hnone, List.append_nil]
          have hreads : R.Reads (earlier ++ skipped) := fun k v hv => h k v (by
            rw [← List.append_assoc]
            exact List.mem_append_left _ hv)
          have hfails := hreads.fails_repeated (hsame ▸ hnodup) (hsame ▸ hmem) (R.write i v)
            (later.map (Member.json R.write)) t
          rw [← List.append_assoc, List.map_append, List.map_cons]
          exact hfails
      | unknown => cases hm
  | array hnames =>
      have hnodup : (members.filterMap Member.key?).Nodup := by
        have hall := hnames.sublist.nodup (hkeys.map R.injective)
        exact List.Nodup.of_map name ((map_name_sublist R.write).nodup hall)
      exact absurd hnodup hk.not_nodup

end Repeated

variable {members : List TableMember}

theorem fails_of_firstRepeat {k : Key ⊕ LimitKey} (hk : FirstRepeat (members.flatMap keysOf) k)
    (t : Table) :
    Fails .document (.object (members.map memberJson)) t (.duplicateKey (keyName k)) := by
  obtain ⟨before, after, hsplit, hnodup, hmem⟩ := hk
  obtain ⟨earlier, m, later, start, rest, rfl, hm, rfl⟩ := exists_part_of_flatMap_eq hsplit
  have hearlier : (earlier.flatMap keysOf).Nodup := (List.nodup_append.mp hnodup).1
  have hreads := reads_table (nodup_limits_of_nodup hearlier)
  have hkeys := nodup_keys_of_nodup hearlier
  rw [List.map_append, List.map_cons]
  rcases keysOf_eq_append hm with ⟨i, v, rfl, rfl, rfl⟩ | ⟨v, seen, i, more, rfl, rfl, rfl, hv⟩
  · rw [List.append_nil] at hmem
    exact hreads.fails_repeated hkeys (inl_mem_keys.mp hmem) (writeValue i v) _ t
  · obtain ⟨-, hinner, hdisjoint⟩ := List.nodup_append.mp hnodup
    have hlimits : .inl .limits ∉ earlier.flatMap keysOf :=
      fun h => hdisjoint _ h _ List.mem_cons_self rfl
    -- An earlier limit would stand under an earlier `limits`, itself the first repeat then.
    have hi : i ∈ seen := by
      rcases List.mem_append.mp hmem with h | h
      · exact absurd (inl_limits_mem_keys h) hlimits
      · simpa using h
    have hseen : seen.Nodup := List.Nodup.of_map _ (List.nodup_cons.mp hinner).2
    have hfails := (reads_limits v.members).fails_firstRepeat (by decide)
      ⟨seen, more, hv, hseen, hi⟩ v.spelled
    exact hreads.fails_value hkeys (fun h => hlimits (inl_mem_keys.mpr h)) hfails .object t

theorem override_eq_foldl (h : (members.flatMap keysOf).Nodup) (t : Table) :
    override t members = members.foldl (Member.apply putValue) t :=
  (foldl_putValue (nodup_keys_of_nodup h) (nodup_limits_of_nodup h) t).symm

theorem fills_override (hnodup : (members.flatMap keysOf).Nodup) {j : Json}
    (hj : Spelling (Key.all.map Key.name) (members.map memberJson) j) (t : Table) :
    Fills .document j t (override t members) := by
  rw [override_eq_foldl hnodup]
  exact (reads_table (nodup_limits_of_nodup hnodup)).fills (nodup_keys_of_nodup hnodup) hj t

end Reader

section Order

variable {m m' : TableMember} {members members' : List TableMember}

-- The two members differ at most in the order of the limits.
inductive Alike : TableMember → TableMember → Prop
  | same (m : TableMember) : Alike m m
  | limits (v v' : LimitsValue) (h : v.members.Perm v'.members) :
      Alike (.known .limits v) (.known .limits v')

def Reordered (members members' : List TableMember) : Prop :=
  ∃ inner, List.Forall₂ Alike members inner ∧ inner.Perm members'

theorem Alike.keysOf_perm (h : Alike m m') : (keysOf m).Perm (keysOf m') := by
  cases h with
  | same => exact .refl _
  | limits v v' h => exact ((h.filterMap _).map _).cons _

theorem Alike.apply_eq (h : Alike m m') (hnodup : (keysOf m).Nodup) (t : Table) :
    m.apply Reader.putValue t = m'.apply Reader.putValue t := by
  cases h with
  | same => rfl
  | limits v v' h =>
      have hkeys : (v.members.filterMap Member.key?).Nodup :=
        List.Nodup.of_map _ (List.nodup_cons.mp hnodup).2
      have hkeys' := (h.filterMap _).nodup_iff.mp hkeys
      simp only [Member.apply, Reader.putValue, Reader.foldl_set hkeys, Reader.foldl_set hkeys',
        overrideLimits, given?_perm h hkeys]

theorem keys_perm_of_alike (h : List.Forall₂ Alike members members') :
    (members.flatMap keysOf).Perm (members'.flatMap keysOf) := by
  induction h with
  | nil => exact .refl _
  | cons hm _ ih => exact hm.keysOf_perm.append ih

theorem foldl_eq_of_alike (h : List.Forall₂ Alike members members')
    (hnodup : (members.flatMap keysOf).Nodup) (t : Table) :
    members.foldl (Member.apply Reader.putValue) t =
      members'.foldl (Member.apply Reader.putValue) t := by
  induction h generalizing t with
  | nil => rfl
  | cons hm _ ih =>
      obtain ⟨hfirst, hrest, -⟩ := List.nodup_append.mp hnodup
      rw [List.foldl_cons, List.foldl_cons, hm.apply_eq hfirst, ih hrest]

theorem override_perm (h : members.Perm members') (hnodup : (members.flatMap keysOf).Nodup)
    (t : Table) : override t members = override t members' := by
  rw [override, override, given?_perm h (nodup_keys_of_nodup hnodup)]

theorem Reordered.keys_perm (h : Reordered members members') :
    (members.flatMap keysOf).Perm (members'.flatMap keysOf) := by
  obtain ⟨inner, halike, hperm⟩ := h
  exact (keys_perm_of_alike halike).trans (hperm.flatMap_right _)

theorem Reordered.override_eq (h : Reordered members members')
    (hnodup : (members.flatMap keysOf).Nodup) (t : Table) :
    override t members' = override t members := by
  obtain ⟨inner, halike, hperm⟩ := h
  have hinner := (keys_perm_of_alike halike).nodup_iff.mp hnodup
  calc override t members'
    _ = override t inner := (override_perm hperm hinner t).symm
    _ = inner.foldl (Member.apply Reader.putValue) t := Reader.override_eq_foldl hinner t
    _ = members.foldl (Member.apply Reader.putValue) t :=
        (foldl_eq_of_alike halike hnodup t).symm
    _ = override t members := (Reader.override_eq_foldl hnodup t).symm

end Order

theorem object_overrides_defaults {style : Json.Style} (hs : style.Blank)
    (members : List TableMember) :
    ((members.flatMap keysOf).Nodup →
      read ((Json.object (members.map memberJson)).render style 0) =
          .ok (override .standard members) ∧
        ∀ members', Reordered members members' →
          read ((Json.object (members'.map memberJson)).render style 0) =
            .ok (override .standard members)) ∧
    (¬(members.flatMap keysOf).Nodup →
      ∃ k, FirstRepeat (members.flatMap keysOf) k ∧
        read ((Json.object (members.map memberJson)).render style 0) =
          .error (.duplicateKey (keyName k))) := by
  constructor
  · intro hnodup
    refine ⟨Reader.read_of_fills hs (Reader.fills_override hnodup .object _), fun members' h => ?_⟩
    have hnodup' := h.keys_perm.nodup_iff.mp hnodup
    rw [← h.override_eq hnodup]
    exact Reader.read_of_fills hs (Reader.fills_override hnodup' .object _)
  · intro hnodup
    obtain ⟨k, hk⟩ := exists_firstRepeat hnodup
    exact ⟨k, hk, Reader.read_of_fails hs (Reader.fails_of_firstRepeat hk _)⟩

def LimitsValue.ofMembers (members : List LimitMember) : LimitsValue :=
  ⟨members, .object (members.map (Member.json writeLimit)), .object⟩

def jump : LimitMember := .known .jmp 9

def fetch : LimitMember := .known .ldv 3

def stray : LimitMember := .unknown "LDX".toList .null (by intro k; cases k <;> decide)

def note : TableMember :=
  .unknown "note".toList (.array [.object [("limits".toList, .null)], .bool true])
    (by intro k; cases k <;> decide)

def jumpFirst : TableMember := .known .limits (.ofMembers [jump, stray, fetch])

def loadFirst : TableMember := .known .limits (.ofMembers [fetch, jump, stray])

theorem object_overrides_defaults_partial :
    read ((Json.object ([jumpFirst, note, .known .registers [['X']]].map memberJson)).render
        .indented 0) =
      .ok { Table.standard with
        registers := [['X']], limits := { Table.standard.limits with ldv := 3, jmp := 9 } } ∧
    read ((Json.object ([note, .known .registers [['X']], loadFirst].map memberJson)).render
        .indented 0) =
      .ok { Table.standard with
        registers := [['X']], limits := { Table.standard.limits with ldv := 3, jmp := 9 } } ∧
    read ((Json.object ([jumpFirst, .known .registers [], note, loadFirst, .known .registers []].map
        memberJson)).render .indented 0) =
      .error (.duplicateKey "limits".toList) := by
  have h := object_overrides_defaults Json.Style.blank_indented
  obtain ⟨hread, horder⟩ := (h [jumpFirst, note, .known .registers [['X']]]).1 (by decide)
  have hlimits : Alike jumpFirst loadFirst :=
    .limits _ _ (List.perm_append_singleton fetch [jump, stray])
  have hreordered : Reordered [jumpFirst, note, .known .registers [['X']]]
      [note, .known .registers [['X']], loadFirst] :=
    ⟨_, .cons hlimits (.cons (.same _) (.cons (.same _) .nil)),
      (List.perm_append_singleton loadFirst [note, .known .registers [['X']]]).symm⟩
  obtain ⟨k, hk, hrepeat⟩ :=
    (h [jumpFirst, .known .registers [], note, loadFirst, .known .registers []]).2 (by decide)
  have hfirst : FirstRepeat ([jumpFirst, .known .registers [], note, loadFirst,
      .known .registers []].flatMap keysOf) (.inl .limits) :=
    ⟨[.inl .limits, .inr .jmp, .inr .ldv, .inl .registers],
      [.inr .ldv, .inr .jmp, .inl .registers], rfl, by decide, List.mem_cons_self⟩
  obtain rfl := hk.unique hfirst
  exact ⟨hread, horder _ hreordered, hrepeat⟩

end Table

end Assembler
