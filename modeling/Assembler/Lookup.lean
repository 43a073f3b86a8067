namespace Assembler

variable {α β : Type} [BEq α] [LawfulBEq α]

theorem lookup_filter_ne (entries : List (α × β)) {key other : α} (h : other ≠ key) :
    (entries.filter (·.1 != key)).lookup other = entries.lookup other := by
  induction entries with
  | nil => rfl
  | cons e entries ih =>
      obtain ⟨k, value⟩ := e
      by_cases hk : k = key
      · subst hk
        simp [List.lookup_cons, ih, beq_eq_false_iff_ne.2 h]
      · simp [List.lookup_cons, ih, hk]

theorem lookup_cons_filter_ne [DecidableEq α] (entries : List (α × β)) (key : α) (value : β)
    (other : α) : ((key, value) :: entries.filter (·.1 != key)).lookup other =
      if other = key then some value else entries.lookup other := by
  by_cases h : other = key
  · simp [h]
  · simp [List.lookup_cons, h, beq_eq_false_iff_ne.2 h, lookup_filter_ne entries h]

theorem lookup_of_mem {entries : List (α × β)} (hnodup : (entries.map (·.1)).Nodup) {key : α}
    {value : β} (h : (key, value) ∈ entries) : entries.lookup key = some value := by
  induction entries with
  | nil => cases h
  | cons entry entries ih =>
      obtain ⟨hfirst, hrest⟩ := List.nodup_cons.mp hnodup
      rcases List.mem_cons.mp h with rfl | hmem
      · simp
      · have hne : key ≠ entry.1 := by
          rintro rfl
          exact hfirst (List.mem_map_of_mem (f := (·.1)) hmem)
        rw [List.lookup_cons, beq_eq_false_iff_ne.2 hne]
        exact ih hrest hmem

end Assembler
