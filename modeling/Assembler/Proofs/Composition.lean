import Assembler.Proofs.Source

namespace Assembler

def SourceError.down (k : Nat) (e : SourceError) : SourceError := { e with line := e.line + k }

namespace Listing

def Entry.down (k : Nat) (e : Entry) : Entry := { e with line := e.line + k }

section Code

variable {line kept s : Text} {c : Char}

@[simp] theorem allComment_nil : ¬AllComment [] := by
  rintro ⟨lead, rest, -, h⟩
  simp at h

@[simp] theorem allComment_cons :
    AllComment (c :: line) ↔ c = '#' ∨ Text.isBlank c = true ∧ AllComment line := by
  constructor
  · rintro ⟨lead, rest, hlead, h⟩
    cases lead with
    | nil => exact .inl (List.head_eq_of_cons_eq h)
    | cons d lead =>
        obtain ⟨rfl, rfl⟩ := List.cons.inj h
        obtain ⟨hblank, hlead⟩ := List.forall_mem_cons.mp hlead
        exact .inr ⟨hblank, lead, rest, hlead, rfl⟩
  · rintro (rfl | ⟨hblank, lead, rest, hlead, rfl⟩)
    · exact ⟨[], line, by simp, rfl⟩
    · exact ⟨c :: lead, rest, List.forall_mem_cons.mpr ⟨hblank, hlead⟩, rfl⟩

theorem not_allComment_blank (h : ∀ c ∈ s, Text.isBlank c = true) : ¬AllComment s := by
  rintro ⟨lead, rest, -, rfl⟩
  exact Text.notMem_of_blank h rfl (List.mem_append_right lead (List.mem_cons_self ..))

theorem not_allComment_semicolon (comment : Text) : ¬AllComment (';' :: comment) := by
  simp [Text.isBlank]

theorem allComment_append (hs : ¬AllComment s) : AllComment (line ++ s) ↔ AllComment line := by
  induction line with
  | nil => simpa using hs
  | cons c line ih => simp [ih]

theorem allComment_blank_append (h : ∀ c ∈ s, Text.isBlank c = true) :
    AllComment (s ++ line) ↔ AllComment line := by
  induction s with
  | nil => rfl
  | cons c s ih =>
      obtain ⟨hc, hs⟩ := List.forall_mem_cons.mp h
      have hsharp : c ≠ '#' := by
        rintro rfl
        cases hc
      simp [ih hs, hc, hsharp]

theorem code_of_uncommented (h : Uncommented line kept) : code line = Text.trim kept := by
  rw [code, uncommented_iff.mp h]

theorem Uncommented.append_comment (h : Uncommented line kept) (comment : Text) :
    Uncommented (line ++ ';' :: comment) kept := by
  have hsharp : AllComment (line ++ ';' :: comment) ↔ AllComment line :=
    allComment_append (not_allComment_semicolon comment)
  cases h with
  | sharp h => exact .sharp (hsharp.mpr h)
  | semicolon h hkept =>
      rw [List.append_assoc] at hsharp ⊢
      exact .semicolon (mt hsharp.mp h) hkept
  | plain h hkept => exact .semicolon (mt hsharp.mp h) hkept

theorem Uncommented.append_blank (h : Uncommented line kept)
    (hs : ∀ c ∈ s, Text.isBlank c = true) :
    ∃ kept', Uncommented (line ++ s) kept' ∧ Text.trim kept' = Text.trim kept := by
  have hsharp : AllComment (line ++ s) ↔ AllComment line :=
    allComment_append (not_allComment_blank hs)
  have hnone : ';' ∉ s := Text.notMem_of_blank hs rfl
  cases h with
  | sharp h => exact ⟨[], .sharp (hsharp.mpr h), rfl⟩
  | semicolon h hkept =>
      rw [List.append_assoc] at hsharp ⊢
      exact ⟨kept, .semicolon (mt hsharp.mp h) hkept, rfl⟩
  | plain h hkept =>
      have hboth : ';' ∉ line ++ s := by simp [hkept, hnone]
      exact ⟨line ++ s, .plain (mt hsharp.mp h) hboth, Text.trim_append_blank hs⟩

theorem Uncommented.blank_append (h : Uncommented line kept)
    (hs : ∀ c ∈ s, Text.isBlank c = true) :
    ∃ kept', Uncommented (s ++ line) kept' ∧ Text.trim kept' = Text.trim kept := by
  have hsharp : AllComment (s ++ line) ↔ AllComment line := allComment_blank_append hs
  have hnone : ';' ∉ s := Text.notMem_of_blank hs rfl
  cases h with
  | sharp h => exact ⟨[], .sharp (hsharp.mpr h), rfl⟩
  | semicolon h hkept =>
      have hboth : ';' ∉ s ++ kept := by simp [hkept, hnone]
      rw [← List.append_assoc] at hsharp ⊢
      exact ⟨s ++ kept, .semicolon (mt hsharp.mp h) hboth, Text.trim_blank_append hs⟩
  | plain h hkept =>
      have hboth : ';' ∉ s ++ line := by simp [hkept, hnone]
      exact ⟨s ++ line, .plain (mt hsharp.mp h) hboth, Text.trim_blank_append hs⟩

@[simp]
theorem code_append_comment (line comment : Text) : code (line ++ ';' :: comment) = code line := by
  have h := uncommented_withoutComment line
  rw [code_of_uncommented (h.append_comment comment), code]

theorem code_append_blank (hs : ∀ c ∈ s, Text.isBlank c = true) (line : Text) :
    code (line ++ s) = code line := by
  obtain ⟨kept, h, htrim⟩ := (uncommented_withoutComment line).append_blank hs
  rw [code_of_uncommented h, htrim, code]

theorem code_blank_append (hs : ∀ c ∈ s, Text.isBlank c = true) (line : Text) :
    code (s ++ line) = code line := by
  obtain ⟨kept, h, htrim⟩ := (uncommented_withoutComment line).blank_append hs
  rw [code_of_uncommented h, htrim, code]

@[simp] theorem code_append_return (line : Text) : code (line ++ ['\r']) = code line :=
  code_append_blank (List.forall_mem_singleton.mpr rfl) line

@[simp] theorem code_dropReturn (line : Text) : code (Text.dropReturn line) = code line := by
  rcases Text.dropReturn_eq_or line with h | h
  · rw [h]
  · rw [← code_append_return, ← h]

end Code

section Lines

-- The returns that line ends swallow are blank and an empty last line holds nothing, so a text may
-- as well be cut at its line feeds alone.
@[simp] theorem held_ofEnded (n : Nat) (ls : List Text) : held n (Text.ofEnded ls) = held n ls := by
  induction ls generalizing n with
  | nil => rfl
  | cons line rest ih =>
      cases rest with
      | nil =>
          cases line with
          | nil => rfl
          | cons c line => rfl
      | cons next rest =>
          rw [Text.ofEnded_cons line (List.cons_ne_nil next rest), held, held, code_dropReturn, ih]

theorem held_lines (n : Nat) (source : Text) :
    held n (Text.lines source) = held n (List.splitOn '\n' source) :=
  held_ofEnded n (List.splitOn '\n' source)

theorem held_append (n : Nat) (ls ls' : List Text) :
    held n (ls ++ ls') = held n ls ++ held (n + ls.length) ls' := by
  induction ls generalizing n with
  | nil => rfl
  | cons line ls ih =>
      have hlength : n + (line :: ls).length = n + 1 + ls.length := by
        rw [List.length_cons]
        omega
      rw [List.cons_append, held, held, ih, hlength]
      split <;> rfl

theorem held_down (n k : Nat) (ls : List Text) :
    held (n + k) ls = (held n ls).map fun h => (h.1 + k, h.2) := by
  induction ls generalizing n with
  | nil => rfl
  | cons line ls ih =>
      rw [held, held, Nat.add_right_comm, ih]
      split <;> rfl

end Lines

theorem entry_down (M : Machine) (k : Nat) (h : Nat × Text) :
    entry M (h.1 + k, h.2) = ((entry M h).map (Entry.down k)).mapError (SourceError.down k) := by
  obtain ⟨n, s⟩ := h
  simp only [entry]
  cases M.encodeLine s <;> rfl

theorem ofSource_eq_mapM_splitOn (M : Machine) (source : Text) :
    ofSource M source = (held 1 (List.splitOn '\n' source)).mapM (entry M) := by
  rw [ofSource_eq_mapM, held_lines]

theorem ofSource_composes (M : Machine) (first second : Text) :
    ofSource M (first ++ '\n' :: second) =
      match ofSource M first, ofSource M second with
      | .error e, _ => .error e
      | .ok _, .error e => .error (e.down (first.count '\n' + 1))
      | .ok l, .ok l' => .ok (l ++ l'.map (Entry.down (first.count '\n' + 1))) := by
  simp only [ofSource_eq_mapM_splitOn]
  rw [List.splitOn_append_cons_self, held_append, Text.length_splitOn, held_down, List.mapM_append,
    mapM_map_of_commutes (entry_down M _)]
  cases (held 1 (List.splitOn '\n' first)).mapM (entry M) with
  | error e => rfl
  | ok l => cases (held 1 (List.splitOn '\n' second)).mapM (entry M) <;> rfl

end Listing

end Assembler
