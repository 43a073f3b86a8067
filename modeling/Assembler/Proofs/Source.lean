import Assembler.Proofs.Listing

namespace Assembler

namespace Text

inductive Lined : Text → List Text → Prop
  | nil : Lined [] []
  | unended {t : Text} (hne : t ≠ []) (hfeed : '\n' ∉ t) : Lined t [t]
  | feed {line rest : Text} {ls : List Text} (hfeed : '\n' ∉ line)
      (hreturn : line.getLast? ≠ some '\r') (h : Lined rest ls) :
      Lined (line ++ '\n' :: rest) (line :: ls)
  | returnFeed {line rest : Text} {ls : List Text} (hfeed : '\n' ∉ line) (h : Lined rest ls) :
      Lined (line ++ '\r' :: '\n' :: rest) (line :: ls)

section Lines

variable {t line rest : Text} {ls : List Text}

theorem lines_of_notMem (hne : t ≠ []) (h : '\n' ∉ t) : lines t = [t] := by
  have hempty : t.isEmpty = false := List.isEmpty_eq_false_iff.mpr hne
  simp [lines, List.splitOn_eq_singleton h, ofEnded, hempty]

theorem lines_append_feed (h : '\n' ∉ line) (rest : Text) :
    lines (line ++ '\n' :: rest) = dropReturn line :: lines rest := by
  rw [lines, List.splitOn_append_cons_self_of_not_mem h,
    ofEnded_cons line (List.splitOn_ne_nil '\n' rest), lines]

theorem Lined.append_feed (hfeed : '\n' ∉ line) (h : Lined rest ls) :
    Lined (line ++ '\n' :: rest) (dropReturn line :: ls) := by
  by_cases hreturn : line.getLast? = some '\r'
  · obtain ⟨start, rfl⟩ := List.getLast?_eq_some_iff.mp hreturn
    rw [dropReturn, if_pos hreturn, List.dropLast_concat, List.append_assoc]
    exact .returnFeed (fun hmem => hfeed (List.mem_append_left _ hmem)) h
  · rw [dropReturn, if_neg hreturn]
    exact .feed hfeed hreturn h

theorem lined_lines (t : Text) : Lined t (lines t) := by
  induction t using parts_induction '\n' with
  | whole t hfeed =>
      rcases eq_or_ne t [] with rfl | hne
      · exact .nil
      · rw [lines_of_notMem hne hfeed]
        exact .unended hne hfeed
  | cons line rest hline ih =>
      rw [lines_append_feed hline]
      exact .append_feed hline ih

theorem lined_iff : Lined t ls ↔ lines t = ls := by
  constructor
  · intro h
    induction h with
    | nil => rfl
    | unended hne hfeed => exact lines_of_notMem hne hfeed
    | feed hfeed hreturn _ ih => rw [lines_append_feed hfeed, dropReturn, if_neg hreturn, ih]
    | @returnFeed line rest ls hfeed _ ih =>
        have hline : '\n' ∉ line ++ ['\r'] := by simpa using hfeed
        have hsplit : line ++ '\r' :: '\n' :: rest = (line ++ ['\r']) ++ '\n' :: rest := by simp
        rw [hsplit, lines_append_feed hline, ih]
        simp [dropReturn]
  · rintro rfl
    exact lined_lines t

end Lines

end Text

namespace Listing

def AllComment (line : Text) : Prop :=
  ∃ lead rest : Text, (∀ c ∈ lead, Text.isBlank c = true) ∧ line = lead ++ '#' :: rest

inductive Uncommented : Text → Text → Prop
  | sharp {line : Text} (h : AllComment line) : Uncommented line []
  | semicolon {kept comment : Text} (h : ¬AllComment (kept ++ ';' :: comment))
      (hkept : ';' ∉ kept) : Uncommented (kept ++ ';' :: comment) kept
  | plain {kept : Text} (h : ¬AllComment kept) (hkept : ';' ∉ kept) : Uncommented kept kept

def Holds (source : Text) (n : Nat) (s : Text) : Prop :=
  ∃ ls k line kept, Text.Lined source ls ∧ ls[k]? = some line ∧ n = k + 1 ∧
    Uncommented line kept ∧ (∃ c ∈ kept, Text.isBlank c = false) ∧ s = Text.trim kept

section Comments

variable {line kept s : Text}

theorem allComment_iff : AllComment line ↔ (Text.trimStart line).head? = some '#' := by
  constructor
  · rintro ⟨lead, rest, hlead, rfl⟩
    rw [Text.trimStart, List.dropWhile_append_of_pos hlead]
    rfl
  · intro h
    obtain ⟨rest, hrest⟩ := List.head?_eq_some_iff.mp h
    refine ⟨line.takeWhile Text.isBlank, rest, fun c hc => List.mem_takeWhile_imp hc, ?_⟩
    rw [← hrest, Text.trimStart, List.takeWhile_append_dropWhile]

theorem uncommented_withoutComment (line : Text) : Uncommented line (withoutComment line) := by
  by_cases h : AllComment line
  · rw [withoutComment, if_pos (allComment_iff.mp h)]
    exact .sharp h
  · rw [withoutComment, if_neg (mt allComment_iff.mpr h)]
    by_cases hmem : ';' ∈ line
    · obtain ⟨kept, comment, rfl, hkept⟩ := List.eq_append_cons_of_mem hmem
      rw [Text.upTo_append hkept]
      exact .semicolon h hkept
    · rw [Text.upTo_of_notMem hmem]
      exact .plain h hmem

theorem uncommented_iff : Uncommented line kept ↔ withoutComment line = kept := by
  constructor
  · intro h
    cases h with
    | sharp h => rw [withoutComment, if_pos (allComment_iff.mp h)]
    | semicolon h hkept =>
        rw [withoutComment, if_neg (mt allComment_iff.mpr h), Text.upTo_append hkept]
    | plain h hkept =>
        rw [withoutComment, if_neg (mt allComment_iff.mpr h), Text.upTo_of_notMem hkept]
  · rintro rfl
    exact uncommented_withoutComment line

theorem holds_iff {source : Text} {n : Nat} : Holds source n s ↔
    ∃ k line, (Text.lines source)[k]? = some line ∧ n = 1 + k ∧ s = code line ∧ s ≠ [] := by
  have hblank : ∀ kept : Text, Text.trim kept ≠ [] ↔ ∃ c ∈ kept, Text.isBlank c = false := by
    intro kept
    simp [Text.trim_eq_nil_iff]
  constructor
  · rintro ⟨ls, k, line, kept, hls, hline, rfl, hkept, hc, rfl⟩
    obtain rfl := Text.lined_iff.mp hls
    obtain rfl := uncommented_iff.mp hkept
    exact ⟨k, line, hline, Nat.add_comm k 1, rfl, (hblank _).mpr hc⟩
  · rintro ⟨k, line, hline, rfl, rfl, hne⟩
    exact ⟨_, k, line, _, Text.lined_lines source, hline, Nat.add_comm 1 k,
      uncommented_withoutComment line, (hblank _).mp hne, rfl⟩

end Comments

section Numbered

theorem exists_getElem?_cons {α : Type} {P : Nat → α → Prop} {x : α} {xs : List α} :
    (∃ i y, (x :: xs)[i]? = some y ∧ P i y) ↔ P 0 x ∨ ∃ i y, xs[i]? = some y ∧ P (i + 1) y := by
  constructor
  · rintro ⟨i, y, hy, h⟩
    cases i with
    | zero =>
        obtain rfl : x = y := by simpa using hy
        exact .inl h
    | succ i => exact .inr ⟨i, y, by simpa using hy, h⟩
  · rintro (h | ⟨i, y, hy, h⟩)
    · exact ⟨0, x, rfl, h⟩
    · exact ⟨i + 1, y, by simpa using hy, h⟩

def held : Nat → List Text → List (Nat × Text)
  | _, [] => []
  | n, line :: rest =>
      if (code line).isEmpty then held (n + 1) rest else (n, code line) :: held (n + 1) rest

def entry (M : Machine) (h : Nat × Text) : Except SourceError Entry :=
  match M.encodeLine h.2 with
  | .error e => .error ⟨h.1, h.2, e⟩
  | .ok w => .ok ⟨h.1, h.2, w⟩

variable {M : Machine} {n k : Nat} {line s : Text} {ls : List Text}

theorem ofLines_of_blank (h : code line = []) (M : Machine) (n : Nat) (rest : List Text) :
    ofLines M n (line :: rest) = ofLines M (n + 1) rest := by
  have hnone : Instruction.ofLine? (code line) = none :=
    Instruction.ofLine?_eq_none_iff.mpr (by rw [h]; rfl)
  simp only [ofLines, hnone]

theorem ofLines_of_error {e : Error} (hne : code line ≠ [])
    (h : M.encodeLine (code line) = .error e) (n : Nat) (rest : List Text) :
    ofLines M n (line :: rest) = .error ⟨n, code line, e⟩ := by
  cases hi : Instruction.ofLine? (code line) with
  | none =>
      have htrim : Text.trim (code line) = [] := Instruction.ofLine?_eq_none_iff.mp hi
      rw [code, Text.trim_trim] at htrim
      exact absurd htrim hne
  | some i =>
      rw [Machine.encodeLine, hi] at h
      simp only [ofLines, hi, h]

-- Skipping and numbering are settled before anything is encoded: what is left is a traversal.
theorem ofLines_eq_mapM (M : Machine) (n : Nat) (ls : List Text) :
    ofLines M n ls = (held n ls).mapM (entry M) := by
  induction ls generalizing n with
  | nil => rfl
  | cons line rest ih =>
      by_cases hcode : code line = []
      · rw [ofLines_of_blank hcode, held, if_pos (List.isEmpty_iff.mpr hcode), ih]
      · rw [held, if_neg (by simpa using hcode), List.mapM_cons]
        cases hline : M.encodeLine (code line) with
        | error e =>
            rw [ofLines_of_error hcode hline, entry]
            simp only [hline]
            rfl
        | ok w =>
            rw [ofLines_cons hline, ih, entry]
            simp only [hline]
            cases (held (n + 1) rest).mapM (entry M) <;> rfl

theorem mem_held : (k, s) ∈ held n ls ↔
    ∃ i line, ls[i]? = some line ∧ k = n + i ∧ s = code line ∧ s ≠ [] := by
  induction ls generalizing n with
  | nil => simp [held]
  | cons line rest ih =>
      have hrest : (∃ i other, rest[i]? = some other ∧ k = n + (i + 1) ∧ s = code other ∧ s ≠ []) ↔
          (k, s) ∈ held (n + 1) rest := by
        rw [ih]
        simp only [Nat.add_assoc, Nat.add_comm 1]
      rw [exists_getElem?_cons, hrest, held]
      by_cases hcode : code line = []
      · simp [hcode]
      · rw [if_neg (by simpa using hcode), List.mem_cons, Prod.mk.injEq]
        refine or_congr_left (and_congr_right fun _ => ⟨?_, fun h => h.1⟩)
        rintro rfl
        exact ⟨rfl, hcode⟩

theorem held_ascending (n : Nat) (ls : List Text) :
    (held n ls).Pairwise fun a b => a.1 < b.1 := by
  induction ls generalizing n with
  | nil => exact .nil
  | cons line rest ih =>
      rw [held]
      split
      · exact ih (n + 1)
      · refine .cons ?_ (ih (n + 1))
        rintro ⟨k, s⟩ hmem
        obtain ⟨i, -, -, rfl, -⟩ := mem_held.mp hmem
        change n < n + 1 + i
        omega

theorem entry_eq_ok_iff {h : Nat × Text} {e : Entry} : entry M h = .ok e ↔
    h = (e.line, e.source) ∧ M.encodeLine e.source = .ok e.word := by
  obtain ⟨n, s⟩ := h
  obtain ⟨line, source, word⟩ := e
  rw [entry]
  cases hw : M.encodeLine s <;> grind

theorem entry_eq_error_iff {h : Nat × Text} {e : SourceError} : entry M h = .error e ↔
    h = (e.line, e.source) ∧ M.encodeLine e.source = .error e.cause := by
  obtain ⟨n, s⟩ := h
  obtain ⟨line, source, cause⟩ := e
  rw [entry]
  cases hw : M.encodeLine s <;> grind

theorem exists_entry_iff {h : Nat × Text} :
    (∃ e, entry M h = .ok e) ↔ ∃ w, M.encodeLine h.2 = .ok w := by
  constructor
  · rintro ⟨e, he⟩
    obtain ⟨rfl, hw⟩ := entry_eq_ok_iff.mp he
    exact ⟨e.word, hw⟩
  · rintro ⟨w, hw⟩
    exact ⟨⟨h.1, h.2, w⟩, entry_eq_ok_iff.mpr ⟨rfl, hw⟩⟩

end Numbered

section Source

variable {M : Machine} {source s : Text} {n : Nat} {w : Word} {l : Listing}

theorem ofSource_eq_mapM (M : Machine) (source : Text) :
    ofSource M source = (held 1 (Text.lines source)).mapM (entry M) :=
  ofLines_eq_mapM M 1 (Text.lines source)

theorem mem_held_iff_holds : (n, s) ∈ held 1 (Text.lines source) ↔ Holds source n s :=
  mem_held.trans holds_iff.symm

theorem exists_ofSource_iff : (∃ l, ofSource M source = .ok l) ↔
    ∀ n s, Holds source n s → ∃ w, M.encodeLine s = .ok w := by
  rw [ofSource_eq_mapM, exists_mapM_eq_ok_iff]
  simp only [Prod.forall, mem_held_iff_holds, exists_entry_iff]

theorem mem_ofSource (h : ofSource M source = .ok l) :
    ⟨n, s, w⟩ ∈ l ↔ Holds source n s ∧ M.encodeLine s = .ok w := by
  rw [ofSource_eq_mapM] at h
  rw [mem_of_mapM_eq_ok h]
  simp only [entry_eq_ok_iff, ← mem_held_iff_holds]
  constructor
  · rintro ⟨_, hmem, rfl, hw⟩
    exact ⟨hmem, hw⟩
  · rintro ⟨hmem, hw⟩
    exact ⟨_, hmem, rfl, hw⟩

theorem ofSource_ascending (h : ofSource M source = .ok l) :
    l.Pairwise fun a b => a.line < b.line := by
  rw [ofSource_eq_mapM] at h
  have hmap : l.map (fun e => (e.line, e.source)) = held 1 (Text.lines source) :=
    map_of_mapM_eq_ok (fun _ _ he => (entry_eq_ok_iff.mp he).1.symm) h
  have hascending := held_ascending 1 (Text.lines source)
  rwa [← hmap, List.pairwise_map] at hascending

theorem ofSource_eq_error_iff {e : Error} : ofSource M source = .error ⟨n, s, e⟩ ↔
    Holds source n s ∧ M.encodeLine s = .error e ∧
      ∀ m r, m < n → Holds source m r → ∃ w, M.encodeLine r = .ok w := by
  have hascending := held_ascending 1 (Text.lines source)
  rw [ofSource_eq_mapM, mapM_eq_error_iff]
  simp only [← mem_held_iff_holds]
  constructor
  · rintro ⟨before, x, after, hsplit, hx, hbefore⟩
    obtain ⟨rfl, he⟩ := entry_eq_error_iff.mp hx
    rw [hsplit, List.pairwise_append, List.pairwise_cons] at hascending
    refine ⟨by simp [hsplit], he, ?_⟩
    intro m r hlt hmem
    rw [hsplit, List.mem_append, List.mem_cons] at hmem
    rcases hmem with hmem | heq | hmem
    · exact exists_entry_iff.mp (hbefore (m, r) hmem)
    · obtain rfl : m = n := congrArg Prod.fst heq
      omega
    · have hgt : n < m := hascending.2.1.1 (m, r) hmem
      omega
  · rintro ⟨hmem, he, hall⟩
    obtain ⟨before, after, hsplit⟩ := List.append_of_mem hmem
    refine ⟨before, (n, s), after, hsplit, entry_eq_error_iff.mpr ⟨rfl, he⟩, ?_⟩
    rintro ⟨m, r⟩ hbefore
    rw [hsplit, List.pairwise_append] at hascending
    have hlt : m < n := hascending.2.2 (m, r) hbefore (n, s) (by simp)
    exact exists_entry_iff.mpr (hall m r hlt (by simp [hsplit, hbefore]))

end Source

theorem ofSource_assembles_held_lines (M : Machine) (source : Text) :
    ((∃ l, ofSource M source = .ok l) ↔
      ∀ n s, Holds source n s → ∃ w, M.encodeLine s = .ok w) ∧
    (∀ l, ofSource M source = .ok l → l.Pairwise (fun a b => a.line < b.line) ∧
      ∀ n s w, ⟨n, s, w⟩ ∈ l ↔ Holds source n s ∧ M.encodeLine s = .ok w) ∧
    ∀ n s e, ofSource M source = .error ⟨n, s, e⟩ ↔
      Holds source n s ∧ M.encodeLine s = .error e ∧
        ∀ m r, m < n → Holds source m r → ∃ w, M.encodeLine r = .ok w :=
  ⟨exists_ofSource_iff,
    fun _ h => ⟨ofSource_ascending h, fun _ _ _ => mem_ofSource h⟩,
    fun _ _ _ => ofSource_eq_error_iff⟩

def commented : Text := " # HLT\n LDV A, 5;#\r\n\t;\nHLT".toList

def halfWrong : Text := "HLT\n\nMOV A, Z ; no such register\nFOO".toList

theorem ofSource_assembles_held_lines_commented :
    (∃ l, ofSource .standard commented = .ok l ∧ (⟨4, "HLT".toList, 0x000D⟩ : Entry) ∈ l) ∧
      Holds commented 2 "LDV A, 5".toList ∧
        (∀ m r, m < 3 → Holds halfWrong m r → ∃ w, Machine.standard.encodeLine r = .ok w) := by
  have hok : ofSource .standard commented =
      .ok [⟨2, "LDV A, 5".toList, 0x0141⟩, ⟨4, "HLT".toList, 0x000D⟩] := by decide +kernel
  have herror : ofSource .standard halfWrong =
      .error ⟨3, "MOV A, Z".toList, .unknownRegister ['Z']⟩ := by decide +kernel
  obtain ⟨-, hmem⟩ := (ofSource_assembles_held_lines .standard commented).2.1 _ hok
  obtain ⟨-, -, hfirst⟩ := ((ofSource_assembles_held_lines .standard halfWrong).2.2 _ _ _).mp herror
  exact ⟨⟨_, hok, by simp⟩, ((hmem 2 _ _).mp (List.mem_cons_self ..)).1, hfirst⟩

end Listing

end Assembler
