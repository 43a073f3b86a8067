import Assembler.Proofs.Composition

namespace Assembler.Listing

def codes (source : Text) : List Text := (List.splitOn '\n' source).map code

section Codes

theorem codes_append_feed (first second : Text) :
    codes (first ++ '\n' :: second) = codes first ++ codes second := by
  rw [codes, List.splitOn_append_cons_self, List.map_append, codes, codes]

@[simp] theorem codes_append_return (t : Text) : codes (t ++ ['\r']) = codes t :=
  Text.map_splitOn_append (by simp) code_append_return t

theorem held_congr {ls ls' : List Text} (h : ls.map code = ls'.map code) (n : Nat) :
    held n ls = held n ls' := by
  induction ls generalizing ls' n with
  | nil =>
      obtain rfl : ls' = [] := List.map_eq_nil_iff.mp h.symm
      rfl
  | cons line ls ih =>
      cases ls' with
      | nil => cases h
      | cons line' ls' =>
          obtain ⟨hline, hrest⟩ := List.cons.inj h
          rw [held, held, hline, ih hrest]

theorem ofSource_congr (M : Machine) {source source' : Text} (h : codes source = codes source') :
    ofSource M source = ofSource M source' := by
  rw [ofSource_eq_mapM_splitOn, ofSource_eq_mapM_splitOn, held_congr h]

end Codes

def withReturns (source : Text) : Text :=
  source.flatMap fun c => if c = '\n' then ['\r', '\n'] else [c]

theorem withReturns_of_notMem {line : Text} (h : '\n' ∉ line) : withReturns line = line := by
  induction line with
  | nil => rfl
  | cons c line ih =>
      rw [List.mem_cons, not_or] at h
      obtain ⟨hc, hline⟩ := h
      rw [withReturns, List.flatMap_cons, if_neg (Ne.symm hc)]
      exact congrArg (c :: ·) (ih hline)

@[simp] theorem codes_withReturns (source : Text) : codes (withReturns source) = codes source := by
  induction source using Text.parts_induction '\n' with
  | whole line hline => rw [withReturns_of_notMem hline]
  | cons line rest hline ih =>
      have hsplit : withReturns (line ++ '\n' :: rest) =
          (line ++ ['\r']) ++ '\n' :: withReturns rest := by
        rw [withReturns, List.flatMap_append, ← withReturns, withReturns_of_notMem hline]
        simp [withReturns]
      rw [hsplit, codes_append_feed, codes_append_return, ih, codes_append_feed]

def LineStart (before : Text) : Prop := before = [] ∨ ∃ earlier, before = earlier ++ ['\n']

-- A return directly before the feed is part of the line's end: text may be put on either side.
def LineEnd (after : Text) : Prop :=
  after = [] ∨ ∃ later, after = '\n' :: later ∨ after = '\r' :: '\n' :: later

def Gap (s : Text) : Prop := ∀ c ∈ s, Text.isBlank c = true ∧ c ≠ '\n'

-- One place at a time; any number of lines is reached step by step.
inductive Relaid : Text → Text → Prop
  | indent (before blanks after : Text) (hstart : LineStart before) (h : Gap blanks) :
      Relaid (before ++ after) (before ++ blanks ++ after)
  | pad (before blanks after : Text) (hend : LineEnd after) (h : Gap blanks) :
      Relaid (before ++ after) (before ++ blanks ++ after)
  | comment (before text after : Text) (hend : LineEnd after) (h : '\n' ∉ text) :
      Relaid (before ++ after) (before ++ ';' :: text ++ after)
  | returns (source : Text) : Relaid source (withReturns source)

section Relaid

variable {before after s source source' : Text}

theorem Gap.blank (h : Gap s) : ∀ c ∈ s, Text.isBlank c = true := fun c hc => (h c hc).1

theorem Gap.feed_notMem (h : Gap s) : '\n' ∉ s := fun hmem => (h '\n' hmem).2 rfl

theorem LineStart.codes_insert (h : LineStart before) (hs : '\n' ∉ s)
    (hcode : ∀ line, code (s ++ line) = code line) (after : Text) :
    codes (before ++ s ++ after) = codes (before ++ after) := by
  have hinsert : codes (s ++ after) = codes after := Text.map_splitOn_prepend hs hcode after
  rcases h with rfl | ⟨earlier, rfl⟩
  · exact hinsert
  · simp only [List.append_assoc, List.cons_append, List.nil_append, codes_append_feed, hinsert]

theorem LineEnd.codes_insert (h : LineEnd after) (hs : '\n' ∉ s)
    (hcode : ∀ line, code (line ++ s) = code line) (before : Text) :
    codes (before ++ s ++ after) = codes (before ++ after) := by
  have hinsert : codes (before ++ s) = codes before := Text.map_splitOn_append hs hcode before
  rcases h with rfl | ⟨later, rfl | rfl⟩
  · rw [List.append_nil, List.append_nil, hinsert]
  · rw [codes_append_feed, codes_append_feed, hinsert]
  · rw [List.append_cons (before ++ s) '\r', List.append_cons before '\r', codes_append_feed,
      codes_append_feed, codes_append_return, codes_append_return, hinsert]

theorem Relaid.codes_eq (h : Relaid source source') : codes source' = codes source := by
  cases h with
  | indent before blanks after hstart hgap =>
      exact hstart.codes_insert hgap.feed_notMem (code_blank_append hgap.blank) after
  | pad before blanks after hend hgap =>
      exact hend.codes_insert hgap.feed_notMem (code_append_blank hgap.blank) before
  | comment before text after hend htext =>
      exact hend.codes_insert (by simp [htext]) (fun line => code_append_comment line text) before
  | returns => exact codes_withReturns source

theorem codes_eq_of_reflTransGen (h : Relation.ReflTransGen Relaid source source') :
    codes source' = codes source := by
  induction h with
  | refl => rfl
  | tail _ hstep ih => exact hstep.codes_eq.trans ih

end Relaid

theorem ofSource_ignores_layout (M : Machine) (source source' : Text)
    (h : Relation.ReflTransGen Relaid source source') : ofSource M source' = ofSource M source :=
  ofSource_congr M (codes_eq_of_reflTransGen h)

def bare : Text := "RET\n#\nHLT".toList

def dressed : Text := "RET ;#\n\t#\nHLT;\r".toList

theorem ofSource_ignores_layout_dressed :
    Relation.ReflTransGen Relaid bare (withReturns dressed) ∧
      ofSource .standard (withReturns dressed) = ofSource .standard bare ∧
        ofSource .standard bare = .ok [⟨1, "RET".toList, 0x0008⟩, ⟨3, "HLT".toList, 0x000D⟩] := by
  have hpad : Relaid bare "RET \n#\nHLT".toList :=
    .pad "RET".toList [' '] "\n#\nHLT".toList (.inr ⟨_, .inl rfl⟩) (by simp [Gap, Text.isBlank])
  have hfirst : Relaid "RET \n#\nHLT".toList "RET ;#\n#\nHLT".toList :=
    .comment "RET ".toList ['#'] "\n#\nHLT".toList (.inr ⟨_, .inl rfl⟩) (by simp)
  have hindent : Relaid "RET ;#\n#\nHLT".toList "RET ;#\n\t#\nHLT".toList :=
    .indent "RET ;#\n".toList ['\t'] "#\nHLT".toList (.inr ⟨"RET ;#".toList, rfl⟩)
      (by simp [Gap, Text.isBlank])
  have hlast : Relaid "RET ;#\n\t#\nHLT".toList dressed :=
    .comment "RET ;#\n\t#\nHLT".toList ['\r'] [] (.inl rfl) (by simp)
  have h : Relation.ReflTransGen Relaid bare (withReturns dressed) :=
    .tail (.tail (.tail (.tail (.single hpad) hfirst) hindent) hlast) (.returns dressed)
  exact ⟨h, ofSource_ignores_layout .standard bare _ h, by decide +kernel⟩

end Assembler.Listing
