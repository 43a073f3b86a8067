import Assembler.Proofs.Result
import Assembler.Template

namespace Assembler

def Brace (c : Char) : Prop := c = '\x7b' ∨ c = '\x7d'

structure IsName (name : Text) : Prop where
  ne_nil : name ≠ []
  noBrace : ∀ c ∈ name, ¬Brace c

namespace Piece

def IsText : Piece → Prop
  | .text _ => True
  | .hole _ => False

def Normal : Piece → Prop
  | .text t => t ≠ []
  | .hole name => IsName name

end Piece

namespace Template

structure Normal (t : Template) : Prop where
  pieces : ∀ p ∈ t, p.Normal
  separated : t.IsChain fun p q => ¬(p.IsText ∧ q.IsText)

inductive Written : Text → Prop
  | nil : Written []
  | plain {c : Char} {t : Text} (hc : ¬Brace c) (ht : Written t) : Written (c :: t)
  | brace {c : Char} {t : Text} (hc : Brace c) (ht : Written t) : Written (c :: c :: t)
  | hole {name t : Text} (hname : IsName name) (ht : Written t) :
      Written ('\x7b' :: name ++ '\x7d' :: t)

section Normal

@[simp] theorem normal_nil : Normal [] := ⟨by simp, .nil⟩

theorem normal_cons {p : Piece} {t : Template} :
    Normal (p :: t) ↔ p.Normal ∧ (∀ q ∈ t.head?, ¬(p.IsText ∧ q.IsText)) ∧ Normal t := by
  constructor
  · rintro ⟨hp, hs⟩
    rw [List.isChain_cons] at hs
    exact ⟨hp p (by simp), hs.1, ⟨fun q hq => hp q (by simp [hq]), hs.2⟩⟩
  · rintro ⟨hp, hs, ht⟩
    refine ⟨?_, List.isChain_cons.mpr ⟨hs, ht.separated⟩⟩
    simpa [hp] using ht.pieces

theorem normal_hole {name : Text} (hname : IsName name) {t : Template} (ht : Normal t) :
    Normal (.hole name :: t) :=
  normal_cons.mpr ⟨hname, by simp [Piece.IsText], ht⟩

theorem normal_push (c : Char) {t : Template} (ht : Normal t) : Normal (push c t) := by
  cases t with
  | nil => exact normal_cons.mpr ⟨by simp [Piece.Normal], by simp, normal_nil⟩
  | cons p t =>
      cases p with
      | text s =>
          obtain ⟨-, hs, ht⟩ := normal_cons.mp ht
          exact normal_cons.mpr ⟨by simp [Piece.Normal], hs, ht⟩
      | hole name =>
          exact normal_cons.mpr ⟨by simp [Piece.Normal], by simp [Piece.IsText], ht⟩

theorem foldr_push {s : Text} (hs : s ≠ []) {t : Template} (ht : ∀ p ∈ t.head?, ¬p.IsText) :
    s.foldr push t = .text s :: t := by
  induction s with
  | nil => exact absurd rfl hs
  | cons c s ih =>
      by_cases hnil : s = []
      · subst hnil
        cases t with
        | nil => rfl
        | cons p t =>
            cases p with
            | text r => exact absurd trivial (ht (.text r) rfl)
            | hole name => rfl
      · rw [List.foldr_cons, ih hnil]
        rfl

end Normal

section Source

theorem doubled_cons (c : Char) (t : Text) : doubled (c :: t) = doubled [c] ++ doubled t := by
  simp [doubled]

theorem doubled_brace {c : Char} (h : Brace c) : doubled [c] = [c, c] := by
  have h' : c = '\x7b' ∨ c = '\x7d' := h
  simp [doubled, h']

theorem doubled_plain {c : Char} (h : ¬Brace c) : doubled [c] = [c] := by
  have h' : ¬(c = '\x7b' ∨ c = '\x7d') := h
  simp [doubled, h']

@[simp]
theorem source_text (s : Text) (t : Template) : source (.text s :: t) = doubled s ++ source t := rfl

@[simp] theorem source_hole (name : Text) (t : Template) :
    source (.hole name :: t) = '\x7b' :: name ++ '\x7d' :: source t := by
  simp [source]

@[simp]
theorem source_push (c : Char) (t : Template) : source (push c t) = doubled [c] ++ source t := by
  cases t with
  | nil => rfl
  | cons p t =>
      cases p with
      | text s =>
          simp [push, doubled_cons c s]
      | hole name => rfl

theorem written_doubled (s : Text) {t : Text} (ht : Written t) : Written (doubled s ++ t) := by
  induction s with
  | nil => exact ht
  | cons c s ih =>
      rw [doubled_cons, List.append_assoc]
      by_cases hc : Brace c
      · rw [doubled_brace hc]
        exact .brace hc ih
      · rw [doubled_plain hc]
        exact .plain hc ih

theorem Normal.written_source {t : Template} (h : t.Normal) : Written t.source := by
  induction t with
  | nil => exact .nil
  | cons p t ih =>
      obtain ⟨hp, -, ht⟩ := normal_cons.mp h
      cases p with
      | text s => exact written_doubled s (ih ht)
      | hole name =>
          rw [source_hole]
          exact .hole hp (ih ht)

end Source

section Reading

def Spells (t : Template) (src : Text) : Prop := t.Normal ∧ t.source = src

theorem spells_push {c : Char} {s src : Text} (hc : doubled [c] = s) {t : Template}
    (h : Spells t src) : Spells (push c t) (s ++ src) :=
  ⟨normal_push c h.1, by simp [hc, h.2]⟩

theorem spells_hole {name : Text} (hname : IsName name) {src : Text} {t : Template}
    (h : Spells t src) : Spells (.hole name :: t) ('\x7b' :: name ++ '\x7d' :: src) :=
  ⟨normal_hole hname h.1, by simp [h.2]⟩

namespace Phase

def pending : Phase → Text
  | .plain => []
  | .opened _ => ['\x7b']
  | .named _ name => '\x7b' :: name.reverse
  | .closed _ => ['\x7d']

def Proper : Phase → Prop
  | .named _ name => IsName name
  | _ => True

end Phase

-- The text that the phase holds back is put in front of what is still to be read.
theorem spells_of_read {phase : Phase} {offset : Nat} {src : Text} {t : Template}
    (h : read phase offset src = .ok t) (hphase : phase.Proper) :
    Spells t (phase.pending ++ src) := by
  induction src generalizing phase offset t with
  | nil =>
      cases phase <;> simp [read] at h
      subst h
      exact ⟨normal_nil, rfl⟩
  | cons c src ih =>
      cases phase with
      | plain =>
          simp only [read] at h
          split at h
          · rename_i hc
            exact hc ▸ ih h trivial
          · split at h
            · rename_i hc
              exact hc ▸ ih h trivial
            · rename_i ho hc
              obtain ⟨u, hu, rfl⟩ := map_eq_ok_iff.mp h
              exact spells_push (doubled_plain (not_or.mpr ⟨ho, hc⟩)) (ih hu trivial)
      | opened start =>
          simp only [read] at h
          split at h
          · rename_i hc
            obtain ⟨u, hu, rfl⟩ := map_eq_ok_iff.mp h
            exact hc ▸ spells_push (doubled_brace (.inl hc)) (ih hu trivial)
          · split at h
            · cases h
            · rename_i ho hc
              exact ih h ⟨by simp, by simp [Brace, ho, hc]⟩
      | named start name =>
          simp only [read] at h
          split at h
          · cases h
          · split at h
            · rename_i hc
              obtain ⟨u, hu, rfl⟩ := map_eq_ok_iff.mp h
              have hname : IsName name.reverse :=
                ⟨by simpa using hphase.ne_nil, by simpa using hphase.noBrace⟩
              exact hc ▸ spells_hole hname (ih hu trivial)
            · rename_i ho hc
              have hname : IsName (c :: name) :=
                ⟨by simp, by simpa [Brace, ho, hc] using hphase.noBrace⟩
              simpa [Phase.pending] using ih h hname
      | closed start =>
          simp only [read] at h
          split at h
          · rename_i hc
            obtain ⟨u, hu, rfl⟩ := map_eq_ok_iff.mp h
            exact hc ▸ spells_push (doubled_brace (.inr hc)) (ih hu trivial)
          · cases h

section Steps

theorem read_plain {c : Char} (hc : ¬Brace c) (offset : Nat) (src : Text) :
    read .plain offset (c :: src) = (read .plain (offset + c.utf8Size) src).map (push c) := by
  obtain ⟨ho, hc⟩ := not_or.mp hc
  rw [read, if_neg ho, if_neg hc]

theorem read_brace {c : Char} (hc : Brace c) (offset : Nat) (src : Text) :
    read .plain offset (c :: c :: src) = (read .plain (offset + 2) src).map (push c) := by
  rcases hc with rfl | rfl
  · simp [read]
  · simp [read]

theorem read_named {name : Text} (hname : ∀ c ∈ name, ¬Brace c) (start offset : Nat)
    (seen src : Text) : read (.named start seen) offset (name ++ src) =
      read (.named start (name.reverse ++ seen)) (offset + Text.byteSize name) src := by
  induction name generalizing seen offset with
  | nil => rfl
  | cons c name ih =>
      obtain ⟨ho, hc⟩ := not_or.mp (hname c (by simp))
      rw [List.cons_append, read, if_neg ho, if_neg hc, ih fun d hd => hname d (by simp [hd])]
      simp [Text.byteSize, Nat.add_assoc]

theorem read_name {name : Text} (hname : IsName name) (offset : Nat) (src : Text) :
    read .plain offset ('\x7b' :: name ++ src) =
      read (.named offset name.reverse) (offset + Text.byteSize ('\x7b' :: name)) src := by
  obtain ⟨hne, hbrace⟩ := hname
  cases name with
  | nil => exact absurd rfl hne
  | cons c name =>
      obtain ⟨ho, hc⟩ := not_or.mp (hbrace c (by simp))
      rw [List.cons_append, List.cons_append, read, if_pos rfl, read, if_neg ho, if_neg hc,
        read_named fun d hd => hbrace d (by simp [hd])]
      simp [Text.byteSize, Char.utf8Size, Nat.add_assoc]

theorem read_hole {name : Text} (hname : IsName name) (offset : Nat) (src : Text) :
    read .plain offset ('\x7b' :: name ++ '\x7d' :: src) =
      (read .plain (offset + Text.byteSize ('\x7b' :: name ++ ['\x7d'])) src).map
        (.hole name :: ·) := by
  rw [read_name hname, read, if_neg (by decide), if_pos rfl, List.reverse_reverse,
    Text.byteSize_append, Nat.add_assoc]
  rfl

end Steps

-- The offset only counts for errors, so what can be read can be read from every offset.
def Readable (src : Text) (t : Template) : Prop := ∀ offset, read .plain offset src = .ok t

variable {src : Text} {t : Template}

theorem readable_plain {c : Char} (hc : ¬Brace c) (h : Readable src t) :
    Readable (c :: src) (push c t) := by
  intro offset
  rw [read_plain hc, h]
  rfl

theorem readable_brace {c : Char} (hc : Brace c) (h : Readable src t) :
    Readable (c :: c :: src) (push c t) := by
  intro offset
  rw [read_brace hc, h]
  rfl

theorem readable_hole {name : Text} (hname : IsName name) (h : Readable src t) :
    Readable ('\x7b' :: name ++ '\x7d' :: src) (.hole name :: t) := by
  intro offset
  rw [read_hole hname, h]
  rfl

theorem readable_doubled (s : Text) (h : Readable src t) :
    Readable (doubled s ++ src) (s.foldr push t) := by
  induction s with
  | nil => exact h
  | cons c s ih =>
      rw [doubled_cons, List.append_assoc]
      by_cases hc : Brace c
      · rw [doubled_brace hc]
        exact readable_brace hc ih
      · rw [doubled_plain hc]
        exact readable_plain hc ih

theorem Normal.readable_source (h : t.Normal) : Readable t.source t := by
  induction t with
  | nil => exact fun _ => rfl
  | cons p t ih =>
      obtain ⟨hp, hs, ht⟩ := normal_cons.mp h
      cases p with
      | text s =>
          have hhead : ∀ q ∈ t.head?, ¬q.IsText := fun q hq htext => hs q hq ⟨trivial, htext⟩
          have hread := readable_doubled s (ih ht)
          rwa [foldr_push hp hhead] at hread
      | hole name =>
          rw [source_hole]
          exact readable_hole hp (ih ht)

theorem Written.readable (h : Written src) : ∃ t, Readable src t := by
  induction h with
  | nil => exact ⟨[], fun _ => rfl⟩
  | plain hc _ ih =>
      obtain ⟨t, ht⟩ := ih
      exact ⟨_, readable_plain hc ht⟩
  | brace hc _ ih =>
      obtain ⟨t, ht⟩ := ih
      exact ⟨_, readable_brace hc ht⟩
  | hole hname _ ih =>
      obtain ⟨t, ht⟩ := ih
      exact ⟨_, readable_hole hname ht⟩

end Reading

theorem parse_eq_ok_iff {src : Text} {t : Template} :
    parse src = .ok t ↔ t.Normal ∧ t.source = src := by
  rw [parse, mapError_eq_ok_iff]
  constructor
  · exact fun h => spells_of_read h trivial
  · rintro ⟨h, rfl⟩
    exact h.readable_source 0

theorem parse_eq_error_iff {src : Text} {e : Error} : parse src = .error e ↔
    ∃ o, read .plain 0 src = .error o ∧ e = .malformedTemplate src o := by
  rw [parse, mapError_eq_error_iff]
  simp only [eq_comm (a := e)]

theorem parse_accepts_exactly_sources (src : Text) :
    (∀ t, parse src = .ok t ↔ t.Normal ∧ t.source = src) ∧
      ((∃ t, parse src = .ok t) ↔ ∃ t : Template, t.Normal ∧ t.source = src) ∧
      ((∃ t, parse src = .ok t) ↔ Written src) := by
  refine ⟨fun t => parse_eq_ok_iff, exists_congr fun t => parse_eq_ok_iff, ?_⟩
  constructor
  · rintro ⟨t, ht⟩
    obtain ⟨hn, rfl⟩ := parse_eq_ok_iff.mp ht
    exact hn.written_source
  · intro h
    obtain ⟨t, ht⟩ := h.readable
    exact ⟨t, parse_eq_ok_iff.mpr (spells_of_read (ht 0) trivial)⟩

end Template

end Assembler
