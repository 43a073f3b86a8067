import Assembler.Bindings
import Assembler.Proofs.Template

namespace Assembler

namespace Piece

def value (b : Bindings) : Piece → Except Error Text
  | .text s => .ok s
  | .hole name =>
      match b.get? name with
      | none => .error (.unboundPlaceholder name)
      | some value => .ok value

inductive Shows (b : Bindings) : Piece → Text → Prop
  | text (s : Text) : Shows b (.text s) s
  | hole {name value : Text} (h : b.get? name = some value) : Shows b (.hole name) value

variable {b : Bindings} {p : Piece}

@[simp] theorem shows_hole_iff {name value : Text} :
    Shows b (.hole name) value ↔ b.get? name = some value := by
  refine ⟨fun h => ?_, .hole⟩
  cases h with
  | hole h => exact h

theorem value_eq_ok_iff {v : Text} : p.value b = .ok v ↔ p.Shows b v := by
  cases p with
  | text s =>
      rw [value, Except.ok.injEq]
      constructor
      · rintro rfl
        exact .text s
      · rintro ⟨⟩
        rfl
  | hole name =>
      rw [value]
      cases hname : b.get? name <;> simp [hname]

theorem value_eq_error_iff {e : Error} : p.value b = .error e ↔
    ∃ name, p = .hole name ∧ b.get? name = none ∧ e = .unboundPlaceholder name := by
  cases p with
  | text s => simp [value]
  | hole name =>
      rw [value]
      cases hname : b.get? name with
      | none => simp [hname, eq_comm]
      | some v => simp [hname]

end Piece

namespace Template

variable {b b' : Bindings}

theorem render_congr {t : Template} (h : ∀ name ∈ t.placeholders, b.get? name = b'.get? name) :
    t.render b = t.render b' := by
  induction t with
  | nil => rfl
  | cons p t ih =>
      cases p with
      | text s =>
          rw [render, render, ih h]
      | hole name =>
          have hname : b.get? name = b'.get? name := h name (by simp [placeholders])
          have hrest : ∀ other ∈ placeholders t, b.get? other = b'.get? other := by
            intro other hother
            exact h other (List.mem_cons_of_mem name hother)
          rw [render, render, hname, ih hrest]

theorem fillLine_congr {line : Text}
    (h : ∀ t, parse line = .ok t → ∀ name ∈ t.placeholders, b.get? name = b'.get? name) :
    fillLine b line = fillLine b' line := by
  rw [fillLine, fillLine]
  cases hparse : parse line with
  | error e => rfl
  | ok t => exact render_congr (h t hparse)

theorem fill_congr {lines : List Text} (h : ∀ line ∈ lines, ∀ t, parse line = .ok t →
    ∀ name ∈ t.placeholders, b.get? name = b'.get? name) : fill b lines = fill b' lines :=
  mapM_congr_mem fun line hline => fillLine_congr (h line hline)

section Pieces

variable {t : Template} {out : Text} {e : Error}

def Bound (b : Bindings) (t : Template) : Prop :=
  ∀ name ∈ t.placeholders, ∃ value, b.get? name = some value

@[simp] theorem mem_placeholders {name : Text} : name ∈ t.placeholders ↔ Piece.hole name ∈ t := by
  simp only [placeholders, List.mem_filterMap]
  constructor
  · rintro ⟨p, hp, hname⟩
    cases p with
    | text s => cases hname
    | hole n =>
        obtain rfl : n = name := Option.some.inj hname
        exact hp
  · intro h
    exact ⟨_, h, rfl⟩

theorem render_eq_mapM (b : Bindings) (t : Template) :
    t.render b = (t.mapM (Piece.value b)).map List.flatten := by
  induction t with
  | nil => rfl
  | cons p t ih =>
      rw [List.mapM_cons]
      cases p with
      | text s =>
          rw [render, ih]
          cases t.mapM (Piece.value b) <;> rfl
      | hole name =>
          rw [render, Piece.value]
          cases b.get? name with
          | none => rfl
          | some value =>
              simp only [ih]
              cases t.mapM (Piece.value b) <;> rfl

theorem render_eq_ok_iff : t.render b = .ok out ↔
    ∃ parts, List.Forall₂ (Piece.Shows b) t parts ∧ out = parts.flatten := by
  simp only [render_eq_mapM, map_eq_ok_iff, mapM_eq_ok_iff, Piece.value_eq_ok_iff,
    eq_comm (a := out)]

theorem forall_value_iff : (∀ p ∈ t, ∃ v, Piece.value b p = .ok v) ↔ t.Bound b := by
  simp only [Bound, mem_placeholders, Piece.value_eq_ok_iff]
  constructor
  · intro h name hname
    obtain ⟨value, hvalue⟩ := h _ hname
    exact ⟨value, by simpa using hvalue⟩
  · intro h p hp
    cases p with
    | text s => exact ⟨s, .text s⟩
    | hole name =>
        obtain ⟨value, hvalue⟩ := h name hp
        exact ⟨value, .hole hvalue⟩

theorem exists_render_iff : (∃ out, t.render b = .ok out) ↔ t.Bound b := by
  rw [← forall_value_iff, ← exists_mapM_eq_ok_iff]
  simp [render_eq_mapM]

theorem render_eq_error_iff : t.render b = .error e ↔
    ∃ before name after, t = before ++ .hole name :: after ∧ Bound b before ∧
      b.get? name = none ∧ e = .unboundPlaceholder name := by
  rw [render_eq_mapM, map_eq_error_iff, mapM_eq_error_iff]
  simp only [forall_value_iff, Piece.value_eq_error_iff]
  constructor
  · rintro ⟨before, _, after, hsplit, ⟨name, rfl, hname, he⟩, hbefore⟩
    exact ⟨before, name, after, hsplit, hbefore, hname, he⟩
  · rintro ⟨before, name, after, hsplit, hbefore, hname, he⟩
    exact ⟨before, _, after, hsplit, ⟨name, rfl, hname, he⟩, hbefore⟩

end Pieces

section Lines

variable {line out : Text} {e : Error}

def Fillable (b : Bindings) (line : Text) : Prop := ∃ t, parse line = .ok t ∧ t.Bound b

def Filled (b : Bindings) (line out : Text) : Prop :=
  ∃ t parts, parse line = .ok t ∧ List.Forall₂ (Piece.Shows b) t parts ∧ out = parts.flatten

-- A line that does not parse is reported as such whatever is bound.
inductive Refuses (b : Bindings) (line : Text) : Error → Prop
  | malformed {offset : Nat} (h : parse line = .error (.malformedTemplate line offset)) :
      Refuses b line (.malformedTemplate line offset)
  | unbound {before after : Template} {name : Text}
      (h : parse line = .ok (before ++ .hole name :: after)) (hbefore : Bound b before)
      (hname : b.get? name = none) : Refuses b line (.unboundPlaceholder name)

theorem fillLine_eq_ok_iff : fillLine b line = .ok out ↔ Filled b line out := by
  rw [fillLine, Filled]
  cases hparse : parse line with
  | error e => simp
  | ok t => simp [render_eq_ok_iff]

theorem exists_fillLine_iff : (∃ out, fillLine b line = .ok out) ↔ Fillable b line := by
  rw [Fillable]
  simp only [fillLine]
  cases hparse : parse line with
  | error e => simp
  | ok t => simp [exists_render_iff]

theorem fillLine_eq_error_iff : fillLine b line = .error e ↔ Refuses b line e := by
  rw [fillLine]
  cases hparse : parse line with
  | error e' =>
      obtain ⟨offset, -, rfl⟩ := parse_eq_error_iff.mp hparse
      constructor
      · rintro ⟨⟩
        exact .malformed hparse
      · intro h
        cases h with
        | malformed h => rw [← hparse, h]
        | unbound h => cases hparse.symm.trans h
  | ok t =>
      rw [render_eq_error_iff]
      constructor
      · rintro ⟨before, name, after, rfl, hbefore, hname, rfl⟩
        exact .unbound hparse hbefore hname
      · intro h
        cases h with
        | malformed h => cases hparse.symm.trans h
        | unbound h hbefore hname =>
            exact ⟨_, _, _, Except.ok.inj (hparse.symm.trans h), hbefore, hname, rfl⟩

theorem fill_eq_ok_iff {lines outs : List Text} :
    fill b lines = .ok outs ↔ List.Forall₂ (Filled b) lines outs := by
  simp only [fill, mapM_eq_ok_iff, fillLine_eq_ok_iff]

theorem fill_eq_error_iff {lines : List Text} : fill b lines = .error e ↔
    ∃ before line after, lines = before ++ line :: after ∧ Refuses b line e ∧
      ∀ earlier ∈ before, Fillable b earlier := by
  simp only [fill, mapM_eq_error_iff, fillLine_eq_error_iff, exists_fillLine_iff]

theorem fill_ne_scratchExhausted (b : Bindings) (lines : List Text) (needed available : Nat) :
    fill b lines ≠ .error (.scratchExhausted needed available) := by
  intro h
  obtain ⟨_, line, _, -, hline, -⟩ := fill_eq_error_iff.mp h
  cases hline

end Lines

theorem fill_substitutes_once (b : Bindings) (lines : List Text) :
    ((∃ outs, fill b lines = .ok outs) ↔ ∀ line ∈ lines, Fillable b line) ∧
    (∀ outs, fill b lines = .ok outs ↔ List.Forall₂ (Filled b) lines outs) ∧
    (∀ e, fill b lines = .error e ↔ ∃ before line after, lines = before ++ line :: after ∧
      Refuses b line e ∧ ∀ earlier ∈ before, Fillable b earlier) ∧
    ∀ b' : Bindings, (∀ line ∈ lines, ∀ t, parse line = .ok t → ∀ name ∈ t.placeholders,
      b.get? name = b'.get? name) → fill b lines = fill b' lines := by
  refine ⟨?_, fun outs => fill_eq_ok_iff, fun e => fill_eq_error_iff, fun b' h => fill_congr h⟩
  simp only [fill, exists_mapM_eq_ok_iff, exists_fillLine_iff]

def bracedLine : Text := "\x7bP\x7d \x7b\x7b\x7bQ\x7d\x7d\x7d".toList

def bracedValues : Bindings := (Bindings.empty.insert ['P'] "\x7bQ\x7d".toList).insert ['Q'] ['P']

-- What is inserted looks like a placeholder itself and stays as it is.
theorem fill_substitutes_once_bracedLine :
    fill bracedValues [bracedLine] = .ok ["\x7bQ\x7d \x7bP\x7d".toList] ∧
      fill (bracedValues.insert ['R'] []) [bracedLine] = .ok ["\x7bQ\x7d \x7bP\x7d".toList] := by
  have hfill : fill bracedValues [bracedLine] = .ok ["\x7bQ\x7d \x7bP\x7d".toList] := by
    decide +kernel
  have hparse : parse bracedLine =
      .ok [.hole ['P'], .text [' ', '\x7b'], .hole ['Q'], .text ['\x7d']] := by decide +kernel
  obtain ⟨-, -, -, hcongr⟩ := fill_substitutes_once bracedValues [bracedLine]
  refine ⟨hfill, (hcongr _ ?_).symm.trans hfill⟩
  intro line hline t ht name hname
  obtain rfl := List.mem_singleton.mp hline
  obtain rfl := Except.ok.inj (hparse.symm.trans ht)
  have hne : name ≠ ['R'] := by
    rintro rfl
    exact absurd hname (by decide)
  simp [hne]

end Template

end Assembler
