import Assembler.Proofs.Allocation
import Assembler.Proofs.Listing

namespace Assembler

theorem exists_forall₂_iff {α β γ : Type} {R : α → β → Prop} {S : β → γ → Prop} {xs : List α}
    {zs : List γ} : (∃ ys, List.Forall₂ R xs ys ∧ List.Forall₂ S ys zs) ↔
      List.Forall₂ (fun x z => ∃ y, R x y ∧ S y z) xs zs := by
  constructor
  · rintro ⟨ys, hR, hS⟩
    induction hR generalizing zs with
    | nil =>
        cases hS
        exact .nil
    | cons hx _ ih =>
        cases hS with
        | cons hy hrest => exact .cons ⟨_, hx, hy⟩ (ih hrest)
  · intro h
    induction h with
    | nil => exact ⟨[], .nil, .nil⟩
    | cons hx _ ih =>
        obtain ⟨y, hR, hS⟩ := hx
        obtain ⟨ys, hRs, hSs⟩ := ih
        exact ⟨y :: ys, .cons hR hRs, .cons hS hSs⟩

namespace Expansion

-- The caller's bindings together with the scratch registers, where there are enough of these.
structure Equips (e : Expansion) (t : Table) (used : List Text) (b : Bindings) : Prop where
  enough : e.scratch.length ≤ (e.spare t used).length
  assigns : e.Assigns (e.spare t used) b

-- Each stage goes over the whole list before the next one starts.
inductive Fails (M : Machine) (e : Expansion) (used : List Text) : Error → Prop
  | exhausted (h : (e.spare M.table used).length < e.scratch.length) :
      Fails M e used (.scratchExhausted e.scratch.length (e.spare M.table used).length)
  | template {b : Bindings} {before after : List Text} {template : Text} {err : Error}
      (hb : e.Equips M.table used b) (hsplit : e.templates = before ++ template :: after)
      (h : Template.Refuses b template err) (hbefore : ∀ t ∈ before, Template.Fillable b t) :
      Fails M e used err
  | line {b : Bindings} {before after : List Text} {line : Text} {err : Error}
      (hb : e.Equips M.table used b)
      (hlines : List.Forall₂ (Template.Filled b) e.templates (before ++ line :: after))
      (h : M.encodeLine line = .error err)
      (hbefore : ∀ l ∈ before, ∃ w, M.encodeLine l = .ok w) : Fails M e used err

variable {M : Machine} {t : Table} {e : Expansion} {used lines : List Text} {b : Bindings}
  {err : Error}

theorem exhausted_or_equips (hv : t.Valid) (e : Expansion) (used : List Text) :
    (e.spare t used).length < e.scratch.length ∨ ∃ b, e.Equips t used b := by
  rcases Nat.lt_or_ge (e.spare t used).length e.scratch.length with h | h
  · exact .inl h
  · obtain ⟨b, -, hb⟩ := allBindings_of_le hv h
    exact .inr ⟨b, h, hb⟩

theorem Equips.expand_eq (h : e.Equips t used b) (hv : t.Valid) :
    e.expand t used = Template.fill b e.templates :=
  expand_eq_fill hv h.enough h.assigns

theorem expand_of_exhausted (hv : t.Valid) (h : (e.spare t used).length < e.scratch.length) :
    e.expand t used = .error (.scratchExhausted e.scratch.length (e.spare t used).length) :=
  (expand_eq_scratchExhausted_iff hv e used _ _).mpr ⟨h, rfl, rfl⟩

theorem expand_eq_ok_iff_filled (hv : t.Valid) : e.expand t used = .ok lines ↔
    ∃ b, e.Equips t used b ∧ List.Forall₂ (Template.Filled b) e.templates lines := by
  constructor
  · intro h
    rcases exhausted_or_equips hv e used with hlt | ⟨b, hb⟩
    · rw [expand_of_exhausted hv hlt] at h
      cases h
    · rw [hb.expand_eq hv] at h
      exact ⟨b, hb, Template.fill_eq_ok_iff.mp h⟩
  · rintro ⟨b, hb, h⟩
    rw [hb.expand_eq hv]
    exact Template.fill_eq_ok_iff.mpr h

theorem assemble_eq_error_iff : e.assemble M used = .error err ↔
    e.expand M.table used = .error err ∨
      ∃ lines, e.expand M.table used = .ok lines ∧ lines.mapM M.encodeLine = .error err := by
  rw [assemble]
  cases e.expand M.table used <;> simp

theorem fails_of_expand (h : e.expand M.table used = .error err) : e.Fails M used err := by
  rcases exhausted_or_equips M.valid e used with hlt | ⟨b, hb⟩
  · rw [expand_of_exhausted M.valid hlt] at h
    obtain rfl := Except.error.inj h
    exact .exhausted hlt
  · rw [hb.expand_eq M.valid] at h
    obtain ⟨before, template, after, hsplit, hrefuses, hbefore⟩ := Template.fill_eq_error_iff.mp h
    exact .template hb hsplit hrefuses hbefore

theorem fails_of_encode (hexpand : e.expand M.table used = .ok lines)
    (h : lines.mapM M.encodeLine = .error err) : e.Fails M used err := by
  obtain ⟨b, hb, hfilled⟩ := (expand_eq_ok_iff_filled M.valid).mp hexpand
  obtain ⟨before, line, after, rfl, hline, hbefore⟩ := mapM_eq_error_iff.mp h
  exact .line hb hfilled hline hbefore

theorem Fails.assemble_eq (h : e.Fails M used err) : e.assemble M used = .error err := by
  cases h with
  | exhausted hlt => exact assemble_eq_error_iff.mpr (.inl (expand_of_exhausted M.valid hlt))
  | template hb hsplit hrefuses hbefore =>
      refine assemble_eq_error_iff.mpr (.inl ?_)
      rw [hb.expand_eq M.valid]
      exact Template.fill_eq_error_iff.mpr ⟨_, _, _, hsplit, hrefuses, hbefore⟩
  | line hb hlines hline hbefore =>
      have hexpand := (expand_eq_ok_iff_filled M.valid).mpr ⟨_, hb, hlines⟩
      refine assemble_eq_error_iff.mpr (.inr ⟨_, hexpand, ?_⟩)
      exact mapM_eq_error_iff.mpr ⟨_, _, _, rfl, hline, hbefore⟩

theorem assemble_eq_error_iff_fails : e.assemble M used = .error err ↔ e.Fails M used err := by
  refine ⟨fun h => ?_, Fails.assemble_eq⟩
  rcases assemble_eq_error_iff.mp h with hexpand | ⟨lines, hexpand, hencode⟩
  · exact fails_of_expand hexpand
  · exact fails_of_encode hexpand hencode

theorem exists_assemble_iff : (∃ ws, e.assemble M used = .ok ws) ↔
    ∃ lines, e.expand M.table used = .ok lines ∧
      ∀ line ∈ lines, ∃ w, M.encodeLine line = .ok w := by
  simp only [assemble_eq_ok_iff, ← exists_mapM_eq_ok_iff]
  rw [exists_comm]
  simp only [exists_and_left]

theorem assemble_eq_ok_iff_encoded {ws : List Word} : e.assemble M used = .ok ws ↔
    ∃ b, e.Equips M.table used b ∧ List.Forall₂ (fun template w => ∃ line,
      Template.Filled b template line ∧ M.encodeLine line = .ok w) e.templates ws := by
  simp only [assemble_eq_ok_iff, expand_eq_ok_iff_filled M.valid, mapM_eq_ok_iff,
    ← exists_forall₂_iff]
  constructor
  · rintro ⟨lines, ⟨b, hb, hfilled⟩, hws⟩
    exact ⟨b, hb, lines, hfilled, hws⟩
  · rintro ⟨b, hb, lines, hfilled, hws⟩
    exact ⟨lines, ⟨b, hb, hfilled⟩, hws⟩

theorem assemble_runs_in_stages (M : Machine) (e : Expansion) (used : List Text) :
    ((∃ ws, e.assemble M used = .ok ws) ↔ ∃ lines, e.expand M.table used = .ok lines ∧
      ∀ line ∈ lines, ∃ w, M.encodeLine line = .ok w) ∧
    (∀ ws, e.assemble M used = .ok ws ↔
      ∃ b, e.Equips M.table used b ∧ List.Forall₂ (fun template w => ∃ line,
        Template.Filled b template line ∧ M.encodeLine line = .ok w) e.templates ws) ∧
    (∀ ws, e.assemble M used = .ok ws → ws.length = e.templates.length) ∧
    ∀ err, e.assemble M used = .error err ↔ e.Fails M used err := by
  refine ⟨exists_assemble_iff, fun ws => assemble_eq_ok_iff_encoded, fun ws hws => ?_,
    fun err => assemble_eq_error_iff_fails⟩
  obtain ⟨b, -, hencoded⟩ := assemble_eq_ok_iff_encoded.mp hws
  exact hencoded.length_eq.symm

def blankThenStray : Expansion :=
  (ofTemplates [[], "PSH \x7bT\x7d".toList, "HLT\x7d".toList]).declare ['T']

def boundPair : Expansion :=
  ((ofTemplates ["MOV \x7bP\x7d".toList, "PSH \x7bT\x7d".toList]).bind ['P']
    "A, B".toList).declare ['T']

-- The blank line cannot be encoded, but the brace of the last template is noticed first.
theorem assemble_runs_in_stages_boundPair :
    boundPair.assemble .standard [] = .ok [0x0040, 0x000A] ∧
      (∃ b, boundPair.Equips Machine.standard.table [] b ∧
        List.Forall₂ (fun template w => ∃ line, Template.Filled b template line ∧
          Machine.standard.encodeLine line = .ok w) boundPair.templates [0x0040, 0x000A]) ∧
      ([0x0040, 0x000A] : List Word).length = boundPair.templates.length ∧
      Machine.standard.encodeLine [] = .error (.unknownMnemonic []) ∧
      blankThenStray.Fails .standard [] (.malformedTemplate "HLT\x7d".toList 3) := by
  have hok : boundPair.assemble .standard [] = .ok [0x0040, 0x000A] := by decide +kernel
  have herror : blankThenStray.assemble .standard [] =
      .error (.malformedTemplate "HLT\x7d".toList 3) := by decide +kernel
  obtain ⟨-, hpair, hlength, -⟩ := assemble_runs_in_stages .standard boundPair []
  obtain ⟨-, -, -, hfails⟩ := assemble_runs_in_stages .standard blankThenStray []
  exact ⟨hok, (hpair _).mp hok, hlength _ hok, rfl, (hfails _).mp herror⟩

end Expansion

end Assembler
