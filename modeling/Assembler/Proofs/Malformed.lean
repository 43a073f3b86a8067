import Assembler.Proofs.Template

namespace Assembler.Template

def Parses (src : Text) : Prop := ∃ t, parse src = .ok t

inductive Fault where
  | stray | empty | unterminated | nested
  deriving DecidableEq, Repr

-- `nested` points at the inner brace, all the others at the brace the fault begins with.
def Fault.At (p : Text) (c : Char) (rest : Text) : Fault → Prop
  | .stray => c = '\x7d' ∧ Parses p ∧ rest.head? ≠ some '\x7d'
  | .empty => c = '\x7b' ∧ Parses p ∧ rest.head? = some '\x7d'
  | .unterminated => c = '\x7b' ∧ Parses p ∧ ∀ d ∈ rest, ¬Brace d
  | .nested => c = '\x7b' ∧ ∃ q name, p = q ++ '\x7b' :: name ∧ Parses q ∧ IsName name

section Prefix

variable {s t : Text}

theorem Written.append (hs : Written s) (ht : Written t) : Written (s ++ t) := by
  induction hs with
  | nil => exact ht
  | plain hc _ ih => exact .plain hc ih
  | brace hc _ ih => exact .brace hc ih
  | @hole name s hname _ ih =>
      rw [List.append_assoc]
      exact .hole hname ih

theorem Written.read_append_eq_error_iff (hs : Written s) {offset o : Nat} :
    read .plain offset (s ++ t) = .error o ↔
      read .plain (offset + Text.byteSize s) t = .error o := by
  induction hs generalizing offset with
  | nil => rfl
  | plain hc _ ih =>
      rw [List.cons_append, read_plain hc, map_eq_error_iff, ih, Text.byteSize, Nat.add_assoc]
  | @brace c s hc _ ih =>
      have hsize : c.utf8Size = 1 := by rcases hc with rfl | rfl <;> rfl
      rw [List.cons_append, List.cons_append, read_brace hc, map_eq_error_iff, ih, Text.byteSize,
        Text.byteSize, hsize, Nat.add_assoc, ← Nat.add_assoc 1]
  | @hole name s hname _ ih =>
      have happend : ('\x7b' :: name ++ '\x7d' :: s) ++ t = '\x7b' :: name ++ '\x7d' :: (s ++ t) :=
        List.append_assoc ..
      have hsplit : '\x7b' :: name ++ '\x7d' :: s = ('\x7b' :: name ++ ['\x7d']) ++ s := by simp
      rw [happend, read_hole hname, map_eq_error_iff, ih, hsplit, Text.byteSize_append _ s,
        Nat.add_assoc]

theorem parses_iff {src : Text} : Parses src ↔ Written src := by
  constructor
  · rintro ⟨t, ht⟩
    obtain ⟨hn, rfl⟩ := parse_eq_ok_iff.mp ht
    exact hn.written_source
  · intro h
    obtain ⟨t, ht⟩ := h.readable
    exact ⟨t, by rw [parse, ht 0]; rfl⟩

theorem not_written_of_read {src : Text} {o : Nat} (h : read .plain 0 src = .error o) :
    ¬Written src := by
  intro hw
  obtain ⟨t, ht⟩ := hw.readable
  rw [ht 0] at h
  cases h

end Prefix

section Faults

variable {p rest name src : Text} {c : Char} {fault fault' : Fault}

theorem read_stray (h : rest.head? ≠ some '\x7d') (offset : Nat) :
    read .plain offset ('\x7d' :: rest) = .error offset := by
  cases rest with
  | nil => rfl
  | cons d rest =>
      have hd : d ≠ '\x7d' := by simpa using h
      simp [read, hd]

theorem read_empty (offset : Nat) (rest : Text) :
    read .plain offset ('\x7b' :: '\x7d' :: rest) = .error offset := by
  simp [read]

theorem read_unterminated (h : ∀ d ∈ rest, ¬Brace d) (offset : Nat) :
    read .plain offset ('\x7b' :: rest) = .error offset := by
  rcases eq_or_ne rest [] with rfl | hne
  · rfl
  · have hname := read_name ⟨hne, h⟩ offset []
    rw [List.append_nil] at hname
    rw [hname, read]

theorem read_nested (hname : IsName name) (offset : Nat) (rest : Text) :
    read .plain offset ('\x7b' :: name ++ '\x7b' :: rest) =
      .error (offset + Text.byteSize ('\x7b' :: name)) := by
  rw [read_name hname, read, if_pos rfl]

theorem Fault.At.read_eq_error (h : fault.At p c rest) :
    read .plain 0 (p ++ c :: rest) = .error (Text.byteSize p) := by
  cases fault with
  | stray =>
      obtain ⟨rfl, hp, hrest⟩ := h
      rw [(parses_iff.mp hp).read_append_eq_error_iff, read_stray hrest, Nat.zero_add]
  | empty =>
      obtain ⟨rfl, hp, hrest⟩ := h
      obtain ⟨rest, rfl⟩ := List.head?_eq_some_iff.mp hrest
      rw [(parses_iff.mp hp).read_append_eq_error_iff, read_empty, Nat.zero_add]
  | unterminated =>
      obtain ⟨rfl, hp, hrest⟩ := h
      rw [(parses_iff.mp hp).read_append_eq_error_iff, read_unterminated hrest, Nat.zero_add]
  | nested =>
      obtain ⟨rfl, q, name, rfl, hq, hname⟩ := h
      rw [List.append_assoc, (parses_iff.mp hq).read_append_eq_error_iff, read_nested hname,
        Text.byteSize_append, Nat.zero_add]

theorem Fault.At.brace (h : fault.At p c rest) : Brace c := by
  cases fault with
  | stray => exact .inr h.1
  | empty => exact .inl h.1
  | unterminated => exact .inl h.1
  | nested => exact .inl h.1

theorem not_parses_of_nested (h : Fault.nested.At p c rest) : ¬Parses p := by
  obtain ⟨-, q, name, rfl, hq, hname⟩ := h
  -- Without the inner brace the name would have no end.
  have hopen : Fault.unterminated.At q '\x7b' name := ⟨rfl, hq, hname.noBrace⟩
  exact fun hp => not_written_of_read hopen.read_eq_error (parses_iff.mp hp)

theorem brace_mem_of_head? (h : rest.head? = some '\x7d') : ¬∀ d ∈ rest, ¬Brace d :=
  fun hall => hall '\x7d' (List.mem_of_head? h) (.inr rfl)

theorem Fault.At.unique (h : fault.At p c rest) (h' : fault'.At p c rest) : fault = fault' := by
  have hnested := @not_parses_of_nested p rest c
  have hempty := @brace_mem_of_head? rest
  cases fault <;> cases fault' <;> grind [Fault.At]

-- The first fault is looked for from the left, one complete piece after the other.
def Settled (src : Text) : Prop :=
  Written src ∨ ∃ fault p c rest, src = p ++ c :: rest ∧ Fault.At p c rest fault

theorem Settled.append {s : Text} (hs : Written s) (h : Settled src) : Settled (s ++ src) := by
  have hparses : ∀ {q : Text}, Parses q → Parses (s ++ q) := fun hq =>
    parses_iff.mpr (hs.append (parses_iff.mp hq))
  rcases h with h | ⟨fault, p, c, rest, rfl, h⟩
  · exact .inl (hs.append h)
  · refine .inr ⟨fault, s ++ p, c, rest, (List.append_assoc ..).symm, ?_⟩
    cases fault with
    | stray => exact ⟨h.1, hparses h.2.1, h.2.2⟩
    | empty => exact ⟨h.1, hparses h.2.1, h.2.2⟩
    | unterminated => exact ⟨h.1, hparses h.2.1, h.2.2⟩
    | nested =>
        obtain ⟨hc, q, name, rfl, hq, hname⟩ := h
        exact ⟨hc, s ++ q, name, (List.append_assoc ..).symm, hparses hq, hname⟩

theorem exists_first_brace (src : Text) : (∀ d ∈ src, ¬Brace d) ∨
    ∃ name c rest, src = name ++ c :: rest ∧ (∀ d ∈ name, ¬Brace d) ∧ Brace c := by
  induction src with
  | nil => exact .inl (by simp)
  | cons c src ih =>
      rcases Classical.em (Brace c) with hc | hc
      · exact .inr ⟨[], c, src, rfl, by simp, hc⟩
      · rcases ih with h | ⟨name, d, rest, rfl, hname, hd⟩
        · exact .inl (List.forall_mem_cons.mpr ⟨hc, h⟩)
        · exact .inr ⟨c :: name, d, rest, rfl, List.forall_mem_cons.mpr ⟨hc, hname⟩, hd⟩

theorem parses_nil : Parses [] := ⟨[], rfl⟩

theorem settled_opened (ih : ∀ rest : Text, rest.length ≤ src.length → Settled rest) :
    Settled ('\x7b' :: src) := by
  rcases exists_first_brace src with h | ⟨name, c, rest, rfl, hname, hc⟩
  · exact .inr ⟨.unterminated, [], '\x7b', src, rfl, rfl, parses_nil, h⟩
  · have hrest : Settled rest := by
      apply ih
      simp only [List.length_append, List.length_cons]
      omega
    rcases eq_or_ne name [] with rfl | hne
    · rcases hc with rfl | rfl
      · exact hrest.append (.brace (.inl rfl) .nil)
      · exact .inr ⟨.empty, [], '\x7b', '\x7d' :: rest, rfl, rfl, parses_nil, rfl⟩
    · rcases hc with rfl | rfl
      · exact .inr ⟨.nested, '\x7b' :: name, '\x7b', rest, rfl, rfl, [], name, rfl, parses_nil,
          hne, hname⟩
      · have hhole := hrest.append (.hole ⟨hne, hname⟩ .nil)
        simpa using hhole

theorem settled_closed (ih : ∀ rest : Text, rest.length ≤ src.length → Settled rest) :
    Settled ('\x7d' :: src) := by
  rcases eq_or_ne src.head? (some '\x7d') with h | h
  · obtain ⟨rest, rfl⟩ := List.head?_eq_some_iff.mp h
    exact (ih rest (by simp)).append (.brace (.inr rfl) .nil)
  · exact .inr ⟨.stray, [], '\x7d', src, rfl, rfl, parses_nil, h⟩

theorem settled (src : Text) : Settled src := by
  induction hlength : src.length using Nat.strongRecOn generalizing src with
  | ind n ih =>
      cases src with
      | nil => exact .inl .nil
      | cons c src =>
          have hshorter : ∀ rest : Text, rest.length ≤ src.length → Settled rest := fun rest h =>
            ih rest.length (by simp only [List.length_cons] at hlength; omega) rest rfl
          rcases Classical.em (Brace c) with (rfl | rfl) | hc
          · exact settled_opened hshorter
          · exact settled_closed hshorter
          · exact (hshorter src le_rfl).append (.plain hc .nil)

theorem read_eq_error_iff {o : Nat} : read .plain 0 src = .error o ↔
    ∃ p c rest, src = p ++ c :: rest ∧ Text.byteSize p = o ∧
      ∃ fault : Fault, fault.At p c rest := by
  constructor
  · intro h
    rcases settled src with hw | ⟨fault, p, c, rest, rfl, hfault⟩
    · exact absurd hw (not_written_of_read h)
    · rw [hfault.read_eq_error] at h
      exact ⟨p, c, rest, rfl, Except.error.inj h, fault, hfault⟩
  · rintro ⟨p, c, rest, rfl, rfl, fault, hfault⟩
    exact hfault.read_eq_error

end Faults

theorem parse_fails_exactly_at_faults (src : Text) :
    (∀ o, parse src = .error (.malformedTemplate src o) ↔
      ∃ p c rest, src = p ++ c :: rest ∧ (String.ofList p).utf8ByteSize = o ∧
        ∃! fault : Fault, fault.At p c rest) ∧
    ∀ e, parse src = .error e → ∃ p c rest, src = p ++ c :: rest ∧ Brace c ∧
      e = .malformedTemplate src (String.ofList p).utf8ByteSize := by
  have hunique : ∀ p c rest, (∃! fault : Fault, fault.At p c rest) ↔
      ∃ fault : Fault, fault.At p c rest := by
    intro p c rest
    exact ⟨ExistsUnique.exists, fun ⟨fault, h⟩ => ⟨fault, h, fun _ h' => h'.unique h⟩⟩
  simp only [Text.utf8ByteSize_ofList]
  constructor
  · intro o
    simp only [hunique, parse_eq_error_iff, ← read_eq_error_iff, Error.malformedTemplate.injEq,
      true_and, exists_eq_right']
  · intro e he
    obtain ⟨o, ho, rfl⟩ := parse_eq_error_iff.mp he
    obtain ⟨p, c, rest, hsrc, rfl, fault, hfault⟩ := read_eq_error_iff.mp ho
    exact ⟨p, c, rest, hsrc, hfault.brace, rfl⟩

def nestedHole : Text := "é\x7ba\x7bb\x7d".toList

-- The accented letter has two bytes, and the inner brace is the one reported.
theorem parse_fails_exactly_at_faults_nestedHole :
    parse nestedHole = .error (.malformedTemplate nestedHole 4) ∧
      ∃ p c rest, nestedHole = p ++ c :: rest ∧ Brace c ∧
        (String.ofList p).utf8ByteSize = 4 := by
  have hfault : Fault.nested.At "é\x7ba".toList '\x7b' "b\x7d".toList :=
    ⟨rfl, ['é'], ['a'], rfl, ⟨[.text ['é']], rfl⟩, by simp, by simp [Brace]⟩
  obtain ⟨hoffset, hbrace⟩ := parse_fails_exactly_at_faults nestedHole
  have hparse := (hoffset 4).mpr
    ⟨_, _, _, rfl, rfl, .nested, hfault, fun _ h => h.unique hfault⟩
  obtain ⟨p, c, rest, hsrc, hc, heq⟩ := hbrace _ hparse
  exact ⟨hparse, p, c, rest, hsrc, hc, (Error.malformedTemplate.inj heq).2.symm⟩

end Assembler.Template
