import Assembler.CommandLine.Program
import Assembler.Proofs.Instruction

namespace Assembler

namespace Text

section Trim

variable {s core : Text}

theorem trimEnd_append (hcore : ∀ c ∈ core, isBlank c = false) (t : Text) :
    trimEnd (core ++ t) = core ++ trimEnd t := by
  have hreverse : core.reverse.dropWhile isBlank = core.reverse :=
    dropWhile_eq_self (by simpa using hcore)
  rw [trimEnd, trimEnd, List.reverse_append, List.dropWhile_append, hreverse]
  split
  · rename_i hempty
    rw [List.isEmpty_iff.mp hempty, List.reverse_reverse, List.reverse_nil, List.append_nil]
  · rw [List.reverse_append, List.reverse_reverse]

theorem trim_append (hne : core ≠ []) (hcore : ∀ c ∈ core, isBlank c = false) (t : Text) :
    trim (core ++ t) = core ++ trimEnd t := by
  obtain ⟨c, rest, rfl⟩ := List.exists_cons_of_ne_nil hne
  have hstart : trimStart (c :: rest ++ t) = c :: rest ++ t := by
    simp [trimStart, hcore c (by simp)]
  rw [trim, hstart, trimEnd_append hcore]

@[simp] theorem trim_trimEnd (t : Text) : trim (trimEnd t) = trim t := by
  obtain ⟨tail, htail, ht⟩ := exists_trimEnd t
  conv_rhs => rw [ht]
  rw [trim_append_blank htail]

theorem cut?_of_forall {p : Char → Bool} (h : ∀ c ∈ s, p c = false) (t : Text) :
    cut? p (s ++ t) = (cut? p t).map fun parts => (s ++ parts.1, parts.2) := by
  induction s with
  | nil => simp
  | cons c s ih =>
      obtain ⟨hc, hs⟩ := List.forall_mem_cons.mp h
      rw [List.cons_append, cut?, if_neg (by simp [hc]), ih hs, Option.map_map]
      rfl

end Trim

section Split

variable {lead tail : Text}

theorem map_trim_splitOn_blank_append (h : ∀ c ∈ lead, isBlank c = true) (t : Text) :
    (List.splitOn ',' (lead ++ t)).map trim = (List.splitOn ',' t).map trim :=
  map_splitOn_prepend (notMem_of_blank h rfl) (fun _ => trim_blank_append h) t

theorem map_trim_splitOn_append_blank (h : ∀ c ∈ tail, isBlank c = true) (t : Text) :
    (List.splitOn ',' (t ++ tail)).map trim = (List.splitOn ',' t).map trim :=
  map_splitOn_append (notMem_of_blank h rfl) (fun _ => trim_append_blank h) t

theorem map_trim_splitOn_trim (t : Text) :
    (List.splitOn ',' (trim t)).map trim = (List.splitOn ',' t).map trim := by
  obtain ⟨lead, tail, hlead, htail, ht⟩ := exists_trim t
  conv_rhs => rw [ht]
  rw [map_trim_splitOn_append_blank htail, map_trim_splitOn_blank_append hlead]

theorem map_trim_splitOn_intercalate {ops : List Text} (hne : ops ≠ [])
    (h : ∀ op ∈ ops, ',' ∉ op) :
    (List.splitOn ',' (List.intercalate [',', ' '] ops)).map trim = ops.map trim := by
  induction ops with
  | nil => exact absurd rfl hne
  | cons op ops ih =>
      obtain ⟨hop, hops⟩ := List.forall_mem_cons.mp h
      cases ops with
      | nil => rw [List.intercalate_singleton, List.splitOn_eq_singleton hop]
      | cons next rest =>
          have hblank : ∀ c ∈ [' '], isBlank c = true := List.forall_mem_singleton.mpr rfl
          rw [List.intercalate_cons_cons, List.append_assoc, List.cons_append,
            List.splitOn_append_cons_self_of_not_mem hop, List.map_cons,
            map_trim_splitOn_blank_append hblank, ih (by simp) hops]
          rfl

end Split

end Text

namespace Instruction

variable {core : Text} {c : Char}

theorem ofLine?_append (hne : core ≠ []) (hcore : ∀ d ∈ core, Text.isBlank d = false)
    (hc : Text.isBlank c = true) (rest : Text) :
    ofLine? (core ++ c :: rest) = some ⟨core, operandsOf (Text.trim rest)⟩ := by
  have hblank : ∀ d ∈ [c], Text.isBlank d = true := List.forall_mem_singleton.mpr hc
  have hrest : ∀ u : Text, Text.trim (c :: u) = Text.trim u :=
    fun _ => Text.trim_blank_append hblank
  have hempty : core.isEmpty = false := List.isEmpty_eq_false_iff.mpr hne
  obtain ⟨tail, -, htail⟩ := Text.exists_trimEnd (c :: rest)
  rw [ofLine?, Text.trim_append hne hcore, Text.cut?_of_forall hcore, ← hrest rest,
    ← Text.trim_trimEnd (c :: rest)]
  cases hend : Text.trimEnd (c :: rest) with
  | nil => simp [Text.cut?, hempty]
  | cons d u =>
      rw [hend, List.cons_append] at htail
      obtain rfl : c = d := List.head_eq_of_cons_eq htail
      simp [Text.cut?, hc, hempty, hrest]

theorem operandsOf_intercalate {ops : List Text} (hcomma : ∀ op ∈ ops, ',' ∉ op)
    (hne : ops.map Text.trim ≠ [[]]) :
    operandsOf (Text.trim (List.intercalate [',', ' '] ops)) = ops.map Text.trim := by
  cases ops with
  | nil => rfl
  | cons op ops =>
      have hmap := Text.map_trim_splitOn_intercalate (List.cons_ne_nil op ops) hcomma
      rw [← Text.map_trim_splitOn_trim] at hmap
      rw [operandsOf, if_neg, hmap]
      intro hempty
      rw [List.isEmpty_iff.mp hempty] at hmap
      exact hne hmap.symm

theorem ofLine?_line (i : Instruction) (hmnemonic : Text.IsToken i.mnemonic)
    (hoperands : ∀ op ∈ i.operands, Text.IsToken op) :
    ofLine? i.line = some ⟨Text.trim i.mnemonic, i.operands.map Text.trim⟩ := by
  obtain ⟨lead, tail, hlead, htail, hm⟩ := Text.exists_trim i.mnemonic
  -- The mnemonic ends at the first of its own trailing blanks, or at the blank after it.
  obtain ⟨c, rest, hsplit, hc, hrest⟩ : ∃ c rest,
      tail ++ ' ' :: List.intercalate [',', ' '] i.operands = c :: rest ∧
        Text.isBlank c = true ∧
        Text.trim rest = Text.trim (List.intercalate [',', ' '] i.operands) := by
    cases tail with
    | nil => exact ⟨' ', _, rfl, rfl, rfl⟩
    | cons c tail =>
        obtain ⟨hc, htail⟩ := List.forall_mem_cons.mp htail
        refine ⟨c, tail ++ ' ' :: List.intercalate [',', ' '] i.operands, rfl, hc, ?_⟩
        rw [Text.trim_blank_append htail]
        exact Text.trim_blank_append (List.forall_mem_singleton.mpr rfl)
  have hline : i.line = lead ++ (Text.trim i.mnemonic ++ c :: rest) := by
    conv_lhs => rw [line, hm]
    rw [← hsplit]
    simp only [List.append_assoc]
  have hnotEmpty : i.operands.map Text.trim ≠ [[]] := by
    intro hmap
    have hmem : [] ∈ i.operands.map Text.trim := by simp [hmap]
    obtain ⟨op, hop, hnil⟩ := List.mem_map.mp hmem
    exact (hoperands op hop).ne_nil hnil
  rw [← ofLine?_trim, hline, Text.trim_blank_append hlead, ofLine?_trim,
    ofLine?_append hmnemonic.ne_nil hmnemonic.noBlank hc, hrest,
    operandsOf_intercalate (fun op hop => (hoperands op hop).comma_notMem) hnotEmpty]

end Instruction

section Trimmed

variable (M : Machine)

@[simp] theorem Table.resolve_trim (t : Table) (token : Text) :
    t.resolve (Text.trim token) = t.resolve token := by
  simp [resolve]

@[simp] theorem Machine.fieldValue_trim (m : Mnemonic) (f : Field) (token : Text) :
    M.fieldValue m f (Text.trim token) = M.fieldValue m f token := by
  simp [fieldValue]

@[simp]
theorem Machine.pack_trim (m : Mnemonic) (fs : List Field) (tokens : List Text) (area : Word) :
    M.pack m (fs.zip (tokens.map Text.trim)) area = M.pack m (fs.zip tokens) area := by
  have hvalue : ∀ f token, M.fieldValue m f (Text.trim token) =
      (M.fieldValue m f token).mapError id := by simp
  rw [M.pack_map_tokens m hvalue, mapError_id]

@[simp] theorem Machine.encodeTokens_trim (mnemonic : Text) (operands : List Text) :
    M.encodeTokens (Text.trim mnemonic) (operands.map Text.trim) =
      M.encodeTokens mnemonic operands := by
  simp [encodeTokens, Mnemonic.parse, Mnemonic.ofToken?, encode]

end Trimmed

namespace CommandLine

inductive Padded : List Text → List Text → Prop
  | nil : Padded [] []
  | commas {ops args : List Text} (n : Nat) (h : Padded ops args) :
      Padded ops (List.replicate n ',' :: args)
  | token {ops args : List Text} (op : Text) (n : Nat) (h : Padded ops args) :
      Padded (op :: ops) ((op ++ List.replicate n ',') :: args)

theorem dropCommas_append {op : Text} (h : ',' ∉ op) (n : Nat) :
    ((op ++ List.replicate n ',').reverse.dropWhile (· == ',')).reverse = op := by
  have hcommas : ∀ c ∈ List.replicate n ',', (c == ',') = true := by simp
  have hop : op.reverse.dropWhile (· == ',') = op.reverse := by
    rw [List.dropWhile_eq_self_iff]
    intro hlength
    simpa using ne_of_mem_of_not_mem (List.mem_reverse.mp (List.getElem_mem hlength)) h
  rw [List.reverse_append, List.reverse_replicate, List.dropWhile_append_of_pos hcommas, hop,
    List.reverse_reverse]

theorem operandsOf_padded {ops args : List Text} (h : Padded ops args)
    (hops : ∀ op ∈ ops, ',' ∉ op ∧ op ≠ []) : operandsOf args = ops := by
  induction h with
  | nil => rfl
  | commas n _ ih =>
      have hdrop := @dropCommas_append [] (by simp) n
      rw [List.nil_append] at hdrop
      rw [operandsOf, List.map_cons, hdrop]
      exact ih hops
  | token op n _ ih =>
      obtain ⟨⟨hop, hne⟩, hrest⟩ := List.forall_mem_cons.mp hops
      have hkeep : (!op.isEmpty) = true := by simpa using hne
      rw [operandsOf, List.map_cons, dropCommas_append hop, List.filter_cons, if_pos hkeep]
      exact congrArg (op :: ·) (ih hrest)

end CommandLine

theorem Machine.encode_routes_agree (M : Machine) (mnemonic : Text) (operands : List Text)
    (w : Word) (h : M.encodeTokens mnemonic operands = .ok w) :
    M.encodeLine (Instruction.line ⟨mnemonic, operands⟩) = .ok w ∧
      ∀ args, CommandLine.Padded operands args →
        M.encodeTokens mnemonic (CommandLine.operandsOf args) = .ok w := by
  obtain ⟨hmnemonic, hoperands⟩ := isToken_of_encodeTokens h
  constructor
  · rw [encodeLine, Instruction.ofLine?_line _ hmnemonic hoperands]
    exact (M.encodeTokens_trim mnemonic operands).trans h
  · intro args hargs
    rw [CommandLine.operandsOf_padded hargs fun op hop =>
      ⟨(hoperands op hop).comma_notMem, (hoperands op hop).nonempty⟩]
    exact h

theorem Machine.encode_routes_agree_loose :
    Machine.standard.encodeTokens "\tldv ".toList [" a".toList, "+5\u3000".toList] = .ok 0x0141 ∧
      Machine.standard.encodeLine "\tldv   a, +5\u3000".toList = .ok 0x0141 ∧
        Machine.standard.encodeTokens "\tldv ".toList
          (CommandLine.operandsOf [[','], " a,,".toList, [], "+5\u3000,".toList]) = .ok 0x0141 := by
  have h : Machine.standard.encodeTokens "\tldv ".toList [" a".toList, "+5\u3000".toList] =
      .ok 0x0141 := by decide +kernel
  obtain ⟨hline, hargs⟩ := encode_routes_agree Machine.standard _ _ _ h
  exact ⟨h, hline, hargs _ (.commas 1 (.token " a".toList 2 (.commas 0 (.token _ 1 .nil))))⟩

end Assembler
