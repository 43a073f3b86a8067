import Mathlib
import Assembler.Table.Reader
import Assembler.Proofs.Json
import Assembler.Proofs.Validity

namespace Assembler

namespace OpcodeMap

def insertAll (map : OpcodeMap) (entries : List (Mnemonic × Word)) : OpcodeMap :=
  entries.foldl (fun map entry => map.insert entry.1 entry.2) map

theorem get?_insertAll_of_notMem (map : OpcodeMap) {entries : List (Mnemonic × Word)}
    {m : Mnemonic} (h : m ∉ entries.map (·.1)) : (map.insertAll entries).get? m = map.get? m := by
  induction entries generalizing map with
  | nil => rfl
  | cons entry entries ih =>
      simp only [List.map_cons, List.mem_cons, not_or] at h
      exact (ih (map.insert entry.1 entry.2) h.2).trans (by simp [h.1])

theorem get?_insertAll_of_mem (map : OpcodeMap) {entries : List (Mnemonic × Word)}
    (hnodup : (entries.map (·.1)).Nodup) {m : Mnemonic} {w : Word} (h : (m, w) ∈ entries) :
    (map.insertAll entries).get? m = some w := by
  induction entries generalizing map with
  | nil => cases h
  | cons entry entries ih =>
      obtain ⟨hnew, hrest⟩ := List.nodup_cons.mp hnodup
      rcases List.mem_cons.mp h with rfl | h
      · exact (get?_insertAll_of_notMem _ hnew).trans (by simp)
      · exact ih _ hrest h

@[simp] theorem mem_toList {map : OpcodeMap} {m : Mnemonic} {w : Word} :
    (m, w) ∈ map.toList ↔ map.get? m = some w := by
  simp only [toList, List.mem_filterMap, Option.map_eq_some_iff, Prod.mk.injEq]
  constructor
  · rintro ⟨k, -, v, hget, rfl, rfl⟩
    exact hget
  · intro h
    simpa using h

theorem map_fst_toList (map : OpcodeMap) :
    map.toList.map (·.1) = Mnemonic.all.filter map.contains := by
  rw [toList, List.map_filterMap, ← List.filterMap_eq_filter]
  congr 1
  funext m
  cases h : map.get? m <;> simp [contains, h, Option.guard]

theorem nodup_toList (map : OpcodeMap) : (map.toList.map (·.1)).Nodup := by
  rw [map_fst_toList]
  exact Mnemonic.all_nodup.filter _

@[simp] theorem insertAll_toList (map : OpcodeMap) : empty.insertAll map.toList = map := by
  apply OpcodeMap.ext
  funext m
  cases h : map.get? m with
  | none =>
      rw [get?_insertAll_of_notMem]
      · rfl
      · rintro hmem
        obtain ⟨⟨k, w⟩, hentry, rfl⟩ := List.mem_map.mp hmem
        rw [mem_toList.mp hentry] at h
        cases h
  | some w => exact get?_insertAll_of_mem _ map.nodup_toList (mem_toList.mpr h)

end OpcodeMap

namespace Table.Reader

open Json (Token tokens itemTokens memberTokens)

variable {s s' : State} {t t' t'' : Table} {slot : Slot}

theorem run_cons {token : Token} (h : step s token = .ok s') (rest : List Token) :
    run s (token :: rest) = run s' rest := by
  rw [run, List.foldlM_cons, h]
  rfl

theorem run_append {tokens : List Token} (h : run s tokens = .ok s') (rest : List Token) :
    run s (tokens ++ rest) = run s' rest := by
  rw [run, List.foldlM_append]
  change run s tokens >>= _ = _
  rw [h]
  rfl

-- The value turns the table `t` into `t'`, whatever brackets stand around it.
def Fills (slot : Slot) (j : Json) (t t' : Table) : Prop :=
  ∀ stack, run ⟨t, stack, .value slot⟩ j.tokens = .ok ⟨t', stack, .next⟩

section Scalars

theorem natural_ofNat (expected : Shape) {n bound : Nat} (h : n < bound)
    (hbound : bound ≤ 0x100000000) :
    natural expected bound (.number (.ofNat n)) = .ok n := by
  have hwidest : n ≤ Json.Numeral.widest := by
    simp only [Json.Numeral.widest]
    omega
  have hrange : 0 ≤ (n : Int) ∧ (n : Int) < bound := by omega
  simp only [natural, Json.Numeral.number?_ofNat hwidest, if_pos hrange, Int.toNat_natCast]

@[simp] theorem width_ofNat (w : UInt32) : width (.number (.ofNat w.toNat)) = .ok w := by
  rw [width, natural_ofNat _ w.toNat_lt (by decide)]
  simp [Except.map]

@[simp] theorem word_ofNat (w : Word) : word (.number (.ofNat w.toNat)) = .ok w := by
  rw [word, natural_ofNat _ w.isLt (by decide)]
  simp [Except.map]

theorem fills_scalar {j : Json} {token : Token} (hj : j.tokens = [token])
    (h : ∀ stack, value ⟨t, stack, .value slot⟩ slot token = .ok ⟨t', stack, .next⟩) :
    Fills slot j t t' := by
  intro stack
  have hstep : step ⟨t, stack, .value slot⟩ token = .ok ⟨t', stack, .next⟩ := h stack
  rw [hj, run_cons hstep]
  rfl

theorem fills_wordWidth (t : Table) (w : UInt32) :
    Fills (.part .wordWidth) (.ofNat w.toNat) t { t with wordWidth := w } := by
  apply fills_scalar rfl
  intro stack
  simp [value, Except.map, State.complete]

theorem fills_opcodeWidth (t : Table) (w : UInt32) :
    Fills (.part .opcodeWidth) (.ofNat w.toNat) t { t with opcodeWidth := w } := by
  apply fills_scalar rfl
  intro stack
  simp [value, Except.map, State.complete]

theorem fills_opcode {m : Mnemonic} (h : t.opcodes.get? m = none) (w : Word) :
    Fills (.opcode m) (.ofNat w.toNat) t { t with opcodes := t.opcodes.insert m w } := by
  apply fills_scalar rfl
  intro stack
  simp [value, OpcodeMap.contains, h, State.complete]

theorem fills_register (t : Table) (name : Text) :
    Fills .register (.string name) t { t with registers := t.registers ++ [name] } :=
  fills_scalar rfl fun _ => rfl

theorem fills_limit (t : Table) (k : LimitKey) (w : Word) :
    Fills (.limit k) (.ofNat w.toNat) t { t with limits := t.limits.set k w } := by
  apply fills_scalar rfl
  intro stack
  simp [value, Except.map, State.complete]

end Scalars

section Objects

inductive Gives : Object → Table → List (Text × Json) → Table → Prop
  | nil {o : Object} {t : Table} : Gives o t [] t
  | cons {o o' : Object} {t t' t'' : Table} {key : Text} {slot : Slot} {j : Json}
      {members : List (Text × Json)} (hmember : o.member key = .ok (slot, o'))
      (hvalue : Fills slot j t t') (hrest : Gives o' t' members t'') :
      Gives o t ((key, j) :: members) t''

variable {o o' : Object} {stack : List Frame} {members : List (Text × Json)}

theorem step_key {text : Text} {expected : Expected} (hexp : expected = .first ∨ expected = .key)
    (hmember : o.member text = .ok (slot, o')) :
    step ⟨t, .object o :: stack, expected⟩ (.string text) =
      .ok ⟨t, .object o' :: stack, .colon slot⟩ := by
  rcases hexp with rfl | rfl
  all_goals simp [step, content, key, keyText, hmember, Except.map, Frame.close]

theorem run_member {text : Text} {j : Json} {expected : Expected}
    (hexp : expected = .first ∨ expected = .key) (hmember : o.member text = .ok (slot, o'))
    (hvalue : Fills slot j t t') (rest : List Token) :
    run ⟨t, .object o :: stack, expected⟩ (.string text :: .colon :: (j.tokens ++ rest)) =
      run ⟨t', .object o' :: stack, .next⟩ rest := by
  have hcolon : step ⟨t, .object o' :: stack, .colon slot⟩ .colon =
      .ok ⟨t, .object o' :: stack, .value slot⟩ := rfl
  rw [run_cons (step_key hexp hmember), run_cons hcolon, run_append (hvalue _)]

theorem run_memberTokens (h : Gives o t members t') :
    run ⟨t, .object o :: stack, .next⟩ (memberTokens members ++ [.closeObject]) =
      .ok ⟨t', stack, .next⟩ := by
  induction h with
  | nil => rfl
  | @cons o o' t t' t'' key slot j members hmember hvalue hrest ih =>
      have hcomma : step ⟨t, .object o :: stack, .next⟩ .comma =
          .ok ⟨t, .object o :: stack, .key⟩ := rfl
      simp only [memberTokens, List.cons_append, List.append_assoc]
      rw [run_cons hcomma, run_member (.inr rfl) hmember hvalue, ih]

theorem fills_object
    (hopen : ∀ stack, value ⟨t, stack, .value slot⟩ slot .openObject =
      .ok ⟨t', .object o :: stack, .first⟩)
    (h : Gives o t' members t'') : Fills slot (.object members) t t'' := by
  intro stack
  have hstep : step ⟨t, stack, .value slot⟩ .openObject = .ok ⟨t', .object o :: stack, .first⟩ :=
    hopen stack
  cases h with
  | nil =>
      rw [tokens, run_cons hstep]
      rfl
  | cons hmember hvalue hrest =>
      simp only [tokens, List.cons_append, List.append_assoc]
      rw [run_cons hstep, run_member (.inl rfl) hmember hvalue, run_memberTokens hrest]

end Objects

section Sequences

inductive Lists : Sequence → Table → List Json → Table → Prop
  | nil {q : Sequence} {t : Table} : Lists q t [] t
  | cons {q q' : Sequence} {t t' t'' : Table} {slot : Slot} {j : Json} {items : List Json}
      (hnext : q.next? = some (slot, q')) (hvalue : Fills slot j t t')
      (hrest : Lists q' t' items t'') : Lists q t (j :: items) t''

variable {q q' : Sequence} {stack : List Frame} {items : List Json}

theorem value_expected (t : Table) (stack : List Frame) (e e' : Expected) (slot : Slot)
    (token : Token) : value ⟨t, stack, e⟩ slot token = value ⟨t, stack, e'⟩ slot token := by
  cases slot with
  | part k => cases k <;> cases token <;> rfl
  | _ => cases token <;> rfl

theorem exists_tokens_eq (j : Json) :
    ∃ token rest, j.tokens = token :: rest ∧ token ≠ .closeArray := by
  match j with
  | .null => exact ⟨_, _, rfl, by simp⟩
  | .bool _ => exact ⟨_, _, rfl, by simp⟩
  | .number _ => exact ⟨_, _, rfl, by simp⟩
  | .string _ => exact ⟨_, _, rfl, by simp⟩
  | .array [] => exact ⟨_, _, rfl, by simp⟩
  | .array (_ :: _) => exact ⟨_, _, rfl, by simp⟩
  | .object [] => exact ⟨_, _, rfl, by simp⟩
  | .object ((_, _) :: _) => exact ⟨_, _, rfl, by simp⟩

-- The first element is read in the place of the closing bracket, every other one after a comma.
theorem run_first_eq {j : Json} (hnext : q.next? = some (slot, q')) (rest : List Token) :
    run ⟨t, .sequence q :: stack, .first⟩ (j.tokens ++ rest) =
      run ⟨t, .sequence q' :: stack, .value slot⟩ (j.tokens ++ rest) := by
  obtain ⟨token, tail, htokens, hclose⟩ := exists_tokens_eq j
  have hstep : step ⟨t, .sequence q :: stack, .first⟩ token =
      step ⟨t, .sequence q' :: stack, .value slot⟩ token := by
    simp only [step, Frame.close, if_neg hclose, content, hnext]
    exact value_expected _ _ _ _ _ _
  rw [htokens, List.cons_append, run, run, List.foldlM_cons, List.foldlM_cons, hstep]

theorem run_first {j : Json} (hnext : q.next? = some (slot, q')) (hvalue : Fills slot j t t')
    (rest : List Token) :
    run ⟨t, .sequence q :: stack, .first⟩ (j.tokens ++ rest) =
      run ⟨t', .sequence q' :: stack, .next⟩ rest := by
  rw [run_first_eq hnext, run_append (hvalue _)]

theorem step_comma (hnext : q.next? = some (slot, q')) :
    step ⟨t, .sequence q :: stack, .next⟩ .comma = .ok ⟨t, .sequence q' :: stack, .value slot⟩ := by
  simp [step, Frame.close, afterComma, hnext]

theorem run_itemTokens (h : Lists q t items t') :
    run ⟨t, .sequence q :: stack, .next⟩ (itemTokens items ++ [.closeArray]) =
      .ok ⟨t', stack, .next⟩ := by
  induction h with
  | nil => rfl
  | cons hnext hvalue _ ih =>
      simp only [itemTokens, List.cons_append, List.append_assoc]
      rw [run_cons (step_comma hnext), run_append (hvalue _), ih]

theorem fills_array
    (hopen : ∀ stack, value ⟨t, stack, .value slot⟩ slot .openArray =
      .ok ⟨t', .sequence q :: stack, .first⟩)
    (h : Lists q t' items t'') : Fills slot (.array items) t t'' := by
  intro stack
  have hstep : step ⟨t, stack, .value slot⟩ .openArray = .ok ⟨t', .sequence q :: stack, .first⟩ :=
    hopen stack
  cases h with
  | nil =>
      rw [tokens, run_cons hstep]
      rfl
  | cons hnext hvalue hrest =>
      simp only [tokens, List.cons_append, List.append_assoc]
      rw [run_cons hstep, run_first hnext hvalue, run_itemTokens hrest]

end Sequences

section Parts

theorem gives_opcodes {entries : List (Mnemonic × Word)} (hnodup : (entries.map (·.1)).Nodup)
    (t : Table) (hnew : ∀ m ∈ entries.map (·.1), t.opcodes.get? m = none) :
    Gives .opcodes t (entries.map fun entry => (entry.1.name, .ofNat entry.2.toNat))
      { t with opcodes := t.opcodes.insertAll entries } := by
  induction entries generalizing t with
  | nil => exact .nil
  | cons entry entries ih =>
      obtain ⟨m, w⟩ := entry
      obtain ⟨hm, hrest⟩ := List.nodup_cons.mp hnodup
      have hmember : Object.opcodes.member m.name = .ok (.opcode m, .opcodes) := by
        simp [Object.member]
      refine .cons hmember (fills_opcode (hnew m (by simp)) w) (ih hrest _ fun k hk => ?_)
      have hne : k ≠ m := by
        rintro rfl
        exact hm hk
      simpa [hne] using hnew k (List.mem_cons_of_mem _ hk)

theorem lists_registers (names : List Text) (t : Table) :
    Lists .registers t (names.map .string) { t with registers := t.registers ++ names } := by
  induction names generalizing t with
  | nil =>
      rw [List.append_nil]
      exact .nil
  | cons name names ih =>
      have h := ih { t with registers := t.registers ++ [name] }
      rw [List.append_assoc, List.singleton_append] at h
      exact .cons rfl (fills_register t name) h

-- A key may be given once, so the induction carries the keys that were given before.
theorem gives_keys {κ : Type} {object : List κ → Object} {name : κ → Text} {slot : κ → Slot}
    {part : κ → Json} {put : Table → κ → Table}
    (hmember : ∀ k seen, k ∉ seen →
      (object seen).member (name k) = .ok (slot k, object (k :: seen)))
    (hvalue : ∀ t k, Fills (slot k) (part k) t (put t k)) {keys seen : List κ}
    (hnodup : keys.Nodup) (hnew : ∀ k ∈ keys, k ∉ seen) (t : Table) :
    Gives (object seen) t (keys.map fun k => (name k, part k)) (keys.foldl put t) := by
  induction keys generalizing seen t with
  | nil => exact .nil
  | cons k keys ih =>
      obtain ⟨hk, hrest⟩ := List.nodup_cons.mp hnodup
      refine .cons (hmember k seen (hnew k (by simp))) (hvalue t k) (ih hrest (fun i hi => ?_) _)
      have hne : i ≠ k := by
        rintro rfl
        exact hk hi
      simp [hne, hnew i (List.mem_cons_of_mem _ hi)]

theorem gives_limits (t : Table) (l : Limits) :
    Gives (.limits []) t (LimitKey.all.map fun k => (k.name, .ofNat (l.get k).toNat))
      { t with limits := l } := by
  have hmember : ∀ (k : LimitKey) seen, k ∉ seen →
      (Object.limits seen).member k.name = .ok (.limit k, .limits (k :: seen)) := by
    intro k seen hk
    simp [Object.member, hk]
  exact gives_keys hmember (fun t k => fills_limit t k (l.get k)) (by decide) (by simp) t

def put (t src : Table) : Key → Table
  | .wordWidth => { t with wordWidth := src.wordWidth }
  | .opcodeWidth => { t with opcodeWidth := src.opcodeWidth }
  | .opcodes => { t with opcodes := src.opcodes }
  | .registers => { t with registers := src.registers }
  | .limits => { t with limits := src.limits }

theorem fills_part (t src : Table) (k : Key) : Fills (.part k) (src.part k) t (put t src k) := by
  cases k with
  | wordWidth => exact fills_wordWidth t src.wordWidth
  | opcodeWidth => exact fills_opcodeWidth t src.opcodeWidth
  | opcodes =>
      have h := gives_opcodes src.opcodes.nodup_toList { t with opcodes := .empty } fun _ _ => rfl
      rw [OpcodeMap.insertAll_toList] at h
      exact fills_object (fun _ => rfl) h
  | registers =>
      have h := lists_registers src.registers { t with registers := [] }
      exact fills_array (fun _ => rfl) h
  | limits => exact fills_object (fun _ => rfl) (gives_limits t src.limits)

theorem gives_table (t src : Table) :
    Gives (.table []) t (Key.all.map fun k => (k.name, src.part k)) src := by
  have hmember : ∀ (k : Key) seen, k ∉ seen →
      (Object.table seen).member k.name = .ok (.part k, .table (k :: seen)) := by
    intro k seen hk
    simp [Object.member, hk]
  exact gives_keys hmember (fun t k => fills_part t src k) (by decide) (by simp) t

end Parts

theorem fills_document (t src : Table) : Fills .document src.document t src :=
  fills_object (fun _ => rfl) (gives_table t src)

end Table.Reader

namespace Table

open Json (Style)

theorem read_render_append {style : Style} (hs : style.Blank) (t : Table) {spaces : Text}
    (hspaces : ∀ c ∈ spaces, Json.Token.isSpace c = true) :
    read (t.document.render style 0 ++ spaces) = .ok t := by
  rw [read, Json.scan_render_append hs _ hspaces, Reader.State.initial,
    Reader.fills_document .standard t []]
  rfl

theorem read_render {style : Style} (hs : style.Blank) (t : Table) :
    read (t.document.render style 0) = .ok t := by
  simpa using read_render_append hs t (List.forall_mem_nil _)

theorem compact_document_reads_back (t : Table) :
    read t.document.compact = .ok t ∧
      load t.document.compact =
        match t.check with
        | .ok () => .ok t
        | .error e => .error (.invalid e) := by
  have hread : read t.document.compact = .ok t := read_render Style.blank_compact t
  refine ⟨hread, ?_⟩
  rw [load, hread]
  cases h : t.check <;> simp [h]

end Table

end Assembler
