import Assembler.Proofs.Reader

namespace Assembler.Table

namespace Reader

open Json (Token tokens itemTokens memberTokens)

variable {s : State} {t t' : Table} {slot : Slot} {j : Json} {e : ReadError}

section Skipping

mutual

theorem fills_skipped (t : Table) (j : Json) : Fills .skipped j t t := by
  match j with
  | .null => exact fills_scalar rfl fun _ => rfl
  | .bool _ => exact fills_scalar rfl fun _ => rfl
  | .number _ => exact fills_scalar rfl fun _ => rfl
  | .string _ => exact fills_scalar rfl fun _ => rfl
  | .array items => exact fills_array (fun _ => rfl) (lists_skipped t items)
  | .object members => exact fills_object (fun _ => rfl) (gives_skipped t members)

theorem lists_skipped (t : Table) (items : List Json) : Lists .skipped t items t := by
  match items with
  | [] => exact .nil
  | item :: items => exact .cons rfl (fills_skipped t item) (lists_skipped t items)

theorem gives_skipped (t : Table) (members : List (Text × Json)) :
    Gives .skipped t members t := by
  match members with
  | [] => exact .nil
  | (key, value) :: members => exact .cons rfl (fills_skipped t value) (gives_skipped t members)

end

end Skipping

section Failing

theorem run_append_error {tokens : List Token} (h : run s tokens = .error e) (rest : List Token) :
    run s (tokens ++ rest) = .error e := by
  rw [run, List.foldlM_append]
  change run s tokens >>= _ = _
  rw [h]
  rfl

theorem run_cons_error {token : Token} (h : step s token = .error e) (rest : List Token) :
    run s (token :: rest) = .error e := by
  rw [run, List.foldlM_cons, h]
  rfl

-- Reading ends with the error inside the value, whatever brackets stand around it.
def Fails (slot : Slot) (j : Json) (t : Table) (e : ReadError) : Prop :=
  ∀ stack, run ⟨t, stack, .value slot⟩ j.tokens = .error e

theorem fails_scalar {token : Token} (hj : j.tokens = [token])
    (h : ∀ stack, value ⟨t, stack, .value slot⟩ slot token = .error e) : Fails slot j t e := by
  intro stack
  have hstep : step ⟨t, stack, .value slot⟩ token = .error e := h stack
  rw [hj, run_cons_error hstep]

inductive Stops : Object → Table → List (Text × Json) → ReadError → Prop
  | key {o : Object} {t : Table} {key : Text} {j : Json} {members : List (Text × Json)}
      {e : ReadError} (hmember : o.member key = .error e) : Stops o t ((key, j) :: members) e
  | value {o o' : Object} {t : Table} {key : Text} {slot : Slot} {j : Json}
      {members : List (Text × Json)} {e : ReadError} (hmember : o.member key = .ok (slot, o'))
      (hvalue : Fails slot j t e) : Stops o t ((key, j) :: members) e
  | later {o o' : Object} {t t' : Table} {key : Text} {slot : Slot} {j : Json}
      {members : List (Text × Json)} {e : ReadError} (hmember : o.member key = .ok (slot, o'))
      (hvalue : Fills slot j t t') (hrest : Stops o' t' members e) :
      Stops o t ((key, j) :: members) e

variable {o o' : Object} {stack : List Frame} {members : List (Text × Json)}

theorem step_key_error {text : Text} {expected : Expected}
    (hexp : expected = .first ∨ expected = .key) (hmember : o.member text = .error e) :
    step ⟨t, .object o :: stack, expected⟩ (.string text) = .error e := by
  rcases hexp with rfl | rfl
  all_goals simp [step, content, key, keyText, hmember, Except.map, Frame.close]

theorem run_member_error {text : Text} {expected : Expected}
    (hexp : expected = .first ∨ expected = .key) (hmember : o.member text = .ok (slot, o'))
    (hvalue : Fails slot j t e) (rest : List Token) :
    run ⟨t, .object o :: stack, expected⟩ (.string text :: .colon :: (j.tokens ++ rest)) =
      .error e := by
  have hcolon : step ⟨t, .object o' :: stack, .colon slot⟩ .colon =
      .ok ⟨t, .object o' :: stack, .value slot⟩ := rfl
  rw [run_cons (step_key hexp hmember), run_cons hcolon, run_append_error (hvalue _)]

theorem run_memberTokens_error (h : Stops o t members e) (rest : List Token) :
    run ⟨t, .object o :: stack, .next⟩ (memberTokens members ++ rest) = .error e := by
  have hcomma : ∀ (o : Object) (t : Table), step ⟨t, .object o :: stack, .next⟩ .comma =
      .ok ⟨t, .object o :: stack, .key⟩ := fun _ _ => rfl
  induction h with
  | key hmember =>
      simp only [memberTokens, List.cons_append, List.append_assoc]
      rw [run_cons (hcomma _ _), run_cons_error (step_key_error (.inr rfl) hmember)]
  | value hmember hvalue =>
      simp only [memberTokens, List.cons_append, List.append_assoc]
      rw [run_cons (hcomma _ _), run_member_error (.inr rfl) hmember hvalue]
  | later hmember hvalue _ ih =>
      simp only [memberTokens, List.cons_append, List.append_assoc]
      rw [run_cons (hcomma _ _), run_member (.inr rfl) hmember hvalue, ih]

theorem fails_object
    (hopen : ∀ stack, value ⟨t, stack, .value slot⟩ slot .openObject =
      .ok ⟨t', .object o :: stack, .first⟩)
    (h : Stops o t' members e) : Fails slot (.object members) t e := by
  intro stack
  have hstep : step ⟨t, stack, .value slot⟩ .openObject = .ok ⟨t', .object o :: stack, .first⟩ :=
    hopen stack
  cases h with
  | key hmember =>
      simp only [tokens, List.cons_append]
      rw [run_cons hstep, run_cons_error (step_key_error (.inl rfl) hmember)]
  | value hmember hvalue =>
      simp only [tokens, List.cons_append, List.append_assoc]
      rw [run_cons hstep, run_member_error (.inl rfl) hmember hvalue]
  | later hmember hvalue hrest =>
      simp only [tokens, List.cons_append, List.append_assoc]
      rw [run_cons hstep, run_member (.inl rfl) hmember hvalue, run_memberTokens_error hrest]

inductive Halts : Sequence → Table → List Json → ReadError → Prop
  | value {q q' : Sequence} {t : Table} {slot : Slot} {j : Json} {items : List Json} {e : ReadError}
      (hnext : q.next? = some (slot, q')) (hvalue : Fails slot j t e) : Halts q t (j :: items) e
  | later {q q' : Sequence} {t t' : Table} {slot : Slot} {j : Json} {items : List Json}
      {e : ReadError} (hnext : q.next? = some (slot, q')) (hvalue : Fills slot j t t')
      (hrest : Halts q' t' items e) : Halts q t (j :: items) e

variable {q q' : Sequence} {items : List Json}

theorem run_itemTokens_error (h : Halts q t items e) (rest : List Token) :
    run ⟨t, .sequence q :: stack, .next⟩ (itemTokens items ++ rest) = .error e := by
  induction h with
  | value hnext hvalue =>
      simp only [itemTokens, List.cons_append, List.append_assoc]
      rw [run_cons (step_comma hnext), run_append_error (hvalue _)]
  | later hnext hvalue _ ih =>
      simp only [itemTokens, List.cons_append, List.append_assoc]
      rw [run_cons (step_comma hnext), run_append (hvalue _), ih]

theorem fails_array
    (hopen : ∀ stack, value ⟨t, stack, .value slot⟩ slot .openArray =
      .ok ⟨t', .sequence q :: stack, .first⟩)
    (h : Halts q t' items e) : Fails slot (.array items) t e := by
  intro stack
  have hstep : step ⟨t, stack, .value slot⟩ .openArray = .ok ⟨t', .sequence q :: stack, .first⟩ :=
    hopen stack
  cases h with
  | value hnext hvalue =>
      simp only [tokens, List.cons_append, List.append_assoc]
      rw [run_cons hstep, run_first_eq hnext, run_append_error (hvalue _)]
  | later hnext hvalue hrest =>
      simp only [tokens, List.cons_append, List.append_assoc]
      rw [run_cons hstep, run_first hnext hvalue, run_itemTokens_error hrest]

end Failing

section Documents

variable {style : Json.Style}

theorem read_of_fills (hs : style.Blank) (h : Fills .document j .standard t) :
    read (j.render style 0) = .ok t := by
  have hscan := Json.scan_render_append hs j (List.forall_mem_nil _)
  rw [List.append_nil] at hscan
  rw [read, hscan, State.initial, h []]
  rfl

theorem read_of_fails (hs : style.Blank) (h : Fails .document j .standard e) :
    read (j.render style 0) = .error e := by
  have hscan := Json.scan_render_append hs j (List.forall_mem_nil _)
  rw [List.append_nil] at hscan
  rw [read, hscan, State.initial, h []]
  rfl

end Documents

end Reader

section Members

variable {κ : Type} {name : κ → Text} {Value : κ → Type}

inductive Member (name : κ → Text) (Value : κ → Type) where
  | known (k : κ) (v : Value k)
  | unknown (key : Text) (j : Json) (h : ∀ k, name k ≠ key)

namespace Member

def json (write : (k : κ) → Value k → Json) : Member name Value → Text × Json
  | known k v => (name k, write k v)
  | unknown key j _ => (key, j)

def key? : Member name Value → Option κ
  | known k _ => some k
  | unknown _ _ _ => none

def value? [DecidableEq κ] (k : κ) : Member name Value → Option (Value k)
  | known i v => if h : i = k then some (h ▸ v) else none
  | unknown _ _ _ => none

def apply {σ : Type} (put : σ → (k : κ) → Value k → σ) (s : σ) : Member name Value → σ
  | known k v => put s k v
  | unknown _ _ _ => s

end Member

-- An object or, if the keys of the members are the first of `names`, the array of their values.
inductive Spelling (names : List Text) (members : List (Text × Json)) : Json → Prop
  | object : Spelling names members (.object members)
  | array (h : members.map (·.1) <+: names) : Spelling names members (.array (members.map (·.2)))

end Members

namespace Reader

structure Record {κ : Type} (name : κ → Text) (Value : κ → Type) where
  keys : List κ
  place : Slot
  slot : κ → Slot
  object : List κ → Object
  sequence : List κ → Sequence
  write : (k : κ) → Value k → Json
  put : Table → (k : κ) → Value k → Table
  openObject : ∀ t stack, value ⟨t, stack, .value place⟩ place .openObject =
    .ok ⟨t, .object (object []) :: stack, .first⟩
  openArray : ∀ t stack, value ⟨t, stack, .value place⟩ place .openArray =
    .ok ⟨t, .sequence (sequence keys) :: stack, .first⟩
  fresh : ∀ k seen, k ∉ seen → (object seen).member (name k) = .ok (slot k, object (k :: seen))
  repeated : ∀ k seen, k ∈ seen → (object seen).member (name k) = .error (.duplicateKey (name k))
  unknown : ∀ key seen, (∀ k, name k ≠ key) →
    (object seen).member key = .ok (.skipped, object seen)
  next : ∀ k rest, (sequence (k :: rest)).next? = some (slot k, sequence rest)
  injective : Function.Injective name

inductive Passes : Object → Table → List (Text × Json) → Object → Table → Prop
  | nil {o : Object} {t : Table} : Passes o t [] o t
  | cons {o o' o'' : Object} {t t' t'' : Table} {key : Text} {slot : Slot} {j : Json}
      {members : List (Text × Json)} (hmember : o.member key = .ok (slot, o'))
      (hvalue : Fills slot j t t') (hrest : Passes o' t' members o'' t'') :
      Passes o t ((key, j) :: members) o'' t''

section Passes

variable {o o' : Object} {t t' t'' : Table} {members rest : List (Text × Json)} {e : ReadError}

theorem Passes.gives (h : Passes o t members o' t') : Gives o t members t' := by
  induction h with
  | nil => exact .nil
  | cons hmember hvalue _ ih => exact .cons hmember hvalue ih

theorem Passes.stops (h : Passes o t members o' t') (hrest : Stops o' t' rest e) :
    Stops o t (members ++ rest) e := by
  induction h with
  | nil => exact hrest
  | cons hmember hvalue _ ih => exact .later hmember hvalue (ih hrest)

end Passes

namespace Record

variable {κ : Type} {name : κ → Text} {Value : κ → Type} {R : Record name Value}
  {members : List (Member name Value)} {e : ReadError}

def Reads (R : Record name Value) (members : List (Member name Value)) : Prop :=
  ∀ k v, .known k v ∈ members → ∀ t, Fills (R.slot k) (R.write k v) t (R.put t k v)

theorem Reads.tail {m : Member name Value} (h : R.Reads (m :: members)) : R.Reads members :=
  fun k v hmem => h k v (List.mem_cons_of_mem m hmem)

theorem Reads.passes (h : R.Reads members) (hnodup : (members.filterMap Member.key?).Nodup)
    {seen : List κ} (hnew : ∀ k ∈ members.filterMap Member.key?, k ∉ seen) (t : Table) :
    Passes (R.object seen) t (members.map (Member.json R.write))
      (R.object ((members.filterMap Member.key?).reverse ++ seen))
      (members.foldl (Member.apply R.put) t) := by
  induction members generalizing seen t with
  | nil => exact .nil
  | cons m members ih =>
      cases m with
      | known k v =>
          have hkeys : (Member.known k v :: members).filterMap Member.key? =
              k :: members.filterMap Member.key? := rfl
          rw [hkeys] at hnodup hnew ⊢
          obtain ⟨hk, hnodup⟩ := List.nodup_cons.mp hnodup
          have hfresh : ∀ i ∈ members.filterMap Member.key?, i ∉ k :: seen := by
            intro i hi
            rw [List.mem_cons, not_or]
            exact ⟨ne_of_mem_of_not_mem hi hk, hnew i (List.mem_cons_of_mem k hi)⟩
          rw [List.reverse_cons, List.append_assoc, List.singleton_append]
          exact .cons (R.fresh k seen (hnew k (by simp))) (h k v (by simp) t)
            (ih h.tail hnodup hfresh _)
      | unknown key j hkey =>
          exact .cons (R.unknown key seen hkey) (fills_skipped t j) (ih h.tail hnodup hnew t)

-- The elements of an array take the keys in their order, so none of them is unknown.
theorem eq_of_name_eq {m : Member name Value} {k : κ} (h : (m.json R.write).1 = name k) :
    ∃ v, m = .known k v := by
  cases m with
  | known i v =>
      obtain rfl := R.injective h
      exact ⟨v, rfl⟩
  | unknown key j hkey => exact absurd h.symm (hkey k)

theorem Reads.lists (h : R.Reads members) {rest : List κ}
    (hnames : (members.map (Member.json R.write)).map (·.1) <+: rest.map name) (t : Table) :
    Lists (R.sequence rest) t ((members.map (Member.json R.write)).map (·.2))
      (members.foldl (Member.apply R.put) t) := by
  induction members generalizing rest t with
  | nil => exact .nil
  | cons m members ih =>
      cases rest with
      | nil => simp at hnames
      | cons k rest =>
          simp only [List.map_cons, List.cons_prefix_cons] at hnames
          obtain ⟨hname, hnames⟩ := hnames
          obtain ⟨v, rfl⟩ := eq_of_name_eq hname
          exact .cons (R.next k rest) (h k v (by simp) t) (ih h.tail hnames _)

theorem Reads.halts (h : R.Reads members) {k : κ} {j : Json}
    (hfails : ∀ t, Fails (R.slot k) j t e) {after : List (Text × Json)} {rest : List κ}
    (hnames : (members.map (Member.json R.write) ++ (name k, j) :: after).map (·.1) <+:
      rest.map name) (t : Table) :
    Halts (R.sequence rest) t
      ((members.map (Member.json R.write) ++ (name k, j) :: after).map (·.2)) e := by
  induction members generalizing rest t with
  | nil =>
      cases rest with
      | nil => simp at hnames
      | cons i rest =>
          simp only [List.map_nil, List.nil_append, List.map_cons, List.cons_prefix_cons] at hnames
          obtain rfl := R.injective hnames.1
          exact .value (R.next k rest) (hfails t)
  | cons m members ih =>
      cases rest with
      | nil => simp at hnames
      | cons i rest =>
          simp only [List.map_cons, List.cons_append, List.cons_prefix_cons] at hnames
          obtain ⟨hname, hnames⟩ := hnames
          obtain ⟨v, rfl⟩ := eq_of_name_eq hname
          exact .later (R.next i rest) (h i v (by simp) t) (ih h.tail hnames _)

theorem Reads.fills (h : R.Reads members) (hnodup : (members.filterMap Member.key?).Nodup)
    {j : Json} (hj : Spelling (R.keys.map name) (members.map (Member.json R.write)) j) (t : Table) :
    Fills R.place j t (members.foldl (Member.apply R.put) t) := by
  cases hj with
  | object => exact fills_object (R.openObject t) (h.passes hnodup (by simp) t).gives
  | array hnames => exact fills_array (R.openArray t) (h.lists hnames t)

theorem Reads.fails_repeated (h : R.Reads members)
    (hnodup : (members.filterMap Member.key?).Nodup) {k : κ}
    (hk : k ∈ members.filterMap Member.key?) (j : Json) (after : List (Text × Json)) (t : Table) :
    Fails R.place (.object (members.map (Member.json R.write) ++ (name k, j) :: after)) t
      (.duplicateKey (name k)) := by
  have hpasses := h.passes hnodup (fun _ _ => List.not_mem_nil) t
  exact fails_object (R.openObject t) (hpasses.stops (.key (R.repeated k _ (by simpa using hk))))

theorem Reads.fails_value (h : R.Reads members) (hnodup : (members.filterMap Member.key?).Nodup)
    {k : κ} (hk : k ∉ members.filterMap Member.key?) {j : Json}
    (hfails : ∀ t, Fails (R.slot k) j t e) {after : List (Text × Json)} {doc : Json}
    (hdoc : Spelling (R.keys.map name) (members.map (Member.json R.write) ++ (name k, j) :: after)
      doc) (t : Table) : Fails R.place doc t e := by
  cases hdoc with
  | object =>
      have hpasses := h.passes hnodup (fun _ _ => List.not_mem_nil) t
      exact fails_object (R.openObject t)
        (hpasses.stops (.value (R.fresh k _ (by simpa using hk)) (hfails _)))
  | array hnames => exact fails_array (R.openArray t) (h.halts hfails hnames t)

end Record

end Reader

end Assembler.Table
