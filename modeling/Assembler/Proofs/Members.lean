import Assembler.Proofs.Record

namespace Assembler

namespace Table

section Given

variable {κ : Type} {name : κ → Text} {Value : κ → Type} {members : List (Member name Value)}

theorem mem_filterMap_key? {k : κ} :
    k ∈ members.filterMap Member.key? ↔ ∃ v, .known k v ∈ members := by
  rw [List.mem_filterMap]
  constructor
  · rintro ⟨m, hm, hkey⟩
    cases m with
    | known i v =>
        obtain rfl := Option.some.inj hkey
        exact ⟨v, hm⟩
    | unknown => cases hkey
  · rintro ⟨v, hv⟩
    exact ⟨_, hv, rfl⟩

variable [DecidableEq κ]

def given? (members : List (Member name Value)) (k : κ) : Option (Value k) :=
  members.findSome? (Member.value? k)

theorem value?_known (k : κ) (v : Value k) :
    (Member.known k v : Member name Value).value? k = some v := by
  simp [Member.value?]

theorem value?_eq_some_iff {m : Member name Value} {k : κ} {v : Value k} :
    m.value? k = some v ↔ m = .known k v := by
  cases m with
  | known i w =>
      rcases eq_or_ne i k with rfl | hne
      · simp [value?_known]
      · simp [Member.value?, hne]
  | unknown => simp [Member.value?]

@[simp]
theorem given?_cons_known (k : κ) (v : Value k) : given? (.known k v :: members) k = some v := by
  rw [given?, List.findSome?_cons, value?_known]

theorem given?_cons_of_ne {i k : κ} (h : i ≠ k) (v : Value i) :
    given? (.known i v :: members) k = given? members k := by
  rw [given?, List.findSome?_cons, Member.value?, dif_neg h, given?]

@[simp] theorem given?_cons_unknown (key : Text) (j : Json) (h : ∀ k, name k ≠ key) (k : κ) :
    given? (.unknown key j h :: members : List (Member name Value)) k = given? members k := rfl

theorem given?_eq_none {k : κ} (h : k ∉ members.filterMap Member.key?) :
    given? members k = none := by
  rw [given?, List.findSome?_eq_none_iff]
  intro m hm
  rw [Option.eq_none_iff_forall_ne_some]
  intro v hv
  obtain rfl := value?_eq_some_iff.mp hv
  exact h (mem_filterMap_key?.mpr ⟨v, hm⟩)

theorem given?_eq_some_iff (hnodup : (members.filterMap Member.key?).Nodup) {k : κ} {v : Value k} :
    given? members k = some v ↔ .known k v ∈ members := by
  induction members with
  | nil => simp [given?]
  | cons m members ih =>
      cases m with
      | known i w =>
          obtain ⟨hi, hnodup⟩ := List.nodup_cons.mp hnodup
          rcases eq_or_ne i k with rfl | hne
          · have hv : Member.known i v ∉ members := fun hv => hi (mem_filterMap_key?.mpr ⟨v, hv⟩)
            simp [hv, eq_comm]
          · rw [given?_cons_of_ne hne, ih hnodup]
            simp [hne.symm]
      | unknown key j hkey =>
          rw [given?_cons_unknown, ih hnodup]
          simp

theorem given?_perm {members' : List (Member name Value)} (h : members.Perm members')
    (hnodup : (members.filterMap Member.key?).Nodup) : given? members = given? members' := by
  funext k
  have hnodup' : (members'.filterMap Member.key?).Nodup := (h.filterMap _).nodup_iff.mp hnodup
  refine Option.ext fun v => ?_
  rw [given?_eq_some_iff hnodup, given?_eq_some_iff hnodup', h.mem_iff]

end Given

end Table

theorem LimitKey.ofName?_eq_none {key : Text} (h : ∀ k : LimitKey, k.name ≠ key) :
    ofName? key = none := by
  simp [ofName?, h]

theorem Table.Key.ofName?_eq_none {key : Text} (h : ∀ k : Key, k.name ≠ key) :
    ofName? key = none := by
  simp [ofName?, h]

namespace Limits

def ofKeys (f : LimitKey → Word) : Limits := ⟨f .ldv, f .lda, f .ldm, f .jmp⟩

@[simp] theorem get_ofKeys (f : LimitKey → Word) (k : LimitKey) : (ofKeys f).get k = f k := by
  cases k <;> rfl

theorem eq_ofKeys {l : Limits} {f : LimitKey → Word} (h : ∀ k, l.get k = f k) : l = ofKeys f := by
  obtain ⟨ldv, lda, ldm, jmp⟩ := l
  rw [ofKeys, ← h .ldv, ← h .lda, ← h .ldm, ← h .jmp]
  rfl

end Limits

namespace Table

section Documents

abbrev LimitMember := Member LimitKey.name fun _ => Word

def writeLimit (_ : LimitKey) (max : Word) : Json := .ofNat max.toNat

-- The limits in either spelling; their keys may repeat here, and the reader refuses those.
structure LimitsValue where
  members : List LimitMember
  json : Json
  spelled : Spelling (LimitKey.all.map LimitKey.name) (members.map (Member.json writeLimit)) json

def opcodeMember (entry : Mnemonic × Word) : Text × Json := (entry.1.name, .ofNat entry.2.toNat)

@[reducible] def Value : Key → Type
  | .wordWidth => UInt32
  | .opcodeWidth => UInt32
  | .opcodes => { entries : List (Mnemonic × Word) // (entries.map (·.1)).Nodup }
  | .registers => List Text
  | .limits => LimitsValue

def writeValue : (k : Key) → Value k → Json
  | .wordWidth, w => .ofNat (UInt32.toNat w)
  | .opcodeWidth, w => .ofNat (UInt32.toNat w)
  | .opcodes, entries => .object (entries.1.map opcodeMember)
  | .registers, names => .array (List.map .string names)
  | .limits, v => LimitsValue.json v

abbrev TableMember := Member Key.name Value

def memberJson : TableMember → Text × Json := Member.json writeValue

-- The known keys of a member in the order of its text, those of the limits among them.
def keysOf : TableMember → List (Key ⊕ LimitKey)
  | .known .limits v => .inl .limits :: (v.members.filterMap Member.key?).map .inr
  | .known k _ => [.inl k]
  | .unknown _ _ _ => []

def overrideLimits (l : Limits) (members : List LimitMember) : Limits :=
  .ofKeys fun k => (given? members k).getD (l.get k)

def override (t : Table) (members : List TableMember) : Table where
  wordWidth := (given? members .wordWidth).getD t.wordWidth
  opcodeWidth := (given? members .opcodeWidth).getD t.opcodeWidth
  opcodes := (given? members .opcodes).elim t.opcodes fun entries => .insertAll .empty entries.1
  registers := (given? members .registers).getD t.registers
  limits := (given? members .limits).elim t.limits fun v => overrideLimits t.limits v.members

end Documents

namespace Reader

def Record.limits : Record LimitKey.name fun _ => Word where
  keys := LimitKey.all
  place := .part .limits
  slot := .limit
  object := .limits
  sequence := .limits
  write := writeLimit
  put t k max := { t with limits := t.limits.set k max }
  openObject _ _ := rfl
  openArray _ _ := rfl
  fresh k seen hk := by simp [Object.member, hk]
  repeated k seen hk := by simp [Object.member, hk]
  unknown key seen h := by simp only [Object.member, LimitKey.ofName?_eq_none h]
  next _ _ := rfl
  injective i k h := Option.some.inj (by rw [← LimitKey.ofName?_name, h, LimitKey.ofName?_name])

def putValue (t : Table) : (k : Key) → Value k → Table
  | .wordWidth, w => { t with wordWidth := w }
  | .opcodeWidth, w => { t with opcodeWidth := w }
  | .opcodes, entries => { t with opcodes := .insertAll .empty entries.1 }
  | .registers, names => { t with registers := names }
  | .limits, v => { t with limits := List.foldl (Member.apply Limits.set) t.limits v.members }

def Record.table : Record Key.name Value where
  keys := Key.all
  place := .document
  slot := .part
  object := .table
  sequence := .table
  write := writeValue
  put := putValue
  openObject _ _ := rfl
  openArray _ _ := rfl
  fresh k seen hk := by simp [Object.member, hk]
  repeated k seen hk := by simp [Object.member, hk]
  unknown key seen h := by simp only [Object.member, Key.ofName?_eq_none h]
  next _ _ := rfl
  injective i k h := Option.some.inj (by rw [← Key.ofName?_name, h, Key.ofName?_name])

variable {members : List TableMember} {t : Table}

theorem reads_limits (limits : List LimitMember) :
    Record.limits.Reads limits :=
  fun k max _ t => fills_limit t k max

theorem foldl_put_limits (limits : List LimitMember) (t : Table) :
    limits.foldl (Member.apply Record.limits.put) t =
      { t with limits := limits.foldl (Member.apply Limits.set) t.limits } := by
  induction limits generalizing t with
  | nil => rfl
  | cons m limits ih =>
      rw [List.foldl_cons, ih, List.foldl_cons]
      cases m <;> rfl

theorem fills_limits {v : LimitsValue} (hnodup : (v.members.filterMap Member.key?).Nodup)
    (t : Table) : Fills (.part .limits) v.json t (putValue t .limits v) := by
  have h := (reads_limits v.members).fills hnodup v.spelled t
  rwa [foldl_put_limits] at h

theorem reads_table
    (hlimits : ∀ v, .known .limits v ∈ members → (v.members.filterMap Member.key?).Nodup) :
    Record.table.Reads members := by
  intro k v hmem t
  cases k with
  | wordWidth => exact fills_wordWidth t v
  | opcodeWidth => exact fills_opcodeWidth t v
  | opcodes =>
      have h := gives_opcodes v.2 { t with opcodes := .empty } fun _ _ => rfl
      exact fills_object (fun _ => rfl) h
  | registers =>
      have h := lists_registers v { t with registers := [] }
      exact fills_array (fun _ => rfl) h
  | limits => exact fills_limits (hlimits v hmem) t

theorem foldl_set {limits : List LimitMember}
    (hnodup : (limits.filterMap Member.key?).Nodup) (l : Limits) :
    limits.foldl (Member.apply Limits.set) l = overrideLimits l limits := by
  induction limits generalizing l with
  | nil => exact Limits.eq_ofKeys fun _ => rfl
  | cons m limits ih =>
      cases m with
      | known i max =>
          obtain ⟨hi, hnodup⟩ := List.nodup_cons.mp hnodup
          refine (ih hnodup (l.set i max)).trans (Limits.eq_ofKeys fun k => ?_)
          rcases eq_or_ne k i with rfl | hne
          · simp [overrideLimits, given?_eq_none hi]
          · simp [overrideLimits, given?_cons_of_ne hne.symm, hne]
      | unknown key j hkey =>
          refine (ih hnodup l).trans (Limits.eq_ofKeys fun k => ?_)
          simp [overrideLimits]

theorem foldl_putValue (hnodup : (members.filterMap Member.key?).Nodup)
    (hlimits : ∀ v, .known .limits v ∈ members → (v.members.filterMap Member.key?).Nodup)
    (t : Table) : members.foldl (Member.apply putValue) t = override t members := by
  induction members generalizing t with
  | nil => rfl
  | cons m members ih =>
      have hlater : ∀ v, .known .limits v ∈ members → (v.members.filterMap Member.key?).Nodup :=
        fun v hv => hlimits v (List.mem_cons_of_mem m hv)
      cases m with
      | known k v =>
          obtain ⟨hk, hnodup⟩ := List.nodup_cons.mp hnodup
          have hnone : given? members k = none := given?_eq_none hk
          refine (ih hnodup hlater (putValue t k v)).trans ?_
          cases k with
          | limits =>
              have hset := foldl_set (hlimits v (by simp)) t.limits
              simp [override, putValue, given?_cons_of_ne, hnone, hset]
          | _ => simp [override, putValue, given?_cons_of_ne, hnone]
      | unknown key j hkey => exact ih hnodup hlater t

end Reader

end Table

end Assembler
