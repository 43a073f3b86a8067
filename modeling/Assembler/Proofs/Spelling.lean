import Assembler.Proofs.Override

namespace Assembler

namespace Json

inductive Form where
  | object
  | array
  deriving DecidableEq, Repr

def Form.json (members : List (Text × Json)) : Form → Json
  | .object => .object members
  | .array => .array (members.map (·.2))

end Json

namespace Limits

-- The first `j` limits of `l`, the others as in `defaults`.
def leading (l defaults : Limits) (j : Nat) : Limits where
  ldv := if 0 < j then l.ldv else defaults.ldv
  lda := if 1 < j then l.lda else defaults.lda
  ldm := if 2 < j then l.ldm else defaults.ldm
  jmp := if 3 < j then l.jmp else defaults.jmp

def leadingMembers (l : Limits) (j : Nat) : List (Text × Json) :=
  (LimitKey.all.take j).map fun i => (i.name, .ofNat (l.get i).toNat)

end Limits

namespace Table

-- The first `k` parts of `t`, of its limits the first `j`, the others as in `defaults`.
def leading (t defaults : Table) (k j : Nat) : Table where
  wordWidth := if 0 < k then t.wordWidth else defaults.wordWidth
  opcodeWidth := if 1 < k then t.opcodeWidth else defaults.opcodeWidth
  opcodes := if 2 < k then t.opcodes else defaults.opcodes
  registers := if 3 < k then t.registers else defaults.registers
  limits := if 4 < k then t.limits.leading defaults.limits j else defaults.limits

def leadingMembers (t : Table) (limits : Json) (k : Nat) : List (Text × Json) :=
  (Key.all.take k).map fun i => (i.name, if i = .limits then limits else t.part i)

@[simp] theorem Key.mem_all (k : Key) : k ∈ Key.all := by cases k <;> decide

section Given

variable {κ : Type} {name : κ → Text} {Value : κ → Type} {keys : List κ}

theorem filterMap_key?_known (keys : List κ) (v : (k : κ) → Value k) :
    (keys.map fun k => (.known k (v k) : Member name Value)).filterMap Member.key? = keys := by
  rw [List.filterMap_map]
  exact List.filterMap_some

theorem nodup_known (hnodup : keys.Nodup) (v : (k : κ) → Value k) (n : Nat) :
    (((keys.take n).map fun k => (.known k (v k) : Member name Value)).filterMap
      Member.key?).Nodup := by
  rw [filterMap_key?_known]
  exact (List.take_sublist n keys).nodup hnodup

theorem given?_known [DecidableEq κ] (hnodup : keys.Nodup) (v : (k : κ) → Value k) (n : Nat)
    {k : κ} (hk : k ∈ keys) :
    given? ((keys.take n).map fun k => (.known k (v k) : Member name Value)) k =
      if keys.idxOf k < n then some (v k) else none := by
  have hmem := List.mem_take_iff_idxOf_lt (n := n) hk
  split
  · rename_i hlt
    rw [given?_eq_some_iff (nodup_known hnodup v n)]
    exact List.mem_map_of_mem (hmem.mpr hlt)
  · rename_i hge
    apply given?_eq_none
    rwa [filterMap_key?_known, hmem]

theorem spelling_json {names : List Text} {members : List (Text × Json)}
    (h : members.map (·.1) <+: names) (form : Json.Form) :
    Spelling names members (form.json members) := by
  cases form with
  | object => exact .object
  | array => exact .array h

end Given

section Leading

def leadingLimits (l : Limits) (j : Nat) : List LimitMember :=
  (LimitKey.all.take j).map fun i => .known i (l.get i)

theorem map_json_leadingLimits (l : Limits) (j : Nat) :
    (leadingLimits l j).map (Member.json writeLimit) = l.leadingMembers j := by
  rw [leadingLimits, List.map_map]
  rfl

theorem overrideLimits_leading (defaults l : Limits) (j : Nat) :
    overrideLimits defaults (leadingLimits l j) = l.leading defaults j := by
  symm
  apply Limits.eq_ofKeys
  intro i
  rw [leadingLimits, given?_known (by decide) _ _ i.mem_all, apply_ite (Option.getD · _)]
  cases i <;> rfl

def limitsValue (l : Limits) (j : Nat) (form : Json.Form) : LimitsValue where
  members := leadingLimits l j
  json := form.json (l.leadingMembers j)
  spelled := by
    rw [map_json_leadingLimits]
    apply spelling_json
    rw [Limits.leadingMembers, List.map_map]
    exact (List.take_prefix j LimitKey.all).map _

def valueOf (t : Table) (limits : LimitsValue) : (i : Key) → Value i
  | .wordWidth => t.wordWidth
  | .opcodeWidth => t.opcodeWidth
  | .opcodes => ⟨t.opcodes.toList, t.opcodes.nodup_toList⟩
  | .registers => t.registers
  | .limits => limits

def leadingParts (t : Table) (limits : LimitsValue) (k : Nat) : List TableMember :=
  (Key.all.take k).map fun i => .known i (t.valueOf limits i)

theorem map_memberJson_leadingParts (t : Table) (limits : LimitsValue) (k : Nat) :
    (t.leadingParts limits k).map memberJson = t.leadingMembers limits.json k := by
  rw [leadingParts, List.map_map, leadingMembers]
  congr 1
  funext i
  cases i <;> rfl

theorem override_leading (t defaults : Table) (k j : Nat) (form : Json.Form) :
    override defaults (t.leadingParts (limitsValue t.limits j form) k) =
      t.leading defaults k j := by
  have hgiven : ∀ i, given? (t.leadingParts (limitsValue t.limits j form) k) i =
      if Key.all.idxOf i < k then some (t.valueOf (limitsValue t.limits j form) i) else none :=
    fun i => given?_known (by decide) _ _ i.mem_all
  simp only [override, leading, hgiven, Table.mk.injEq]
  refine ⟨apply_ite (Option.getD · _) _ _ _, apply_ite (Option.getD · _) _ _ _, ?_,
    apply_ite (Option.getD · _) _ _ _, ?_⟩
  · rw [apply_ite (Option.elim · _ _)]
    simp only [Option.elim, valueOf, OpcodeMap.insertAll_toList]
    rfl
  · rw [apply_ite (Option.elim · _ _)]
    simp only [Option.elim, valueOf, limitsValue, overrideLimits_leading]
    rfl

theorem Reader.fills_leading (t defaults : Table) (k j : Nat) (outer inner : Json.Form) :
    Fills .document (outer.json (t.leadingMembers (inner.json (t.limits.leadingMembers j)) k))
      defaults (t.leading defaults k j) := by
  have hkeys : ((t.leadingParts (limitsValue t.limits j inner) k).filterMap Member.key?).Nodup :=
    nodup_known (by decide) _ k
  have hlimits : ∀ v, .known .limits v ∈ t.leadingParts (limitsValue t.limits j inner) k →
      (v.members.filterMap Member.key?).Nodup := by
    intro v hv
    obtain ⟨i, -, hi⟩ := List.mem_map.mp hv
    cases hi
    exact nodup_known (by decide) _ j
  have hspelled : Spelling (Key.all.map Key.name)
      ((t.leadingParts (limitsValue t.limits j inner) k).map memberJson)
      (outer.json (t.leadingMembers (inner.json (t.limits.leadingMembers j)) k)) := by
    rw [map_memberJson_leadingParts]
    apply spelling_json
    rw [leadingMembers, List.map_map]
    exact (List.take_prefix k Key.all).map _
  rw [← override_leading t defaults k j inner, ← foldl_putValue hkeys hlimits]
  exact (reads_table hlimits).fills hkeys hspelled defaults

theorem map_part_eq_leadingMembers (t : Table) (k : Nat) :
    ((Key.all.take k).map fun i => (i.name, t.part i)) =
      t.leadingMembers (Json.Form.object.json (t.limits.leadingMembers 4)) k := by
  rw [leadingMembers]
  congr 1
  funext i
  cases i <;> rfl

end Leading

theorem read_ignores_spelling {style : Json.Style} (hs : style.Blank) (t : Table) (k : Nat) :
    (∀ form : Json.Form,
      read ((form.json ((Key.all.take k).map fun i => (i.name, t.part i))).render style 0) =
        .ok (t.leading .standard k 4)) ∧
    ∀ (j : Nat) (outer inner : Json.Form),
      read ((outer.json (t.leadingMembers (inner.json (t.limits.leadingMembers j)) k)).render
          style 0) =
        .ok (t.leading .standard k j) := by
  have hread (j : Nat) (outer inner : Json.Form) :=
    Reader.read_of_fills hs (Reader.fills_leading t .standard k j outer inner)
  refine ⟨fun form => ?_, hread⟩
  rw [map_part_eq_leadingMembers]
  exact hread 4 form .object

def sparse : Table where
  wordWidth := 7
  opcodeWidth := 0
  opcodes := OpcodeMap.empty.insert .ldv 9
  registers := [['"', '\\'], []]
  limits := ⟨1, 2, 3, 4⟩

theorem read_ignores_spelling_sparse :
    read (Json.array [.ofNat 7, .ofNat 0, .object [("LDV".toList, .ofNat 9)],
        .array [.string ['"', '\\'], .string []], .array [.ofNat 1, .ofNat 2]]).compact =
      .ok { sparse with limits := ⟨1, 2, 1023, 1023⟩ } ∧
    read (Json.array [.ofNat 7, .ofNat 0, .object [("LDV".toList, .ofNat 9)]]).compact =
      read (Json.object [("word_width".toList, .ofNat 7), ("opcode_width".toList, .ofNat 0),
        ("opcodes".toList, .object [("LDV".toList, .ofNat 9)])]).compact := by
  obtain ⟨-, hlimits⟩ := read_ignores_spelling Json.Style.blank_compact sparse 5
  obtain ⟨hforms, -⟩ := read_ignores_spelling Json.Style.blank_compact sparse 3
  exact ⟨hlimits 2 .array .array, (hforms .array).trans (hforms .object).symm⟩

end Table

end Assembler
