import Assembler.Proofs.Override

namespace Assembler

namespace OpcodeMap

variable {entries entries' : List (Mnemonic × Word)}

theorem get?_insertAll_empty (hnodup : (entries.map (·.1)).Nodup) {m : Mnemonic} {w : Word} :
    (empty.insertAll entries).get? m = some w ↔ (m, w) ∈ entries := by
  constructor
  · intro h
    rcases em (m ∈ entries.map (·.1)) with hm | hm
    · obtain ⟨⟨m, v⟩, hv, rfl⟩ := List.mem_map.mp hm
      obtain rfl := Option.some.inj ((get?_insertAll_of_mem empty hnodup hv).symm.trans h)
      exact hv
    · rw [get?_insertAll_of_notMem empty hm] at h
      cases h
  · exact get?_insertAll_of_mem empty hnodup

theorem insertAll_perm (h : entries.Perm entries') (hnodup : (entries.map (·.1)).Nodup) :
    empty.insertAll entries' = empty.insertAll entries := by
  have hnodup' : (entries'.map (·.1)).Nodup := (h.map _).nodup_iff.mp hnodup
  refine OpcodeMap.ext (funext fun m => Option.ext fun w => ?_)
  rw [get?_insertAll_empty hnodup, get?_insertAll_empty hnodup', h.mem_iff]

end OpcodeMap

namespace Table

namespace Reader

variable {t t' : Table} {members rest : List (Text × Json)} {e : ReadError}

theorem eq_opcodes_of_member {key : Text} {slot : Slot} {o : Object}
    (h : Object.opcodes.member key = .ok (slot, o)) : o = .opcodes := by
  simp only [Object.member] at h
  split at h
  · cases h
  · cases h
    rfl

theorem Gives.stops_opcodes (h : Gives .opcodes t members t') (hrest : Stops .opcodes t' rest e) :
    Stops .opcodes t (members ++ rest) e := by
  generalize ho : Object.opcodes = o at h
  induction h with
  | nil =>
      subst ho
      exact hrest
  | cons hmember hvalue _ ih =>
      subst ho
      obtain rfl := eq_opcodes_of_member hmember
      exact .later hmember hvalue (ih hrest rfl)

theorem fails_opcode {m : Mnemonic} (h : t.opcodes.contains m = true) (w : Word) :
    Fails (.opcode m) (.ofNat w.toNat) t (.duplicateMnemonic m) := by
  apply fails_scalar rfl
  intro stack
  simp [value, h]

theorem fails_opcodes {earlier : List (Mnemonic × Word)} (hnodup : (earlier.map (·.1)).Nodup)
    {m : Mnemonic} (hm : m ∈ earlier.map (·.1)) (w : Word) (rest : List (Text × Json)) (t : Table) :
    Fails (.part .opcodes) (.object (earlier.map opcodeMember ++ opcodeMember (m, w) :: rest)) t
      (.duplicateMnemonic m) := by
  have hgives := gives_opcodes hnodup { t with opcodes := .empty } fun _ _ => rfl
  have hmember : Object.opcodes.member m.name = .ok (.opcode m, .opcodes) := by
    simp [Object.member]
  have hcontains : (OpcodeMap.empty.insertAll earlier).contains m = true := by
    obtain ⟨⟨m, v⟩, hv, rfl⟩ := List.mem_map.mp hm
    rw [OpcodeMap.contains, OpcodeMap.get?_insertAll_of_mem _ hnodup hv]
    rfl
  exact fails_object (fun _ => rfl)
    (hgives.stops_opcodes (.value hmember (fails_opcode hcontains w)))

end Reader

section Surroundings

variable {style : Json.Style} {before after : List TableMember}
  {entries earlier : List (Mnemonic × Word)} {rest following : List (Text × Json)} {j : Json}

-- A table with this object of opcodes after the members `before`.
def Surrounds (before : List TableMember) (opcodes following : List (Text × Json)) : Json → Prop :=
  Spelling (Key.all.map Key.name)
    (before.map memberJson ++ (Key.opcodes.name, .object opcodes) :: following)

theorem override_cons_opcodes (t : Table) (v : Value .opcodes) (members : List TableMember) :
    override t (.known .opcodes v :: members) =
      { override t members with opcodes := .insertAll .empty v.1 } := by
  simp [override, given?_cons_of_ne]

theorem read_opcodes (hs : style.Blank)
    (hkeys : (.inl .opcodes :: (before ++ after).flatMap keysOf).Nodup)
    (hnodup : (entries.map (·.1)).Nodup)
    (hj : Surrounds before (entries.map opcodeMember) (after.map memberJson) j) :
    read (j.render style 0) =
      .ok { override .standard (before ++ after) with opcodes := .insertAll .empty entries } := by
  let member : TableMember := .known .opcodes ⟨entries, hnodup⟩
  have hperm : (before ++ member :: after).Perm (member :: (before ++ after)) := List.perm_middle
  have hall : ((before ++ member :: after).flatMap keysOf).Nodup :=
    (hperm.flatMap_right keysOf).nodup_iff.mpr hkeys
  have hspelled : Spelling (Key.all.map Key.name)
      ((before ++ member :: after).map memberJson) j := by
    rw [List.map_append, List.map_cons]
    exact hj
  rw [← override_cons_opcodes .standard ⟨entries, hnodup⟩, ← override_perm hperm hall]
  exact Reader.read_of_fills hs (Reader.fills_override hall hspelled _)

theorem read_opcodes_repeated (hs : style.Blank)
    (hkeys : (.inl .opcodes :: before.flatMap keysOf).Nodup)
    (hnodup : (earlier.map (·.1)).Nodup) {m : Mnemonic} (hm : m ∈ earlier.map (·.1)) {w : Word}
    (hj : Surrounds before (earlier.map opcodeMember ++ opcodeMember (m, w) :: rest) following j) :
    read (j.render style 0) = .error (.duplicateMnemonic m) := by
  obtain ⟨hopcodes, hbefore⟩ := List.nodup_cons.mp hkeys
  have hreads := Reader.reads_table (nodup_limits_of_nodup hbefore)
  have hfails := Reader.fails_opcodes hnodup hm w rest
  exact Reader.read_of_fails hs (hreads.fails_value (nodup_keys_of_nodup hbefore)
    (fun h => hopcodes (inl_mem_keys.mpr h)) hfails hj _)

end Surroundings

theorem opcodes_read_exactly {style : Json.Style} (hs : style.Blank)
    (before after : List TableMember)
    (hkeys : (.inl .opcodes :: (before ++ after).flatMap keysOf).Nodup)
    (entries : List (Mnemonic × Word)) :
    ((entries.map (·.1)).Nodup →
      ∃ map : OpcodeMap, (∀ m w, map.get? m = some w ↔ (m, w) ∈ entries) ∧
        ∀ entries' j, entries.Perm entries' →
          Surrounds before (entries'.map opcodeMember) (after.map memberJson) j →
          read (j.render style 0) =
            .ok { override .standard (before ++ after) with opcodes := map }) ∧
    (¬(entries.map (·.1)).Nodup →
      ∃ m, FirstRepeat (entries.map (·.1)) m ∧
        ∀ j, Surrounds before (entries.map opcodeMember) (after.map memberJson) j →
          read (j.render style 0) = .error (.duplicateMnemonic m)) ∧
    (∀ (earlier : List (Mnemonic × Word)) m w rest following j, (earlier.map (·.1)).Nodup →
      m ∈ earlier.map (·.1) →
      Surrounds before (earlier.map opcodeMember ++ opcodeMember (m, w) :: rest) following j →
        read (j.render style 0) = .error (.duplicateMnemonic m)) ∧
    ∀ m, ReadError.detail (.duplicateMnemonic m) =
      "Mnemonic " ++ String.ofList m.name ++ " appears more than once" := by
  have hbefore : (.inl .opcodes :: before.flatMap keysOf).Nodup := by
    rw [List.flatMap_append] at hkeys
    exact ((List.sublist_append_left _ _).cons_cons _).nodup hkeys
  refine ⟨fun hnodup => ?_, fun hnodup => ?_, ?_, fun m => rfl⟩
  · refine ⟨.insertAll .empty entries, fun m w => OpcodeMap.get?_insertAll_empty hnodup, ?_⟩
    intro entries' j hperm hj
    rw [← OpcodeMap.insertAll_perm hperm hnodup]
    exact read_opcodes hs hkeys ((hperm.map _).nodup_iff.mp hnodup) hj
  · obtain ⟨m, hm⟩ := exists_firstRepeat hnodup
    refine ⟨m, hm, fun j hj => ?_⟩
    obtain ⟨names, names', hsplit, hnames, hmem⟩ := hm
    obtain ⟨earlier, more, rfl, rfl, hmore⟩ := List.map_eq_append_iff.mp hsplit
    obtain ⟨⟨m, w⟩, later, rfl, rfl, -⟩ := List.map_eq_cons_iff.mp hmore
    rw [List.map_append, List.map_cons] at hj
    exact read_opcodes_repeated hs hbefore hnames hmem hj
  · intro earlier m w rest following j hnodup hm hj
    exact read_opcodes_repeated hs hbefore hnodup hm hj

def twoOpcodes : List (Mnemonic × Word) := [(.ldv, 7), (.pop, 7)]

theorem opcodes_read_exactly_two :
    (∃ map : OpcodeMap, map.get? .pop = some 7 ∧ map.get? .hlt = none ∧
      read ((Json.object ([note, jumpFirst].map memberJson ++
          (Key.opcodes.name, .object (twoOpcodes.reverse.map opcodeMember)) ::
            [.known .registers []].map memberJson)).render .indented 0) =
        .ok { override .standard [note, jumpFirst, .known .registers []] with opcodes := map }) ∧
    read ((Json.array [.ofNat 16, .ofNat 4,
        .object (twoOpcodes.map opcodeMember ++ opcodeMember (.pop, 8) :: [(['X'], .null)]),
          .null]).render .compact 0) =
      .error (.duplicateMnemonic .pop) := by
  constructor
  · obtain ⟨hdistinct, -⟩ := opcodes_read_exactly Json.Style.blank_indented
      [note, jumpFirst] [.known .registers []] (by decide) twoOpcodes
    obtain ⟨map, hmap, hread⟩ := hdistinct (by decide)
    refine ⟨map, (hmap .pop 7).mpr (by decide), ?_, ?_⟩
    · rw [Option.eq_none_iff_forall_ne_some]
      intro w hw
      simpa [twoOpcodes] using (hmap .hlt w).mp hw
    · exact hread _ _ (List.reverse_perm twoOpcodes).symm .object
  · obtain ⟨-, -, hrepeated, -⟩ := opcodes_read_exactly Json.Style.blank_compact
      [.known .wordWidth 16, .known .opcodeWidth 4] [] (by decide) []
    refine hrepeated twoOpcodes .pop 8 [(['X'], .null)] [(Key.registers.name, .null)] _
      (by decide) (by decide) ?_
    exact .array (by decide)

end Table

end Assembler
