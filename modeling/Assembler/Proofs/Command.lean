import Assembler.CommandLine.Program
import Assembler.Proofs.Folder

namespace Assembler

namespace Listing

@[simp]
theorem bytes_cons (e : Entry) (l : Listing) : bytes (e :: l) = e.word.bytes ++ bytes l := rfl

@[simp] theorem length_bytes (l : Listing) : l.bytes.length = 2 * l.length := by
  induction l with
  | nil => rfl
  | cons e l ih =>
      simp [Word.bytes, ih]
      omega

@[simp] theorem ofBytes_bytes (l : Listing) : Word.ofBytes l.bytes = l.map (·.word) := by
  induction l with
  | nil => rfl
  | cons e l ih => simp [ih]

theorem getElem?_bytes {l : Listing} {k : Nat} {e : Entry} (h : l[k]? = some e) :
    ∃ low high, l.bytes[2 * k]? = some low ∧ l.bytes[2 * k + 1]? = some high ∧
      e.word.toNat = low.toNat + 256 * high.toNat := by
  induction l generalizing k with
  | nil => simp at h
  | cons first l ih =>
      cases k with
      | zero =>
          obtain rfl : first = e := by simpa using h
          have hlt := first.word.isLt
          refine ⟨_, _, rfl, rfl, ?_⟩
          simp only [UInt8.toNat_ofNat']
          omega
      | succ k => exact ih (by simpa using h)

end Listing

theorem Table.load_of_read {text : Text} {M : Machine} (h : read text = .ok M.table) :
    load text = .ok M.table := by
  simp only [load, h, M.checked]

namespace CommandLine

section Run

variable {α β : Type} {f g : Folder}

theorem run_bind (x : ExceptT Failure (StateM Folder) α)
    (k : α → ExceptT Failure (StateM Folder) β) (f : Folder) :
    (x >>= k).run.run f =
      match x.run.run f with
      | (.ok a, g) => (k a).run.run g
      | (.error failure, g) => (.error failure, g) := by
  rcases h : x.run.run f with ⟨r | r, g⟩
  · simp only [ExceptT.run_bind, StateT.run_bind, h]
    rfl
  · simp only [ExceptT.run_bind, StateT.run_bind, h]
    rfl

theorem run_bind_ok {x : ExceptT Failure (StateM Folder) α} {a : α}
    (h : x.run.run f = (.ok a, g)) (k : α → ExceptT Failure (StateM Folder) β) :
    (x >>= k).run.run f = (k a).run.run g := by
  rw [run_bind, h]

theorem run_bind_error {x : ExceptT Failure (StateM Folder) α} {failure : Failure}
    (h : x.run.run f = (.error failure, g)) (k : α → ExceptT Failure (StateM Folder) β) :
    (x >>= k).run.run f = (.error failure, g) := by
  rw [run_bind, h]

theorem run_lift (x : StateM Folder α) (f : Folder) :
    (liftM x : ExceptT Failure (StateM Folder) α).run.run f = (.ok (x.run f).1, (x.run f).2) := rfl

theorem run_read (f : Folder) (path : Path) :
    (FileStore.read (m := StateM Folder) path).run f = (f.read path, f) := rfl

theorem run_write_ok {path : Path} {content : List UInt8} (h : f.write path content = .ok g) :
    (FileStore.write (m := StateM Folder) path content).run f = (.ok (), g) := by
  simp only [FileStore.write, StateT.run, h]

theorem run_write_error {path : Path} {content : List UInt8} {e : FileError}
    (h : f.write path content = .error e) :
    (FileStore.write (m := StateM Folder) path content).run f = (.error e, f) := by
  simp only [FileStore.write, StateT.run, h]

end Run

def HoldsText (f : Folder) (path : Path) (t : Text) : Prop :=
  ∃ content, f.read path = .ok content ∧ Text.ofBytes? content = some t

inductive Unreadable (f : Folder) (path : Path) : Failure → Prop
  | file {e : FileError} (h : f.read path = .error e) :
      Unreadable f path ⟨s!"reading {String.ofList path}", [e.message]⟩
  | notText {content : List UInt8} (h : f.read path = .ok content)
      (ht : Text.ofBytes? content = none) :
      Unreadable f path
        ⟨s!"reading {String.ofList path}", ["stream did not contain valid UTF-8"]⟩

theorem run_readText_of_holdsText {f : Folder} {path : Path} {t : Text} (h : HoldsText f path t) :
    (readText (m := StateM Folder) path).run.run f = (.ok t, f) := by
  obtain ⟨content, hfile, htext⟩ := h
  rw [readText, run_bind, run_lift, run_read, hfile]
  simp only [htext]
  rfl

theorem run_readText (f : Folder) (path : Path) :
    (∃ t, HoldsText f path t ∧ (readText (m := StateM Folder) path).run.run f = (.ok t, f)) ∨
      ∃ failure, Unreadable f path failure ∧
        (readText (m := StateM Folder) path).run.run f = (.error failure, f) := by
  cases hfile : f.read path with
  | error e =>
      refine .inr ⟨_, .file hfile, ?_⟩
      rw [readText, run_bind, run_lift, run_read, hfile]
      rfl
  | ok content =>
      cases htext : Text.ofBytes? content with
      | none =>
          refine .inr ⟨_, .notText hfile htext, ?_⟩
          rw [readText, run_bind, run_lift, run_read, hfile]
          simp only [htext]
          rfl
      | some t =>
          have ht : HoldsText f path t := ⟨content, hfile, htext⟩
          exact .inl ⟨t, ht, run_readText_of_holdsText ht⟩

theorem run_writeFile (f : Folder) (path : Path) (content : List UInt8)
    (frame : Failure → Failure) :
    (∃ g, f.write path content = .ok g ∧
      (writeFile (m := StateM Folder) path content frame).run.run f = (.ok (), g)) ∨
      ∃ e, f.write path content = .error e ∧
        (writeFile (m := StateM Folder) path content frame).run.run f =
          (.error (frame (.ofText e.message)), f) := by
  rw [writeFile, run_bind, run_lift]
  cases hwrite : f.write path content with
  | ok g =>
      rw [run_write_ok hwrite]
      exact .inl ⟨g, rfl, rfl⟩
  | error e =>
      rw [run_write_error hwrite]
      exact .inr ⟨e, rfl, rfl⟩

inductive Loads (f : Folder) : Option Path → Machine → Prop
  | standard : Loads f none .standard
  | file {path : Path} {t : Text} {M : Machine} (h : HoldsText f path t)
      (hread : Table.read t = .ok M.table) : Loads f (some path) M

-- One case for each step that can fail before anything is written.
inductive Stops (f : Folder) (table : Option Path) (input : Path) : Failure → Prop
  | tableFile {path : Path} {failure : Failure} (htable : table = some path)
      (h : Unreadable f path failure) : Stops f table input failure
  | tableText {path : Path} {t : Text} {e : ReadError} (htable : table = some path)
      (h : HoldsText f path t) (hread : Table.read t = .error e) :
      Stops f table input ⟨s!"loading {String.ofList path}", [e.message, e.detail]⟩
  | tableCheck {path : Path} {t : Text} {u : Table} {e : TableError} (htable : table = some path)
      (h : HoldsText f path t) (hread : Table.read t = .ok u) (hcheck : u.check = .error e) :
      Stops f table input ⟨s!"loading {String.ofList path}", [e.message]⟩
  | inputFile {M : Machine} {failure : Failure} (hM : Loads f table M)
      (h : Unreadable f input failure) : Stops f table input failure
  | line {M : Machine} {t : Text} {e : SourceError} (hM : Loads f table M)
      (h : HoldsText f input t) (hsource : Listing.ofSource M t = .error e) :
      Stops f table input ⟨e.place, [e.cause.message]⟩

def Assembles (f : Folder) (table : Option Path) (input : Path) (l : Listing) : Prop :=
  ∃ M t, Loads f table M ∧ HoldsText f input t ∧ Listing.ofSource M t = .ok l

inductive Writes (f : Folder) (l : Listing) (output : Path) (listing : Option Path) :
    Except Failure Text × Folder → Prop
  | refused {e : FileError} (h : f.write output l.bytes = .error e) :
      Writes f l output listing
        (.error ⟨s!"writing {String.ofList output}", [e.message]⟩, f)
  | unlisted {g : Folder} (hlisting : listing = none) (h : f.write output l.bytes = .ok g) :
      Writes f l output listing (.ok [], g)
  | listingRefused {g : Folder} {path : Path} {e : FileError} (hlisting : listing = some path)
      (h : f.write output l.bytes = .ok g)
      (he : g.write path (Text.bytes l.document.indented) = .error e) :
      Writes f l output listing (.error ⟨e.message, []⟩, g)
  | listed {g k : Folder} {path : Path} (hlisting : listing = some path)
      (h : f.write output l.bytes = .ok g)
      (hk : g.write path (Text.bytes l.document.indented) = .ok k) :
      Writes f l output listing (.ok [], k)

theorem run_loadTable_of_loads {f : Folder} {table : Option Path} {M : Machine}
    (h : Loads f table M) :
    (loadTable (m := StateM Folder) table).run.run f = (.ok M.table, f) := by
  cases h with
  | standard => rfl
  | file h hread =>
      rw [loadTable, run_bind_ok (run_readText_of_holdsText h), Table.load_of_read hread]
      rfl

@[simp] theorem machineOf_table (M : Machine) : machineOf M.table = .ok M := by
  simp [machineOf, Except.mapError]

theorem run_loadTable (f : Folder) (table : Option Path) (input : Path) :
    (∃ M, Loads f table M ∧ (loadTable (m := StateM Folder) table).run.run f = (.ok M.table, f)) ∨
      ∃ failure, Stops f table input failure ∧
        (loadTable (m := StateM Folder) table).run.run f = (.error failure, f) := by
  cases table with
  | none => exact .inl ⟨.standard, .standard, rfl⟩
  | some path =>
      rcases run_readText f path with ⟨t, ht, hrun⟩ | ⟨failure, hfailure, hrun⟩
      · cases hread : Table.read t with
        | error e =>
            refine .inr ⟨_, .tableText rfl ht hread, ?_⟩
            rw [loadTable, run_bind_ok hrun, Table.load, hread]
            rfl
        | ok u =>
            cases hcheck : u.check with
            | error e =>
                refine .inr ⟨_, .tableCheck rfl ht hread hcheck, ?_⟩
                rw [loadTable, run_bind_ok hrun, Table.load, hread]
                simp only [hcheck]
                rfl
            | ok _ =>
                have hM : Loads f (some path) ⟨u, hcheck⟩ := .file ht hread
                exact .inl ⟨_, hM, run_loadTable_of_loads hM⟩
      · exact .inr ⟨failure, .tableFile rfl hfailure, run_bind_error hrun _⟩

theorem run_writeListing (f : Folder) (l : Listing) (output : Path) (listing : Option Path) :
    Writes f l output listing
      ((do writeListing (m := StateM Folder) l output listing; return []).run.run f) := by
  unfold writeListing
  rcases run_writeFile f output l.bytes (.within s!"writing {String.ofList output}") with
    ⟨g, hg, hrun⟩ | ⟨e, he, hrun⟩
  · rw [bind_assoc, run_bind_ok hrun]
    cases listing with
    | none => exact .unlisted rfl hg
    | some path =>
        rcases run_writeFile g path (Text.bytes l.document.indented) id with
          ⟨k, hk, hrun⟩ | ⟨e, he, hrun⟩
        · rw [run_bind_ok hrun]
          exact .listed rfl hg hk
        · rw [run_bind_error hrun]
          exact .listingRefused rfl hg he
  · rw [bind_assoc, run_bind_error hrun]
    exact .refused he

def outcome (i : Invocation) (f : Folder) : Except Failure Text × Folder :=
  (runInvocation (m := StateM Folder) i).run.run f

theorem outcome_assemble (f : Folder) (table : Option Path) (input output : Path)
    (listing : Option Path) :
    (∃ failure, Stops f table input failure ∧
      outcome ⟨table, .assemble input output listing⟩ f = (.error failure, f)) ∨
      ∃ l, Assembles f table input l ∧
        Writes f l output listing (outcome ⟨table, .assemble input output listing⟩ f) := by
  rw [outcome, runInvocation]
  rcases run_loadTable f table input with ⟨M, hM, hrun⟩ | ⟨failure, hfailure, hrun⟩
  · rw [run_bind_ok hrun]
    simp only [machineOf_table, runCommand, assembleFile]
    rcases run_readText f input with ⟨t, ht, hrun⟩ | ⟨failure, hfailure, hrun⟩
    · rw [bind_assoc, run_bind_ok hrun]
      cases hsource : Listing.ofSource M t with
      | error e => exact .inl ⟨_, .line hM ht hsource, rfl⟩
      | ok l => exact .inr ⟨l, ⟨M, t, hM, ht, hsource⟩, run_writeListing f l output listing⟩
    · rw [bind_assoc, run_bind_error hrun]
      exact .inl ⟨failure, .inputFile hM hfailure, rfl⟩
  · rw [run_bind_error hrun]
    exact .inl ⟨failure, hfailure, rfl⟩

theorem assemble_writes_words_or_nothing (f : Folder) (table : Option Path) (input output : Path)
    (listing : Option Path) :
    (∃ failure, Stops f table input failure ∧
      outcome ⟨table, .assemble input output listing⟩ f = (.error failure, f)) ∨
    ∃ l, Assembles f table input l ∧
      Writes f l output listing (outcome ⟨table, .assemble input output listing⟩ f) ∧
      (∀ g, f.write output l.bytes = .ok g → f.Wrote output l.bytes g) ∧
      (∀ k e, l[k]? = some e → ∃ low high, l.bytes[2 * k]? = some low ∧
        l.bytes[2 * k + 1]? = some high ∧ e.word.toNat = low.toNat + 256 * high.toNat) ∧
      l.bytes.length = 2 * l.length ∧ Word.ofBytes l.bytes = l.map (·.word) := by
  rcases outcome_assemble f table input output listing with hstop | ⟨l, hl, hwrites⟩
  · exact .inl hstop
  · exact .inr ⟨l, hl, hwrites, fun _ => Folder.wrote_of_write,
      fun _ _ => Listing.getElem?_bytes, l.length_bytes, l.ofBytes_bytes⟩

def oneLine : Folder := .ofFiles [(['s'], Text.bytes "POP B ; last".toList)]

def oneLineDone : Folder := oneLine.insert ⟨.above 0, [['o']]⟩ [0x1B, 0x00]

theorem assemble_writes_words_or_nothing_oneLine :
    outcome ⟨none, .assemble ['s'] ['o'] none⟩ oneLine = (.ok [], oneLineDone) ∧
      ∃ l, Assembles oneLine none ['s'] l ∧ oneLine.Wrote ['o'] l.bytes oneLineDone ∧
        l.bytes = [0x1B, 0x00] ∧ l.map (·.word) = [0x001B] := by
  have hrun : outcome ⟨none, .assemble ['s'] ['o'] none⟩ oneLine = (.ok [], oneLineDone) := by
    decide +kernel
  have hread : oneLineDone.read ['o'] = .ok [0x1B, 0x00] := by decide +kernel
  refine ⟨hrun, ?_⟩
  rcases assemble_writes_words_or_nothing oneLine none ['s'] ['o'] none with
    ⟨failure, -, hfailure⟩ | ⟨l, hl, hwrites, hwrote, -, -, hwords⟩
  · rw [hrun] at hfailure
    cases hfailure
  · rw [hrun] at hwrites
    cases hwrites with
    | unlisted _ hwrite =>
        have hdone := hwrote oneLineDone hwrite
        have hbytes : l.bytes = [0x1B, 0x00] := Except.ok.inj (hdone.read.symm.trans hread)
        rw [hbytes] at hwords
        exact ⟨l, hl, hdone, hbytes, hwords.symm⟩
    | listed hlisting => cases hlisting

end CommandLine

end Assembler
