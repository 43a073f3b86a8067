import Assembler.Proofs.Command
import Assembler.Proofs.Reader

namespace Assembler

@[simp] theorem Text.ofBytes?_bytes (t : Text) : ofBytes? (bytes t) = some t := by
  have hutf8 : String.fromUTF8? (String.ofList t).toUTF8 = some (String.ofList t) := by
    rw [String.fromUTF8?, String.toUTF8_eq_toByteArray, dif_pos (String.ofList t).isValidUTF8]
    rfl
  rw [ofBytes?, bytes, Array.toArray_toList, hutf8, Option.map_some, String.toList_ofList]

namespace Table

theorem read_indented (t : Table) : read t.document.indented = .ok t :=
  read_render Json.Style.blank_indented t

theorem read_line_indented (t : Table) : read (CommandLine.lineOf t.document.indented) = .ok t :=
  read_render_append Json.Style.blank_indented t (List.forall_mem_singleton.mpr rfl)

end Table

namespace CommandLine

variable {f g : Folder} {table : Option Path} {M : Machine} {text : Text} {args : List Text}

theorem outcome_arch (h : Loads f table M) :
    outcome ⟨table, .arch⟩ f = (.ok (lineOf M.table.document.indented), f) := by
  rw [outcome, runInvocation, run_bind_ok (run_loadTable_of_loads h)]
  simp only [machineOf_table]
  rfl

theorem run_of_outcome {i : Invocation} (hargs : Invocation.ofArguments args = .ok i)
    (h : outcome i f = (.ok text, g)) :
    (run (m := StateM Folder) args).run f = (⟨0, text, []⟩, g) := by
  rw [outcome] at h
  simp only [run, hargs, StateT.run_bind, h]
  rfl

theorem run_arch (h : Loads f table M) (hargs : Invocation.ofArguments args = .ok ⟨table, .arch⟩) :
    (run (m := StateM Folder) args).run f = (⟨0, lineOf M.table.document.indented, []⟩, f) :=
  run_of_outcome hargs (outcome_arch h)

theorem printed_table_loads_back (M : Machine) :
    Table.load M.table.document.indented = .ok M.table ∧
    Table.load (lineOf M.table.document.indented) = .ok M.table ∧
    (∀ f table args, Loads f table M → Invocation.ofArguments args = .ok ⟨table, .arch⟩ →
      (run (m := StateM Folder) args).run f = (⟨0, lineOf M.table.document.indented, []⟩, f)) ∧
    ∀ (f : Folder) path args text,
      text = M.table.document.indented ∨ text = lineOf M.table.document.indented →
      f.read path = .ok (Text.bytes text) → Invocation.ofArguments args = .ok ⟨some path, .arch⟩ →
        (run (m := StateM Folder) args).run f = (⟨0, lineOf M.table.document.indented, []⟩, f) := by
  have hread := M.table.read_indented
  have hline := M.table.read_line_indented
  refine ⟨Table.load_of_read hread, Table.load_of_read hline, fun f table args => run_arch, ?_⟩
  intro f path args text htext hfile hargs
  have hholds : HoldsText f path text := ⟨_, hfile, Text.ofBytes?_bytes text⟩
  rcases htext with rfl | rfl
  · exact run_arch (.file hholds hread) hargs
  · exact run_arch (.file hholds hline) hargs

def bare : Machine := ⟨{ Table.reversed with registers := [] }, by decide +kernel⟩

def bareFolder : Folder := .ofFiles [(['t'], Text.bytes (lineOf bare.table.document.indented))]

theorem printed_table_loads_back_bare :
    bareFolder.read ['t'] = .ok (Text.bytes (lineOf bare.table.document.indented)) ∧
      Loads bareFolder (some ['t']) bare ∧
      (run (m := StateM Folder) ["--arch".toList, ['t'], "arch".toList]).run bareFolder =
        (⟨0, lineOf bare.table.document.indented, []⟩, bareFolder) ∧
      (run (m := StateM Folder) ["arch".toList, "--arch=t".toList]).run bareFolder =
        (⟨0, lineOf bare.table.document.indented, []⟩, bareFolder) := by
  have hread : ∀ content, (Folder.ofFiles [(['t'], content)]).read ['t'] = .ok content :=
    fun _ => rfl
  have hfile : bareFolder.read ['t'] =
      .ok (Text.bytes (lineOf bare.table.document.indented)) := hread _
  have hloads : Loads bareFolder (some ['t']) bare :=
    .file ⟨_, hfile, Text.ofBytes?_bytes _⟩ bare.table.read_line_indented
  obtain ⟨-, -, hrun, hrerun⟩ := printed_table_loads_back bare
  exact ⟨hfile, hloads, hrun _ _ _ hloads (by decide +kernel),
    hrerun _ _ _ _ (.inr rfl) hfile (by decide +kernel)⟩

end CommandLine

end Assembler
