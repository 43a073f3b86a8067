import Assembler.Listing
import Assembler.Proofs.Instruction
import Assembler.Proofs.Expansion
import Assembler.Proofs.Result

namespace Assembler

namespace Text

theorem ofEnded_cons (line : Text) {rest : List Text} (h : rest ≠ []) :
    ofEnded (line :: rest) = dropReturn line :: ofEnded rest := by
  cases rest with
  | nil => exact absurd rfl h
  | cons next rest => rfl

theorem map_trim_ofEnded {ls : List Text} (h : ∀ line ∈ ls, line ≠ []) :
    (ofEnded ls).map trim = ls.map trim := by
  induction ls with
  | nil => rfl
  | cons line ls ih =>
      by_cases hls : ls = []
      · subst hls
        have hne : line.isEmpty = false := List.isEmpty_eq_false_iff.mpr (h line (by simp))
        simp [ofEnded, hne]
      · rw [ofEnded_cons line hls, List.map_cons, List.map_cons, trim_dropReturn,
          ih fun other hother => h other (List.mem_cons_of_mem _ hother)]

theorem exists_line_of_mem_ofEnded {ls : List Text} {line : Text} (h : line ∈ ofEnded ls) :
    ∃ original ∈ ls, ∀ c ∈ line, c ∈ original := by
  induction ls with
  | nil => cases h
  | cons first ls ih =>
      by_cases hls : ls = []
      · subst hls
        rw [ofEnded] at h
        split at h
        · cases h
        · obtain rfl : line = first := by simpa using h
          exact ⟨line, by simp, fun _ hc => hc⟩
      · rw [ofEnded_cons first hls, List.mem_cons] at h
        rcases h with rfl | h
        · exact ⟨first, by simp, fun _ hc => mem_of_mem_dropReturn hc⟩
        · obtain ⟨original, horiginal, hsub⟩ := ih h
          exact ⟨original, List.mem_cons_of_mem _ horiginal, hsub⟩

theorem lines_intercalate {ls : List Text} (h : ∀ line ∈ ls, '\n' ∉ line) :
    lines (List.intercalate ['\n'] ls) = ofEnded ls := by
  by_cases hls : ls = []
  · subst hls
    rfl
  · rw [lines, List.splitOn_intercalate '\n' h hls]

end Text

namespace Listing

variable {M : Machine} {line : Text} {w : Word}

theorem code_eq_trim (h : ∀ c ∈ line, Text.isBlank c = true ∨ c = ',' ∨ Text.isCode c = true) :
    code line = Text.trim line := by
  have hplain : ∀ c ∈ line, c ≠ ';' ∧ c ≠ '#' := by
    intro c hc
    constructor
    · rintro rfl
      exact absurd (h ';' hc) (by decide)
    · rintro rfl
      exact absurd (h '#' hc) (by decide)
  have hhead : (Text.trimStart line).head? ≠ some '#' := by
    intro hsharp
    have hmem : '#' ∈ Text.trimStart line := List.mem_of_head? hsharp
    exact (hplain '#' ((List.dropWhile_sublist _).subset hmem)).2 rfl
  rw [code, withoutComment, if_neg hhead, Text.upTo_of_notMem fun h => (hplain ';' h).1 rfl]

theorem ofLines_cons (h : M.encodeLine (code line) = .ok w) (n : Nat) (rest : List Text) :
    ofLines M n (line :: rest) = (ofLines M (n + 1) rest).map (⟨n, code line, w⟩ :: ·) := by
  obtain ⟨i, hi, hw⟩ := Machine.encodeLine_eq_ok_iff.mp h
  simp only [ofLines, hi, hw]

theorem ofLines_of_forall₂ {ls : List Text} {ws : List Word}
    (h : List.Forall₂ (fun line w => M.encodeLine (code line) = .ok w) ls ws) (n : Nat) :
    ∃ l, ofLines M n ls = .ok l ∧ l.map (·.line) = List.range' n ls.length ∧
      l.map (·.source) = ls.map code ∧ l.map (·.word) = ws := by
  induction h generalizing n with
  | nil => exact ⟨[], rfl, rfl, rfl, rfl⟩
  | @cons line w ls ws hw _ ih =>
      obtain ⟨l, hl, hlines, hsources, hwords⟩ := ih (n + 1)
      refine ⟨⟨n, code line, w⟩ :: l, ?_, ?_, ?_, ?_⟩
      · rw [ofLines_cons hw, hl]
        rfl
      · rw [List.map_cons, hlines, List.length_cons, List.range'_succ]
      · rw [List.map_cons, List.map_cons, hsources]
      · rw [List.map_cons, hwords]

end Listing

theorem Machine.ne_nil_of_encodeLine {M : Machine} {line : Text} {w : Word}
    (h : M.encodeLine line = .ok w) : line ≠ [] := by
  rintro rfl
  cases h

namespace Listing

variable {M : Machine} {ls : List Text}

theorem map_code_ofEnded (h : ∀ line ∈ ls, ∃ w, M.encodeLine line = .ok w) :
    (Text.ofEnded ls).map code = ls.map Text.trim := by
  have hcode : ∀ line ∈ Text.ofEnded ls, code line = Text.trim line := by
    intro line hline
    obtain ⟨original, horiginal, hsub⟩ := Text.exists_line_of_mem_ofEnded hline
    obtain ⟨w, hw⟩ := h original horiginal
    exact code_eq_trim fun c hc => Machine.encodeLine_chars hw c (hsub c hc)
  have hne : ∀ line ∈ ls, line ≠ [] := by
    intro line hline
    obtain ⟨w, hw⟩ := h line hline
    exact Machine.ne_nil_of_encodeLine hw
  rw [List.map_congr_left hcode, Text.map_trim_ofEnded hne]

theorem ofSource_intercalate {ws : List Word} (h : ls.mapM M.encodeLine = .ok ws)
    (hfeed : ∀ line ∈ ls, '\n' ∉ line) :
    ∃ l, ofSource M (List.intercalate ['\n'] ls) = .ok l ∧
      l.map (·.line) = List.range' 1 ls.length ∧ l.map (·.source) = ls.map Text.trim ∧
        l.map (·.word) = ws := by
  have hcodes := map_code_ofEnded (exists_of_mapM_eq_ok h)
  have hlength : (Text.ofEnded ls).length = ls.length := by
    simpa using congrArg List.length hcodes
  have htrimmed : List.Forall₂ (fun source w => M.encodeLine source = .ok w)
      (ls.map Text.trim) ws := by
    rw [List.forall₂_map_left_iff]
    simpa only [Machine.encodeLine_trim] using mapM_eq_ok_iff.mp h
  rw [← hcodes, List.forall₂_map_left_iff] at htrimmed
  rw [ofSource, Text.lines_intercalate hfeed, ← hlength, ← hcodes]
  exact ofLines_of_forall₂ htrimmed 1

end Listing

theorem Expansion.assemble_eq_ok_iff {M : Machine} {e : Expansion} {used : List Text}
    {ws : List Word} : e.assemble M used = .ok ws ↔
      ∃ ls, e.expand M.table used = .ok ls ∧ ls.mapM M.encodeLine = .ok ws := by
  rw [assemble]
  cases e.expand M.table used <;> simp

theorem Expansion.assemble_agrees_with_source (M : Machine) (e : Expansion) (used : List Text)
    (ws : List Word) (h : e.assemble M used = .ok ws) :
    ∃ ls, e.expand M.table used = .ok ls ∧ ((∀ line ∈ ls, '\n' ∉ line) →
      ∃ l, Listing.ofSource M (List.intercalate ['\n'] ls) = .ok l ∧
        l.map (·.line) = List.range' 1 ls.length ∧ l.map (·.source) = ls.map Text.trim ∧
          l.map (·.word) = ws) := by
  obtain ⟨ls, hls, hws⟩ := assemble_eq_ok_iff.mp h
  exact ⟨ls, hls, fun hfeed => Listing.ofSource_intercalate hws hfeed⟩

def Expansion.returnEnded : Expansion :=
  (ofTemplates [" ldv \x7bT\x7d,\t5\r".toList, "HLT".toList]).declare ['T']

theorem Expansion.assemble_agrees_with_source_returnEnded :
    returnEnded.assemble Machine.standard [] = .ok [0x0141, 0x000D] ∧
      ∃ l, Listing.ofSource Machine.standard " ldv A,\t5\r\nHLT".toList = .ok l ∧
        l.map (·.line) = [1, 2] ∧ l.map (·.source) = ["ldv A,\t5".toList, "HLT".toList] ∧
          l.map (·.word) = [0x0141, 0x000D] := by
  have h : returnEnded.assemble Machine.standard [] = .ok [0x0141, 0x000D] := by decide +kernel
  have hexpand : returnEnded.expand Machine.standard.table [] =
      .ok [" ldv A,\t5\r".toList, "HLT".toList] := by decide +kernel
  obtain ⟨ls, hls, hall⟩ := assemble_agrees_with_source Machine.standard returnEnded [] _ h
  obtain rfl := Except.ok.inj (hexpand.symm.trans hls)
  exact ⟨h, hall (by decide +kernel)⟩

end Assembler
