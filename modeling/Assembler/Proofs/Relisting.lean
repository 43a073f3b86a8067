import Assembler.Proofs.Source

namespace Assembler

theorem Text.feed_notMem_of_mem_lines {line t : Text} (h : line ∈ lines t) : '\n' ∉ line := by
  obtain ⟨part, hpart, hsub⟩ := exists_line_of_mem_ofEnded h
  exact fun hfeed => notMem_of_mem_splitOn hpart (hsub '\n' hfeed)

theorem Text.mem_of_mem_trim {c : Char} {t : Text} (h : c ∈ trim t) : c ∈ t := by
  obtain ⟨lead, tail, -, -, ht⟩ := exists_trim t
  rw [ht]
  exact List.mem_append_left tail (List.mem_append_right lead h)

namespace Listing

variable {M : Machine} {source line kept s : Text} {n : Nat} {l : Listing}

theorem Uncommented.mem_line (h : Uncommented line kept) {c : Char} (hc : c ∈ kept) : c ∈ line := by
  cases h with
  | sharp => cases hc
  | semicolon => exact List.mem_append_left _ hc
  | plain => exact hc

theorem Holds.feed_notMem (h : Holds source n s) : '\n' ∉ s := by
  obtain ⟨ls, k, line, kept, hls, hline, -, hkept, -, rfl⟩ := h
  obtain rfl := Text.lined_iff.mp hls
  have hfeed := Text.feed_notMem_of_mem_lines (List.mem_of_getElem? hline)
  exact fun hmem => hfeed (hkept.mem_line (Text.mem_of_mem_trim hmem))

theorem Holds.trim_eq (h : Holds source n s) : Text.trim s = s := by
  obtain ⟨-, -, -, kept, -, -, -, -, -, rfl⟩ := h
  exact Text.trim_trim kept

theorem holds_of_mem_sources (h : ofSource M source = .ok l) (hs : s ∈ l.map (·.source)) :
    ∃ n, Holds source n s := by
  obtain ⟨e, he, rfl⟩ := List.mem_map.mp hs
  exact ⟨e.line, ((mem_ofSource h).mp he).1⟩

theorem mapM_encodeLine_sources (h : ofSource M source = .ok l) :
    (l.map (·.source)).mapM M.encodeLine = .ok (l.map (·.word)) := by
  rw [mapM_eq_ok_iff, List.forall₂_map_left_iff, List.forall₂_map_right_iff, List.forall₂_same]
  exact fun e he => ((mem_ofSource h).mp he).2

theorem map_trim_sources (h : ofSource M source = .ok l) :
    (l.map (·.source)).map Text.trim = l.map (·.source) := by
  refine (List.map_congr_left fun s hs => ?_).trans (List.map_id _)
  obtain ⟨n, hn⟩ := holds_of_mem_sources h hs
  exact hn.trim_eq

theorem listing_assembles_again (M : Machine) (source : Text) (l : Listing)
    (h : ofSource M source = .ok l) :
    ∃ l', ofSource M (List.intercalate ['\n'] (l.map (·.source))) = .ok l' ∧
      l'.map (·.line) = List.range' 1 l.length ∧ l'.map (·.source) = l.map (·.source) ∧
        l'.map (·.word) = l.map (·.word) := by
  have hfeed : ∀ s ∈ l.map (·.source), '\n' ∉ s := by
    intro s hs
    obtain ⟨n, hn⟩ := holds_of_mem_sources h hs
    exact hn.feed_notMem
  obtain ⟨l', hl', hlines, hsources, hwords⟩ :=
    ofSource_intercalate (mapM_encodeLine_sources h) hfeed
  rw [List.length_map] at hlines
  rw [map_trim_sources h] at hsources
  exact ⟨l', hl', hlines, hsources, hwords⟩

def scattered : Text := "# POP A\r\n\n\tldv A,\r5 ;#;\r\n  HLT\r".toList

theorem listing_assembles_again_scattered :
    ofSource .standard scattered =
        .ok [⟨3, "ldv A,\r5".toList, 0x0141⟩, ⟨4, "HLT".toList, 0x000D⟩] ∧
      ∃ l', ofSource .standard "ldv A,\r5\nHLT".toList = .ok l' ∧ l'.map (·.line) = [1, 2] ∧
        l'.map (·.source) = ["ldv A,\r5".toList, "HLT".toList] ∧
          l'.map (·.word) = [0x0141, 0x000D] := by
  have h : ofSource .standard scattered =
      .ok [⟨3, "ldv A,\r5".toList, 0x0141⟩, ⟨4, "HLT".toList, 0x000D⟩] := by decide +kernel
  exact ⟨h, listing_assembles_again .standard scattered _ h⟩

end Listing

end Assembler
