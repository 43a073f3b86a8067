import Mathlib
import Assembler.Folder
import Assembler.Lookup

namespace Assembler.Folder

variable {f g : Folder} {p q : Place} {path : Path} {content : List UInt8}

@[simp] theorem get?_insert (f : Folder) (p : Place) (content : List UInt8) (q : Place) :
    (f.insert p content).get? q = if q = p then some content else f.get? q :=
  lookup_cons_filter_ne f.files p content q

theorem isFolder_insert (h : f.isFolder q = true) (p : Place) (content : List UInt8) :
    (f.insert p content).isFolder q = true := by
  simp only [isFolder, Bool.or_eq_true, List.any_eq_true] at h ⊢
  rcases h with hroot | ⟨file, hfile, hinside⟩
  · exact .inl hroot
  · right
    by_cases hp : file.1 = p
    · exact ⟨(p, content), by simp [insert], hp ▸ hinside⟩
    · exact ⟨file, by simp [insert, hfile, hp], hinside⟩

theorem entry_eq_folder_iff : f.entry p = .folder ↔
    p.names.getLast?.any (255 < ·.byteSize) = false ∧ f.get? p = none ∧ f.isFolder p = true := by
  rw [entry]
  split
  · simp_all
  · cases f.get? p <;> simp_all

theorem entry_insert (h : f.entry q = .folder) (hne : q ≠ p) (content : List UInt8) :
    (f.insert p content).entry q = .folder := by
  obtain ⟨hname, hnone, hfolder⟩ := entry_eq_folder_iff.mp h
  refine entry_eq_folder_iff.mpr ⟨hname, ?_, isFolder_insert hfolder p content⟩
  simpa [hne] using hnone

theorem walk_insert {start : Place} {steps : List Step} (hp : f.entry p ≠ .folder)
    (h : f.walk start steps = .ok q) (content : List UInt8) :
    (f.insert p content).walk start steps = .ok q := by
  induction steps generalizing start with
  | nil => exact h
  | cons s rest ih =>
      rw [walk] at h ⊢
      cases hentry : f.entry start with
      | folder =>
          -- The way leads through folders only, so it never passes the place written to.
          have hne : start ≠ p := by
            rintro rfl
            exact hp hentry
          rw [hentry] at h
          rw [entry_insert hentry hne]
          exact ih h
      | file c => simp [hentry] at h
      | nothing => simp [hentry] at h
      | longName => simp [hentry] at h

theorem follow_insert (hp : f.entry p ≠ .folder) (h : f.follow path = .ok q)
    (content : List UInt8) : (f.insert p content).follow path = .ok q := by
  rw [follow] at h ⊢
  split
  · simp_all
  · split
    · simp_all
    · simp_all [walk_insert]

theorem entry_insert_self (h : f.entry p ≠ .longName) (content : List UInt8) :
    (f.insert p content).entry p = .file content := by
  rw [entry] at h ⊢
  split
  · simp_all
  · simp

theorem write_eq_ok_iff : f.write path content = .ok g ↔ ∃ p, f.follow path = .ok p ∧
    path.endsInSlash = false ∧ (f.entry p = .nothing ∨ ∃ old, f.entry p = .file old) ∧
      g = f.insert p content := by
  rw [write]
  cases f.follow path with
  | error e => simp [bind, Except.bind]
  | ok p =>
      cases path.endsInSlash with
      | true => simp [bind, Except.bind, throw, throwThe, MonadExceptOf.throw]
      | false =>
          cases hentry : f.entry p <;>
            simp [bind, Except.bind, throw, throwThe, MonadExceptOf.throw, pure, Except.pure,
              hentry, eq_comm]

theorem read_eq_ok (hfollow : f.follow path = .ok p) (hslash : path.endsInSlash = false)
    (hentry : f.entry p = .file content) : f.read path = .ok content := by
  simp [read, hfollow, hslash, hentry, bind, Except.bind, pure, Except.pure]

structure Wrote (f : Folder) (path : Path) (content : List UInt8) (g : Folder) : Prop where
  read : g.read path = .ok content
  frame : ∃ p, f.follow path = .ok p ∧ g.get? p = some content ∧ ∀ q ≠ p, g.get? q = f.get? q

theorem wrote_of_write (h : f.write path content = .ok g) : f.Wrote path content g := by
  obtain ⟨p, hfollow, hslash, hentry, rfl⟩ := write_eq_ok_iff.mp h
  have hplain : f.entry p ≠ .folder ∧ f.entry p ≠ .longName := by
    rcases hentry with hnothing | ⟨old, hfile⟩
    · simp [hnothing]
    · simp [hfile]
  refine ⟨?_, p, hfollow, ?_, ?_⟩
  · exact read_eq_ok (follow_insert hplain.1 hfollow content) hslash
      (entry_insert_self hplain.2 content)
  · simp
  · intro q hq
    simp [hq]

end Assembler.Folder
