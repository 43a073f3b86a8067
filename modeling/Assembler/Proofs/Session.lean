import Assembler.Session
import Assembler.Proofs.Declaration

namespace Assembler.Session

open Expansion (Declaration declared binds scratches)

variable {s s' s'' : Session} {r : Request} {rs : List Request} {e : TableError}

section Parts

inductive Part where
  | table
  | expansion
  | used
  deriving DecidableEq, Repr

def Part.Agree : Part → Session → Session → Prop
  | .table, s, s' => s.table = s'.table
  | .expansion, s, s' => s.expansion = s'.expansion
  | .used, s, s' => s.used = s'.used

def Request.part? : Request → Option Part
  | .setWidths _ _ | .setOpcode _ _ | .removeOpcode _ | .setRegisters _ | .setLimit _ _ =>
      some .table
  | .begin _ | .bind _ _ | .declare _ => some .expansion
  | .use _ => some .used
  | _ => none

variable {p : Part}

theorem Part.Agree.refl (p : Part) (s : Session) : p.Agree s s := by
  cases p <;> rfl

theorem Part.Agree.symm (h : p.Agree s s') : p.Agree s' s := by
  cases p <;> exact Eq.symm h

theorem Part.Agree.trans (h : p.Agree s s') (h' : p.Agree s' s'') : p.Agree s s'' := by
  cases p <;> exact Eq.trans h h'

def limited (l : Limits) (m : Mnemonic) (max : Word) : Limits :=
  (LimitKey.ofMnemonic? m).elim l fun k => l.set k max

theorem after_setLimit (s : Session) (m : Mnemonic) (max : Word) : s.after (.setLimit m max) =
    { s with table := { s.table with limits := limited s.table.limits m max } } := by
  cases h : LimitKey.ofMnemonic? m <;> simp [after, limited, h]

theorem after_agree_self (h : r.part? ≠ some p) (s : Session) : p.Agree (s.after r) s := by
  cases r with
  | setLimit m max =>
      rw [after_setLimit]
      cases p with
      | table => exact absurd rfl h
      | expansion => rfl
      | used => rfl
  | _ => cases p <;> first | rfl | exact absurd rfl h

theorem after_agree (h : p.Agree s s') (r : Request) : p.Agree (s.after r) (s'.after r) := by
  cases r with
  | setLimit m max =>
      rw [after_setLimit, after_setLimit]
      cases p <;> simp_all [Part.Agree]
  | _ => cases p <;> simp_all [Part.Agree, after]

theorem after_eq_self (h : r.part? = none) (s : Session) : s.after r = s := by
  cases r <;> first | rfl | cases h

end Parts

section Runs

def reached (s : Session) (rs : List Request) : Session := rs.foldl (fun s r => (s.step r).1) s

@[simp] theorem reached_nil (s : Session) : s.reached [] = s := rfl

@[simp] theorem reached_cons (s : Session) (r : Request) (rs : List Request) :
    s.reached (r :: rs) = (s.after r).reached rs := rfl

@[simp] theorem reached_append (s : Session) (rs rs' : List Request) :
    s.reached (rs ++ rs') = (s.reached rs).reached rs' := List.foldl_append

@[simp] theorem run_nil (s : Session) : s.run [] = [] := rfl

@[simp] theorem run_cons (s : Session) (r : Request) (rs : List Request) :
    s.run (r :: rs) = (s.after r).answer r :: (s.after r).run rs := rfl

theorem reached_agree {p : Part} (h : p.Agree s s') (rs : List Request) :
    p.Agree (s.reached rs) (s'.reached rs) := by
  induction rs generalizing s s' with
  | nil => exact h
  | cons r rs ih => exact ih (after_agree h r)

-- What becomes of a part is up to the requests for that part.
theorem reached_filter_part (p : Part) (s : Session) (rs : List Request) :
    p.Agree (s.reached (rs.filter (·.part? = some p))) (s.reached rs) := by
  induction rs generalizing s with
  | nil => exact .refl p s
  | cons r rs ih =>
      by_cases hr : r.part? = some p
      · simpa [hr] using ih (s.after r)
      · have hrest := reached_agree (after_agree_self hr s) rs
        simpa [hr] using (ih s).trans hrest.symm

-- Requests that only ask may be left out of what leads to a state.
theorem reached_filter (s : Session) (rs : List Request) :
    s.reached (rs.filter (·.part?.isSome)) = s.reached rs := by
  induction rs generalizing s with
  | nil => rfl
  | cons r rs ih =>
      cases hr : r.part? with
      | none => simp [hr, ih, after_eq_self hr]
      | some p => simp [hr, ih]

theorem run_append (s : Session) (rs rs' : List Request) :
    s.run (rs ++ rs') = s.run rs ++ (s.reached rs).run rs' := by
  induction rs generalizing s with
  | nil => rfl
  | cons r rs ih => simp [ih]

@[simp] theorem length_run (s : Session) (rs : List Request) : (s.run rs).length = rs.length := by
  induction rs generalizing s with
  | nil => rfl
  | cons r rs ih => simp [ih]

theorem getElem?_run (s : Session) (rs : List Request) (i : Nat) :
    (s.run rs)[i]? = rs[i]?.map (s.reached (rs.take (i + 1))).answer := by
  induction rs generalizing s i with
  | nil => rfl
  | cons r rs ih =>
      cases i with
      | zero => simp
      | succ i => simp [ih]

end Runs

section Used

def Request.names : Request → List Text
  | .use names => names
  | _ => []

theorem after_used (s : Session) (r : Request) : (s.after r).used = s.used ++ r.names := by
  rcases eq_or_ne r.part? (some .used) with h | h
  · cases r with
    | use names => rfl
    | _ => cases h
  · have hnames : r.names = [] := by
      cases r with
      | use names => exact absurd rfl h
      | _ => rfl
    rw [hnames, List.append_nil]
    exact after_agree_self h s

theorem reached_used (s : Session) (rs : List Request) :
    (s.reached rs).used = s.used ++ rs.flatMap Request.names := by
  induction rs generalizing s with
  | nil => simp
  | cons r rs ih => simp [ih, after_used]

end Used

section Declarations

def Request.declaration? : Request → Option Declaration
  | .bind name value => some (.bind name value)
  | .declare name => some (.scratch name)
  | _ => none

theorem after_expansion (h : ∀ templates, r ≠ .begin templates) (s : Session) :
    (s.after r).expansion = r.declaration?.toList.foldl Expansion.apply s.expansion := by
  rcases eq_or_ne r.part? (some .expansion) with hpart | hpart
  · cases r with
    | begin templates => exact absurd rfl (h templates)
    | bind name value => rfl
    | declare name => rfl
    | _ => cases hpart
  · have hnone : r.declaration? = none := by
      cases r with
      | bind name value => exact absurd rfl hpart
      | declare name => exact absurd rfl hpart
      | _ => rfl
    rw [hnone]
    exact after_agree_self hpart s

def declarations (rs : List Request) : List Declaration := rs.filterMap Request.declaration?

theorem reached_expansion (h : ∀ r ∈ rs, ∀ templates, r ≠ .begin templates) (s : Session) :
    (s.reached rs).expansion = (declarations rs).foldl Expansion.apply s.expansion := by
  induction rs generalizing s with
  | nil => rfl
  | cons r rs ih =>
      obtain ⟨hr, hrs⟩ := List.forall_mem_cons.mp h
      rw [reached_cons, ih hrs, after_expansion hr]
      cases hd : r.declaration? <;> simp [declarations, hd]

theorem expansion_since_begin {since : List Request}
    (h : ∀ r ∈ since, ∀ templates, r ≠ .begin templates) (s : Session) (rs : List Request)
    (templates : List Text) : (s.reached (rs ++ .begin templates :: since)).expansion =
      declared templates (declarations since) := by
  rw [reached_append, reached_cons, reached_expansion h]
  rfl

end Declarations

section Checks

def Request.checks : Request → Bool
  | .encode _ _ | .encodeLine _ | .assemble => true
  | r => r.part? = some .table

theorem validity_eq_table_error_iff : s.validity = .error (.table e) ↔ s.table.check = .error e := by
  cases h : s.table.check <;> simp [validity, h]

theorem onMachine_eq_table_error_iff {f : Machine → Except Error Answer} :
    s.onMachine f = .error (.table e) ↔ s.table.check = .error e := by
  rw [onMachine, ← Machine.ofTable_eq_error_iff]
  cases Machine.ofTable s.table <;> simp

theorem expansionLines_ne_table_error : s.expansionLines ≠ .error (.table e) := by
  cases h : s.expansion.expand s.table s.used <;> simp [expansionLines, h]

theorem answer_eq_table_error_iff :
    s.answer r = .error (.table e) ↔ r.checks = true ∧ s.table.check = .error e := by
  cases r with
  | bind | declare | use =>
      exact iff_of_false expansionLines_ne_table_error (by simp [Request.checks, Request.part?])
  | encode | encodeLine | assemble =>
      simp [answer, Request.checks, onMachine_eq_table_error_iff]
  | begin | resolve | free | dump => simp [answer, Request.checks, Request.part?]
  | _ => simp [answer, Request.checks, Request.part?, validity_eq_table_error_iff]

theorem table_reached (h : ∀ r ∈ rs, r.part? ≠ some .table) (s : Session) (i : Nat) :
    (s.reached (rs.take i)).table = s.table := by
  have hnone : (rs.take i).filter (·.part? = some .table) = [] := by
    simpa using fun r hr => h r (List.mem_of_mem_take hr)
  have hagree := reached_filter_part .table s (rs.take i)
  rw [hnone] at hagree
  exact hagree.symm

theorem run_refuses_while_unchecked (hcheck : s.table.check = .error e)
    (h : ∀ r ∈ rs, r.part? ≠ some .table) {i : Nat} (hr : rs[i]? = some r)
    (hchecks : r.checks = true) : (s.run rs)[i]? = some (.error (.table e)) := by
  rw [getElem?_run, hr, Option.map_some, Option.some.injEq, answer_eq_table_error_iff,
    table_reached h]
  exact ⟨hchecks, hcheck⟩

theorem run_accepts_while_checked (hcheck : s.table.check = .ok ())
    (h : ∀ r ∈ rs, r.part? ≠ some .table) (e : TableError) : .error (.table e) ∉ s.run rs := by
  intro hmem
  obtain ⟨i, hi⟩ := List.mem_iff_getElem?.mp hmem
  rw [getElem?_run, Option.map_eq_some_iff] at hi
  obtain ⟨r, -, hanswer⟩ := hi
  have herror := (answer_eq_table_error_iff.mp hanswer).2
  rw [table_reached h, hcheck] at herror
  cases herror

end Checks

section Alike

structure Alike (s s' : Session) : Prop where
  table : s.table = s'.table
  expansion : s.expansion.Same s'.expansion
  used : ∀ name, name ∈ s.used ↔ name ∈ s'.used

theorem Alike.after (h : s.Alike s') (r : Request) : (s.after r).Alike (s'.after r) where
  table := after_agree (p := .table) h.table r
  expansion := by
    rcases eq_or_ne r.part? (some .expansion) with hpart | hpart
    · cases r with
      | begin templates => exact .ofTemplates templates
      | bind name value => exact h.expansion.bind name value
      | declare name => exact h.expansion.declare name
      | _ => cases hpart
    · have hs : (s.after r).expansion = s.expansion := after_agree_self hpart s
      have hs' : (s'.after r).expansion = s'.expansion := after_agree_self hpart s'
      rw [hs, hs']
      exact h.expansion
  used name := by simp [after_used, h.used]

theorem Alike.expansionLines_eq (h : s.Alike s') : s.expansionLines = s'.expansionLines := by
  rw [expansionLines, expansionLines, h.table, h.expansion.expand_eq h.used]

theorem Alike.freeRegisters_eq (h : s.Alike s') (n : Nat) :
    s.table.freeRegisters s.used n = s'.table.freeRegisters s'.used n := by
  have hfree : s.table.free s.used = s'.table.free s'.used := by
    rw [h.table]
    exact s'.table.free_congr fun name _ => h.used name
  simp only [Table.freeRegisters, Table.firstFree?_eq_head?, Table.takeFree?, Table.freeCount, hfree]

theorem Alike.answer_eq (h : s.Alike s') (r : Request) : s.answer r = s'.answer r := by
  cases r with
  | begin => rfl
  | bind | declare | use => exact h.expansionLines_eq
  | free n => rw [answer, answer, h.freeRegisters_eq]
  | assemble =>
      have hlines : ∀ t, s.expansion.expand t s.used = s'.expansion.expand t s'.used :=
        h.expansion.expand_eq h.used
      simp only [answer, onMachine, h.table, Expansion.assemble, hlines]
  | _ => simp only [answer, validity, onMachine, h.table]

theorem Alike.run_eq (h : s.Alike s') (rs : List Request) : s.run rs = s'.run rs := by
  induction rs generalizing s s' with
  | nil => rfl
  | cons r rs ih => rw [run_cons, run_cons, (h.after r).answer_eq, ih (h.after r)]

-- Two sessions that began the same templates need not have taken the same way since.
theorem alike_of_declarations {since since' : List Request} (templates : List Text)
    (h : ∀ r ∈ since, ∀ templates, r ≠ .begin templates)
    (h' : ∀ r ∈ since', ∀ templates, r ≠ .begin templates)
    (hbinds : ∀ name, (binds (declarations since)).reverse.lookup name =
      (binds (declarations since')).reverse.lookup name)
    (hscratch : scratches (declarations since) = scratches (declarations since'))
    (hused : ∀ name, name ∈ s.used ++ since.flatMap Request.names ↔
      name ∈ s'.used ++ since'.flatMap Request.names)
    (htable : (s.reached since).table = (s'.reached since').table) :
    (s.reached (.begin templates :: since)).Alike (s'.reached (.begin templates :: since')) := by
  have hpart : Request.part? (.begin templates) ≠ some .table := by simp [Request.part?]
  refine ⟨?_, ?_, ?_⟩
  · have hs := reached_agree (after_agree_self hpart s) since
    have hs' := reached_agree (after_agree_self hpart s') since'
    exact (hs.trans htable).trans hs'.symm
  · have hs := expansion_since_begin h s [] templates
    have hs' := expansion_since_begin h' s' [] templates
    rw [List.nil_append] at hs hs'
    rw [hs, hs']
    exact Expansion.declared_same templates hbinds hscratch
  · intro name
    rw [reached_used, reached_used]
    exact hused name

end Alike

end Assembler.Session
