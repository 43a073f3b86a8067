import Mathlib

namespace Assembler

section Except

variable {α β ε ε' : Type} {x : Except ε α} {a b : Except ε Unit} {e : ε}

@[simp] theorem map_eq_ok_iff {f : α → β} {y : β} : x.map f = .ok y ↔ ∃ z, x = .ok z ∧ f z = y := by
  cases x <;> simp [Except.map]

@[simp] theorem map_eq_error_iff {f : α → β} : x.map f = .error e ↔ x = .error e := by
  cases x <;> simp [Except.map]

@[simp] theorem mapError_eq_ok_iff {f : ε → ε'} {z : α} : x.mapError f = .ok z ↔ x = .ok z := by
  cases x <;> simp [Except.mapError]

@[simp] theorem mapError_eq_error_iff {f : ε → ε'} {e' : ε'} :
    x.mapError f = .error e' ↔ ∃ e, x = .error e ∧ f e = e' := by
  cases x <;> simp [Except.mapError]

@[simp] theorem mapError_id (x : Except ε α) : x.mapError id = x := by
  cases x <;> rfl

theorem exists_ok_iff : (∃ z, x = .ok z) ↔ ∀ e, x ≠ .error e := by
  cases x with
  | error e => simp
  | ok z => simp

@[simp] theorem seq_eq_ok_iff : (a >>= fun _ => b) = .ok () ↔ a = .ok () ∧ b = .ok () := by
  cases a with
  | error e => simp [bind, Except.bind]
  | ok u => simp [bind, Except.bind]

@[simp] theorem seq_eq_error_iff :
    (a >>= fun _ => b) = .error e ↔ a = .error e ∨ a = .ok () ∧ b = .error e := by
  cases a with
  | error e' => simp [bind, Except.bind]
  | ok u => simp [bind, Except.bind]

end Except

section MapM

variable {α β ε : Type} {f g : α → Except ε β} {xs : List α} {ys : List β}

theorem mapM_eq_ok_iff :
    xs.mapM f = .ok ys ↔ List.Forall₂ (fun x y => f x = .ok y) xs ys := by
  induction xs generalizing ys with
  | nil => simp [pure, Except.pure, eq_comm]
  | cons x xs ih =>
      rw [List.mapM_cons]
      cases hx : f x with
      | error e => simp [bind, Except.bind, List.forall₂_cons_left_iff, hx]
      | ok y =>
          cases hxs : xs.mapM f with
          | error e =>
              rw [hxs] at ih
              simp [bind, Except.bind, List.forall₂_cons_left_iff, ← ih]
          | ok zs =>
              rw [hxs] at ih
              simp [bind, Except.bind, pure, Except.pure, List.forall₂_cons_left_iff, ← ih, hx,
                eq_comm]

theorem exists_of_mapM_eq_ok (h : xs.mapM f = .ok ys) :
    ∀ x ∈ xs, ∃ y, f x = .ok y := by
  have hforall := mapM_eq_ok_iff.mp h
  clear h
  induction hforall with
  | nil => simp
  | cons hx _ ih => exact List.forall_mem_cons.mpr ⟨⟨_, hx⟩, ih⟩

theorem exists_mapM_eq_ok_iff : (∃ ys, xs.mapM f = .ok ys) ↔ ∀ x ∈ xs, ∃ y, f x = .ok y := by
  constructor
  · rintro ⟨ys, h⟩
    exact exists_of_mapM_eq_ok h
  · intro h
    induction xs with
    | nil => exact ⟨[], rfl⟩
    | cons x xs ih =>
        obtain ⟨⟨y, hy⟩, hrest⟩ := List.forall_mem_cons.mp h
        obtain ⟨ys, hys⟩ := ih hrest
        exact ⟨y :: ys, mapM_eq_ok_iff.mpr (.cons hy (mapM_eq_ok_iff.mp hys))⟩

theorem mem_of_mapM_eq_ok (h : xs.mapM f = .ok ys) {y : β} :
    y ∈ ys ↔ ∃ x ∈ xs, f x = .ok y := by
  have hforall := mapM_eq_ok_iff.mp h
  clear h
  induction hforall with
  | nil => simp
  | cons hx _ ih => simp [ih, hx, eq_comm]

theorem map_of_mapM_eq_ok {g : β → α} (hg : ∀ x y, f x = .ok y → g y = x)
    (h : xs.mapM f = .ok ys) : ys.map g = xs := by
  have hforall := mapM_eq_ok_iff.mp h
  clear h
  induction hforall with
  | nil => rfl
  | cons hx _ ih => rw [List.map_cons, hg _ _ hx, ih]

theorem mapM_eq_error_iff {e : ε} : xs.mapM f = .error e ↔
    ∃ before x after, xs = before ++ x :: after ∧ f x = .error e ∧
      ∀ y ∈ before, ∃ z, f y = .ok z := by
  induction xs with
  | nil => simp [pure, Except.pure]
  | cons x xs ih =>
      rw [List.mapM_cons]
      cases hx : f x with
      | error e' =>
          constructor
          · intro h
            obtain rfl : e' = e := Except.error.inj h
            exact ⟨[], x, xs, rfl, hx, by simp⟩
          · rintro ⟨before, y, after, hsplit, hy, hbefore⟩
            cases before with
            | nil =>
                obtain ⟨rfl, -⟩ := List.cons.inj hsplit
                obtain rfl : e' = e := Except.error.inj (hx.symm.trans hy)
                rfl
            | cons z before =>
                obtain ⟨rfl, -⟩ := List.cons.inj hsplit
                obtain ⟨w, hw⟩ := hbefore x (by simp)
                rw [hx] at hw
                cases hw
      | ok y =>
          have hbind : (do let ys ← xs.mapM f; pure (y :: ys)) = .error e ↔
              xs.mapM f = .error e := by
            cases xs.mapM f <;> simp [bind, Except.bind, pure, Except.pure]
          refine hbind.trans (ih.trans ?_)
          constructor
          · rintro ⟨before, z, after, rfl, hz, hbefore⟩
            exact ⟨x :: before, z, after, rfl, hz, List.forall_mem_cons.mpr ⟨⟨y, hx⟩, hbefore⟩⟩
          · rintro ⟨before, z, after, hsplit, hz, hbefore⟩
            cases before with
            | nil =>
                obtain ⟨rfl, -⟩ := List.cons.inj hsplit
                rw [hx] at hz
                cases hz
            | cons w before =>
                obtain ⟨-, rfl⟩ := List.cons.inj hsplit
                exact ⟨before, z, after, rfl, hz, (List.forall_mem_cons.mp hbefore).2⟩

theorem mapM_congr_mem (h : ∀ x ∈ xs, f x = g x) : xs.mapM f = xs.mapM g := by
  induction xs with
  | nil => rfl
  | cons x xs ih =>
      rw [List.mapM_cons, List.mapM_cons, h x (by simp), ih fun y hy => h y (by simp [hy])]

theorem mapM_map_of_commutes {a : α → α} {b : β → β} {c : ε → ε}
    (h : ∀ x, f (a x) = ((f x).map b).mapError c) (xs : List α) :
    (xs.map a).mapM f = ((xs.mapM f).map (List.map b)).mapError c := by
  induction xs with
  | nil => rfl
  | cons x xs ih =>
      rw [List.map_cons, List.mapM_cons, List.mapM_cons, h, ih]
      cases f x with
      | error e => rfl
      | ok y => cases xs.mapM f <;> rfl

end MapM

end Assembler
