/-
Greedy selection from a list.

The elements are looked at in order, and whether one is taken depends on those taken before it.
`mark` leaves every element at its place and notes the decision beside it. A list can have an
element twice, and then only the place says which of the two was taken.
-/
import Mathlib.Data.List.Basic

set_option autoImplicit false

namespace Selection

variable {α : Type*} (ok : List α → α → Bool)

/-- The elements with what was decided about them, after `kept` were taken. -/
def mark : List α → List α → List (α × Bool)
  | _, [] => []
  | kept, x :: xs => (x, ok kept x) :: mark (if ok kept x then kept ++ [x] else kept) xs

/-- The elements that were taken, in order. -/
def taken (marks : List (α × Bool)) : List α := (marks.filter Prod.snd).map Prod.fst

theorem taken_sublist {marks marks' : List (α × Bool)} (h : marks.Sublist marks') :
    (taken marks).Sublist (taken marks') :=
  (h.filter Prod.snd).map Prod.fst

theorem map_fst_mark (xs : List α) : ∀ kept, (mark ok kept xs).map Prod.fst = xs := by
  induction xs with
  | nil =>
      intro kept
      rfl
  | cons x xs ih =>
      intro kept
      rw [mark, List.map_cons, ih]

theorem taken_mark_sublist (kept xs : List α) : (taken (mark ok kept xs)).Sublist xs := by
  have h := (List.filter_sublist (p := Prod.snd) (l := mark ok kept xs)).map Prod.fst
  rw [map_fst_mark] at h
  exact h

/-- The first element taken is the first that can be. -/
theorem head?_taken_mark (xs : List α) : (taken (mark ok [] xs)).head? = xs.find? (ok []) := by
  induction xs with
  | nil => rfl
  | cons x xs ih =>
      rw [mark, List.find?_cons]
      cases hx : ok [] x with
      | true => rfl
      | false => exact ih

/-- One element more. -/
theorem append_taken_cons (kept : List α) (x : α) (b : Bool) (marks : List (α × Bool)) :
    kept ++ taken ((x, b) :: marks) = (if b then kept ++ [x] else kept) ++ taken marks := by
  cases b with
  | true => simp [taken]
  | false => simp [taken]

variable {ok}

/-- **Every decision** is the one after those that were taken before. -/
theorem mark_split {xs : List α} :
    ∀ {kept : List α} {pre : List (α × Bool)} {x : α} {b : Bool} {post : List (α × Bool)},
      mark ok kept xs = pre ++ (x, b) :: post → b = ok (kept ++ taken pre) x := by
  induction xs with
  | nil =>
      intro kept pre x b post h
      exact absurd h.symm (by simp [mark])
  | cons y ys ih =>
      intro kept pre x b post h
      rw [mark] at h
      cases pre with
      | nil =>
          obtain ⟨hhead, -⟩ := List.cons.inj h
          obtain ⟨rfl, rfl⟩ := Prod.mk.inj hhead
          simp [taken]
      | cons p pre =>
          obtain ⟨rfl, htail⟩ := List.cons.inj h
          rw [append_taken_cons]
          exact ih htail

/-- What every step of the selection keeps holds of all that was taken. -/
theorem taken_invariant {P : List α → Prop}
    (hstep : ∀ kept x, P kept → ok kept x = true → P (kept ++ [x])) (xs : List α) :
    ∀ kept, P kept → P (kept ++ taken (mark ok kept xs)) := by
  induction xs with
  | nil =>
      intro kept h
      rw [mark, taken, List.filter_nil, List.map_nil, List.append_nil]
      exact h
  | cons x xs ih =>
      intro kept h
      rw [mark, append_taken_cons]
      apply ih
      by_cases hx : ok kept x = true
      · rw [if_pos hx]
        exact hstep kept x h hx
      · rw [if_neg hx]
        exact h

/-- Once nothing can be taken any more, nothing is. -/
theorem taken_mark_of_none {kept : List α} (hnone : ∀ x, ok kept x = false) (xs : List α) :
    taken (mark ok kept xs) = [] := by
  induction xs with
  | nil => rfl
  | cons x xs ih =>
      rw [mark, hnone x]
      exact ih

end Selection
