/-
Histories of writes and deletions, newest first.

`current` is what a key holds after a history, `latest` what was last written to it, deleted
since or not. A reader that looks at a key more than once, while others write, sees pieces of
several values; `exists_current` says that the value last written was held at some moment
since any earlier moment at which the key held something.
-/
import Mathlib.Data.List.Basic
import Mathlib.Data.List.Infix

set_option autoImplicit false

namespace History

variable {κ α : Type*} [DecidableEq κ]

inductive Event (κ α : Type*)
  | put (k : κ) (v : α)
  | del (k : κ)
deriving DecidableEq, Repr

/-- What `k` holds. -/
def current : List (Event κ α) → κ → Option α
  | [], _ => none
  | .put k' v :: h, k => if k = k' then some v else current h k
  | .del k' :: h, k => if k = k' then none else current h k

/-- What was last written to `k`. -/
def latest : List (Event κ α) → κ → Option α
  | [], _ => none
  | .put k' v :: h, k => if k = k' then some v else latest h k
  | .del _ :: h, k => latest h k

@[simp] theorem current_put_self (h : List (Event κ α)) (k : κ) (v : α) :
    current (.put k v :: h) k = some v := if_pos rfl

theorem current_put_ne (h : List (Event κ α)) {k k' : κ} (v : α) (hk : k ≠ k') :
    current (.put k' v :: h) k = current h k := if_neg hk

theorem current_del_ne (h : List (Event κ α)) {k k' : κ} (hk : k ≠ k') :
    current (.del k' :: h) k = current h k := if_neg hk

@[simp] theorem latest_put_self (h : List (Event κ α)) (k : κ) (v : α) :
    latest (.put k v :: h) k = some v := if_pos rfl

theorem latest_put_ne (h : List (Event κ α)) {k k' : κ} (v : α) (hk : k ≠ k') :
    latest (.put k' v :: h) k = latest h k := if_neg hk

theorem latest_of_current {h : List (Event κ α)} {k : κ} {v : α} (hv : current h k = some v) :
    latest h k = some v := by
  induction h with
  | nil => simp [current] at hv
  | cons e h ih =>
      cases e with
      | put k' v' =>
          rw [current] at hv
          rw [latest]
          split at hv
          · rename_i hk
            rw [if_pos hk]
            exact hv
          · rename_i hk
            rw [if_neg hk]
            exact ih hv
      | del k' =>
          rw [current] at hv
          split at hv
          · simp at hv
          · exact ih hv

/-- **The value last written was held** at some moment since `h₀`. -/
theorem exists_current {h₀ h : List (Event κ α)} {k : κ} (hsuffix : h₀ <:+ h)
    (hheld : current h₀ k ≠ none) :
    ∃ v h', latest h k = some v ∧ h₀ <:+ h' ∧ h' <:+ h ∧ current h' k = some v := by
  induction h with
  | nil =>
      rw [List.suffix_nil.mp hsuffix] at hheld
      simp [current] at hheld
  | cons e h ih =>
      rcases List.suffix_cons_iff.mp hsuffix with rfl | hsuffix'
      · obtain ⟨v, hv⟩ := Option.ne_none_iff_exists'.mp hheld
        exact ⟨v, _, latest_of_current hv, List.suffix_refl _, List.suffix_refl _, hv⟩
      · -- the last event wrote `k`, or nothing changed since
        obtain ⟨v, h', hlatest, h₁, h₂, h₃⟩ := ih hsuffix'
        have h₂' : h' <:+ e :: h := h₂.trans (List.suffix_cons _ _)
        cases e with
        | put k' v' =>
            by_cases hk : k = k'
            · subst hk
              exact ⟨v', _, latest_put_self h k v', hsuffix, List.suffix_refl _,
                current_put_self h k v'⟩
            · exact ⟨v, h', (latest_put_ne h v' hk).trans hlatest, h₁, h₂', h₃⟩
        | del k' => exact ⟨v, h', hlatest, h₁, h₂', h₃⟩

end History
