/-
A zero-filled store: finitely many slots have been written, the others read as a default.
-/
import Mathlib.Data.List.Basic

set_option autoImplicit false

/-- The written slots. -/
abbrev Store (α : Type*) := List (ℕ × α)

namespace Store

variable {α : Type*}

/-- Read a slot. -/
def get (d : α) : Store α → ℕ → α
  | [], _ => d
  | (k, a) :: m, i => if i = k then a else get d m i

/-- Write a slot. -/
def set : Store α → ℕ → α → Store α
  | [], i, a => [(i, a)]
  | (k, b) :: m, i, a => if i = k then (k, a) :: m else (k, b) :: set m i a

/-- The slots that have been written. -/
def keys (m : Store α) : List ℕ := m.map Prod.fst

theorem get_set (d : α) (m : Store α) (i j : ℕ) (a : α) :
    (m.set i a).get d j = if j = i then a else m.get d j := by
  induction m with
  | nil => rfl
  | cons p m ih =>
      obtain ⟨k, b⟩ := p
      rw [set]
      by_cases hik : i = k
      · rw [if_pos hik, get, get, hik]
        split <;> rfl
      · rw [if_neg hik, get, get, ih]
        by_cases hjk : j = k
        · have hji : j ≠ i := fun h => hik (h ▸ hjk)
          rw [if_pos hjk, if_pos hjk, if_neg hji]
        · rw [if_neg hjk, if_neg hjk]

@[simp] theorem get_set_self (d : α) (m : Store α) (i : ℕ) (a : α) : (m.set i a).get d i = a := by
  rw [get_set, if_pos rfl]

theorem get_set_ne (d : α) (m : Store α) {i j : ℕ} (a : α) (h : j ≠ i) :
    (m.set i a).get d j = m.get d j := by
  rw [get_set, if_neg h]

theorem get_of_not_mem (d : α) (m : Store α) {i : ℕ} (h : i ∉ m.keys) : m.get d i = d := by
  induction m with
  | nil => rfl
  | cons p m ih =>
      obtain ⟨k, b⟩ := p
      rw [keys, List.map_cons, List.mem_cons, not_or] at h
      rw [get, if_neg h.1]
      exact ih h.2

/-- Change what is in the slots. -/
theorem get_map_slots {β : Type*} (d : α) (d' : β) (f : ℕ → α → β) (m : Store α) {i : ℕ}
    (hd : f i d = d') :
    get d' (m.map (fun p => (p.1, f p.1 p.2))) i = f i (m.get d i) := by
  induction m with
  | nil => exact hd.symm
  | cons p m ih =>
      rw [List.map_cons, get, get, ih]
      split
      · rename_i hi
        rw [hi]
      · rfl

/-- A store that is given slot by slot. -/
theorem get_map (d : α) (g : ℕ → α) {l : List ℕ} {i : ℕ} (hi : i ∈ l) :
    get d (l.map (fun j => (j, g j))) i = g i := by
  induction l with
  | nil => exact absurd hi List.not_mem_nil
  | cons j l ih =>
      rw [List.map_cons, get]
      by_cases hij : i = j
      · rw [if_pos hij, hij]
      · rw [if_neg hij]
        exact ih ((List.mem_cons.mp hi).resolve_left hij)

theorem mem_keys_set (m : Store α) (i j : ℕ) (a : α) :
    j ∈ (m.set i a).keys ↔ j = i ∨ j ∈ m.keys := by
  induction m with
  | nil => simp [set, keys]
  | cons p m ih =>
      obtain ⟨k, b⟩ := p
      rw [set]
      by_cases hik : i = k
      · rw [if_pos hik, hik]
        simp [keys]
      · rw [if_neg hik]
        unfold keys at ih ⊢
        rw [List.map_cons, List.mem_cons, ih, List.map_cons, List.mem_cons]
        exact or_left_comm

end Store
