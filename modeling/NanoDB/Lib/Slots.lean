/-
Lists whose positions are slots: threads of a pool, calls under way.

A step of such a system overwrites one slot. What the slots hold together, and how many of them
are in a given condition, then changes by that slot alone. The contents are compared up to
order, since a step moves something from one collection to another and nobody keeps its place.
-/
import Mathlib.Data.List.Basic
import Mathlib.Data.List.Perm.Basic

set_option autoImplicit false

namespace Slots

variable {α β : Type*}

/-- Overwriting a slot gives back what it held and takes what the new value holds. -/
theorem perm_filterMap_set (f : α → Option β) {a : α} (b : α) :
    ∀ {l : List α} {i : ℕ}, l[i]? = some a →
      ((f a).toList ++ (l.set i b).filterMap f).Perm ((f b).toList ++ l.filterMap f) := by
  have head : ∀ (c : α) (l : List α), (c :: l).filterMap f = (f c).toList ++ l.filterMap f := by
    intro c l
    cases h : f c with
    | none => rw [List.filterMap_cons_none h]; rfl
    | some x => rw [List.filterMap_cons_some h]; rfl
  intro l
  induction l with
  | nil =>
      intro i h
      simp at h
  | cons c l ih =>
      intro i h
      cases i with
      | zero =>
          obtain rfl : c = a := Option.some.inj h
          rw [List.set_cons_zero, head, head, ← List.append_assoc, ← List.append_assoc]
          exact List.perm_append_comm.append_right _
      | succ i =>
          rw [List.set_cons_succ, head, head]
          calc ((f a).toList ++ ((f c).toList ++ (l.set i b).filterMap f)).Perm
                ((f c).toList ++ ((f a).toList ++ (l.set i b).filterMap f)) :=
                List.perm_append_comm_assoc _ _ _
            _ |>.Perm ((f c).toList ++ ((f b).toList ++ l.filterMap f)) := (ih h).append_left _
            _ |>.Perm ((f b).toList ++ ((f c).toList ++ l.filterMap f)) :=
                List.perm_append_comm_assoc _ _ _

/-- The number of slots in a condition changes by the overwritten one. -/
theorem countP_set (p : α → Bool) {l : List α} {i : ℕ} {a : α} (b : α) (h : l[i]? = some a) :
    (l.set i b).countP p + (if p a then 1 else 0) = l.countP p + (if p b then 1 else 0) := by
  have held : ∀ c : α, (Option.guard p c).toList.length = if p c then 1 else 0 := by
    intro c
    cases hc : p c with
    | true => simp [Option.guard, hc]
    | false => simp [Option.guard, hc]
  have hlen := (perm_filterMap_set (Option.guard p) b h).length_eq
  rw [List.length_append, List.length_append, held, held, List.filterMap_eq_filter,
    ← List.countP_eq_length_filter, ← List.countP_eq_length_filter] at hlen
  omega

/-- If at most one slot is in a condition, one that is excludes the others. -/
theorem eq_false_of_countP_le_one {p : α → Bool} {l : List α} (hone : l.countP p ≤ 1) {i j : ℕ}
    {a b : α} (hi : l[i]? = some a) (ha : p a = true) (hj : l[j]? = some b) (hne : j ≠ i) :
    p b = false := by
  by_contra hb
  have hb : p b = true := by simpa using hb
  have hsplit : l = l.take i ++ a :: l.drop (i + 1) := by
    rw [← (List.getElem?_eq_some_iff.mp hi).2, List.getElem_cons_drop, List.take_append_drop]
  have hmem : b ∈ l.take i ∨ b ∈ l.drop (i + 1) := by
    rcases Nat.lt_or_gt_of_ne hne with hlt | hgt
    · left
      exact List.mem_of_getElem? (i := j) (by rw [List.getElem?_take_of_lt hlt]; exact hj)
    · right
      apply List.mem_of_getElem? (i := j - (i + 1))
      rw [List.getElem?_drop, show i + 1 + (j - (i + 1)) = j by omega]
      exact hj
  rw [hsplit, List.countP_append, List.countP_cons_of_pos ha] at hone
  rcases hmem with hmem | hmem
  · have hpos : 0 < (l.take i).countP p := List.countP_pos_iff.mpr ⟨b, hmem, hb⟩
    omega
  · have hpos : 0 < (l.drop (i + 1)).countP p := List.countP_pos_iff.mpr ⟨b, hmem, hb⟩
    omega

/-- After an overwrite a slot holds the new value, or is another one. -/
theorem mem_set_cases {l : List α} {i : ℕ} {b y : α} (h : y ∈ l.set i b) :
    y = b ∨ ∃ j, j ≠ i ∧ l[j]? = some y := by
  obtain ⟨j, hj⟩ := List.getElem?_of_mem h
  by_cases hji : j = i
  · left
    rw [hji, List.getElem?_set_self'] at hj
    obtain ⟨_, _, rfl⟩ := Option.map_eq_some_iff.mp hj
    rfl
  · right
    rw [List.getElem?_set_ne (Ne.symm hji)] at hj
    exact ⟨j, hji, hj⟩

/-- The other slots keep what they hold. -/
theorem mem_set_of_ne {l : List α} {i j : ℕ} {b y : α} (hji : j ≠ i) (h : l[j]? = some y) :
    y ∈ l.set i b := by
  apply List.mem_of_getElem? (i := j)
  rw [List.getElem?_set_ne (Ne.symm hji)]
  exact h

end Slots
