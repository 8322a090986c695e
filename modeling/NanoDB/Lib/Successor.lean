/-
The owner of a position on a ring of points.

The points are kept sorted. A position is given by the points that lie below it, and its
owner is the first point that does not, or the first of all when every point lies below.
`Owns` says the same of a set of points, without an order of traversal. An owner is unique,
and it stays the owner in every smaller set that it belongs to: that is all consistent
hashing rests on.
-/
import Mathlib.Data.Set.Basic

set_option autoImplicit false

namespace Successor

variable {α : Type*} (le : α → α → Prop) (below : α → Bool)

/-- The first point that is not below, or the first of all. -/
def pick (points : List α) : Option α :=
  (points.find? (fun p => !below p)).or points.head?

/-- The least point of `S` that is not below, or the least of all when there is none. -/
structure Owns (S : Set α) (p : α) : Prop where
  mem : p ∈ S
  least : ∀ q ∈ S, below q = below p → le p q
  wraps : below p = true → ∀ q ∈ S, below q = true

variable {le below}

theorem Owns.unique (hanti : ∀ a b, le a b → le b a → a = b) {S : Set α} {p q : α}
    (hp : Owns le below S p) (hq : Owns le below S q) : p = q := by
  -- if one of them wraps, so does the other
  have hsame : below p = below q := by
    rw [Bool.eq_iff_iff]
    exact ⟨fun h => hp.wraps h q hq.mem, fun h => hq.wraps h p hp.mem⟩
  exact hanti p q (hp.least q hq.mem hsame.symm) (hq.least p hp.mem hsame)

theorem Owns.mono {S T : Set α} (hST : S ⊆ T) {p : α} (hp : Owns le below T p) (hmem : p ∈ S) :
    Owns le below S p :=
  ⟨hmem, fun q hq => hp.least q (hST hq), fun h q hq => hp.wraps h q (hST hq)⟩

/-- What is picked from a sorted list owns the position among its points. -/
theorem pick_owns (hrefl : ∀ a, le a a) {points : List α} (hsorted : points.Pairwise le) {p : α}
    (hpick : pick below points = some p) : Owns le below {q | q ∈ points} p := by
  unfold pick at hpick
  cases hfind : points.find? (fun p => !below p) with
  | some b =>
      rw [hfind, Option.some_or] at hpick
      obtain rfl := Option.some.inj hpick
      obtain ⟨hb, front, back, rfl, hfront⟩ := List.find?_eq_some_iff_append.mp hfind
      have hb : below b = false := by simpa using hb
      have hback := (List.pairwise_cons.mp (List.pairwise_append.mp hsorted).2.1).1
      refine ⟨by simp, fun q hq hsame => ?_, fun h => absurd (hb.symm.trans h) (by simp)⟩
      -- what stands in front of it is below
      rcases List.mem_append.mp hq with hq | hq
      · have := hfront q hq
        rw [hsame, hb] at this
        simp at this
      · rcases List.mem_cons.mp hq with rfl | hq
        · exact hrefl q
        · exact hback q hq
  | none =>
      rw [hfind, Option.none_or] at hpick
      obtain ⟨rest, rfl⟩ : ∃ rest, points = p :: rest := List.head?_eq_some_iff.mp hpick
      refine ⟨List.mem_cons_self, fun q hq _ => ?_, fun _ q hq => ?_⟩
      · rcases List.mem_cons.mp hq with rfl | hq
        · exact hrefl q
        · exact (List.pairwise_cons.mp hsorted).1 q hq
      · simpa using List.find?_eq_none.mp hfind q hq

end Successor
