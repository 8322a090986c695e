/-
Majorities and order statistics.

A quorum of a member list is a set of members of more than half its length. The
one fact every agreement argument rests on is that two quorums meet
(`majority_inter`). The second half is the counting fact behind "the median match
value is replicated on a majority": in a list sorted downwards, at least `k + 1`
values are no smaller than the one at position `k` (`count_ge_of_sorted`), and a value
that so many reach is no greater (`le_getElem_iff_count`).
-/
import Mathlib.Data.Finset.Card
import Mathlib.Data.List.Sort
import Mathlib.Data.List.Count

set_option autoImplicit false

namespace Quorum

variable {ν : Type*} [DecidableEq ν]

/-- A set of members that outnumbers the rest. -/
def IsMajority (members : List ν) (Q : Finset ν) : Prop :=
  Q ⊆ members.toFinset ∧ members.length / 2 + 1 ≤ Q.card

/-- **Two majorities share a member.** -/
theorem majority_inter {members : List ν} {A B : Finset ν} (hA : IsMajority members A)
    (hB : IsMajority members B) : ∃ v, v ∈ A ∧ v ∈ B := by
  by_contra hno
  have hdisj : Disjoint A B := by
    rw [Finset.disjoint_left]
    intro v hvA hvB
    exact hno ⟨v, hvA, hvB⟩
  have hunion : (A ∪ B).card = A.card + B.card := Finset.card_union_of_disjoint hdisj
  have hsub : (A ∪ B).card ≤ members.toFinset.card :=
    Finset.card_le_card (Finset.union_subset hA.1 hB.1)
  have hlen : members.toFinset.card ≤ members.length := List.toFinset_card_le members
  have := hA.2
  have := hB.2
  omega

/-- One member together with a duplicate-free list of others, counted as the
candidate counts its own vote and the granted ones. -/
theorem majority_insert {members : List ν} {v : ν} {ps : List ν} (hv : v ∈ members)
    (hps : ∀ p ∈ ps, p ∈ members) (hnd : ps.Nodup) (hvps : v ∉ ps)
    (hlen : members.length / 2 + 1 ≤ 1 + ps.length) :
    IsMajority members (insert v ps.toFinset) := by
  constructor
  · intro w hw
    rw [Finset.mem_insert, List.mem_toFinset] at hw
    rw [List.mem_toFinset]
    rcases hw with rfl | hw
    · exact hv
    · exact hps w hw
  · rw [Finset.card_insert_of_notMem (by rwa [List.mem_toFinset]),
      List.toFinset_card_of_nodup hnd]
    omega

/-- In a list sorted downwards at least `k + 1` values are no smaller than the
one at position `k`: they are the values at positions `0, …, k`. -/
theorem count_ge_of_sorted {l : List ℕ} (hs : l.Pairwise (· ≥ ·)) {k : ℕ} (hk : k < l.length) :
    k + 1 ≤ l.countP (fun x => decide (l[k] ≤ x)) := by
  have hpre : (l.take (k + 1)).countP (fun x => decide (l[k] ≤ x)) = (l.take (k + 1)).length := by
    rw [List.countP_eq_length]
    intro x hx
    obtain ⟨j, hj, rfl⟩ := List.getElem_of_mem hx
    rw [List.length_take] at hj
    rw [List.getElem_take, decide_eq_true_iff]
    rcases Nat.lt_or_ge j k with hjk | hjk
    · exact List.pairwise_iff_getElem.mp hs j k (by omega) hk hjk
    · have hjeq : j = k := by omega
      subst hjeq
      exact le_refl _
  have hmono : (l.take (k + 1)).countP (fun x => decide (l[k] ≤ x))
      ≤ l.countP (fun x => decide (l[k] ≤ x)) :=
    (List.take_sublist (k + 1) l).countP_le
  rw [hpre, List.length_take] at hmono
  omega

/-- The value at position `k` is the greatest that `k + 1` of the values reach. -/
theorem le_getElem_iff_count {l : List ℕ} (hs : l.Pairwise (· ≥ ·)) {k : ℕ} (hk : k < l.length)
    (x : ℕ) : x ≤ l[k] ↔ k + 1 ≤ l.countP (fun y => decide (x ≤ y)) := by
  constructor
  · intro hx
    refine (count_ge_of_sorted hs hk).trans (List.countP_mono_left ?_)
    intro y _ hy
    exact decide_eq_true (hx.trans (of_decide_eq_true hy))
  · intro hcount
    by_contra hx
    -- nothing from position `k` on reaches `x`
    have hrest : (l.drop k).countP (fun y => decide (x ≤ y)) = 0 := by
      rw [List.countP_eq_zero]
      intro y hy
      obtain ⟨j, hj, rfl⟩ := List.getElem_of_mem hy
      rw [List.length_drop] at hj
      rw [List.getElem_drop, decide_eq_true_iff]
      rcases Nat.eq_zero_or_pos j with rfl | hpos
      · exact hx
      · have := List.pairwise_iff_getElem.mp hs k (k + j) hk (by omega) (by omega)
        omega
    have hfront : (l.take k).countP (fun y => decide (x ≤ y)) ≤ k :=
      List.countP_le_length.trans (List.length_take_le k l)
    rw [← List.take_append_drop k l, List.countP_append, hrest] at hcount
    omega

end Quorum
