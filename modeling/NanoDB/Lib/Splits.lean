/-
Splits of a multiset into a part of a fixed size and the rest.

An enumeration of index sets takes every split of the values as often as there are index sets
that give it. `splits` is that multiset of pairs. It depends on the values and not on their
order, and exchanging the two parts turns the splits with one size into those with the other.
-/
import Mathlib.Algebra.Order.Sub.Basic
import Mathlib.Data.List.FinRange
import Mathlib.Data.Multiset.OrderedMonoid
import Mathlib.Data.Multiset.Powerset
import Mathlib.Data.Multiset.Sort
import Mathlib.Data.Nat.Choose.Basic

set_option autoImplicit false

namespace Splits

variable {α β : Type*}

/-! ## Combinations -/

/-- The sublists with `n` elements, in lexicographic order. -/
def combinations : ℕ → List α → List (List α)
  | 0, _ => [[]]
  | _ + 1, [] => []
  | n + 1, x :: xs => (combinations n xs).map (List.cons x) ++ combinations (n + 1) xs

theorem combinations_perm (n : ℕ) (l : List α) : (combinations n l).Perm (l.sublistsLen n) := by
  induction l generalizing n with
  | nil => cases n <;> rfl
  | cons x xs ih =>
      cases n with
      | zero => rw [combinations, List.sublistsLen_zero]
      | succ n =>
          rw [combinations, List.sublistsLen_succ_cons]
          exact List.perm_append_comm.trans ((ih (n + 1)).append ((ih n).map _))

theorem length_combinations (n : ℕ) (l : List α) :
    (combinations n l).length = l.length.choose n := by
  rw [(combinations_perm n l).length_eq, List.length_sublistsLen]

/-- The values with the indices of each combination, and the others. -/
def enumerate (pool : List α) (n : ℕ) : List (List α × List α) :=
  (combinations n (List.finRange pool.length)).map (fun combo =>
    (combo.map pool.get,
      ((List.finRange pool.length).filter (fun i => i ∉ combo)).map pool.get))

theorem length_enumerate (pool : List α) (n : ℕ) :
    (enumerate pool n).length = pool.length.choose n := by
  rw [enumerate, List.length_map, length_combinations, List.length_finRange]

/-! ## Splits -/

variable [DecidableEq α] [DecidableEq β]

/-- Every choice of `n` elements, with what is left. -/
def splits (n : ℕ) (s : Multiset α) : Multiset (Multiset α × Multiset α) :=
  (s.powersetCard n).map (fun t => (t, s - t))

theorem mem_splits {n : ℕ} {s : Multiset α} {p : Multiset α × Multiset α} :
    p ∈ splits n s ↔ p.1 + p.2 = s ∧ p.1.card = n := by
  simp only [splits, Multiset.mem_map, Multiset.mem_powersetCard]
  constructor
  · rintro ⟨t, ⟨hle, hcard⟩, rfl⟩
    exact ⟨add_tsub_cancel_of_le hle, hcard⟩
  · rintro ⟨rfl, hcard⟩
    refine ⟨p.1, ⟨Multiset.le_add_right _ _, hcard⟩, ?_⟩
    rw [add_tsub_cancel_left]

theorem splits_zero (s : Multiset α) : splits 0 s = {(0, s)} := by
  simp [splits]

theorem splits_card (s : Multiset α) : splits s.card s = {(s, 0)} := by
  rw [splits, Multiset.powersetCard_self, Multiset.map_singleton, tsub_self]

/-- The first element is left over or chosen. -/
theorem splits_cons (n : ℕ) (a : α) (s : Multiset α) :
    splits (n + 1) (a ::ₘ s)
      = (splits (n + 1) s).map (fun p => (p.1, a ::ₘ p.2))
        + (splits n s).map (fun p => (a ::ₘ p.1, p.2)) := by
  simp only [splits, Multiset.powersetCard_cons, Multiset.map_add, Multiset.map_map]
  congr 1
  · apply Multiset.map_congr rfl
    intro t ht
    have hle := (Multiset.mem_powersetCard.mp ht).1
    simp [Multiset.cons_sub_of_le a hle]
  · apply Multiset.map_congr rfl
    intro t ht
    simp

/-- **Exchanging the parts.** -/
theorem map_swap_splits {i j : ℕ} {s : Multiset α} (h : i + j = s.card) :
    (splits i s).map Prod.swap = splits j s := by
  induction s using Multiset.induction_on generalizing i j with
  | empty =>
      obtain ⟨rfl, rfl⟩ : i = 0 ∧ j = 0 := by simpa using h
      simp [splits_zero]
  | cons a s ih =>
      rw [Multiset.card_cons] at h
      match i, j with
      | 0, j =>
          obtain rfl : j = (a ::ₘ s).card := by rw [Multiset.card_cons]; omega
          rw [splits_zero, splits_card]
          rfl
      | i + 1, 0 =>
          obtain hi : i + 1 = (a ::ₘ s).card := by rw [Multiset.card_cons]; omega
          rw [splits_zero, hi, splits_card]
          rfl
      | i + 1, j + 1 =>
          rw [splits_cons, splits_cons, ← ih (i := i) (j := j + 1) (by omega),
            ← ih (i := i + 1) (j := j) (by omega), add_comm]
          simp [Multiset.map_map]

/-- Splits of mapped values. -/
theorem splits_map (f : α → β) (n : ℕ) (s : Multiset α) :
    splits n (s.map f) = (splits n s).map (Prod.map (Multiset.map f) (Multiset.map f)) := by
  simp only [splits, Multiset.powersetCard_map, Multiset.map_map]
  apply Multiset.map_congr rfl
  intro t ht
  obtain ⟨u, rfl⟩ := Multiset.le_iff_exists_add.mp (Multiset.mem_powersetCard.mp ht).1
  simp

/-! ## Splits by index -/

theorem splits_coe {l : List α} (h : l.Nodup) (n : ℕ) :
    splits n (l : Multiset α)
      = (((combinations n l).map (fun c : List α =>
          ((c : Multiset α), ((l.filter (fun i => i ∉ c) : List α) : Multiset α))) :
            List (Multiset α × Multiset α)) : Multiset (Multiset α × Multiset α)) := by
  rw [splits, Multiset.powersetCard_coe, Multiset.map_coe, List.map_map, Multiset.coe_eq_coe]
  refine List.Perm.trans (List.Perm.of_eq ?_) ((combinations_perm n l).symm.map _)
  apply List.map_congr_left
  intro c hc
  rw [Function.comp_apply, Multiset.coe_sub, h.sdiff_eq_filter]

/-- **An enumeration by index is the splits of the values.** -/
theorem enumerate_eq_splits (pool : List α) (n : ℕ) :
    (((enumerate pool n).map (fun s => ((s.1 : Multiset α), (s.2 : Multiset α))) :
        List (Multiset α × Multiset α)) : Multiset (Multiset α × Multiset α))
      = splits n (pool : Multiset α) := by
  have hpool : (pool : Multiset α)
      = Multiset.map pool.get (List.finRange pool.length : Multiset (Fin pool.length)) := by
    rw [Multiset.map_coe, List.map_get_finRange]
  rw [hpool, splits_map, splits_coe (List.nodup_finRange _), enumerate, List.map_map,
    Multiset.map_coe, List.map_map]
  rfl

theorem countP_enumerate (pool : List α) (n : ℕ) (p : Multiset α × Multiset α → Prop)
    [DecidablePred p] :
    (enumerate pool n).countP (fun s => decide (p (s.1, s.2)))
      = (splits n (pool : Multiset α)).countP p := by
  rw [← enumerate_eq_splits, Multiset.coe_countP, List.countP_map]
  rfl

/-! ## How often a split occurs -/

/-- A value in both parts can be exchanged with itself. -/
theorem two_le_count_of_mem {s t : Multiset α} {x : α} (hs : x ∈ s) (ht : x ∈ t) :
    2 ≤ (splits s.card (s + t)).count (s, t) := by
  obtain ⟨s, rfl⟩ := Multiset.exists_cons_of_mem hs
  obtain ⟨t, rfl⟩ := Multiset.exists_cons_of_mem ht
  rw [Multiset.card_cons, Multiset.cons_add, splits_cons, Multiset.count_add]
  have hleft : (x ::ₘ s, x ::ₘ t) ∈ (splits (s.card + 1) (s + x ::ₘ t)).map
      (fun p => (p.1, x ::ₘ p.2)) := by
    refine Multiset.mem_map.mpr ⟨(x ::ₘ s, t), mem_splits.mpr ⟨?_, ?_⟩, rfl⟩
    · rw [Multiset.cons_add, Multiset.add_cons]
    · rw [Multiset.card_cons]
  have hchosen : (x ::ₘ s, x ::ₘ t) ∈ (splits s.card (s + x ::ₘ t)).map
      (fun p => (x ::ₘ p.1, p.2)) :=
    Multiset.mem_map.mpr ⟨(s, x ::ₘ t), mem_splits.mpr ⟨rfl, rfl⟩, rfl⟩
  have h1 := Multiset.one_le_count_iff_mem.mpr hleft
  have h2 := Multiset.one_le_count_iff_mem.mpr hchosen
  omega

/-- A split into parts without a common value occurs once. -/
theorem count_of_disjoint {s t : Multiset α} (h : ∀ x ∈ s, x ∉ t) :
    (splits s.card (s + t)).count (s, t) = 1 := by
  induction t using Multiset.induction_on with
  | empty => rw [add_zero, splits_card, Multiset.count_singleton_self]
  | cons y t ih =>
      have hy : y ∉ s := fun hmem => h y hmem (Multiset.mem_cons_self y t)
      have ht : ∀ x ∈ s, x ∉ t := fun x hx hmem => h x hx (Multiset.mem_cons_of_mem hmem)
      rcases hcard : s.card with _ | n
      · obtain rfl := Multiset.card_eq_zero.mp hcard
        rw [splits_zero, zero_add, Multiset.count_singleton_self]
      · have hinj : Function.Injective
            (fun p : Multiset α × Multiset α => (p.1, y ::ₘ p.2)) := by
          rintro p q hpq
          obtain ⟨h1, h2⟩ := Prod.mk.inj hpq
          exact Prod.ext h1 ((Multiset.cons_inj_right y).mp h2)
        have hleft : ((splits (n + 1) (s + t)).map (fun p => (p.1, y ::ₘ p.2))).count
            (s, y ::ₘ t) = 1 := by
          rw [← hcard, ← ih ht]
          exact Multiset.count_map_eq_count' (fun p : Multiset α × Multiset α => (p.1, y ::ₘ p.2))
            _ hinj (s, t)
        have hchosen : ((splits n (s + t)).map (fun p => (y ::ₘ p.1, p.2))).count
            (s, y ::ₘ t) = 0 := by
          apply Multiset.count_eq_zero_of_notMem
          rintro hmem
          obtain ⟨p, -, heq⟩ := Multiset.mem_map.mp hmem
          exact hy ((Prod.mk.inj heq).1 ▸ Multiset.mem_cons_self y p.1)
        rw [Multiset.add_cons, splits_cons, Multiset.count_add, hleft, hchosen]

/-! ## Counting -/

theorem count_le_countP {p : α → Prop} [DecidablePred p] {x : α} (hx : p x) (m : Multiset α) :
    m.count x ≤ m.countP p := by
  rw [Multiset.countP_eq_card_filter, ← Multiset.count_filter_of_pos hx]
  exact Multiset.count_le_card x _

omit [DecidableEq α] in
theorem two_le_countP_of_ne {p : α → Prop} [DecidablePred p] {m : Multiset α} {x y : α}
    (hx : x ∈ m) (hpx : p x) (hy : y ∈ m) (hpy : p y) (hne : y ≠ x) : 2 ≤ m.countP p := by
  obtain ⟨m, rfl⟩ := Multiset.exists_cons_of_mem hx
  have hm : 0 < m.countP p :=
    Multiset.countP_pos_of_mem ((Multiset.mem_cons.mp hy).resolve_left hne) hpy
  rw [Multiset.countP_cons_of_pos m hpx]
  omega

omit [DecidableEq α] in
theorem countP_or {p q : α → Prop} [DecidablePred p] [DecidablePred q] {m : Multiset α}
    (h : ∀ x ∈ m, p x → ¬ q x) :
    m.countP (fun x => p x ∨ q x) = m.countP p + m.countP q := by
  have hboth : m.filter (fun x => p x ∧ q x) = 0 :=
    Multiset.filter_eq_nil.mpr (fun x hx hpq => h x hx hpq.1 hpq.2)
  have hsum := congrArg Multiset.card (Multiset.filter_add_filter (p := p) q m)
  rw [hboth, add_zero, Multiset.card_add] at hsum
  simpa only [Multiset.countP_eq_card_filter] using hsum.symm

/-! ## Separated splits -/

section Separated

variable {γ : Type*} [LinearOrder γ]

/-- Every value of one part is below every value of the other. -/
def Below (s t : Multiset γ) : Prop :=
  ∀ x ∈ s, ∀ y ∈ t, x < y

instance (s t : Multiset γ) : Decidable (Below s t) := by
  unfold Below
  infer_instance

theorem Below.disjoint {s t : Multiset γ} (h : Below s t) : ∀ x ∈ s, x ∉ t :=
  fun x hs ht => lt_irrefl x (h x hs x ht)

theorem Below.not_below {s t : Multiset γ} (h : Below s t) (hs : 0 < s.card) (ht : 0 < t.card) :
    ¬ Below t s := by
  intro h'
  obtain ⟨x, hx⟩ := Multiset.card_pos_iff_exists_mem.mp hs
  obtain ⟨y, hy⟩ := Multiset.card_pos_iff_exists_mem.mp ht
  exact lt_asymm (h x hx y hy) (h' y hy x hx)

/-- A separated split is a cut of the sorted list. -/
theorem eq_cut_of_below {l : List γ} (hsorted : l.Pairwise (· ≤ ·)) {s t : Multiset γ}
    (hadd : s + t = l) (h : Below s t) :
    s = (l.take s.card : List γ) ∧ t = (l.drop s.card : List γ) := by
  have hl : l = s.sort ++ t.sort := by
    refine List.Perm.eq_of_pairwise' hsorted ?_ ?_
    · refine List.pairwise_append.mpr
        ⟨Multiset.pairwise_sort _ _, Multiset.pairwise_sort _ _, ?_⟩
      intro x hx y hy
      exact (h x ((Multiset.mem_sort _).mp hx) y ((Multiset.mem_sort _).mp hy)).le
    · rw [← Multiset.coe_eq_coe, ← hadd, ← Multiset.coe_add, Multiset.sort_eq, Multiset.sort_eq]
  have hlength : (s.sort).length = s.card := Multiset.length_sort _
  rw [hl, ← hlength, List.take_left, List.drop_left, Multiset.sort_eq, Multiset.sort_eq]
  exact ⟨rfl, rfl⟩

/-- **At most one split with a given size is separated**: the cut of the sorted list. -/
theorem countP_below {l : List γ} (hsorted : l.Pairwise (· ≤ ·)) {k : ℕ} (hk : k ≤ l.length) :
    (splits k (l : Multiset γ)).countP (fun p => Below p.1 p.2)
      = if Below (l.take k : Multiset γ) (l.drop k : Multiset γ) then 1 else 0 := by
  have hcard : ((l.take k : List γ) : Multiset γ).card = k := by
    rw [Multiset.coe_card, List.length_take, Nat.min_eq_left hk]
  have hcut : ((l.take k : List γ) : Multiset γ) + (l.drop k : List γ) = l := by
    rw [Multiset.coe_add, List.take_append_drop]
  have hunique : ∀ p ∈ splits k (l : Multiset γ), Below p.1 p.2 →
      p = (((l.take k : List γ) : Multiset γ), ((l.drop k : List γ) : Multiset γ)) := by
    intro p hp hbelow
    obtain ⟨hadd, hpcard⟩ := mem_splits.mp hp
    obtain ⟨h1, h2⟩ := eq_cut_of_below hsorted hadd hbelow
    rw [hpcard] at h1 h2
    exact Prod.ext h1 h2
  split_ifs with hbelow
  · have hone := count_of_disjoint hbelow.disjoint
    rw [hcard, hcut] at hone
    rw [← hone, Multiset.count]
    apply Multiset.countP_congr rfl
    intro p hp
    refine propext ⟨fun h => (hunique p hp h).symm, ?_⟩
    rintro rfl
    exact hbelow
  · rw [Multiset.countP_eq_zero]
    intro p hp h
    rw [hunique p hp h] at h
    exact hbelow h

/-- A cut of a sorted list separates if the values at both sides differ. -/
theorem below_cut_iff {l : List γ} (hsorted : l.Pairwise (· ≤ ·)) {k : ℕ} (hpos : 0 < k)
    (hk : k < l.length) :
    Below (l.take k : Multiset γ) (l.drop k : Multiset γ) ↔ l[k - 1]? ≠ l[k]? := by
  have hpred : k - 1 < l.length := by omega
  rw [List.getElem?_eq_getElem hk, List.getElem?_eq_getElem hpred, Ne, Option.some.injEq]
  have hle : ∀ i j (hi : i < l.length) (hj : j < l.length), i ≤ j → l[i] ≤ l[j] := by
    intro i j hi hj hij
    rcases hij.lt_or_eq with hlt | rfl
    · exact List.pairwise_iff_getElem.mp hsorted i j hi hj hlt
    · exact le_refl _
  constructor
  · intro h
    apply ne_of_lt
    apply h
    · rw [Multiset.mem_coe, List.mem_take_iff_getElem]
      exact ⟨k - 1, by omega, rfl⟩
    · rw [Multiset.mem_coe, List.mem_drop_iff_getElem]
      exact ⟨0, by omega, rfl⟩
  · intro hne x hx y hy
    rw [Multiset.mem_coe, List.mem_take_iff_getElem] at hx
    rw [Multiset.mem_coe, List.mem_drop_iff_getElem] at hy
    obtain ⟨i, hi, rfl⟩ := hx
    obtain ⟨j, hj, rfl⟩ := hy
    calc l[i] ≤ l[k - 1] := hle i (k - 1) (by omega) hpred (by omega)
      _ < l[k] := lt_of_le_of_ne (hle (k - 1) k hpred hk (by omega)) hne
      _ ≤ l[k + j] := hle k (k + j) hk (by omega) (by omega)

end Separated

end Splits
