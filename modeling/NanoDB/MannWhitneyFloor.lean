/-
`p_floor` of `replica_recall/aggregate.py`: the `p` that `main` prints as the smallest attainable
one, taken from two samples that are completely separated.

The `p` of a sample is the share of the splits that are as extreme as it is. The samples behind
`p_floor` have two such splits, themselves and the split at the other end. So `p_floor` is a floor
exactly where at least two splits are as extreme as the observed one.

# The one awkward thing, named up front

With ties and groups of different sizes one split can be more extreme than all the others. For
`[1]` against `[0, 0]` no choice of one value is below the two others.
-/
import NanoDB.Lib.Ranking
import NanoDB.MannWhitney

set_option autoImplicit false

namespace NanoDB.Experiment

open Splits

variable {α : Type*} [LinearOrder α]

/-! ## The range of `U` -/

theorem score_nonneg (x y : α) : 0 ≤ score x y := by
  unfold score
  split_ifs <;> norm_num

theorem rank_sum_nonneg (s t : Multiset α) : 0 ≤ rank_sum s t := by
  apply Multiset.sum_nonneg
  intro r hr
  obtain ⟨x, -, rfl⟩ := Multiset.mem_map.mp hr
  apply Multiset.sum_nonneg
  intro q hq
  obtain ⟨y, -, rfl⟩ := Multiset.mem_map.mp hq
  exact score_nonneg x y

theorem rank_sum_le (s t : Multiset α) : rank_sum s t ≤ s.card * t.card := by
  have h := rank_sum_nonneg t s
  rw [rank_sum_swap] at h
  linarith

theorem rank_sum_cons_left (x : α) (s t : Multiset α) :
    rank_sum (x ::ₘ s) t = rank_sum {x} t + rank_sum s t := by
  simp [rank_sum]

theorem rank_sum_cons_right (s : Multiset α) (y : α) (t : Multiset α) :
    rank_sum s (y ::ₘ t) = rank_sum s {y} + rank_sum s t := by
  simp [rank_sum, Multiset.sum_map_add]

theorem rank_sum_cons_cons (x : α) (s : Multiset α) (y : α) (t : Multiset α) :
    rank_sum (x ::ₘ s) (y ::ₘ t)
      = score x y + rank_sum {x} t + (rank_sum s {y} + rank_sum s t) := by
  have hsingle : rank_sum {x} {y} = score x y := by simp [rank_sum]
  rw [rank_sum_cons_left, rank_sum_cons_right, rank_sum_cons_right, hsingle]

/-- `U` is `0` for separated groups only. -/
theorem rank_sum_eq_zero_iff {s t : Multiset α} : rank_sum s t = 0 ↔ Below s t := by
  constructor
  · intro h x hx y hy
    obtain ⟨s, rfl⟩ := Multiset.exists_cons_of_mem hx
    obtain ⟨t, rfl⟩ := Multiset.exists_cons_of_mem hy
    by_contra hnot
    have hscore : 0 < score x y := by
      unfold score
      rcases (not_lt.mp hnot).lt_or_eq with hlt | rfl
      · simp [hlt]
      · simp
    rw [rank_sum_cons_cons] at h
    have h1 := rank_sum_nonneg {x} t
    have h2 := rank_sum_nonneg s {y}
    have h3 := rank_sum_nonneg s t
    linarith
  · intro h
    apply Multiset.sum_eq_zero
    intro r hr
    obtain ⟨x, hx, rfl⟩ := Multiset.mem_map.mp hr
    apply Multiset.sum_eq_zero
    intro q hq
    obtain ⟨y, hy, rfl⟩ := Multiset.mem_map.mp hq
    have hlt := h x hx y hy
    simp [score, hlt.not_gt, hlt.ne]

theorem rank_sum_eq_mul_iff {s t : Multiset α} :
    rank_sum s t = s.card * t.card ↔ Below t s := by
  rw [← rank_sum_eq_zero_iff, rank_sum_swap s t, sub_eq_zero, eq_comm]

/-- Exchanging two values the right way round lowers `U`. -/
theorem rank_sum_exchange {x y : α} (hlt : y < x) (s t : Multiset α) :
    rank_sum (y ::ₘ s) (x ::ₘ t) ≤ rank_sum (x ::ₘ s) (y ::ₘ t) := by
  have hscore : ∀ z, score y z ≤ score x z := by
    intro z
    rcases lt_trichotomy z y with h | rfl | h
    · simp [score, h, h.trans hlt]
    · simp [score, hlt]
      norm_num
    · have hzero : score y z = 0 := by simp [score, h.not_gt, h.ne]
      rw [hzero]
      exact score_nonneg x z
  have hleft : ∀ u : Multiset α, rank_sum {y} u ≤ rank_sum {x} u := by
    intro u
    simp only [rank_sum, Multiset.map_singleton, Multiset.sum_singleton]
    exact Multiset.sum_map_le_sum_map _ _ (fun z _ => hscore z)
  have hright : rank_sum s {x} ≤ rank_sum s {y} := by
    rw [rank_sum_swap {x} s, rank_sum_swap {y} s]
    have h := hleft s
    simp only [Multiset.card_singleton]
    linarith
  have hpair : score y x ≤ score x y := by
    simp [score, hlt, hlt.not_gt, hlt.ne]
  rw [rank_sum_cons_cons, rank_sum_cons_cons]
  have h := hleft t
  linarith

/-! ## Two splits as extreme as the observed one -/

/-- Groups that are not separated, with `U` below its centre. -/
theorem two_le_extreme_splits {a b : Multiset α} (hle : rank_sum a b ≤ a.card * b.card / 2)
    (hnot : ¬ Below a b) : 2 ≤ extreme_splits a b := by
  unfold Below at hnot
  push Not at hnot
  obtain ⟨x, hx, y, hy, hyx⟩ := hnot
  have hself : (a, b) ∈ splits a.card (a + b) := mem_splits.mpr ⟨rfl, rfl⟩
  rw [extreme_splits]
  rcases hyx.lt_or_eq with hlt | rfl
  · -- the exchanged pair gives another split, further out
    obtain ⟨s, rfl⟩ := Multiset.exists_cons_of_mem hx
    obtain ⟨t, rfl⟩ := Multiset.exists_cons_of_mem hy
    have hexchange := rank_sum_exchange hlt s t
    have hother : (y ::ₘ s, x ::ₘ t) ∈ splits (x ::ₘ s).card (x ::ₘ s + y ::ₘ t) := by
      refine mem_splits.mpr ⟨?_, ?_⟩
      · simp only [Multiset.cons_add, Multiset.add_cons]
        exact Multiset.cons_swap x y (s + t)
      · simp
    refine two_le_countP_of_ne hself (le_refl _) hother ?_ ?_
    · simp only [deviation, Multiset.card_cons] at hle ⊢
      rw [abs_of_nonpos (by linarith), abs_of_nonpos (by linarith)]
      linarith
    · intro heq
      exact hlt.ne ((Multiset.cons_inj_left s).mp (Prod.mk.inj heq).1)
  · refine (two_le_count_of_mem hx hy).trans (count_le_countP ?_ _)
    exact le_refl _

/-- **Separated groups**: the split at the other end is the only other one that is as extreme, if
there is one. -/
theorem extreme_splits_of_below {a b : Multiset α} {l : List α}
    (hsorted : l.Pairwise (· ≤ ·)) (hl : a + b = (l : Multiset α))
    (ha : 0 < a.card) (hb : 0 < b.card) (h : Below a b) :
    extreme_splits a b
      = 1 + if Below (l.take b.card : Multiset α) (l.drop b.card : Multiset α) then 1 else 0 := by
  have hlength : a.card + b.card = l.length := by
    rw [← Multiset.card_add, hl, Multiset.coe_card]
  have hcards : ∀ p ∈ splits a.card (l : Multiset α), p.1.card = a.card ∧ p.2.card = b.card := by
    intro p hp
    obtain ⟨hadd, hcard⟩ := mem_splits.mp hp
    have htotal := congrArg Multiset.card hadd
    rw [Multiset.card_add, Multiset.coe_card] at htotal
    omega
  have hdeviation : deviation a b = a.card * b.card / 2 := by
    rw [deviation, rank_sum_eq_zero_iff.mpr h, zero_sub, abs_neg, abs_of_nonneg (by positivity)]
  have hextreme : ∀ p ∈ splits a.card (l : Multiset α),
      (deviation a b ≤ deviation p.1 p.2 ↔ Below p.1 p.2 ∨ Below p.2 p.1) := by
    intro p hp
    obtain ⟨h1, h2⟩ := hcards p hp
    have hnonneg := rank_sum_nonneg p.1 p.2
    have hupper := rank_sum_le p.1 p.2
    rw [← rank_sum_eq_zero_iff, ← rank_sum_eq_mul_iff, hdeviation, deviation, le_abs]
    rw [h1, h2] at hupper ⊢
    constructor
    · rintro (hhigh | hlow)
      · exact Or.inr (by linarith)
      · exact Or.inl (by linarith)
    · rintro (hzero | hmul)
      · exact Or.inr (by linarith)
      · exact Or.inl (by linarith)
  have hexclusive : ∀ p ∈ splits a.card (l : Multiset α), Below p.1 p.2 → ¬ Below p.2 p.1 := by
    intro p hp hbelow
    obtain ⟨h1, h2⟩ := hcards p hp
    exact hbelow.not_below (by omega) (by omega)
  have hfirst : (splits a.card (l : Multiset α)).countP (fun p => Below p.1 p.2) = 1 := by
    obtain ⟨h1, h2⟩ := eq_cut_of_below hsorted hl h
    rw [countP_below hsorted (by omega), ← h1, ← h2, if_pos h]
  have hother : (splits a.card (l : Multiset α)).countP (fun p => Below p.2 p.1)
      = if Below (l.take b.card : Multiset α) (l.drop b.card : Multiset α) then 1 else 0 := by
    have hswap : b.card + a.card = (l : Multiset α).card := by
      rw [Multiset.coe_card]
      omega
    rw [← countP_below hsorted (by omega), ← map_swap_splits hswap, Multiset.countP_map,
      Multiset.countP_eq_card_filter]
    rfl
  rw [extreme_splits, hl, Multiset.countP_congr rfl (fun p hp => propext (hextreme p hp)),
    countP_or hexclusive, hfirst, hother]

/-! ## The floor -/

/-- The sorted pool has the same value at both sides of the cut after `k` values. -/
def cut_tied (pool : List α) (k : ℕ) : Prop :=
  (pool.insertionSort (· ≤ ·))[k - 1]? = (pool.insertionSort (· ≤ ·))[k]?

/-- The samples are separated, and the same sizes the other way round are not possible. -/
def Lopsided (a b : List α) : Prop :=
  ((∀ x ∈ a, ∀ y ∈ b, x < y) ∧ cut_tied (a ++ b) b.length) ∨
    ((∀ x ∈ a, ∀ y ∈ b, y < x) ∧ cut_tied (a ++ b) a.length)

instance (pool : List α) (k : ℕ) : Decidable (cut_tied pool k) :=
  inferInstanceAs (Decidable (_ = _))

theorem cut_tied_comm (a b : List α) (k : ℕ) : cut_tied (b ++ a) k ↔ cut_tied (a ++ b) k := by
  have hperm : (b ++ a).Perm (a ++ b) := List.perm_append_comm
  rw [cut_tied, cut_tied, Ranking.insertionSort_eq_of_perm hperm]

theorem Lopsided.swap {a b : List α} (h : Lopsided b a) : Lopsided a b := by
  rcases h with ⟨hlt, htied⟩ | ⟨hlt, htied⟩
  · exact Or.inr ⟨fun x hx y hy => hlt y hy x hx, (cut_tied_comm a b _).mp htied⟩
  · exact Or.inl ⟨fun x hx y hy => hlt y hy x hx, (cut_tied_comm a b _).mp htied⟩

theorem not_cut_tied_of_nodup {pool : List α} (h : pool.Nodup) {k : ℕ} (hpos : 0 < k)
    (hk : k ≤ pool.length) : ¬ cut_tied pool k := by
  have hperm : (pool.insertionSort (· ≤ ·)).Perm pool := List.perm_insertionSort _ _
  intro htied
  have hsame : k - 1 = k :=
    (List.getElem?_inj (by rw [hperm.length_eq]; omega) (hperm.nodup_iff.mpr h)).mp htied
  omega

theorem extreme_splits_of_lt {a b : List α} (ha : a ≠ []) (hb : b ≠ [])
    (h : ∀ x ∈ a, ∀ y ∈ b, x < y) :
    extreme_splits (a : Multiset α) b = if cut_tied (a ++ b) b.length then 1 else 2 := by
  have hsorted : ((a ++ b).insertionSort (· ≤ ·)).Pairwise (· ≤ ·) :=
    List.pairwise_insertionSort _ _
  have hperm : ((a ++ b).insertionSort (· ≤ ·)).Perm (a ++ b) := List.perm_insertionSort _ _
  have hapos := List.length_pos_of_ne_nil ha
  have hbpos := List.length_pos_of_ne_nil hb
  have hlength := hperm.length_eq
  rw [List.length_append] at hlength
  have hadd : (a : Multiset α) + b = ((a ++ b).insertionSort (· ≤ ·) : List α) := by
    rw [Multiset.coe_add, Multiset.coe_eq_coe]
    exact hperm.symm
  have hcut := below_cut_iff hsorted hbpos (by omega)
  rw [extreme_splits_of_below hsorted hadd hapos hbpos h, Multiset.coe_card]
  by_cases htied : cut_tied (a ++ b) b.length
  · rw [if_pos htied, if_neg (fun hbelow => hcut.mp hbelow htied)]
  · rw [if_neg htied, if_pos (hcut.mpr htied)]

/-- `U` below its centre: the first sample is not the upper one. -/
theorem not_above {a b : List α} (ha : a ≠ []) (hb : b ≠ [])
    (hle : rank_sum (a : Multiset α) b ≤ a.length * b.length / 2) :
    ¬ ∀ x ∈ a, ∀ y ∈ b, y < x := by
  intro h
  have hbelow : Below (b : Multiset α) a := fun y hy x hx => h x hx y hy
  have hmul := rank_sum_eq_mul_iff.mpr hbelow
  have hapos : (0 : ℚ) < a.length := by exact_mod_cast List.length_pos_of_ne_nil ha
  have hbpos : (0 : ℚ) < b.length := by exact_mod_cast List.length_pos_of_ne_nil hb
  rw [hmul, Multiset.coe_card, Multiset.coe_card] at hle
  have hpos := mul_pos hapos hbpos
  linarith

/-- The samples of which the first has the lower ranks. -/
theorem two_le_iff_of_le {a b : List α} (ha : a ≠ []) (hb : b ≠ [])
    (hle : rank_sum (a : Multiset α) b ≤ a.length * b.length / 2) :
    2 ≤ extreme_splits (a : Multiset α) b ↔ ¬ Lopsided a b := by
  have habove := not_above ha hb hle
  by_cases hbelow : ∀ x ∈ a, ∀ y ∈ b, x < y
  · rw [extreme_splits_of_lt ha hb hbelow, Lopsided]
    split_ifs with htied
    · exact ⟨fun h => absurd h (by decide), fun h => absurd (Or.inl ⟨hbelow, htied⟩) h⟩
    · refine ⟨fun _ => ?_, fun _ => le_refl 2⟩
      rintro (h | h)
      · exact htied h.2
      · exact habove h.1
  · have htwo := two_le_extreme_splits (a := (a : Multiset α)) (b := b) hle hbelow
    refine ⟨fun _ => ?_, fun _ => htwo⟩
    rintro (h | h)
    · exact hbelow h.1
    · exact habove h.1

/-- **Two splits are as extreme** as the observed one, unless the samples are lopsided. -/
theorem two_le_extreme_splits_iff {a b : List α} (ha : a ≠ []) (hb : b ≠ []) :
    2 ≤ extreme_splits (a : Multiset α) b ↔ ¬ Lopsided a b := by
  rcases le_total (rank_sum (a : Multiset α) b) (a.length * b.length / 2) with hle | hge
  · exact two_le_iff_of_le ha hb hle
  · have hle : rank_sum (b : Multiset α) a ≤ b.length * a.length / 2 := by
      rw [rank_sum_swap, Multiset.coe_card, Multiset.coe_card]
      linarith
    rw [extreme_splits_comm, two_le_iff_of_le hb ha hle]
    exact not_congr ⟨Lopsided.swap, Lopsided.swap⟩

/-- `main` takes its floor from samples with two extreme splits. -/
theorem p_floor_eq {nb nc : ℕ} (hb : 0 < nb) (hc : 0 < nc) (hsize : nb + nc ≤ 20) :
    Aggregate.p_floor nb nc = .exact (2 / ((nb + nc).choose nb : ℕ)) := by
  have hlow : List.range nb ≠ [] := by simpa using hb.ne'
  have hhigh : (List.range nc).map (fun x => x + 100) ≠ [] := by simpa using hc.ne'
  have hlt : ∀ x ∈ List.range nb, ∀ y ∈ (List.range nc).map (fun x => x + 100), x < y := by
    intro x hx y hy
    obtain ⟨z, -, rfl⟩ := List.mem_map.mp hy
    have := List.mem_range.mp hx
    omega
  have hnodup : (List.range nb ++ (List.range nc).map (fun x => x + 100)).Nodup := by
    refine List.nodup_append.mpr ⟨List.nodup_range, ?_, fun x hx y hy => (hlt x hx y hy).ne⟩
    exact List.nodup_range.map (fun x y hxy => Nat.add_right_cancel hxy)
  have hextreme := extreme_splits_of_lt hlow hhigh hlt
  rw [if_neg (not_cut_tied_of_nodup hnodup (by simpa using hc) (by simp))] at hextreme
  have hp := aggregate_exact hlow hhigh (by simpa using hsize)
  rw [exact_p, hextreme, List.map_map] at hp
  simpa [Aggregate.p_floor, Function.comp_def] using hp

/-- **The floor is a floor** for all samples that are not lopsided, and for no others. -/
theorem p_floor_le_iff {a b : List α} (ha : a ≠ []) (hb : b ≠ [])
    (hsize : a.length + b.length ≤ 20) :
    ∃ p floor, (Aggregate.mann_whitney (a.map some) (b.map some)).2 = .exact p ∧
      Aggregate.p_floor a.length b.length = .exact floor ∧ (floor ≤ p ↔ ¬ Lopsided a b) := by
  have hapos := List.length_pos_of_ne_nil ha
  have hbpos := List.length_pos_of_ne_nil hb
  refine ⟨_, _, aggregate_exact ha hb hsize, p_floor_eq hapos hbpos hsize, ?_⟩
  have hpos : (0 : ℚ) < ((a.length + b.length).choose a.length : ℕ) := by
    exact_mod_cast Nat.choose_pos (by omega)
  rw [← two_le_extreme_splits_iff ha hb, exact_p, Multiset.coe_add, Multiset.coe_card,
    Multiset.coe_card, List.length_append, div_le_div_iff_of_pos_right hpos]
  exact_mod_cast Iff.rfl

/-- Samples with the same size on both sides. -/
theorem p_floor_le_iff_pairs :
    ∃ p floor, (Aggregate.mann_whitney ([1, 2].map some) ([2, (3 : ℤ)].map some)).2 = .exact p ∧
      Aggregate.p_floor 2 2 = .exact floor ∧ (floor ≤ p ↔ ¬ Lopsided [1, 2] [2, (3 : ℤ)]) :=
  p_floor_le_iff (by simp) (by simp) (by decide)

/-- One value above two equal ones: `p` is `1 / 3` and the floor `2 / 3`. -/
theorem p_below_floor :
    (Aggregate.mann_whitney [some (1 : ℤ)] [some 0, some 0]).2 = .exact (1 / 3) ∧
      Aggregate.p_floor 1 2 = .exact (2 / 3) := by
  decide +kernel

end NanoDB.Experiment
