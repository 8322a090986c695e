/-
The three exact Mann-Whitney tests of the studies: `mann_whitney` of
`replica_recall/aggregate.py`, `mann_whitney` of `loo_agreement_qdrant/score_qdrant_detector.py`
and `mannwhitney_exact` of `weaviate_dissociation/analyze_dissociation.py`.

Each enumerates the splits of the pooled values into groups of the given sizes and counts those
that are as extreme as the observed one. They differ in the order of the pool, in what extreme
means and in the tolerance they allow.

The values are those of a linear order, `U` is an exact rational: a sum of halves, which a float
holds exactly for samples of this size. A NaN is `none`; only the first test filters them, the
other two are modelled on values. The tail of the normal distribution and the shuffles of the
resampling test are outside the exact range; the first is left as its arguments, the second
takes the shuffled pools as an argument.

# The one awkward thing, named up front

A split is an index set in the source, and two index sets with the same values count twice. So
the abstract test is stated with multisets that have multiplicities: `Splits.splits`.
-/
import NanoDB.Lib.Splits
import Mathlib.Algebra.BigOperators.Group.Multiset.Basic
import Mathlib.Algebra.Order.Field.Rat
import Mathlib.Data.Nat.Choose.Sum
import Mathlib.Data.Prod.Lex
import Mathlib.Tactic.FieldSimp
import Mathlib.Tactic.Linarith
import Mathlib.Tactic.NormNum
import Mathlib.Tactic.Positivity
import Mathlib.Tactic.Ring

set_option autoImplicit false

namespace NanoDB.Experiment

open Splits

variable {α β : Type*} [LinearOrder α] [LinearOrder β]

/-! ## The tests -/

/-- The `p` of a test. -/
inductive PValue
  | nan
  /-- Every split was looked at. -/
  | exact (p : ℚ)
  /-- The two-sided normal tail at `deviation / sqrt variance`. -/
  | normal (deviation variance : ℚ)
  | resampled (p : ℚ)
deriving DecidableEq, Repr

/-- `_u` of `aggregate.py` and `U` of `analyze_dissociation.py`. -/
def pair_count (xs ys : List α) : ℚ :=
  ((xs ×ˢ ys).countP (fun p => p.1 > p.2) : ℚ)
    + 1 / 2 * ((xs ×ˢ ys).countP (fun p => p.1 = p.2) : ℚ)

/-- `U` of `score_qdrant_detector.py`. -/
def pair_sum (x y : List α) : ℚ :=
  ((x ×ˢ y).map (fun p => (if p.1 > p.2 then 1 else 0) + 1 / 2 * (if p.1 = p.2 then 1 else 0))).sum

namespace Aggregate

/-- `mann_whitney` of `aggregate.py`. -/
def mann_whitney (a b : List (Option α)) : Option ℚ × PValue :=
  let a := a.filterMap id
  let b := b.filterMap id
  let n1 := a.length
  let n2 := b.length
  if n1 = 0 ∨ n2 = 0 then (none, .nan)
  else
    let u_obs := pair_count a b
    let centre : ℚ := n1 * n2 / 2
    if n1 + n2 ≤ 20 then
      let pool := (a ++ b).insertionSort (· ≤ ·)
      let all := enumerate pool n1
      let extreme := all.countP (fun s =>
        |pair_count s.1 s.2 - centre| ≥ |u_obs - centre| - 1 / 10 ^ 12)
      (some u_obs, .exact (extreme / all.length))
    else (some u_obs, .normal (|u_obs - centre| - 1 / 2) (n1 * n2 * (n1 + n2 + 1) / 12))

/-- `p_floor` of `main`, for `nb` and `nc` runs. -/
def p_floor (nb nc : ℕ) : PValue :=
  (mann_whitney ((List.range nb).map some) ((List.range nc).map (fun x => some (x + 100)))).2

end Aggregate

namespace Detector

def EXACT_LIMIT : ℕ := 200000

def RESAMPLES : ℕ := 200000

/-- `mann_whitney` of `score_qdrant_detector.py`. `shuffled` are the pools after each of the
`RESAMPLES` shuffles. -/
def mann_whitney (a b : List α) (shuffled : List (List α)) : Option ℚ × PValue :=
  let n1 := a.length
  let n2 := b.length
  if n1 = 0 ∨ n2 = 0 then (none, .nan)
  else
    let u := pair_sum a b
    let obs := min u (n1 * n2 - u)
    let pool := a ++ b
    let extreme := fun uu : ℚ => decide (min uu (n1 * n2 - uu) ≤ obs + 1 / 10 ^ 9)
    if (n1 + n2).choose n1 ≤ EXACT_LIMIT then
      let all := enumerate pool n1
      let ex := all.countP (fun s => extreme (pair_sum s.1 s.2))
      (some u, .exact (ex / all.length))
    else
      let ex := shuffled.countP (fun pool => extreme (pair_sum (pool.take n1) (pool.drop n1)))
      (some u, .resampled ((ex + 1) / (RESAMPLES + 1)))

end Detector

namespace Dissociation

/-- `mannwhitney_exact` of `analyze_dissociation.py`. -/
def mannwhitney_exact (a b : List α) : ℚ :=
  let comb := a ++ b
  let n := a.length
  let obs := pair_count a b
  let all := enumerate comb n
  let hit := all.countP (fun s =>
    min (pair_count s.1 s.2) (n * b.length - pair_count s.1 s.2)
      ≤ min obs (n * b.length - obs))
  hit / all.length

end Dissociation

/-! ## The statistic -/

/-- What a pair adds to `U`. -/
def score (x y : α) : ℚ :=
  if y < x then 1 else if x = y then 1 / 2 else 0

/-- `U` of two groups. -/
def rank_sum (s t : Multiset α) : ℚ :=
  (s.map (fun x => (t.map (score x)).sum)).sum

theorem score_eq (x y : α) :
    score x y = (if x > y then 1 else 0) + 1 / 2 * (if x = y then 1 else 0) := by
  unfold score
  rcases lt_trichotomy x y with h | rfl | h
  · simp [h.not_gt, h.ne]
  · simp
  · simp [h, h.ne']

theorem score_swap (x y : α) : score y x = 1 - score x y := by
  unfold score
  rcases lt_trichotomy x y with h | rfl | h
  · simp [h.not_gt, h.ne, h]
  · simp
    norm_num
  · simp [h, h.ne, h.not_gt]

theorem pair_sum_eq (x y : List α) : pair_sum x y = rank_sum (x : Multiset α) y := by
  simp only [pair_sum, ← score_eq, rank_sum, Multiset.map_coe, Multiset.sum_coe]
  induction x with
  | nil => rfl
  | cons a x ih =>
      rw [List.product_cons, List.map_append, List.sum_append, ih]
      simp [List.map_map, Function.comp_def]

theorem pair_count_eq (x y : List α) : pair_count x y = rank_sum (x : Multiset α) y := by
  rw [← pair_sum_eq, pair_count, pair_sum]
  induction x ×ˢ y with
  | nil => simp
  | cons p l ih =>
      rw [List.map_cons, List.sum_cons, ← ih]
      simp only [List.countP_cons]
      push_cast
      by_cases hlt : p.1 > p.2 <;> by_cases heq : p.1 = p.2 <;> simp [hlt, heq] <;> ring

theorem rank_sum_swap (s t : Multiset α) :
    rank_sum t s = s.card * t.card - rank_sum s t := by
  have hinner : ∀ x, (t.map (fun y => score y x)).sum = t.card - (t.map (score x)).sum := by
    intro x
    rw [Multiset.map_congr rfl (fun y _ => score_swap x y), Multiset.sum_map_sub]
    simp
  rw [rank_sum, Multiset.sum_map_sum_map, rank_sum,
    Multiset.map_congr rfl (fun x _ => hinner x), Multiset.sum_map_sub]
  simp

/-- `U` is a sum of halves. -/
theorem two_mul_rank_sum (s t : Multiset α) : ∃ k : ℤ, 2 * rank_sum s t = k := by
  have hscore : ∀ x y : α, ∃ k : ℤ, 2 * score x y = k := by
    intro x y
    unfold score
    split_ifs
    · exact ⟨2, by norm_num⟩
    · exact ⟨1, by norm_num⟩
    · exact ⟨0, by norm_num⟩
  have hsum : ∀ (m : Multiset α) (f : α → ℚ), (∀ x, ∃ k : ℤ, 2 * f x = k) →
      ∃ k : ℤ, 2 * (m.map f).sum = k := by
    intro m f hf
    induction m using Multiset.induction_on with
    | empty => exact ⟨0, by simp⟩
    | cons x m ih =>
        obtain ⟨k, hk⟩ := ih
        obtain ⟨j, hj⟩ := hf x
        refine ⟨j + k, ?_⟩
        rw [Multiset.map_cons, Multiset.sum_cons, mul_add, hk, hj]
        push_cast
        rfl
  exact hsum s _ (fun x => hsum t _ (hscore x))

/-! ## The test -/

/-- How far `U` is from its centre. -/
def deviation (s t : Multiset α) : ℚ :=
  |rank_sum s t - s.card * t.card / 2|

theorem deviation_swap (s t : Multiset α) : deviation t s = deviation s t := by
  unfold deviation
  rw [rank_sum_swap, ← abs_neg]
  congr 1
  ring

/-- How many splits are as extreme as the observed one. -/
def extreme_splits (a b : Multiset α) : ℕ :=
  (splits a.card (a + b)).countP (fun p => deviation a b ≤ deviation p.1 p.2)

/-- The exact two-sided `p`. -/
def exact_p (a b : Multiset α) : ℚ :=
  extreme_splits a b / ((a + b).card.choose a.card : ℕ)

/-- **A tolerance below one half changes nothing.** -/
theorem deviation_tolerance (a b s t : Multiset α) {ε : ℚ} (hnonneg : 0 ≤ ε) (hsmall : ε < 1 / 2) :
    deviation a b - ε ≤ deviation s t ↔ deviation a b ≤ deviation s t := by
  have hhalf : ∀ s t : Multiset α, ∃ k : ℤ, 2 * deviation s t = k := by
    intro s t
    obtain ⟨k, hk⟩ := two_mul_rank_sum s t
    refine ⟨|k - s.card * t.card|, ?_⟩
    have htwo : (2 : ℚ) = |2| := by norm_num
    rw [deviation, htwo, ← abs_mul, mul_sub, hk]
    push_cast
    congr 1
    ring
  obtain ⟨k, hk⟩ := hhalf a b
  obtain ⟨m, hm⟩ := hhalf s t
  constructor
  · intro h
    have hlt : (k : ℚ) < (m + 1 : ℤ) := by
      push_cast
      linarith
    have hle : k ≤ m := Int.lt_add_one_iff.mp (Int.cast_lt.mp hlt)
    have hle' : (k : ℚ) ≤ m := Int.cast_le.mpr hle
    linarith
  · intro h
    linarith

/-- The smaller tail is what the deviation leaves. -/
theorem min_tail (m u : ℚ) : min u (m - u) = m / 2 - |u - m / 2| := by
  rcases le_total u (m / 2) with h | h
  · rw [min_eq_left (by linarith), abs_of_nonpos (by linarith)]
    ring
  · rw [min_eq_right (by linarith), abs_of_nonneg (by linarith)]
    ring

theorem extreme_splits_comm (a b : Multiset α) : extreme_splits b a = extreme_splits a b := by
  have hcard : a.card + b.card = (a + b).card := (Multiset.card_add a b).symm
  rw [extreme_splits, extreme_splits, add_comm b a, ← map_swap_splits hcard,
    Multiset.countP_map, Multiset.countP_eq_card_filter]
  congr 2
  funext p
  rw [Prod.fst_swap, Prod.snd_swap, deviation_swap a b, deviation_swap p.1 p.2]

/-- **Symmetry.** -/
theorem exact_p_comm (a b : Multiset α) : exact_p b a = exact_p a b := by
  have hchoose : (a + b).card.choose b.card = (a + b).card.choose a.card :=
    Nat.choose_symm_of_eq_add (by rw [Multiset.card_add]; omega)
  rw [exact_p, exact_p, extreme_splits_comm, add_comm b a, hchoose]

/-- **Invariance** under a map that is strictly increasing on the values. -/
theorem exact_p_map {a b : Multiset α} {f : α → β} (hf : StrictMonoOn f {x | x ∈ a + b}) :
    exact_p (a.map f) (b.map f) = exact_p a b := by
  have hscore : ∀ x ∈ a + b, ∀ y ∈ a + b, score (f x) (f y) = score x y := by
    intro x hx y hy
    simp only [score, hf.lt_iff_lt hy hx, hf.injOn.eq_iff hx hy]
  have hdeviation : ∀ s t : Multiset α, s ≤ a + b → t ≤ a + b →
      deviation (s.map f) (t.map f) = deviation s t := by
    intro s t hs ht
    have hrank : rank_sum (s.map f) (t.map f) = rank_sum s t := by
      simp only [rank_sum, Multiset.map_map]
      congr 1
      apply Multiset.map_congr rfl
      intro x hx
      rw [Function.comp_apply]
      congr 1
      apply Multiset.map_congr rfl
      intro y hy
      exact hscore x (Multiset.mem_of_le hs hx) y (Multiset.mem_of_le ht hy)
    rw [deviation, hrank, Multiset.card_map, Multiset.card_map, deviation]
  have hcount : extreme_splits (a.map f) (b.map f) = extreme_splits a b := by
    rw [extreme_splits, extreme_splits, ← Multiset.map_add, splits_map, Multiset.card_map,
      Multiset.countP_map, ← Multiset.countP_eq_card_filter]
    apply Multiset.countP_congr rfl
    intro p hp
    obtain ⟨hadd, -⟩ := mem_splits.mp hp
    have h1 : p.1 ≤ a + b := hadd ▸ Multiset.le_add_right _ _
    have h2 : p.2 ≤ a + b := hadd ▸ Multiset.le_add_left _ _
    rw [hdeviation a b (Multiset.le_add_right _ _) (Multiset.le_add_left _ _), Prod.map_fst,
      Prod.map_snd, hdeviation _ _ h1 h2]
  rw [exact_p, hcount, ← Multiset.map_add, Multiset.card_map, Multiset.card_map, exact_p]

/-! ## The three tests are the test -/

/-- What the enumerations count: the criterion holds for the splits that are as extreme. -/
theorem countP_eq_extreme_splits {a b pool : List α} (hpool : pool.Perm (a ++ b))
    (extreme : Multiset α × Multiset α → Prop) [DecidablePred extreme]
    (hextreme : ∀ p, p.1.card = a.length → p.2.card = b.length →
      (extreme p ↔ deviation (a : Multiset α) b ≤ deviation p.1 p.2)) :
    (enumerate pool a.length).countP (fun s => decide (extreme (s.1, s.2)))
      = extreme_splits (a : Multiset α) b := by
  rw [countP_enumerate, extreme_splits, Multiset.coe_card, Multiset.coe_add,
    Multiset.coe_eq_coe.mpr hpool]
  apply Multiset.countP_congr rfl
  intro p hp
  obtain ⟨hadd, hcard⟩ := mem_splits.mp hp
  have htotal := congrArg Multiset.card hadd
  rw [Multiset.card_add, Multiset.coe_card, List.length_append] at htotal
  exact propext (hextreme p hcard (by omega))

omit [LinearOrder α] in
theorem choose_length {a b pool : List α} (hpool : pool.Perm (a ++ b)) :
    (enumerate pool a.length).length
      = ((a : Multiset α) + b).card.choose (a : Multiset α).card := by
  rw [length_enumerate, hpool.length_eq, Multiset.coe_add, Multiset.coe_card, Multiset.coe_card]

theorem aggregate_exact {a b : List α} (ha : a ≠ []) (hb : b ≠ [])
    (hsize : a.length + b.length ≤ 20) :
    (Aggregate.mann_whitney (a.map some) (b.map some)).2 = .exact (exact_p (a : Multiset α) b) := by
  have hperm : ((a ++ b).insertionSort (· ≤ ·)).Perm (a ++ b) := List.perm_insertionSort _ _
  have hnonempty : ¬ (a.length = 0 ∨ b.length = 0) := by simp [ha, hb]
  have hcount := countP_eq_extreme_splits hperm (fun p =>
      |rank_sum p.1 p.2 - a.length * b.length / 2|
        ≥ |rank_sum (a : Multiset α) b - a.length * b.length / 2| - 1 / 10 ^ 12) (by
    intro p h1 h2
    rw [← deviation_tolerance (a : Multiset α) b p.1 p.2 (ε := 1 / 10 ^ 12) (by norm_num)
      (by norm_num), deviation, deviation, h1, h2]
    rfl)
  simp only [Aggregate.mann_whitney, List.filterMap_map, Function.id_comp, List.filterMap_some,
    if_neg hnonempty, if_pos hsize, pair_count_eq, exact_p, ← hcount, choose_length hperm]

theorem detector_exact {a b : List α} (ha : a ≠ []) (hb : b ≠ [])
    (hsize : a.length + b.length ≤ 20) (shuffled : List (List α)) :
    (Detector.mann_whitney a b shuffled).2 = .exact (exact_p (a : Multiset α) b) := by
  have hnonempty : ¬ (a.length = 0 ∨ b.length = 0) := by simp [ha, hb]
  have hlimit : (a.length + b.length).choose a.length ≤ Detector.EXACT_LIMIT :=
    calc (a.length + b.length).choose a.length
        ≤ Nat.choose 20 a.length := Nat.choose_le_choose _ hsize
      _ ≤ Nat.choose 20 (20 / 2) := Nat.choose_le_middle _ _
      _ ≤ Detector.EXACT_LIMIT := by norm_num [Detector.EXACT_LIMIT, Nat.choose]
  have hcount := countP_eq_extreme_splits (List.Perm.refl (a ++ b)) (fun p =>
      min (rank_sum p.1 p.2) (a.length * b.length - rank_sum p.1 p.2)
        ≤ min (rank_sum (a : Multiset α) b) (a.length * b.length - rank_sum (a : Multiset α) b)
          + 1 / 10 ^ 9) (by
    intro p h1 h2
    rw [← deviation_tolerance (a : Multiset α) b p.1 p.2 (ε := 1 / 10 ^ 9) (by norm_num)
      (by norm_num), deviation, deviation, h1, h2, min_tail, min_tail, Multiset.coe_card,
      Multiset.coe_card]
    constructor <;> intro h <;> linarith)
  simp only [Detector.mann_whitney, if_neg hnonempty, if_pos hlimit, pair_sum_eq, exact_p,
    ← hcount, choose_length (List.Perm.refl (a ++ b))]

theorem dissociation_exact (a b : List α) :
    Dissociation.mannwhitney_exact a b = exact_p (a : Multiset α) b := by
  have hcount := countP_eq_extreme_splits (List.Perm.refl (a ++ b)) (fun p =>
      min (rank_sum p.1 p.2) (a.length * b.length - rank_sum p.1 p.2)
        ≤ min (rank_sum (a : Multiset α) b)
          (a.length * b.length - rank_sum (a : Multiset α) b)) (by
    intro p h1 h2
    rw [deviation, deviation, h1, h2, min_tail, min_tail, Multiset.coe_card, Multiset.coe_card]
    constructor <;> intro h <;> linarith)
  simp only [Dissociation.mannwhitney_exact, pair_count_eq, exact_p, ← hcount,
    choose_length (List.Perm.refl (a ++ b))]

/-- The three tests give `p`. -/
def AllGive (a b : List α) (shuffled : List (List α)) (p : ℚ) : Prop :=
  (Aggregate.mann_whitney (a.map some) (b.map some)).2 = .exact p ∧
    (Detector.mann_whitney a b shuffled).2 = .exact p ∧
      Dissociation.mannwhitney_exact a b = p

theorem all_give {a b : List α} (ha : a ≠ []) (hb : b ≠ []) (hsize : a.length + b.length ≤ 20)
    (shuffled : List (List α)) : AllGive a b shuffled (exact_p (a : Multiset α) b) :=
  ⟨aggregate_exact ha hb hsize, detector_exact ha hb hsize shuffled, dissociation_exact a b⟩

/-- **The three tests agree** on samples of at most twenty values: they give the same `p`, it is
the same with the samples exchanged, and no strictly increasing map of the values changes it. -/
theorem exact_tests_agree {a b : List α} (ha : a ≠ []) (hb : b ≠ [])
    (hsize : a.length + b.length ≤ 20) (shuffled : List (List α)) :
    ∃ p, AllGive a b shuffled p ∧ AllGive b a shuffled p ∧
      ∀ f : α → β, StrictMonoOn f {x | x ∈ a ++ b} →
        AllGive (a.map f) (b.map f) (shuffled.map (List.map f)) p := by
  refine ⟨exact_p (a : Multiset α) b, all_give ha hb hsize shuffled, ?_, ?_⟩
  · rw [← exact_p_comm]
    exact all_give hb ha (by omega) shuffled
  · intro f hf
    have hvalues : StrictMonoOn f {x | x ∈ (a : Multiset α) + b} := by
      simpa [Multiset.coe_add] using hf
    rw [← exact_p_map hvalues, Multiset.map_coe, Multiset.map_coe]
    exact all_give (by simpa using ha) (by simpa using hb) (by simpa using hsize) _

/-- Samples with a tie between them, and the values doubled. -/
theorem exact_tests_agree_tie :
    ∃ p, AllGive [1, 2] [2, 3, (3 : ℤ)] [] p ∧ AllGive [2, 3, 3] [1, (2 : ℤ)] [] p ∧
      AllGive ([1, 2].map (fun x : ℤ => 2 * x)) ([2, 3, 3].map (fun x : ℤ => 2 * x)) [] p := by
  obtain ⟨p, h1, h2, h3⟩ := exact_tests_agree (β := ℤ) (a := [1, 2]) (b := [2, 3, (3 : ℤ)])
    (by simp) (by simp) (by decide) []
  refine ⟨p, h1, h2, h3 (fun x => 2 * x) ?_⟩
  intro x _ y _ hxy
  simpa using hxy

end NanoDB.Experiment
