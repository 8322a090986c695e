/-
`_detection_stats` of `replica_recall/analyze.py`: how often the replica that agrees least with
its peers is the one with the lowest recall.

The rows of a run are grouped by time and shard. A group counts when it has three readings, and it
is scored when its lowest recall stands out by more than `tie_eps`. It is a hit when the lowest
agreement and the lowest recall belong to the same name.

Agreement and recall are exact numbers; what does not parse, or is NaN, is `none`. The rank
correlation is left out.

# The one awkward thing, named up front

Groups without a clear truth are set aside, because `min` takes the first of equal values. The
agreement has no such rule. When the lowest agreement is shared by the worst replica and another
one, the order of the rows decides whether the group is a hit.
-/
import Mathlib.Algebra.Order.Field.Rat
import Mathlib.Data.List.MinMax
import Mathlib.Tactic.Linarith
import NanoDB.Lib.Grouping
import NanoDB.Lib.Ranking

set_option autoImplicit false

namespace NanoDB.Experiment

/-! ## Data -/

/-- A line of `samples.csv`, as far as it is read here. -/
structure DetectorRow where
  t_rel : String
  shard : String
  name : String
  reachable : String
  loo_agreement : Option ℚ
  e2e_recall : Option ℚ
deriving DecidableEq, Repr

/-- What a line adds to its group. -/
structure Reading where
  name : String
  loo : ℚ
  e2e : ℚ
deriving DecidableEq, Repr

structure DetectionStats where
  groups : ℕ
  tied_excluded : ℕ
  candidates : ℕ
  n_replicas : Option ℚ
  hit_rate : Option ℚ
  chance : Option ℚ
  margin : Option ℚ
deriving DecidableEq, Repr

/-! ## The score -/

def DetectorRow.reading (r : DetectorRow) : Option ((String × String) × Reading) :=
  if r.reachable ≠ "1" then none
  else
    match r.loo_agreement, r.e2e_recall with
    | some loo, some e2e => some ((r.t_rel, r.shard), ⟨r.name, loo, e2e⟩)
    | _, _ => none

/-- How far the lowest recall is from the second lowest: `srt[1] - srt[0]`. -/
def recall_gap (g : List Reading) : ℚ :=
  let srt := (g.map Reading.e2e).insertionSort (· ≤ ·)
  srt.getD 1 0 - srt.getD 0 0

/-- The detector names the worst replica. `argmin` is the first of equals, as `min` is. -/
def hit (g : List Reading) : Bool :=
  (g.argmin Reading.loo).map Reading.name = (g.argmin Reading.e2e).map Reading.name

/-- `np.mean`. -/
def mean (l : List ℚ) : ℚ := l.sum / l.length

/-- `_detection_stats`. -/
def detection_stats (rows : List DetectorRow) (tie_eps : ℚ) : Option DetectionStats :=
  let groups := (Grouping.collect (rows.filterMap DetectorRow.reading)).map Prod.snd
  let candidates := groups.filter (fun g => 3 ≤ g.length)
  let scored := candidates.filter (fun g => ¬ recall_gap g ≤ tie_eps)
  let tied := candidates.countP (fun g => recall_gap g ≤ tie_eps)
  if scored.length < 5 then
    if candidates = [] then none
    else some ⟨scored.length, tied, candidates.length, none, none, none, none⟩
  else
    let hits := scored.countP hit
    let n_rep := mean (scored.map (fun g => g.length))
    some ⟨scored.length, tied, candidates.length, some n_rep, some (hits / scored.length),
      some (1 / n_rep), some (mean (scored.map recall_gap))⟩

/-! ## The score in terms of groups -/

/-- The readings of a time and a shard. -/
def group_at (rows : List DetectorRow) (k : String × String) : List Reading :=
  Grouping.values (rows.filterMap DetectorRow.reading) k

def group_keys (rows : List DetectorRow) : Finset (String × String) :=
  ((rows.filterMap DetectorRow.reading).map Prod.fst).toFinset

/-- Three readings, of which the lowest recall stands out. -/
def Scored (tie_eps : ℚ) (g : List Reading) : Prop :=
  3 ≤ g.length ∧ ¬ recall_gap g ≤ tie_eps

instance (tie_eps : ℚ) : DecidablePred (Scored tie_eps) :=
  fun _ => inferInstanceAs (Decidable (_ ∧ _))

def scored_keys (rows : List DetectorRow) (tie_eps : ℚ) : Finset (String × String) :=
  (group_keys rows).filter (fun k => Scored tie_eps (group_at rows k))

def hit_keys (rows : List DetectorRow) (tie_eps : ℚ) : Finset (String × String) :=
  (group_keys rows).filter (fun k => Scored tie_eps (group_at rows k) ∧ hit (group_at rows k))

def tied_keys (rows : List DetectorRow) (tie_eps : ℚ) : Finset (String × String) :=
  (group_keys rows).filter
    (fun k => 3 ≤ (group_at rows k).length ∧ recall_gap (group_at rows k) ≤ tie_eps)

def candidate_keys (rows : List DetectorRow) : Finset (String × String) :=
  (group_keys rows).filter (fun k => 3 ≤ (group_at rows k).length)

/-- The columns that are compared between conditions. -/
def DetectionStats.score (s : DetectionStats) : ℕ × ℕ × Option ℚ :=
  (s.groups, s.tied_excluded, s.hit_rate)

/-- **The score, by key.** -/
theorem score_eq_card (rows : List DetectorRow) (tie_eps : ℚ) :
    (detection_stats rows tie_eps).map DetectionStats.score
      = if (scored_keys rows tie_eps).card < 5 then
          if (candidate_keys rows).card = 0 then none
          else some ((scored_keys rows tie_eps).card, (tied_keys rows tie_eps).card, none)
        else
          some ((scored_keys rows tie_eps).card, (tied_keys rows tie_eps).card,
            some (((hit_keys rows tie_eps).card : ℚ) / (scored_keys rows tie_eps).card)) := by
  have hcount := Grouping.countP_collect (rows.filterMap DetectorRow.reading)
  rw [detection_stats]
  generalize (Grouping.collect (rows.filterMap DetectorRow.reading)).map Prod.snd = groups
    at hcount ⊢
  have hcandidates : (groups.filter (fun g => decide (3 ≤ g.length))).length
      = (candidate_keys rows).card := by
    rw [← List.countP_eq_length_filter]
    exact hcount (fun g => 3 ≤ g.length)
  have hscored : ((groups.filter (fun g => decide (3 ≤ g.length))).filter
      (fun g => decide (¬ recall_gap g ≤ tie_eps))).length = (scored_keys rows tie_eps).card := by
    rw [← List.countP_eq_length_filter, List.countP_filter, scored_keys]
    refine Eq.trans ?_ (hcount (Scored tie_eps))
    apply List.countP_congr
    intro g _
    simp [Scored, and_comm]
  have htied : (groups.filter (fun g => decide (3 ≤ g.length))).countP
      (fun g => decide (recall_gap g ≤ tie_eps)) = (tied_keys rows tie_eps).card := by
    rw [List.countP_filter, tied_keys]
    refine Eq.trans ?_ (hcount (fun g => 3 ≤ g.length ∧ recall_gap g ≤ tie_eps))
    apply List.countP_congr
    intro g _
    simp [and_comm]
  have hhits : ((groups.filter (fun g => decide (3 ≤ g.length))).filter
      (fun g => decide (¬ recall_gap g ≤ tie_eps))).countP hit = (hit_keys rows tie_eps).card := by
    rw [List.countP_filter, List.countP_filter, hit_keys]
    refine Eq.trans ?_ (hcount (fun g => Scored tie_eps g ∧ hit g))
    apply List.countP_congr
    intro g _
    rw [decide_eq_true_iff]
    simp only [Scored, Bool.and_eq_true, decide_eq_true_eq]
    tauto
  simp only [← List.length_eq_zero_iff, hcandidates, hscored, htied, hhits]
  split_ifs <;> rfl

/-! ## Rows in another order -/

section Permuted

variable {rows rows' : List DetectorRow}

theorem group_at_perm (h : rows'.Perm rows) (k : String × String) :
    (group_at rows' k).Perm (group_at rows k) :=
  (h.filterMap _).filterMap _

theorem group_keys_perm (h : rows'.Perm rows) : group_keys rows' = group_keys rows := by
  ext k
  simp only [group_keys, List.mem_toFinset]
  exact ((h.filterMap _).map _).mem_iff

theorem recall_gap_perm {g g' : List Reading} (h : g'.Perm g) : recall_gap g' = recall_gap g := by
  rw [recall_gap, recall_gap, Ranking.insertionSort_eq_of_perm (h.map Reading.e2e)]

theorem scored_perm {g g' : List Reading} (h : g'.Perm g) (tie_eps : ℚ) :
    Scored tie_eps g' ↔ Scored tie_eps g := by
  rw [Scored, Scored, h.length_eq, recall_gap_perm h]

theorem scored_keys_perm (h : rows'.Perm rows) (tie_eps : ℚ) :
    scored_keys rows' tie_eps = scored_keys rows tie_eps := by
  rw [scored_keys, scored_keys, group_keys_perm h]
  exact Finset.filter_congr (fun k _ => scored_perm (group_at_perm h k) tie_eps)

theorem tied_keys_perm (h : rows'.Perm rows) (tie_eps : ℚ) :
    tied_keys rows' tie_eps = tied_keys rows tie_eps := by
  rw [tied_keys, tied_keys, group_keys_perm h]
  refine Finset.filter_congr (fun k _ => ?_)
  rw [(group_at_perm h k).length_eq, recall_gap_perm (group_at_perm h k)]

theorem candidate_keys_perm (h : rows'.Perm rows) : candidate_keys rows' = candidate_keys rows := by
  rw [candidate_keys, candidate_keys, group_keys_perm h]
  exact Finset.filter_congr (fun k _ => by rw [(group_at_perm h k).length_eq])

/-- **What the order of the rows can change** is the number of hits. -/
theorem score_perm_iff (h : rows'.Perm rows) (tie_eps : ℚ) :
    (detection_stats rows' tie_eps).map DetectionStats.score
        = (detection_stats rows tie_eps).map DetectionStats.score
      ↔ (scored_keys rows tie_eps).card < 5 ∨
        (hit_keys rows' tie_eps).card = (hit_keys rows tie_eps).card := by
  rw [score_eq_card, score_eq_card, scored_keys_perm h, tied_keys_perm h, candidate_keys_perm h]
  by_cases hfew : (scored_keys rows tie_eps).card < 5
  · rw [if_pos hfew, if_pos hfew]
    exact ⟨fun _ => Or.inl hfew, fun _ => rfl⟩
  · have hne : ((scored_keys rows tie_eps).card : ℚ) ≠ 0 := by
      intro hzero
      rw [Nat.cast_eq_zero] at hzero
      omega
    rw [if_neg hfew, if_neg hfew]
    simp [hfew, div_left_inj' hne]

end Permuted

/-! ## Which groups depend on the order -/

/-- A reading with the lowest agreement. -/
def Lowest (g : List Reading) (x : Reading) : Prop :=
  x ∈ g ∧ ∀ y ∈ g, x.loo ≤ y.loo

/-- A reading with the lowest recall. -/
def Worst (g : List Reading) (w : Reading) : Prop :=
  w ∈ g ∧ ∀ y ∈ g, w.e2e ≤ y.e2e

/-- The worst replica shares the lowest agreement with another one. -/
def Contested (g : List Reading) : Prop :=
  ∃ w x y, Worst g w ∧ Lowest g x ∧ Lowest g y ∧ x.name = w.name ∧ y.name ≠ w.name

theorem lowest_perm {g g' : List Reading} (h : g'.Perm g) {x : Reading} :
    Lowest g' x ↔ Lowest g x := by
  simp only [Lowest, h.mem_iff]

theorem worst_perm {g g' : List Reading} (h : g'.Perm g) {w : Reading} :
    Worst g' w ↔ Worst g w := by
  simp only [Worst, h.mem_iff]

theorem exists_argmin {g : List Reading} (hg : g ≠ []) (f : Reading → ℚ) :
    ∃ x, g.argmin f = some x ∧ x ∈ g ∧ ∀ y ∈ g, f x ≤ f y := by
  cases hx : g.argmin f with
  | none => exact absurd (List.argmin_eq_none.mp hx) hg
  | some x => exact ⟨x, rfl, List.argmin_mem hx, fun y hy => List.le_of_mem_argmin hy hx⟩

/-- Two readings with the lowest recall are a tie. -/
theorem recall_gap_eq_zero {g : List Reading} {w w' : Reading} (hw : Worst g w) (hw' : Worst g w')
    (hne : w ≠ w') : recall_gap g = 0 := by
  have hrest : w' ∈ g.erase w := (List.mem_erase_of_ne (Ne.symm hne)).mpr hw'.1
  have hperm : g.Perm (w :: w' :: (g.erase w).erase w') :=
    (List.perm_cons_erase hw.1).trans ((List.perm_cons_erase hrest).cons w)
  have hsame : w'.e2e = w.e2e := le_antisymm (hw'.2 w hw.1) (hw.2 w' hw'.1)
  generalize (g.erase w).erase w' = rest at hperm
  -- the sorted values begin with the two
  have hsorted : (g.map Reading.e2e).insertionSort (· ≤ ·)
      = w.e2e :: w.e2e :: (rest.map Reading.e2e).insertionSort (· ≤ ·) := by
    have hlow : ∀ v ∈ rest.map Reading.e2e, w.e2e ≤ v := by
      intro v hv
      obtain ⟨y, hy, rfl⟩ := List.mem_map.mp hv
      exact hw.2 y (hperm.mem_iff.mpr (by simp [hy]))
    have hlow' : ∀ v ∈ w.e2e :: rest.map Reading.e2e, w.e2e ≤ v :=
      List.forall_mem_cons.mpr ⟨le_refl _, hlow⟩
    rw [Ranking.insertionSort_eq_of_perm (hperm.map Reading.e2e), List.map_cons, List.map_cons,
      hsame, List.insertionSort_cons_of_forall_rel _ hlow',
      List.insertionSort_cons_of_forall_rel _ hlow]
  simp [recall_gap, hsorted]

theorem worst_unique {tie_eps : ℚ} (heps : 0 ≤ tie_eps) {g : List Reading}
    (hscored : Scored tie_eps g) {w w' : Reading} (hw : Worst g w) (hw' : Worst g w') : w = w' := by
  by_contra hne
  apply hscored.2
  rw [recall_gap_eq_zero hw hw' hne]
  exact heps

/-- A group is a hit if the first of its lowest readings has the name of the worst. -/
theorem hit_iff {tie_eps : ℚ} (heps : 0 ≤ tie_eps) {g : List Reading} (hscored : Scored tie_eps g)
    {w : Reading} (hw : Worst g w) :
    ∃ x, g.argmin Reading.loo = some x ∧ Lowest g x ∧ (hit g ↔ x.name = w.name) := by
  have hg : g ≠ [] := List.ne_nil_of_mem hw.1
  obtain ⟨x, hx, hmem, hle⟩ := exists_argmin hg Reading.loo
  obtain ⟨v, hv, hvmem, hvle⟩ := exists_argmin hg Reading.e2e
  obtain rfl := worst_unique heps hscored hw ⟨hvmem, hvle⟩
  refine ⟨x, hx, ⟨hmem, hle⟩, ?_⟩
  simp [hit, hx, hv]

/-- A group that is not contested is a hit in any order or in none. -/
theorem hit_perm {tie_eps : ℚ} (heps : 0 ≤ tie_eps) {g g' : List Reading} (h : g'.Perm g)
    (hscored : Scored tie_eps g) (hclear : ¬ Contested g) : hit g' ↔ hit g := by
  have hg : g ≠ [] := by
    rintro rfl
    exact absurd hscored.1 (by simp)
  obtain ⟨w, -, hwmem, hwle⟩ := exists_argmin hg Reading.e2e
  have hw : Worst g w := ⟨hwmem, hwle⟩
  obtain ⟨x, -, hx, hhit⟩ := hit_iff heps hscored hw
  obtain ⟨x', -, hx', hhit'⟩ := hit_iff heps ((scored_perm h tie_eps).mpr hscored)
    ((worst_perm h).mpr hw)
  rw [lowest_perm h] at hx'
  rw [hhit, hhit']
  constructor
  · intro hname
    by_contra hother
    exact hclear ⟨w, x', x, hw, hx', hx, hname, hother⟩
  · intro hname
    by_contra hother
    exact hclear ⟨w, x, x', hw, hx, hx', hname, hother⟩

/-- The row with a given reading. -/
theorem exists_row {rows : List DetectorRow} {k : String × String} {x : Reading}
    (hx : x ∈ group_at rows k) : ∃ r ∈ rows, r.reading = some (k, x) :=
  List.mem_filterMap.mp (Grouping.mem_values.mp hx)

/-- The first of the lowest readings is the one that is taken. -/
theorem argmin_of_first {z : Reading} {rest : List Reading} (h : ∀ y ∈ rest, z.loo ≤ y.loo) :
    (z :: rest).argmin Reading.loo = some z := by
  rw [List.argmin_cons]
  cases hrest : rest.argmin Reading.loo with
  | none => rfl
  | some y => exact if_neg (not_lt.mpr (h y (List.argmin_mem hrest)))

/-- A row moved to the front comes first in its group, and no other group changes. -/
theorem group_at_moved (front back : List DetectorRow) {r : DetectorRow} {k : String × String}
    {z : Reading} (hreading : r.reading = some (k, z)) :
    group_at (r :: (front ++ back)) k = z :: group_at (front ++ back) k ∧
      ∀ j, j ≠ k → group_at (r :: (front ++ back)) j = group_at (front ++ r :: back) j := by
  constructor
  · simp [group_at, Grouping.values, hreading]
  · intro j hj
    simp [group_at, Grouping.values, List.filterMap_append, hreading, Ne.symm hj]

/-- One key less. -/
theorem card_filter_lt {ι : Type*} {K : Finset ι} {P P' : ι → Prop} [DecidablePred P]
    [DecidablePred P'] {k : ι} (hk : k ∈ K) (hsame : ∀ j, j ≠ k → (P' j ↔ P j)) (hP : P k)
    (hP' : ¬ P' k) : (K.filter P').card < (K.filter P).card := by
  apply Finset.card_lt_card
  refine Finset.ssubset_iff_of_subset ?_ |>.mpr
    ⟨k, Finset.mem_filter.mpr ⟨hk, hP⟩, fun h => hP' (Finset.mem_filter.mp h).2⟩
  intro j hj
  obtain ⟨hjK, hjP'⟩ := Finset.mem_filter.mp hj
  have hne : j ≠ k := fun h => hP' (h ▸ hjP')
  exact Finset.mem_filter.mpr ⟨hjK, (hsame j hne).mp hjP'⟩

/-- **A contested group**: one of the rows, moved to the front, turns it. -/
theorem hits_differ {tie_eps : ℚ} (heps : 0 ≤ tie_eps) {rows : List DetectorRow}
    {k : String × String} (hk : k ∈ scored_keys rows tie_eps)
    (hcontested : Contested (group_at rows k)) :
    ∃ rows', rows'.Perm rows ∧
      (hit_keys rows' tie_eps).card ≠ (hit_keys rows tie_eps).card := by
  obtain ⟨hkey, hscored⟩ := Finset.mem_filter.mp hk
  obtain ⟨w, x, y, hw, hx, hy, hxname, hyname⟩ := hcontested
  -- a reading that turns the group when it comes first
  obtain ⟨z, hz, hturn⟩ : ∃ z, Lowest (group_at rows k) z ∧
      (z.name = w.name ↔ ¬ hit (group_at rows k)) := by
    by_cases hhit : hit (group_at rows k) = true
    · exact ⟨y, hy, by simp [hyname, hhit]⟩
    · exact ⟨x, hx, by simp [hxname, hhit]⟩
  obtain ⟨r, hr, hreading⟩ := exists_row hz.1
  obtain ⟨front, back, rfl⟩ := List.append_of_mem hr
  have hperm : (r :: (front ++ back)).Perm (front ++ r :: back) := List.perm_middle.symm
  have hgroup := group_at_perm hperm k
  obtain ⟨hfirst, hother⟩ := group_at_moved front back hreading
  have hscored' := (scored_perm hgroup tie_eps).mpr hscored
  have hflip : hit (group_at (r :: (front ++ back)) k)
      ↔ ¬ hit (group_at (front ++ r :: back) k) := by
    obtain ⟨v, hv, -, hhit⟩ := hit_iff heps hscored' ((worst_perm hgroup).mpr hw)
    have hlow := ((lowest_perm hgroup).mpr hz).2
    rw [hfirst] at hlow hv
    rw [argmin_of_first (fun y hy => hlow y (List.mem_cons_of_mem z hy))] at hv
    obtain rfl := Option.some.inj hv
    rw [hhit, hturn]
  refine ⟨r :: (front ++ back), hperm, ?_⟩
  rw [hit_keys, hit_keys, group_keys_perm hperm]
  by_cases hhit : hit (group_at (front ++ r :: back) k) = true
  · refine (card_filter_lt hkey ?_ ⟨hscored, hhit⟩ ?_).ne
    · intro j hj
      rw [hother j hj]
    · exact fun h => hflip.mp h.2 hhit
  · refine (card_filter_lt hkey ?_ ⟨hscored', hflip.mpr hhit⟩ ?_).ne'
    · intro j hj
      rw [hother j hj]
    · exact fun h => hhit h.2

/-- **The order of the rows does not matter** where fewer than five groups are scored, or no
scored group is contested, and nowhere else. -/
theorem row_order_irrelevant_iff {tie_eps : ℚ} (heps : 0 ≤ tie_eps) (rows : List DetectorRow) :
    (∀ rows', rows'.Perm rows →
        (detection_stats rows' tie_eps).map DetectionStats.score
          = (detection_stats rows tie_eps).map DetectionStats.score)
      ↔ (scored_keys rows tie_eps).card < 5 ∨
        ∀ k ∈ scored_keys rows tie_eps, ¬ Contested (group_at rows k) := by
  constructor
  · intro h
    by_contra hnot
    push Not at hnot
    obtain ⟨hmany, k, hk, hcontested⟩ := hnot
    obtain ⟨rows', hperm, hdiffer⟩ := hits_differ heps hk hcontested
    rcases (score_perm_iff hperm tie_eps).mp (h rows' hperm) with hfew | hsame
    · omega
    · exact hdiffer hsame
  · intro h rows' hperm
    apply (score_perm_iff hperm tie_eps).mpr
    rcases h with hfew | hclear
    · exact Or.inl hfew
    · right
      rw [hit_keys, hit_keys, group_keys_perm hperm]
      congr 1
      apply Finset.filter_congr
      intro k hk
      rw [scored_perm (group_at_perm hperm k)]
      apply and_congr_right
      intro hscored
      exact hit_perm heps (group_at_perm hperm k) hscored
        (hclear k (Finset.mem_filter.mpr ⟨hk, hscored⟩))

/-- Three replicas at a time: `a` has the lowest recall, and `a` and `b` the lowest agreement. -/
def shared_low (t_rel : String) (first second : String × ℚ) : List DetectorRow :=
  [⟨t_rel, "0", first.1, "1", some (1 / 2), some first.2⟩,
    ⟨t_rel, "0", second.1, "1", some (1 / 2), some second.2⟩,
    ⟨t_rel, "0", "c", "1", some 1, some 1⟩]

/-- Five times with the worst replica first. -/
def worst_first : List DetectorRow :=
  ["1", "2", "3", "4", "5"].flatMap (fun t => shared_low t ("a", 0) ("b", 1))

/-- The same rows with the worst replica second. -/
def worst_second : List DetectorRow :=
  ["1", "2", "3", "4", "5"].flatMap (fun t => shared_low t ("b", 1) ("a", 0))

/-- Five times at which `a` alone has the lowest agreement. -/
def clear_low : List DetectorRow :=
  ["1", "2", "3", "4", "5"].flatMap (fun t =>
    [⟨t, "0", "a", "1", some (1 / 4), some 0⟩, ⟨t, "0", "b", "1", some (1 / 2), some 1⟩,
      ⟨t, "0", "c", "1", some 1, some 1⟩])

theorem clear_low_uncontested :
    ∀ k ∈ scored_keys clear_low 0, ¬ Contested (group_at clear_low k) := by
  intro k hk
  have hgroup : ∀ k ∈ scored_keys clear_low 0, ∀ x ∈ group_at clear_low k,
      (∀ z ∈ group_at clear_low k, x.loo ≤ z.loo) → x.name = "a" := by
    decide +kernel
  rintro ⟨w, x, y, -, hx, hy, hxw, hyw⟩
  apply hyw
  rw [← hxw, hgroup k hk x hx.1 hx.2, hgroup k hk y hy.1 hy.2]

/-- Five groups, so that the hit rate is computed, and the lowest agreement is one replica's. -/
theorem row_order_irrelevant_iff_five_groups :
    (scored_keys clear_low 0).card = 5 ∧ ∀ rows', rows'.Perm clear_low →
      (detection_stats rows' 0).map DetectionStats.score = some (5, 0, some 1) := by
  refine ⟨by decide +kernel, fun rows' hperm => ?_⟩
  rw [(row_order_irrelevant_iff (le_refl 0) clear_low).mpr (Or.inr clear_low_uncontested) rows'
    hperm]
  decide +kernel

/-- **The same rows score everything or nothing.** -/
theorem score_depends_on_row_order :
    worst_second.Perm worst_first ∧
      (detection_stats worst_first 0).map DetectionStats.score = some (5, 0, some 1) ∧
      (detection_stats worst_second 0).map DetectionStats.score = some (5, 0, some 0) := by
  decide +kernel

end NanoDB.Experiment
