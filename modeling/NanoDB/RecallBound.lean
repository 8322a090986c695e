/-
`score_replica` of `replica_recall/metrics.py`: the recall of a replica against two ground truths.

`index_recall` compares what the replica returned with the exact nearest vectors it holds,
`e2e_recall` with the exact nearest vectors it should hold, and `completeness` is how much of
what it should hold it has.

A set of ids is a list without repetitions, in the order of iteration. Numbers are exact, NaN is
`none`. What `argpartition` does with vectors at the same distance is not documented, so the exact
search is any function with the nearest rows as its result.

# The one awkward thing, named up front

The documentation of the module says that the recall seen by a client is bounded by the two
others. Completeness is about the whole set, and the recall about the nearest `k` of it: a replica
that lost what nobody asks for has a recall of one. And a replica that holds more than it should
is compared with a different ground truth by `index_recall`.
-/
import Mathlib.Algebra.Order.BigOperators.Group.List
import Mathlib.Algebra.Order.Field.Rat
import Mathlib.Data.Finset.Card
import Mathlib.Data.Finset.Dedup
import Mathlib.Data.Finset.Lattice.Basic
import Mathlib.Tactic.Linarith
import Mathlib.Tactic.Positivity
import NanoDB.Lib.Ranking

set_option autoImplicit false

namespace NanoDB.Metrics

variable {I : Type*} [DecidableEq I]

/-! ## The corpus and the exact search -/

/-- `Corpus`: a snapshot of the confirmed vectors. Every id in its range is in its row. -/
structure Corpus (I : Type*) where
  ids : List I
  mat : List (List ℚ)
  row_of : I → Option ℕ
  n : ℕ
  id_at : ∀ i r, row_of i = some r → r < n → ids[r]? = some i

/-- `from_dict`, of the entries of a dictionary. -/
def Corpus.from_dict (vector_of : List (I × List ℚ)) : Corpus I where
  ids := vector_of.map Prod.fst
  mat := vector_of.map Prod.snd
  row_of := fun i => (vector_of.map Prod.fst).idxOf? i
  n := vector_of.length
  id_at := fun i r hr _ => by
    obtain ⟨hlt, heq, -⟩ := List.idxOf?_eq_some_iff.mp hr
    exact List.getElem?_eq_some_iff.mpr ⟨hlt, heq⟩

/-- The rows of the ids that are in the snapshot, ascending. -/
def Corpus.rows_for (c : Corpus I) (wanted : List I) : List ℕ :=
  ((wanted.filterMap c.row_of).filter (fun r => r < c.n)).insertionSort (· ≤ ·)

inductive Metric
  | l2
  | ip
deriving DecidableEq, Repr

def dot (v w : List ℚ) : ℚ := (List.zipWith (· * ·) v w).sum

/-- What `exact_topk_rows` orders by. -/
def distance (metric : Metric) (q v : List ℚ) : ℚ :=
  match metric with
  | .l2 => dot v v - 2 * dot q v
  | .ip => -dot q v

/-- `exact_topk_rows` for one query: the rows of the `k` nearest vectors, nearest first. -/
structure ExactTopk (metric : Metric) where
  rows : List ℚ → List (List ℚ) → ℕ → List ℕ
  top : ∀ q vectors k, Ranking.Top (fun j => distance metric q (vectors.getD j [])) id k
    {j | j < vectors.length} (rows q vectors k)

/-- The search that sorts. -/
def ExactTopk.by_distance (metric : Metric) : ExactTopk metric where
  rows := fun q vectors k => ((List.range vectors.length).insertionSort (fun i j =>
    distance metric q (vectors.getD i []) ≤ distance metric q (vectors.getD j []))).take k
  top := fun q vectors k => by
    have : Std.Total (fun i j : ℕ => distance metric q (vectors.getD i [])
        ≤ distance metric q (vectors.getD j [])) := ⟨fun i j => le_total _ _⟩
    have : IsTrans ℕ (fun i j => distance metric q (vectors.getD i [])
        ≤ distance metric q (vectors.getD j [])) := ⟨fun _ _ _ => le_trans⟩
    have hperm := List.perm_insertionSort (fun i j => distance metric q (vectors.getD i [])
        ≤ distance metric q (vectors.getD j [])) (List.range vectors.length)
    apply Ranking.Ranks.top
    refine ⟨List.pairwise_insertionSort _ _, ?_, ?_, ?_⟩
    · rw [List.map_id, hperm.nodup_iff]
      exact List.nodup_range
    · intro j hj
      exact List.mem_range.mp (hperm.mem_iff.mp hj)
    · intro j hj
      exact ⟨j, hperm.mem_iff.mpr (List.mem_range.mpr hj), rfl, le_refl _⟩

/-! ## The metrics -/

def recall_at_k (observed truth : List I) (k : ℕ) : Option ℚ :=
  if truth = [] then none
  else
    let t := (truth.take k).toFinset
    let o := (observed.take k).toFinset
    some ((o ∩ t).card / t.card)

def set_completeness (local_ids intended : List I) : Option ℚ :=
  if intended = [] then none
  else
    some (((local_ids.toFinset ∩ intended.toFinset).card : ℚ) / intended.toFinset.card)

structure ReplicaScore where
  index_recall : Option ℚ
  e2e_recall : Option ℚ
  completeness : Option ℚ
  n_local : ℕ
  n_intended : ℕ
deriving DecidableEq, Repr

section Score

variable {metric : Metric} (search : ExactTopk metric) (queries : List (List ℚ))
  (observed : List (List I)) (corpus : Corpus I) (k : ℕ)

/-- The exact answer to a query, as ids. -/
def truth (rows : List ℕ) (q : List ℚ) : List I :=
  let sub := rows.map (fun r => corpus.mat.getD r [])
  (search.rows q sub k).filterMap (fun j => rows[j]?.bind (fun r => corpus.ids[r]?))

/-- `o`, limited to the ids of the ground truth. -/
def restricted (restrict : Option (List I)) (o : List I) : List I :=
  match restrict with
  | none => o
  | some ids => o.filter (fun i => i ∈ ids)

/-- `_mean_recall`. -/
def mean_recall (rows : List ℕ) (restrict : Option (List I)) : Option ℚ :=
  if rows = [] then none
  else
    let top := queries.map (truth search corpus k rows)
    let per_query := (observed.zip top).map (fun p =>
      recall_at_k ((restricted restrict p.1).take k) p.2 k)
    let per_query := per_query.filterMap id
    if per_query = [] then none else some (per_query.sum / per_query.length)

/-- `score_replica`. -/
def score_replica (local_ids intended_ids : List I) (intended_rows : Option (List ℕ)) :
    ReplicaScore :=
  let local_rows := corpus.rows_for local_ids
  let intended_rows := intended_rows.getD (corpus.rows_for intended_ids)
  { index_recall := mean_recall search queries observed corpus k local_rows none
    e2e_recall := mean_recall search queries observed corpus k intended_rows (some intended_ids)
    completeness := set_completeness local_ids intended_ids
    n_local := local_ids.length
    n_intended := intended_ids.length }

end Score

/-! ## The ground truth -/

/-- The ids are in the snapshot. -/
def Corpus.Has (c : Corpus I) (wanted : List I) : Prop :=
  ∀ i ∈ wanted, ∃ r, c.row_of i = some r ∧ r < c.n

/-- The row of an id that is in the snapshot. -/
def Corpus.row (c : Corpus I) (i : I) : ℕ := (c.row_of i).getD 0

/-- The vector of an id. -/
def Corpus.vector (c : Corpus I) (i : I) : List ℚ := c.mat.getD (c.row i) []

section Truth

variable {c : Corpus I} {wanted : List I}

omit [DecidableEq I] in
theorem row_spec (hhas : c.Has wanted) {i : I} (hi : i ∈ wanted) :
    c.row_of i = some (c.row i) ∧ c.row i < c.n ∧ c.ids[c.row i]? = some i := by
  obtain ⟨r, hr, hlt⟩ := hhas i hi
  have hrow : c.row i = r := by simp [Corpus.row, hr]
  rw [hrow]
  exact ⟨hr, hlt, c.id_at i r hr hlt⟩

omit [DecidableEq I] in
/-- The rows are those of the ids, in some order. -/
theorem rows_for_eq (hhas : c.Has wanted) :
    ∃ names : List I, names.Perm wanted ∧ c.rows_for wanted = names.map c.row := by
  have hrows : (wanted.filterMap c.row_of).filter (fun r => decide (r < c.n))
      = wanted.map c.row := by
    have hmap : wanted.filterMap c.row_of = wanted.map c.row := by
      rw [← List.filterMap_eq_map]
      exact List.filterMap_congr (fun i hi => (row_spec hhas hi).1)
    rw [hmap, List.filter_eq_self]
    intro r hr
    obtain ⟨i, hi, rfl⟩ := List.mem_map.mp hr
    exact decide_eq_true (row_spec hhas hi).2.1
  have hperm : (c.rows_for wanted).Perm (wanted.map c.row) := by
    rw [Corpus.rows_for, hrows]
    exact List.perm_insertionSort _ _
  refine ⟨(c.rows_for wanted).filterMap (fun r => c.ids[r]?), ?_, ?_⟩
  · refine (hperm.filterMap _).trans (List.Perm.of_eq ?_)
    rw [List.filterMap_map, ← List.filterMap_some (l := wanted), List.filterMap_filterMap]
    exact List.filterMap_congr (fun i hi => (row_spec hhas hi).2.2)
  · rw [List.map_filterMap]
    refine Eq.trans List.filterMap_some.symm (List.filterMap_congr (fun r hr => ?_))
    obtain ⟨i, hi, rfl⟩ := List.mem_map.mp (hperm.mem_iff.mp hr)
    rw [(row_spec hhas hi).2.2, Option.map_some]

omit [DecidableEq I] in
/-- **The ground truth** is the nearest ids of the set. -/
theorem truth_top {metric : Metric} (search : ExactTopk metric) (k : ℕ) (q : List ℚ)
    (hhas : c.Has wanted) (hnodup : wanted.Nodup) :
    Ranking.Top (fun i => distance metric q (c.vector i)) id k {i | i ∈ wanted}
      (truth search c k (c.rows_for wanted) q) := by
  obtain ⟨names, hperm, hrows⟩ := rows_for_eq hhas
  have hsub : (c.rows_for wanted).map (fun r => c.mat.getD r []) = names.map c.vector := by
    rw [hrows, List.map_map]
    rfl
  have hback : ∀ j : ℕ, ((c.rows_for wanted)[j]?).bind (fun r => c.ids[r]?) = names[j]? := by
    intro j
    rw [hrows, List.getElem?_map]
    cases hj : names[j]? with
    | none => rfl
    | some i =>
        exact (row_spec hhas (hperm.mem_iff.mp (List.mem_of_getElem? hj))).2.2
  have htop := search.top q (names.map c.vector) k
  rw [List.length_map] at htop
  have hmem : {i | i ∈ wanted} = {i | i ∈ names} := by
    ext i
    exact hperm.mem_iff.symm
  simp only [truth, hsub, hback, hmem]
  apply Ranking.Top.of_indices (hperm.nodup_iff.mpr hnodup) _ htop
  intro j hj
  simp [hj]

end Truth

/-! ## The bounds for one query -/

/-- The share of a ground truth that was found. -/
def share (o t : List I) : ℚ := ((o.toFinset ∩ t.toFinset).card : ℚ) / t.toFinset.card

section Query

variable {D : Type*} [LinearOrder D] {key : I → D} {k : ℕ} {held intended o t t' : List I}

theorem top_card (ht : Ranking.Top key id k {i | i ∈ held} t) (hnodup : held.Nodup) :
    t.toFinset.card = min k held.length := by
  rw [List.toFinset_card_of_nodup (by simpa using ht.nodup), ht.length_eq hnodup]

/-- What was found is held and intended. -/
theorem share_le (ht : Ranking.Top key id k {i | i ∈ intended} t) (hnodup : intended.Nodup)
    (ho : ∀ i ∈ o, i ∈ held) (hpos : 0 < min k intended.length) :
    share o t * (min k intended.length : ℕ)
      ≤ ((held.toFinset ∩ intended.toFinset).card : ℚ) := by
  have hne : ((min k intended.length : ℕ) : ℚ) ≠ 0 := by
    exact_mod_cast hpos.ne'
  rw [share, top_card ht hnodup, div_mul_cancel₀ _ hne]
  have hsubset : o.toFinset ∩ t.toFinset ⊆ held.toFinset ∩ intended.toFinset := by
    intro i hi
    simp only [Finset.mem_inter, List.mem_toFinset] at hi ⊢
    exact ⟨ho i hi.1, ht.mem i hi.2⟩
  exact_mod_cast Finset.card_le_card hsubset

/-- A nearest id of the larger set that is in the smaller one is among the nearest there. -/
theorem mem_of_mem_top (hsub : ∀ i ∈ held, i ∈ intended)
    (hties : ∀ i ∈ intended, ∀ j ∈ intended, i ≠ j → key i ≠ key j)
    (ht : Ranking.Top key id k {i | i ∈ intended} t) (ht' : Ranking.Top key id k {i | i ∈ held} t')
    {i : I} (hi : i ∈ t) (hheld : i ∈ held) : i ∈ t' := by
  by_contra hnot
  obtain ⟨hlength, hnear⟩ := ht'.full i hheld (by simpa using hnot)
  -- all of `t'` is nearer than `i`, so it is in `t` too, and `t` is too long
  have hall : ∀ j ∈ i :: t', j ∈ t := by
    intro j hj
    rcases List.mem_cons.mp hj with rfl | hj
    · exact hi
    · by_contra hout
      have hle := hnear j hj
      have hge := (ht.full j (hsub j (ht'.mem j hj)) (by simpa using hout)).2 i hi
      have hne : j ≠ i := fun h => hnot (h ▸ hj)
      exact hties j (hsub j (ht'.mem j hj)) i (hsub i hheld) hne (le_antisymm hle hge)
  have hnodup : (i :: t').Nodup :=
    List.nodup_cons.mpr ⟨hnot, by simpa using ht'.nodup⟩
  have hlong := (List.subperm_of_subset hnodup hall).length_le
  have hshort := ht.short
  rw [List.length_cons, hlength] at hlong
  omega

/-- What is found of the larger set is found of the smaller one, which has no more to find. -/
theorem share_le_share (hsub : ∀ i ∈ held, i ∈ intended)
    (hties : ∀ i ∈ intended, ∀ j ∈ intended, i ≠ j → key i ≠ key j)
    (hheld : held.Nodup) (hintended : intended.Nodup)
    (ht : Ranking.Top key id k {i | i ∈ intended} t) (ht' : Ranking.Top key id k {i | i ∈ held} t')
    (ho : ∀ i ∈ o, i ∈ held) (hpos : 0 < min k held.length) : share o t ≤ share o t' := by
  have hlength : held.length ≤ intended.length := (List.subperm_of_subset hheld hsub).length_le
  have hsubset : o.toFinset ∩ t.toFinset ⊆ o.toFinset ∩ t'.toFinset := by
    intro i hi
    simp only [Finset.mem_inter, List.mem_toFinset] at hi ⊢
    exact ⟨hi.1, mem_of_mem_top hsub hties ht ht' hi.2 (ho i hi.1)⟩
  rw [share, share, top_card ht hintended, top_card ht' hheld]
  have hnum : ((o.toFinset ∩ t.toFinset).card : ℚ) ≤ ((o.toFinset ∩ t'.toFinset).card : ℚ) := by
    exact_mod_cast Finset.card_le_card hsubset
  have hden : ((min k held.length : ℕ) : ℚ) ≤ ((min k intended.length : ℕ) : ℚ) := by
    exact_mod_cast (by omega : min k held.length ≤ min k intended.length)
  have hpos' : (0 : ℚ) < ((min k held.length : ℕ) : ℚ) := by exact_mod_cast hpos
  exact div_le_div₀ (by positivity) hnum hpos' hden

end Query

/-! ## The bounds for a replica -/

section Replica

variable {metric : Metric} (search : ExactTopk metric) (queries : List (List ℚ))
  (observed : List (List I)) (corpus : Corpus I) {k : ℕ}

theorem recall_at_k_eq {o t : List I} (ht : t ≠ []) (hshort : t.length ≤ k) :
    recall_at_k (o.take k) t k = some (share (o.take k) t) := by
  rw [recall_at_k, if_neg ht]
  simp only [List.take_of_length_le hshort, List.take_take, Nat.min_self]
  rfl

/-- **A mean recall** is the mean of the shares. -/
theorem mean_recall_eq (hk : 1 ≤ k) {wanted : List I} (hhas : corpus.Has wanted)
    (hnodup : wanted.Nodup) (restrict : Option (List I)) {m : ℚ}
    (hm : mean_recall search queries observed corpus k (corpus.rows_for wanted) restrict = some m) :
    wanted ≠ [] ∧ observed.zip queries ≠ [] ∧
      m = ((observed.zip queries).map (fun p => share ((restricted restrict p.1).take k)
        (truth search corpus k (corpus.rows_for wanted) p.2))).sum
          / (observed.zip queries).length := by
  have hne : wanted ≠ [] := by
    rintro rfl
    simp [mean_recall, Corpus.rows_for] at hm
  have hrecall : ∀ p : List I × List ℚ,
      recall_at_k ((restricted restrict p.1).take k)
          (truth search corpus k (corpus.rows_for wanted) p.2) k
        = some (share ((restricted restrict p.1).take k)
          (truth search corpus k (corpus.rows_for wanted) p.2)) := by
    intro p
    have htop := truth_top search k p.2 hhas hnodup
    apply recall_at_k_eq _ htop.short
    have hlength := htop.length_eq hnodup
    have hpos := List.length_pos_of_ne_nil hne
    exact List.ne_nil_of_length_pos (by omega)
  unfold mean_recall at hm
  split_ifs at hm with hrows
  simp only [List.zip_map_right, Function.comp_def, Prod.map_fst, Prod.map_snd,
    id_eq, hrecall, List.filterMap_map, List.filterMap_eq_map'] at hm
  split_ifs at hm with hempty
  refine ⟨hne, ?_, ?_⟩
  · intro hzip
    rw [hzip] at hempty
    exact hempty rfl
  · rw [← Option.some.inj hm, List.length_map]

/-- Means of the same length. -/
theorem mean_le_mean {α : Type*} {l : List α} {f g : α → ℚ} (h : ∀ p ∈ l, f p ≤ g p) :
    (l.map f).sum / l.length ≤ (l.map g).sum / l.length :=
  div_le_div_of_nonneg_right (List.sum_le_sum h) (by positivity)

theorem mean_le {α : Type*} {l : List α} (hl : l ≠ []) {f : α → ℚ} {b : ℚ}
    (h : ∀ p ∈ l, f p ≤ b) : (l.map f).sum / l.length ≤ b := by
  have hpos : (0 : ℚ) < l.length := by exact_mod_cast List.length_pos_of_ne_nil hl
  rw [div_le_iff₀ hpos]
  have hsum : (l.map f).sum ≤ (l.map (fun _ => b)).sum := List.sum_le_sum h
  rwa [List.map_const', List.sum_replicate, nsmul_eq_mul, mul_comm] at hsum

end Replica

/-- Three vectors on a line. -/
def line : Corpus String := .from_dict [("a", [0]), ("b", [1]), ("c", [2])]

theorem line_has {wanted : List String} (h : wanted ⊆ ["a", "b", "c"]) : line.Has wanted := by
  intro i hi
  have hmem := h hi
  simp only [List.mem_cons, List.not_mem_nil, or_false] at hmem
  rcases hmem with rfl | rfl | rfl
  · exact ⟨0, by decide, by decide⟩
  · exact ⟨1, by decide, by decide⟩
  · exact ⟨2, by decide, by decide⟩

end NanoDB.Metrics
