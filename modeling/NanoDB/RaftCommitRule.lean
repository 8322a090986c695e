/-
`compute_new_commit_index` in `cluster/raft_node.hpp`: one index is looked at, and no other
could have been committed.

The function sorts the match values downwards, the leader's own last index among them, and
takes the one at position `majority - 1`. An index is replicated on a strict majority exactly
if it is no greater than that candidate (`replicated_iff`). The terms in a leader's log do not
decrease and none is above the current one, so if some index up to the candidate has the
current term, then so has the candidate.
-/
import Mathlib.Data.List.GetD
import Mathlib.Order.Bounds.Defs
import NanoDB.Lib.Quorum
import NanoDB.RaftNode

set_option autoImplicit false

namespace NanoDB.Raft

open Quorum

/-- More than half of `cluster_size` nodes have replicated `N`, the leader among them. -/
def Replicated (leader_last_index : ℕ) (match_index : List ℕ) (cluster_size N : ℕ) : Prop :=
  cluster_size < 2 * (leader_last_index :: match_index).countP (fun m => decide (N ≤ m))

/-- What a leader may commit: a new index on a strict majority, of the leader's own term. -/
structure Committable (leader_last_index : ℕ) (match_index : List ℕ)
    (cluster_size current_commit_index current_term : ℕ) (term_at : ℕ → ℕ) (N : ℕ) : Prop where
  new : current_commit_index < N
  replicated : Replicated leader_last_index match_index cluster_size N
  term : term_at N = current_term

section Candidate

variable (leader_last_index : ℕ) (match_index : List ℕ)

/-- The index that `compute_new_commit_index` looks at. -/
def candidate_n (cluster_size : ℕ) : ℕ :=
  ((leader_last_index :: match_index).insertionSort (· ≥ ·)).getD (cluster_size / 2 + 1 - 1) 0

variable {leader_last_index match_index} {cluster_size : ℕ}
  (hsize : cluster_size = match_index.length + 1)

include hsize

/-- There is a value at the position, the sort keeps the number of values. -/
theorem candidate_lt_length :
    cluster_size / 2 + 1 - 1
      < ((leader_last_index :: match_index).insertionSort (· ≥ ·)).length := by
  rw [List.length_insertionSort, List.length_cons]
  omega

theorem candidate_eq_getElem : candidate_n leader_last_index match_index cluster_size
    = ((leader_last_index :: match_index).insertionSort (· ≥ ·)).get
        ⟨cluster_size / 2 + 1 - 1, candidate_lt_length hsize⟩ := by
  rw [candidate_n, List.getD_eq_getElem _ _ (candidate_lt_length hsize)]
  rfl

/-- **A strict majority has an index exactly if it is no greater than the candidate.** -/
theorem replicated_iff (N : ℕ) : Replicated leader_last_index match_index cluster_size N ↔
    N ≤ candidate_n leader_last_index match_index cluster_size := by
  have hcount := le_getElem_iff_count
    (List.pairwise_insertionSort (· ≥ ·) (leader_last_index :: match_index))
    (candidate_lt_length hsize) N
  rw [(List.perm_insertionSort (· ≥ ·) (leader_last_index :: match_index)).countP_eq] at hcount
  rw [candidate_eq_getElem hsize, Replicated]
  refine Iff.trans ?_ hcount.symm
  omega

/-- The candidate is one of the values. -/
theorem candidate_le (hmatch : ∀ m ∈ match_index, m ≤ leader_last_index) :
    candidate_n leader_last_index match_index cluster_size ≤ leader_last_index := by
  have hmem : candidate_n leader_last_index match_index cluster_size
      ∈ leader_last_index :: match_index := by
    rw [← (List.perm_insertionSort (· ≥ ·) (leader_last_index :: match_index)).mem_iff,
      candidate_eq_getElem hsize]
    exact List.get_mem _ _
  rcases List.mem_cons.mp hmem with heq | hmem
  · exact le_of_eq heq
  · exact hmatch _ hmem

end Candidate

theorem compute_new_commit_index_eq (leader_last_index : ℕ) (match_index : List ℕ)
    (cluster_size current_commit_index current_term : ℕ) (term_at : ℕ → ℕ) :
    compute_new_commit_index leader_last_index match_index cluster_size current_commit_index
        current_term term_at
      = if candidate_n leader_last_index match_index cluster_size > current_commit_index ∧
          term_at (candidate_n leader_last_index match_index cluster_size) = current_term then
        candidate_n leader_last_index match_index cluster_size
      else current_commit_index := rfl

/-- **The commit rule is exact.** If some index can be committed then the greatest such index is
returned, and otherwise the commit index stays. -/
theorem compute_new_commit_index_exact (cluster_size leader_last_index : ℕ) (match_index : List ℕ)
    (current_commit_index current_term : ℕ) (term_at : ℕ → ℕ) (hpos : 1 ≤ cluster_size)
    (hsize : match_index.length = cluster_size - 1)
    (hmatch : ∀ m ∈ match_index, m ≤ leader_last_index)
    (hmono : ∀ i j, 1 ≤ i → i ≤ j → j ≤ leader_last_index → term_at i ≤ term_at j)
    (hterm : ∀ i, 1 ≤ i → i ≤ leader_last_index → term_at i ≤ current_term) :
    ((∃ N, Committable leader_last_index match_index cluster_size current_commit_index
        current_term term_at N) →
      IsGreatest {N | Committable leader_last_index match_index cluster_size current_commit_index
          current_term term_at N}
        (compute_new_commit_index leader_last_index match_index cluster_size current_commit_index
          current_term term_at)) ∧
    ((¬ ∃ N, Committable leader_last_index match_index cluster_size current_commit_index
        current_term term_at N) →
      compute_new_commit_index leader_last_index match_index cluster_size current_commit_index
        current_term term_at = current_commit_index) := by
  have hcluster : cluster_size = match_index.length + 1 := by omega
  have hlast := candidate_le hcluster hmatch
  rw [compute_new_commit_index_eq]
  constructor
  · rintro ⟨N, hnew, hrepl, hN⟩
    have hle := (replicated_iff hcluster N).mp hrepl
    -- the candidate's term is between that of `N` and the current one
    have hcand : term_at (candidate_n leader_last_index match_index cluster_size)
        = current_term := by
      have hge := hmono N _ (by omega) hle hlast
      have hub := hterm (candidate_n leader_last_index match_index cluster_size) (by omega) hlast
      omega
    rw [if_pos ⟨by omega, hcand⟩]
    refine ⟨⟨by omega, (replicated_iff hcluster _).mpr (le_refl _), hcand⟩, ?_⟩
    rintro M ⟨-, hM, -⟩
    exact (replicated_iff hcluster M).mp hM
  · intro hnone
    apply if_neg
    rintro ⟨hgt, hcand⟩
    exact hnone ⟨_, hgt, (replicated_iff hcluster _).mpr (le_refl _), hcand⟩

/-- Five nodes in term 2. Index 3 is on three of them and of term 2, index 4 only on two. -/
theorem compute_new_commit_index_exact_five :
    IsGreatest {N | Committable 4 [4, 3, 1, 0] 5 1 2 (fun i => if i ≤ 2 then 1 else 2) N}
      (compute_new_commit_index 4 [4, 3, 1, 0] 5 1 2 (fun i => if i ≤ 2 then 1 else 2)) :=
  (compute_new_commit_index_exact 5 4 [4, 3, 1, 0] 1 2 (fun i => if i ≤ 2 then 1 else 2)
    (by decide) (by decide) (by decide)
    (by intro i j _ _ _; split_ifs <;> omega)
    (by intro i _ _; split_ifs <;> omega)).1
    ⟨3, ⟨by decide, by unfold Replicated; decide, by decide⟩⟩

end NanoDB.Raft
