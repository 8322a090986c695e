/-
`select_neighbors_heuristic` of `include/index/hnsw.hpp`: which candidates become neighbours.

The loop goes through the candidates, nearest first, and keeps one only if no neighbour kept so
far is nearer to it than the base element is; with no more candidates than slots it keeps all of
them. `Selected` says what comes out. Whether a candidate is kept depends on those before it, and
the list may name a node twice, so the statement is about places: `Selection.mark` follows the loop
and notes each decision beside its candidate.
-/
import NanoDB.HnswGraph

set_option autoImplicit false

namespace NanoDB.Index

open Beam (Cand Ties)
open Selection (mark taken)

variable {V D : Type*} [Zero V] [LinearOrder D] (dist : V → V → D) (s : HNSW V)

/-! ## The selection -/

/-- What the selection delivers. `marks` are the candidates, in order, with whether each was
kept. -/
structure Selected (ordered : List (Cand D)) (max_keep exclude_id : ℕ) (selected : List ℕ)
    (marks : List (Cand D × Bool)) : Prop where
  candidates : marks.map Prod.fst = ordered
  kept_ids : (taken marks).map Cand.id = selected
  sublist : selected.Sublist (ordered.map Cand.id)
  not_excluded : exclude_id ∉ selected
  length : selected.length ≤ max_keep
  kept : max_keep < ordered.length → ∀ pre c post, marks = pre ++ (c, true) :: post →
    ∀ e ∈ taken pre,
      c.distance ≤ dist (s.get_node c.id).vector (s.get_node e.id).vector
  passed_over : max_keep < ordered.length → ∀ pre c post, marks = pre ++ (c, false) :: post →
    c.id ≠ exclude_id →
      (∃ e ∈ taken pre, dist (s.get_node c.id).vector (s.get_node e.id).vector < c.distance) ∨
        (taken pre).length = max_keep
  nearest : ∀ c, ordered.find? (fun c => c.id ≠ exclude_id) = some c →
    (taken marks).head? = some c ∧
      ∀ e ∈ ordered, e.id ≠ exclude_id → c.distance ≤ e.distance

variable {dist s}

/-- A candidate is kept only if it is far enough from those kept before. -/
theorem far_of_keeps {max_keep exclude_id : ℕ} {kept : List (Cand D)} {c : Cand D}
    (h : s.keeps dist false max_keep exclude_id kept c = true) :
    ∀ e ∈ kept, c.distance ≤ dist (s.get_node c.id).vector (s.get_node e.id).vector := by
  obtain ⟨-, -, hall | hfar⟩ := of_decide_eq_true h
  · simp at hall
  · exact fun e he => not_lt.mp (hfar e he)

/-- A candidate is passed over for one of three reasons. -/
theorem near_or_full_of_not_keeps {max_keep exclude_id : ℕ} {kept : List (Cand D)} {c : Cand D}
    (h : s.keeps dist false max_keep exclude_id kept c = false) (hex : c.id ≠ exclude_id)
    (hroom : kept.length ≤ max_keep) :
    (∃ e ∈ kept, dist (s.get_node c.id).vector (s.get_node e.id).vector < c.distance) ∨
      kept.length = max_keep := by
  by_contra hneither
  rw [not_or] at hneither
  obtain ⟨hfar, hfull⟩ := hneither
  refine of_decide_eq_false h ⟨lt_of_le_of_ne hroom hfull, hex, Or.inr ?_⟩
  exact fun e he hlt => hfar ⟨e, he, hlt⟩

/-- In a sorted list the first element with a property is the least one. -/
theorem find?_nearest {p : Cand D → Bool} {ordered : List (Cand D)}
    (hsorted : ordered.Pairwise (fun a b => a.distance ≤ b.distance)) {c : Cand D}
    (hc : ordered.find? p = some c) : ∀ e ∈ ordered, p e = true → c.distance ≤ e.distance := by
  obtain ⟨-, pre, post, rfl, hpre⟩ := List.find?_eq_some_iff_append.mp hc
  intro e he hpe
  rcases List.mem_append.mp he with hbefore | hafter
  · have hno := hpre e hbefore
    rw [hpe] at hno
    simp at hno
  rcases List.mem_cons.mp hafter with rfl | hlater
  · exact le_refl _
  · have hrest := (List.pairwise_append.mp hsorted).2.1
    exact List.rel_of_pairwise_cons hrest hlater

/-- The selection, with the marks of its own loop. -/
theorem select_selected {ordered : List (Cand D)}
    (hsorted : ordered.Pairwise (fun a b => a.distance ≤ b.distance)) {max_keep : ℕ}
    (hkeep : 1 ≤ max_keep) (exclude_id : ℕ) :
    Selected dist s ordered max_keep exclude_id
      (s.select_neighbors_heuristic dist ordered max_keep exclude_id)
      (mark (s.keeps dist (decide (ordered.length ≤ max_keep)) max_keep exclude_id) []
        ordered) := by
  obtain ⟨hsub, hex, hlen⟩ := select_spec dist s ordered max_keep exclude_id
  have hids := select_eq dist s ordered max_keep exclude_id
  have hchoosing : max_keep < ordered.length → decide (ordered.length ≤ max_keep) = false :=
    fun h => decide_eq_false (not_le.mpr h)
  refine ⟨Selection.map_fst_mark _ _ _, hids.symm, hsub, hex, hlen, ?_, ?_, ?_⟩
  · intro hmore pre c post hmarks
    have hdecided := Selection.mark_split hmarks
    rw [hchoosing hmore, List.nil_append] at hdecided
    exact far_of_keeps hdecided.symm
  · intro hmore pre c post hmarks hne
    have hdecided := Selection.mark_split hmarks
    rw [hchoosing hmore, List.nil_append] at hdecided
    apply near_or_full_of_not_keeps hdecided.symm hne
    have hpre := Selection.taken_sublist (List.sublist_append_left pre ((c, false) :: post))
    have htaken := congrArg List.length hids
    rw [List.length_map, hmarks] at htaken
    exact hpre.length_le.trans (htaken.symm.le.trans hlen)
  · intro c hc
    rw [Selection.head?_taken_mark, keeps_nil dist s hkeep]
    refine ⟨hc, fun e he hne => ?_⟩
    exact find?_nearest hsorted hc e he (decide_eq_true hne)

/-- A full list is not empty. -/
theorem max_conn_pos (layer : ℕ) : 0 < max_conn layer := by
  rw [max_conn]
  split <;> decide

/-- **Linking never empties a list.** Among the neighbours and the new one there is always one that
is not the node itself: either the new one, or, since that is not among the neighbours, any of
them. -/
theorem add_link_ne_nil (ties : Ties D) (src dest layer : ℕ) :
    (s.add_link ties dist src dest layer).links layer src ≠ [] := by
  by_cases hroom : (s.links layer src).length < max_conn layer
  · rw [add_link_room ties dist s dest hroom]
    exact List.append_ne_nil_of_right_ne_nil _ (List.cons_ne_nil dest [])
  have hpos := max_conn_pos layer
  obtain ⟨n, hn⟩ : ∃ n, n ∈ s.links layer src :=
    List.exists_mem_of_length_pos (by omega)
  unfold HNSW.add_link
  dsimp only
  rw [if_neg hroom]
  by_cases hlinked : dest ∈ s.links layer src
  · rw [if_pos hlinked]
    exact List.ne_nil_of_mem hn
  · rw [if_neg hlinked, links_set_links, if_pos ⟨rfl, rfl⟩]
    obtain ⟨m, hm, hne⟩ : ∃ m ∈ s.links layer src ++ [dest], m ≠ src := by
      by_cases hself : dest = src
      · refine ⟨n, List.mem_append_left _ hn, ?_⟩
        rintro rfl
        exact hlinked (hself ▸ hn)
      · exact ⟨dest, List.mem_append_right _ List.mem_cons_self, hself⟩
    apply select_ne_nil dist s hpos
    refine ⟨⟨dist (s.get_node src).vector (s.get_node m).vector, m⟩, ?_, hne⟩
    exact (ties.sort_perm _).mem_iff.mpr (List.mem_map.mpr ⟨m, hm, rfl⟩)

/-- **The diversity selection meets its specification**, for every list of candidates that is
sorted nearest first, and linking a node never leaves it without a neighbour. -/
theorem select_neighbors_heuristic_meets_spec (dist : V → V → D) (s : HNSW V)
    (ordered : List (Cand D)) (hsorted : ordered.Pairwise (fun a b => a.distance ≤ b.distance))
    (max_keep : ℕ) (hkeep : 1 ≤ max_keep) (exclude_id : ℕ) :
    (∃ marks, Selected dist s ordered max_keep exclude_id
      (s.select_neighbors_heuristic dist ordered max_keep exclude_id) marks) ∧
    ∀ (ties : Ties D) (src dest layer : ℕ),
      (s.add_link ties dist src dest layer).links layer src ≠ [] :=
  ⟨⟨_, select_selected hsorted hkeep exclude_id⟩, add_link_ne_nil⟩

/-- Five nodes on a line. -/
def line : HNSW ℤ where
  nodes := [(0, Node.new 0 0 0), (1, Node.new 1 0 2), (2, Node.new 2 0 3), (3, Node.new 3 0 (-4)),
    (4, Node.new 4 0 (-5))]
  storage_size := slot_end 4

/-- The candidates for node 0, with node 0 itself among them. -/
def line_candidates : List (Cand ℕ) := [⟨0, 0⟩, ⟨2, 1⟩, ⟨3, 2⟩, ⟨4, 3⟩, ⟨5, 4⟩]

/-- Nodes 1 and 3 are kept; 2 is nearer to 1, and 4 comes after two were kept. -/
theorem line_selection :
    line.select_neighbors_heuristic (fun a b => (a - b).natAbs) line_candidates 2 0 = [1, 3] ∧
    (∃ marks, Selected (fun a b => (a - b).natAbs) line line_candidates 2 0
      (line.select_neighbors_heuristic (fun a b => (a - b).natAbs) line_candidates 2 0) marks) ∧
    ∀ (ties : Ties ℕ) (src dest layer : ℕ),
      (line.add_link ties (fun a b => (a - b).natAbs) src dest layer).links layer src ≠ [] :=
  ⟨by decide, select_neighbors_heuristic_meets_spec (fun a b => (a - b).natAbs) line
    line_candidates (by decide) 2 (by decide) 0⟩

end NanoDB.Index
