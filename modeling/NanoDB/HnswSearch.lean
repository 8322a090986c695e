/-
What a search returns, in terms of the nodes it can reach and of those it has visited.

With a beam as wide as the number of live nodes that can be reached, the early exit of
`search_layer` can only fire when nothing is left to find, and the bounded queue never drops
anything: the search is exact on the reachable part (`wide_beam_exact`). With any beam the
queue holds the nearest of the live nodes visited so far (`Beam.Best`), so the result is right
about what was visited, whatever was not (`search_sound`).

What is alive is said without the index: `contents` is the vector that was last inserted under
an id and not deleted since. `Holds` connects it to the slots.
-/
import Mathlib.Data.Set.Card
import NanoDB.HnswRevive
import NanoDB.Lib.BeamVisits

set_option autoImplicit false

namespace NanoDB.Index

open Beam (Cand Ties)

variable {V D : Type*} [Zero V]

/-! ## Live nodes that can be reached -/

/-- The live nodes that a search of a layer can reach, also through deleted ones. -/
def HNSW.LiveReach (s : HNSW V) (layer entry : ℕ) : Set ℕ :=
  { j | Relation.ReflTransGen (fun a b => b ∈ s.links layer a) entry j ∧
    (s.get_node j).is_deleted = false }

/-- The results that stand for a set of nodes. -/
def HNSW.Answers (s : HNSW V) (dist : V → V → D) (q : V) (N : Set ℕ) : Set (Result D) :=
  { r | r.id ∈ N ∧ r.distance = dist q (s.get_node r.id).vector ∧
    r.metadata = s.get_metadata r.id }

section Reach

variable {s : HNSW V} (hs : s.Region (fun i => i ∈ s.nodes.keys)) {entry : ℕ}
  (hentry : entry ∈ s.nodes.keys)

include hs hentry

theorem liveReach_subset (layer : ℕ) : s.LiveReach layer entry ⊆ { j | j ∈ s.nodes.keys } := by
  rintro j ⟨hreach, -⟩
  induction hreach with
  | refl => exact hentry
  | tail _ hedge ih => exact hs.closed _ ih layer _ hedge

theorem liveReach_finite (layer : ℕ) : (s.LiveReach layer entry).Finite :=
  (List.finite_toSet s.nodes.keys).subset (liveReach_subset hs hentry layer)

theorem liveReach_ncard_le (layer : ℕ) :
    (s.LiveReach layer entry).ncard ≤ s.nodes.keys.length := by
  have hsub : s.LiveReach layer entry ⊆ (s.nodes.keys.toFinset : Set ℕ) := by
    intro j hj
    rw [Finset.mem_coe, List.mem_toFinset]
    exact liveReach_subset hs hentry layer hj
  have hle := Set.ncard_le_ncard hsub (Finset.finite_toSet _)
  rw [Set.ncard_coe_finset] at hle
  exact hle.trans (List.toFinset_card_le _)

end Reach

/-! ## Reading the results -/

section Search

variable [LinearOrder D] (ties : Ties D) (dist : V → V → D)

omit [LinearOrder D] in
theorem query_live {s : HNSW V} {q : V} {layer j : ℕ} :
    (s.query dist q layer).live j = true ↔ (s.get_node j).is_deleted = false := by
  rw [HNSW.query, Bool.not_eq_true']

/-- The last loop of `search` on results that are all alive. -/
theorem collect_live {s : HNSW V} {found : List (Cand D)}
    (hlive : ∀ c ∈ found, (s.get_node c.id).is_deleted = false) (k : ℕ) :
    s.collect ties k found = ((Beam.nearest_first ties found).take k).map
      (fun c => ⟨c.id, c.distance, s.get_metadata c.id⟩) := by
  have hall : (Beam.nearest_first ties found).filter (fun c => !(s.get_node c.id).is_deleted)
      = Beam.nearest_first ties found := by
    rw [List.filter_eq_self]
    intro c hc
    rw [hlive c ((Beam.nearest_first_perm ties found).mem_iff.mp hc)]
    rfl
  rw [HNSW.collect, hall]

omit [LinearOrder D] in
/-- The candidates for a set of nodes, with their metadata. -/
theorem image_answers (s : HNSW V) (q : V) (N : Set ℕ) :
    (fun c : Cand D => (⟨c.id, c.distance, s.get_metadata c.id⟩ : Result D)) ''
      { c | c.id ∈ N ∧ c.distance = dist q (s.get_node c.id).vector } = s.Answers dist q N := by
  ext r
  constructor
  · rintro ⟨c, ⟨hN, hdist⟩, rfl⟩
    exact ⟨hN, hdist, rfl⟩
  · rintro ⟨hN, hdist, hmeta⟩
    refine ⟨⟨r.distance, r.id⟩, ⟨hN, hdist⟩, ?_⟩
    change (⟨r.id, r.distance, s.get_metadata r.id⟩ : Result D) = r
    rw [← hmeta]

/-- The results of a search are the `k` nearest of a set, if what the beam search found is. -/
theorem collect_top {s : HNSW V} {q : V} {N : Set ℕ} {found : List (Cand D)} {k : ℕ}
    (hlive : ∀ c ∈ found, (s.get_node c.id).is_deleted = false)
    (htop : Ranking.Top Cand.distance Cand.id k
      { c : Cand D | c.id ∈ N ∧ c.distance = dist q (s.get_node c.id).vector }
      ((Beam.nearest_first ties found).take k)) :
    Ranking.Top Result.distance Result.id k (s.Answers dist q N) (s.collect ties k found) := by
  rw [collect_live ties hlive, ← image_answers dist s q N]
  exact Ranking.Top.map
    (f := fun c : Cand D => (⟨c.id, c.distance, s.get_metadata c.id⟩ : Result D))
    (fun _ => rfl) (fun _ => rfl) htop

/-- The way of a search: it enters layer 0 at a written node and collects what is found there. -/
theorem search_enters {s : HNSW V} (hs : s.Region (fun i => i ∈ s.nodes.keys))
    (hentry : s.entry_point_id ≠ NO_ENTRY) (hwritten : s.entry_point_id ∈ s.nodes.keys) (q : V)
    (k ef : ℕ) : ∃ b, s.descend dist q (layers_down s.current_max_layer 0)
        (s.entry_point_id, dist q (s.get_node s.entry_point_id).vector) = some b ∧
      b.1 ∈ s.nodes.keys ∧ s.search ties dist q k ef
        = (s.search_layer ties dist b.1 q (ef_search ef k) 0).map (s.collect ties k) := by
  obtain ⟨b, hb, hKb⟩ := descend_spec dist hs q (layers_down s.current_max_layer 0)
    s.entry_point_id hwritten
  refine ⟨_, hb, hKb, ?_⟩
  rw [HNSW.search, if_neg hentry]
  dsimp only
  rw [hb, Option.bind_some]

/-! ## Wide beams -/

/-- **A wide beam finds everything** that can be reached and is alive, each once. -/
theorem search_layer_exact {s : HNSW V} (hs : s.Region (fun i => i ∈ s.nodes.keys)) {entry : ℕ}
    (hentry : entry ∈ s.nodes.keys) (q : V) {layer ef : ℕ}
    (hef : (s.LiveReach layer entry).ncard ≤ ef) :
    ∃ found, s.search_layer ties dist entry q ef layer = some found ∧
      (found.map Cand.id).Nodup ∧
      (∀ j, j ∈ found.map Cand.id ↔ j ∈ s.LiveReach layer entry) ∧
      ∀ c ∈ found, c.distance = dist q (s.get_node c.id).vector := by
  obtain ⟨found, hfound, hdel, -⟩ := search_layer_spec ties dist hs hentry q ef layer
  have hsound : ∀ j, j ∈ found.map Cand.id → j ∈ s.LiveReach layer entry := by
    intro j hj
    obtain ⟨c, hc, rfl⟩ := List.mem_map.mp hj
    exact ⟨(hdel.sound c hc).1, (query_live dist).mp (hdel.sound c hc).2.1⟩
  refine ⟨found, hfound, hdel.nodup, fun j => ⟨hsound j, fun hj => ?_⟩,
    fun c hc => (hdel.sound c hc).2.2⟩
  rcases hdel.complete with hfull | hall
  · -- as many as can be reached: the two sets are the same
    have hsub : ((found.map Cand.id).toFinset : Set ℕ) ⊆ s.LiveReach layer entry := by
      intro i hi
      exact hsound i (List.mem_toFinset.mp hi)
    have hcard : (s.LiveReach layer entry).ncard
        ≤ ((found.map Cand.id).toFinset : Set ℕ).ncard := by
      rw [Set.ncard_coe_finset, List.toFinset_card_of_nodup hdel.nodup, List.length_map]
      exact hef.trans hfull
    have heq := Set.eq_of_subset_of_ncard_le hsub hcard (liveReach_finite hs hentry layer)
    rw [← heq] at hj
    exact List.mem_toFinset.mp hj
  · exact hall j hj.1 ((query_live dist).mpr hj.2)

/-- **Wide-beam search is exact.** If the links of an index point to written nodes, a beam at
least as wide as the number of live nodes that can be reached finds exactly these, each once
and with its distance; and a search returns the `k` nearest of those that can be reached from
where it enters layer 0, nearest first. -/
theorem wide_beam_exact {s : HNSW V} (hs : s.Region (fun i => i ∈ s.nodes.keys)) (q : V) :
    (∀ layer entry ef, entry ∈ s.nodes.keys → (s.LiveReach layer entry).ncard ≤ ef →
      ∃ found, s.search_layer ties dist entry q ef layer = some found ∧
        (found.map Cand.id).Nodup ∧
        (∀ j, j ∈ found.map Cand.id ↔ j ∈ s.LiveReach layer entry) ∧
        ∀ c ∈ found, c.distance = dist q (s.get_node c.id).vector) ∧
    ∀ k ef, s.entry_point_id ≠ NO_ENTRY → s.entry_point_id ∈ s.nodes.keys →
      ∃ b, s.descend dist q (layers_down s.current_max_layer 0)
          (s.entry_point_id, dist q (s.get_node s.entry_point_id).vector) = some b ∧
        ((s.LiveReach 0 b.1).ncard ≤ ef_search ef k →
          ∃ results, s.search ties dist q k ef = some results ∧
            Ranking.Top Result.distance Result.id k
              (s.Answers dist q (s.LiveReach 0 b.1)) results) := by
  refine ⟨fun layer entry ef hentry hef => search_layer_exact ties dist hs hentry q hef,
    fun k ef hentry hwritten => ?_⟩
  obtain ⟨b, hb, hbw, hsearch⟩ := search_enters ties dist hs hentry hwritten q k ef
  refine ⟨b, hb, fun hef => ?_⟩
  obtain ⟨found, hfound, hnodup, hiff, hdist⟩ := search_layer_exact ties dist hs hbw q hef
  rw [hfound] at hsearch
  have hperm := Beam.nearest_first_perm ties found
  have hmem : ∀ c ∈ found, c.id ∈ s.LiveReach 0 b.1 :=
    fun c hc => (hiff c.id).mp (List.mem_map_of_mem hc)
  -- everything was found, so the drained queue ranks the whole set
  have hranks : Ranking.Ranks Cand.distance Cand.id
      { c : Cand D | c.id ∈ s.LiveReach 0 b.1 ∧ c.distance = dist q (s.get_node c.id).vector }
      (Beam.nearest_first ties found) := by
    refine ⟨Beam.nearest_first_sorted ties found, ?_, ?_, ?_⟩
    · exact (hperm.map Cand.id).nodup_iff.mpr hnodup
    · intro c hc
      have hc := hperm.mem_iff.mp hc
      exact ⟨hmem c hc, hdist c hc⟩
    · rintro c ⟨hc, hcdist⟩
      obtain ⟨d, hd, hid⟩ := List.mem_map.mp ((hiff c.id).mpr hc)
      refine ⟨d, hperm.mem_iff.mpr hd, hid, le_of_eq ?_⟩
      rw [hdist d hd, hid, hcdist]
  exact ⟨_, hsearch, collect_top ties dist (fun c hc => (hmem c hc).2) (hranks.top k)⟩

/-- Three points of which one is deleted: the beam of three finds what can be reached. -/
theorem wide_beam_exact_three_points :
    ∃ s, Trace.run (step Ties.first l2_distance) (HNSW.fresh shard_file) three_points = some s ∧
      (∃ found, s.search_layer Ties.first l2_distance 0 (axis 0 0) 3 0 = some found ∧
        ∀ j, j ∈ found.map Cand.id ↔ j ∈ s.LiveReach 0 0) ∧
      (s.search_layer Ties.first l2_distance 0 (axis 0 0) 3 0).map (List.map Cand.id)
        = some [2, 0] := by
  have hall : (Trace.run (step Ties.first l2_distance) (HNSW.fresh shard_file) three_points).map
      (fun s => (decide (0 ∈ s.nodes.keys ∧ s.nodes.keys.length ≤ 3),
        (s.search_layer Ties.first l2_distance 0 (axis 0 0) 3 0).map (List.map Cand.id)))
      = some (true, some [2, 0]) := by
    decide +kernel
  obtain ⟨s, hrun, hs⟩ := Option.map_eq_some_iff.mp hall
  obtain ⟨hkeys, hfound⟩ := Prod.mk.inj hs
  obtain ⟨hzero, hlen⟩ := of_decide_eq_true hkeys
  have hregion := (sound_run Ties.first l2_distance hrun).region
  obtain ⟨found, hsearch, -, hiff, -⟩ := (wide_beam_exact Ties.first l2_distance hregion
    (axis 0 0)).1 0 0 3 hzero ((liveReach_ncard_le hregion hzero 0).trans hlen)
  exact ⟨s, hrun, ⟨found, hsearch, hiff⟩, hfound⟩

end Search

/-! ## What is alive -/

/-- An operation, on the vectors that were inserted and not deleted since. -/
def contents_step (c : ℕ → Option V) : Op V → ℕ → Option V
  | .insert i => Function.update c i.id (some i.vec_data)
  | .delete id => Function.update c id none

/-- The vectors that are alive after a list of operations. -/
def contents (ops : List (Op V)) : ℕ → Option V := ops.foldl contents_step (fun _ => none)

/-- The index holds these vectors. -/
structure Holds (s : HNSW V) (c : ℕ → Option V) : Prop where
  sound : s.Sound
  written : ∀ j ∈ s.nodes.keys, s.get_vector_data j = c j
  unwritten : ∀ j, j ∉ s.nodes.keys → c j = none

theorem holds_fresh (storage_size : ℕ) :
    Holds (HNSW.fresh storage_size : HNSW V) (fun _ => none) :=
  ⟨fresh_sound storage_size, fun _ hj => absurd hj (by simp [HNSW.fresh, Store.keys]),
    fun _ _ => rfl⟩

/-- What an index holds is in its nodes. -/
theorem Holds.same {s u : HNSW V} {c : ℕ → Option V} (h : Holds s c) (hnodes : u.nodes = s.nodes)
    (hsize : u.storage_size = s.storage_size)
    (hentry : u.entry_point_id ≠ NO_ENTRY → u.entry_point_id ∈ s.nodes.keys) : Holds u c := by
  obtain ⟨nodes, size, ep, top, count, md⟩ := u
  dsimp only at hnodes hsize
  subst hnodes hsize
  exact ⟨⟨⟨h.sound.region.closed, h.sound.region.range⟩, hentry⟩, h.written, h.unwritten⟩

/-- A live slot has the vector that was inserted last. -/
theorem Holds.live {s : HNSW V} {c : ℕ → Option V} (h : Holds s c) {j : ℕ}
    (hj : j ∈ s.nodes.keys) (hlive : (s.get_node j).is_deleted = false) :
    c j = some (s.get_node j).vector := by
  rw [← h.written j hj, get_vector_data_written h.sound hj, if_neg (by simp [hlive])]

theorem holds_delete {s : HNSW V} {c : ℕ → Option V} (h : Holds s c) (id : ℕ) :
    Holds (s.delete_vector id) (Function.update c id none) := by
  obtain ⟨hsound, hkeys, hback, -, hdead, hne⟩ := delete_spec h.sound id
  refine ⟨hsound, fun j hj => ?_, fun j hj => ?_⟩
  · by_cases hjid : j = id
    · subst hjid
      rw [Function.update_self]
      exact hdead hj
    · rw [Function.update_of_ne hjid, hne j hjid]
      exact h.written j ((hback j hj).resolve_right hjid)
  · by_cases hjid : j = id
    · rw [hjid, Function.update_self]
    · rw [Function.update_of_ne hjid]
      exact h.unwritten j (fun hold => hj (hkeys j hold))

theorem holds_write {s s' : HNSW V} {c : ℕ → Option V} (h : Holds s c) {i : Insertion V}
    (hw : Writes s i s') : Holds s' (contents_step c (.insert i)) := by
  refine ⟨hw.sound, fun j hj => ?_, fun j hj => ?_⟩
  · rw [contents_step]
    by_cases hji : j = i.id
    · rw [hji, Function.update_self]
      exact hw.vector_self
    · have hold := ((hw.keys j).mp hj).resolve_left hji
      rw [Function.update_of_ne hji, hw.vector_ne j hji hold]
      exact h.written j hold
  · rw [hw.keys, not_or] at hj
    rw [contents_step, Function.update_of_ne hj.1]
    exact h.unwritten j hj.2

section Runs

variable [LinearOrder D] (ties : Ties D) (dist : V → V → D)

/-- Every operation returns and is tracked. -/
theorem holds_step {s : HNSW V} {c : ℕ → Option V} (h : Holds s c) (op : Op V) :
    ∃ s', step ties dist s op = some s' ∧ Holds s' (contents_step c op) := by
  cases op with
  | delete id => exact ⟨_, rfl, holds_delete h id⟩
  | insert i =>
      obtain ⟨s', hstep, hw⟩ := insert_writes ties dist h.sound i
      exact ⟨s', hstep, holds_write h hw⟩

/-- **Every run** of operations goes through, and the index holds what they left. -/
theorem holds_run (ops : List (Op V)) : ∀ (s : HNSW V) (c : ℕ → Option V), Holds s c →
    ∃ s', Trace.run (step ties dist) s ops = some s' ∧ Holds s' (ops.foldl contents_step c) := by
  induction ops with
  | nil =>
      intro s c h
      exact ⟨s, rfl, h⟩
  | cons op ops ih =>
      intro s c h
      obtain ⟨m, hm, hhold⟩ := holds_step ties dist h op
      obtain ⟨s', hrun, hs'⟩ := ih m _ hhold
      refine ⟨s', ?_, hs'⟩
      rw [Trace.run_step hm]
      exact hrun

/-! ## Any beam -/

/-- The beam of a search has room for a result, and for as many as it is asked for. -/
theorem ef_search_bounds (ef k : ℕ) : 1 ≤ ef_search ef k ∧ k ≤ ef_search ef k := by
  unfold ef_search
  split_ifs
  · omega
  · omega

/-- What is collected from a traversal that has room is the top of the live nodes it visited. -/
theorem collect_traverse_top {s : HNSW V} {q : V} {k ef start : ℕ} {traversal : Beam.State D}
    (hone : 1 ≤ ef) (hk : k ≤ ef)
    (hlive : ∀ c ∈ traversal.found, (s.get_node c.id).is_deleted = false)
    (htraverse : Beam.traverse ties (s.query dist q 0) ef start = some traversal) :
    Ranking.Top Result.distance Result.id k (s.Answers dist q
      { j | j ∈ traversal.visited ∧ (s.get_node j).is_deleted = false })
      (s.collect ties k traversal.found) := by
  refine collect_top ties dist hlive ?_
  have hbest := ((Beam.traverse_best ties hone htraverse).top ties).take hk
  have hset : { c : Cand D | c.id ∈ traversal.visited ∧
        (s.query dist q 0).live c.id = true ∧ c.distance = (s.query dist q 0).dist c.id }
      = { c : Cand D | c.id ∈ { j | j ∈ traversal.visited ∧ (s.get_node j).is_deleted = false } ∧
        c.distance = dist q (s.get_node c.id).vector } := by
    ext c
    simp only [Set.mem_ofPred_eq, query_live, and_assoc]
    rfl
  rw [hset] at hbest
  exact hbest

/-- **Search soundness.** After any inserts and deletes every search returns at most `k` results,
with distinct ids, nearest first, all alive and with the distance of the vector that was inserted
last. They are the nearest of the live nodes that the traversal of layer 0 visited, and as many
as were asked for or found. -/
theorem search_sound (storage_size : ℕ) (ops : List (Op V)) :
    ∃ s, Trace.run (step ties dist) (HNSW.fresh storage_size) ops = some s ∧
      ∀ (q : V) (k ef : ℕ), ∃ results, s.search ties dist q k ef = some results ∧
        results.length ≤ k ∧ (results.map Result.id).Nodup ∧
        results.Pairwise (fun a b => a.distance ≤ b.distance) ∧
        (∀ r ∈ results, ∃ v, contents ops r.id = some v ∧ r.distance = dist q v) ∧
        ((s.entry_point_id = NO_ENTRY ∧ results = []) ∨
          ∃ b traversal, s.descend dist q (layers_down s.current_max_layer 0)
              (s.entry_point_id, dist q (s.get_node s.entry_point_id).vector) = some b ∧
            Beam.traverse ties (s.query dist q 0) (ef_search ef k) b.1 = some traversal ∧
            results.length = min k traversal.found.length ∧
            Ranking.Top Result.distance Result.id k (s.Answers dist q
              { j | j ∈ traversal.visited ∧ (s.get_node j).is_deleted = false }) results) := by
  obtain ⟨s, hrun, hholds⟩ := holds_run ties dist ops _ _ (holds_fresh storage_size)
  refine ⟨s, hrun, fun q k ef => ?_⟩
  by_cases hentry : s.entry_point_id = NO_ENTRY
  · refine ⟨[], by rw [HNSW.search, if_pos hentry], Nat.zero_le k, List.nodup_nil,
      List.Pairwise.nil, fun r hr => absurd hr List.not_mem_nil, Or.inl ⟨hentry, rfl⟩⟩
  obtain ⟨hregion, hwritten⟩ := hholds.sound
  obtain ⟨hone, hk⟩ := ef_search_bounds ef k
  obtain ⟨b, hb, hbw, hsearch⟩ :=
    search_enters ties dist hregion hentry (hwritten hentry) q k ef
  obtain ⟨found, hfound, hdel, hkeys⟩ :=
    search_layer_spec ties dist hregion hbw q (ef_search ef k) 0
  rw [hfound] at hsearch
  -- the state in which the traversal ended
  rw [HNSW.search_layer, Beam.search_eq_map, Option.map_eq_some_iff] at hfound
  obtain ⟨traversal, htraverse, rfl⟩ := hfound
  have hlive : ∀ c ∈ traversal.found, (s.get_node c.id).is_deleted = false := by
    intro c hc
    exact (query_live dist).mp (hdel.sound c hc).2.1
  have htop := collect_traverse_top ties dist hone hk hlive htraverse
  have hcollect := collect_live ties hlive k
  refine ⟨_, hsearch, htop.short, htop.nodup, htop.sorted, fun r hr => ?_,
    Or.inr ⟨b, traversal, hb, htraverse, ?_, htop⟩⟩
  · obtain ⟨⟨-, hrlive⟩, hdist, -⟩ := htop.mem r hr
    have hrkey : r.id ∈ s.nodes.keys := by
      rw [hcollect] at hr
      obtain ⟨c, hc, rfl⟩ := List.mem_map.mp hr
      exact hkeys c ((Beam.nearest_first_perm ties _).mem_iff.mp (List.mem_of_mem_take hc))
    exact ⟨_, hholds.live hrkey hrlive, hdist⟩
  · rw [hcollect, List.length_map, List.length_take,
      (Beam.nearest_first_perm ties traversal.found).length_eq]

/-- Every search of an index returns, and finds in what the index holds. -/
theorem Holds.search {s : HNSW V} {c : ℕ → Option V} (h : Holds s c) (q : V) (k ef : ℕ) :
    ∃ results, s.search ties dist q k ef = some results ∧
      results.length ≤ k ∧ (results.map Result.id).Nodup ∧
      results.Pairwise (fun a b => a.distance ≤ b.distance) ∧
      ∀ r ∈ results, ∃ v, c r.id = some v ∧ r.distance = dist q v ∧
        r.metadata = s.get_metadata r.id := by
  by_cases hentry : s.entry_point_id = NO_ENTRY
  · refine ⟨[], by rw [HNSW.search, if_pos hentry], Nat.zero_le k, List.nodup_nil,
      List.Pairwise.nil, fun r hr => absurd hr List.not_mem_nil⟩
  obtain ⟨hregion, hwritten⟩ := h.sound
  obtain ⟨hone, hk⟩ := ef_search_bounds ef k
  obtain ⟨b, -, hbw, hsearch⟩ := search_enters ties dist hregion hentry (hwritten hentry) q k ef
  obtain ⟨found, hfound, hdel, hkeys⟩ :=
    search_layer_spec ties dist hregion hbw q (ef_search ef k) 0
  rw [hfound] at hsearch
  rw [HNSW.search_layer, Beam.search_eq_map, Option.map_eq_some_iff] at hfound
  obtain ⟨traversal, htraverse, rfl⟩ := hfound
  have hlive : ∀ c ∈ traversal.found, (s.get_node c.id).is_deleted = false :=
    fun c hc => (query_live dist).mp (hdel.sound c hc).2.1
  have htop := collect_traverse_top ties dist hone hk hlive htraverse
  refine ⟨_, hsearch, htop.short, htop.nodup, htop.sorted, fun r hr => ?_⟩
  obtain ⟨⟨-, hrlive⟩, hdist, hmeta⟩ := htop.mem r hr
  have hrkey : r.id ∈ s.nodes.keys := by
    rw [collect_live ties hlive k] at hr
    obtain ⟨c, hc, rfl⟩ := List.mem_map.mp hr
    exact hkeys c ((Beam.nearest_first_perm ties _).mem_iff.mp (List.mem_of_mem_take hc))
  exact ⟨_, h.live hrkey hrlive, hdist, hmeta⟩

end Runs

end NanoDB.Index
