/-
What inserting a deleted id again does to the other ids.

`insert` overwrites the slot: the node keeps the links that lead to it and loses its own, on
every layer, before the search for its new neighbours starts. Three things can go wrong. If the
node is the entry point, that search starts at a node without links and finds nothing, and from
then on so does every search. If a link into the node is left on a layer above its new level,
the greedy descent can walk into it and get stuck there. And nodes that were only reached
through the links it lost are not reached any more.

`Bypassed` excludes the three, and new neighbours whose lists are full (`revival_keeps_results`);
`revived_entry_point_hides_others` is the first of them.
-/
import NanoDB.HnswFind
import NanoDB.HnswTable

set_option autoImplicit false

namespace NanoDB.Index

open Beam (Cand Ties)

variable {V D : Type*} [Zero V] [LinearOrder D] (ties : Ties D) (dist : V → V → D)

/-! ## The condition -/

/-- The nodes that a search can come across: those that can be reached from the entry point
along links of any layer. -/
def HNSW.Seen (s : HNSW V) : ℕ → Prop :=
  Relation.ReflTransGen (fun i j => ∃ l, j ∈ s.links l i) s.entry_point_id

/-- The graph does not need the node that is inserted again. -/
structure Bypassed (s : HNSW V) (i : Insertion V) : Prop where
  /-- The id is not the one that stands for "no entry point". -/
  id : i.id ≠ NO_ENTRY
  /-- The node is not the entry point. -/
  entry : s.entry_point_id ≠ i.id
  /-- No link leads to it on a layer above its new level. -/
  above : ∀ j, s.Seen j → j ≠ i.id → ∀ l, i.level.val < l → i.id ∉ s.links l j
  /-- There is room in the lists of its new neighbours. -/
  room : HasRoom ties dist s i
  /-- On layer 0 every other live node is reached from every other node on a path around it. -/
  around : ∀ j k, s.Seen j → j ≠ i.id → s.Seen k → k ≠ i.id → (s.get_node k).is_deleted = false →
    Relation.ReflTransGen (fun a b => b ∈ s.links 0 a ∧ b ≠ i.id) j k

/-! ## Runs -/

theorem seen_region {s : HNSW V} (hs : s.Sound) (hentry : s.entry_point_id ≠ NO_ENTRY) :
    s.Region s.Seen ∧ ∀ j, s.Seen j → j ∈ s.nodes.keys := by
  have hkeys : ∀ j, s.Seen j → j ∈ s.nodes.keys := by
    intro j hj
    induction hj with
    | refl => exact hs.entry hentry
    | tail _ hedge ih =>
        obtain ⟨l, hl⟩ := hedge
        exact hs.region.closed _ ih l _ hl
  exact ⟨⟨fun j hj l k hk => hj.tail ⟨l, hk⟩, fun j hj => hs.region.range j (hkeys j hj)⟩, hkeys⟩

/-- A path around a node is still there when the other nodes keep their links. -/
theorem reach_of_around {s s' : HNSW V} {id : ℕ} {K : ℕ → Prop}
    (hclosed : ∀ j, K j → ∀ k ∈ s.links 0 j, k ≠ id → K k)
    (hmono : ∀ j, K j → ∀ k ∈ s.links 0 j, k ∈ s'.links 0 j) {j k : ℕ} (hj : K j)
    (hpath : Relation.ReflTransGen (fun a b => b ∈ s.links 0 a ∧ b ≠ id) j k) :
    K k ∧ s'.Reach0 j k := by
  induction hpath with
  | refl => exact ⟨hj, Relation.ReflTransGen.refl⟩
  | tail _ hedge ih =>
      exact ⟨hclosed _ ih.1 _ hedge.1 hedge.2, ih.2.tail (hmono _ ih.1 _ hedge.1)⟩

/-- In a graph whose nodes are all linked with each other no node but the entry point is
needed. -/
theorem bypassed_of_complete {s : HNSW V} (hs : s.Sound) (hentry : s.entry_point_id ≠ NO_ENTRY)
    {i : Insertion V} (hid : i.id ≠ NO_ENTRY) (hep : s.entry_point_id ≠ i.id)
    (habove : ∀ j ∈ s.nodes.keys, ∀ l ∈ (s.get_node j).neighbors.keys, l ≤ i.level.val)
    (hroom : HasRoom ties dist s i)
    (hlinked : ∀ j ∈ s.nodes.keys, ∀ k ∈ s.nodes.keys, j = k ∨ k ∈ s.links 0 j) :
    Bypassed ties dist s i := by
  have hkeys := (seen_region hs hentry).2
  refine ⟨hid, hep, fun j hj _ l hl hmem => ?_, hroom, fun j k hj _ hk hki _ => ?_⟩
  · rw [HNSW.links, Store.get_of_not_mem _ _ (fun h => by
      have := habove j (hkeys j hj) l h
      omega)] at hmem
    simp at hmem
  · rcases hlinked j (hkeys j hj) k (hkeys k hk) with rfl | hlink
    · exact Relation.ReflTransGen.refl
    · exact Relation.ReflTransGen.single ⟨hlink, hki⟩

/-- Every run keeps the links among the written slots. -/
theorem sound_run {storage_size : ℕ} {ops : List (Op V)} {s : HNSW V}
    (hrun : Trace.run (step ties dist) (HNSW.fresh storage_size) ops = some s) : s.Sound := by
  exact Trace.run_invariant (fun _ _ _ hs hstep => sound_step ties dist hs hstep)
    (fresh_sound storage_size) hrun

/-- Every search returns. -/
theorem sound_search {s : HNSW V} (hs : s.Sound) (q : V) (k ef : ℕ) :
    ∃ results, s.search ties dist q k ef = some results := by
  by_cases hentry : s.entry_point_id = NO_ENTRY
  · refine ⟨[], ?_⟩
    rw [HNSW.search, if_pos hentry]
  · obtain ⟨-, -, results, -, -, -, hsearch, -⟩ :=
      search_region ties dist hs.region (hs.entry hentry) hentry q k ef
    exact ⟨results, hsearch⟩

/-- What is returned can be reached and is alive. -/
theorem seen_of_result {s : HNSW V} (hs : s.Sound) {q : V} {k ef : ℕ} {results : List (Result D)}
    (hsearch : s.search ties dist q k ef = some results) {y : ℕ}
    (hy : y ∈ results.map Result.id) :
    s.entry_point_id ≠ NO_ENTRY ∧ s.Seen y ∧ (s.get_node y).is_deleted = false := by
  by_cases hentry : s.entry_point_id = NO_ENTRY
  · rw [HNSW.search, if_pos hentry] at hsearch
    obtain rfl := Option.some.inj hsearch
    simp at hy
  obtain ⟨b, found, results', -, hdel, hseen, hsearch', hids⟩ := search_region ties dist
    (seen_region hs hentry).1 Relation.ReflTransGen.refl hentry q k ef
  obtain rfl : results = results' := Option.some.inj (hsearch.symm.trans hsearch')
  rw [hids] at hy
  obtain ⟨c, hc, rfl⟩ := List.mem_map.mp hy
  have hc := (Beam.nearest_first_perm ties found).mem_iff.mp (List.mem_of_mem_take hc)
  have hlive : (!(s.get_node c.id).is_deleted) = true := (hdel.sound c hc).2.1
  exact ⟨hentry, hseen c hc, by simpa using hlive⟩

/-- A search with room for every node of the region returns the live ones that are reached from
everywhere in it. -/
theorem result_of_reach {s : HNSW V} {K : ℕ → Prop} (hs : s.Region K) (hK : K s.entry_point_id)
    (hentry : s.entry_point_id ≠ NO_ENTRY) {written : List ℕ} (hwritten : ∀ j, K j → j ∈ written)
    {y : ℕ} (hlive : (s.get_node y).is_deleted = false) (hy : K y)
    (hreach : ∀ j, K j → s.Reach0 j y) (q : V) {results : List (Result D)}
    (hsearch : s.search ties dist q written.length written.length = some results) :
    y ∈ results.map Result.id := by
  obtain ⟨b, found, results', hb, hdel, hfound, hsearch', hids⟩ := search_region ties dist hs hK
    hentry q written.length written.length
  obtain rfl : results = results' := Option.some.inj (hsearch.symm.trans hsearch')
  have hsub : found.map Cand.id ⊆ written := by
    intro j hj
    obtain ⟨c, hc, rfl⟩ := List.mem_map.mp hj
    exact hwritten _ (hfound c hc)
  have hsubperm := hdel.nodup.subperm hsub
  have hlen := hsubperm.length_le
  have hmem : y ∈ found.map Cand.id := by
    rcases hdel.complete with hfull | hall
    · -- as many as there are written slots: all of them
      have hpos := List.length_pos_of_mem (hwritten y hy)
      rw [ef_search, if_pos hpos, Nat.max_self] at hfull
      rw [(hsubperm.perm_of_length_le (by rw [List.length_map]; exact hfull)).mem_iff]
      exact hwritten y hy
    · exact hall y (hreach b hb) (show (!(s.get_node y).is_deleted) = true by rw [hlive]; rfl)
  rw [hids, List.take_of_length_le]
  · exact ((Beam.nearest_first_perm ties found).map Cand.id).mem_iff.mpr hmem
  · rw [(Beam.nearest_first_perm ties found).length_eq, ← List.length_map]
    exact hlen

/-- **Inserting a deleted id again** that the graph does not need: every other id that a search
for everything returned before is returned afterwards. -/
theorem revival_keeps_results (storage_size : ℕ) (ops : List (Op V)) {s : HNSW V}
    (hrun : Trace.run (step ties dist) (HNSW.fresh storage_size) ops = some s) (i : Insertion V)
    (hdeleted : i.id ∈ s.nodes.keys ∧ (s.get_node i.id).is_deleted = true)
    (h : Bypassed ties dist s i) :
    ∃ s', step ties dist s (.insert i) = some s' ∧
      ∀ q : V, ∃ before after,
        s.search ties dist q s.nodes.keys.length s.nodes.keys.length = some before ∧
        s'.search ties dist q s.nodes.keys.length s.nodes.keys.length = some after ∧
        ∀ y, y ≠ i.id → y ∈ before.map Result.id → y ∈ after.map Result.id := by
  have hs := sound_run ties dist hrun
  obtain ⟨s', hstep, hwrites⟩ := insert_writes ties dist hs i
  refine ⟨s', hstep, fun q => ?_⟩
  obtain ⟨before, hbefore⟩ := sound_search ties dist hs q s.nodes.keys.length s.nodes.keys.length
  obtain ⟨after, hafter⟩ :=
    sound_search ties dist hwrites.sound q s.nodes.keys.length s.nodes.keys.length
  refine ⟨before, after, hbefore, hafter, fun y hyi hy => ?_⟩
  obtain ⟨hentry, hseen, hlive⟩ := seen_of_result ties dist hs hbefore hy
  obtain ⟨hregion, hkeys⟩ := seen_region hs hentry
  -- the other nodes, and the links they keep
  obtain ⟨s'', n, hstep', hep, hgains, hregion', ⟨hn, hto, -⟩, hmono⟩ :=
    insert_joins (K := fun j => s.Seen j ∧ j ≠ i.id) ties dist i
      (fun j hj l k hk => (em (k = i.id)).symm.imp_left
        (fun hk' => ⟨hregion.closed j hj.1 l k hk, hk'⟩))
      (fun j hj => hregion.range j hj.1) (fun j hj => hkeys j hj.1) (fun hj => hj.2 rfl) hentry
      ⟨Relation.ReflTransGen.refl, h.entry⟩ (fun j hj l hl => h.above j hj.1 hj.2 l hl)
      h.room
      (fun j hj => ⟨y, ⟨hseen, hyi⟩, hlive, h.around j y hj.1 hj.2 hseen hyi hlive⟩)
  obtain rfl : s'' = s' := Option.some.inj (hstep'.symm.trans hstep)
  have hreach : ∀ j, s.Seen j → j ≠ i.id → s''.Reach0 j y := by
    intro j hj hji
    exact (reach_of_around (fun j hj k hk hki => ⟨hregion.closed j hj.1 0 k hk, hki⟩) hmono
      ⟨hj, hji⟩ (h.around j y hj hji hseen hyi hlive)).2
  refine result_of_reach ties dist hregion' ?_ ?_ (fun j hj => ?_) ?_ (Or.inl ⟨hseen, hyi⟩)
    (fun j hj => ?_) q hafter
  · rcases hep with hep | hep
    · rw [hep]
      exact Or.inl ⟨Relation.ReflTransGen.refl, h.entry⟩
    · exact Or.inr hep
  · rcases hep with hep | hep
    · rw [hep]
      exact hentry
    · rw [hep]
      exact h.id
  · rcases hj with hj | rfl
    · exact hkeys j hj.1
    · exact hdeleted.1
  · rw [hgains.deleted y hyi]
    exact hlive
  · -- from the node itself the way leads over the neighbour it selected
    rcases hj with hj | rfl
    · exact hreach j hj.1 hj.2
    · exact Relation.ReflTransGen.head hto (hreach n hn.1 hn.2)

/-- Three points that are linked with each other; the second is deleted and inserted again. -/
def three_points : List (Op Coords) :=
  [.insert (insert_at (axis 0 1) 0 0), .insert (insert_at (axis 1 2) 1 0),
   .insert (insert_at (axis 2 3) 2 0), .delete 1]

theorem revival_keeps_results_three_points :
    ∃ s s', Trace.run (step Ties.first l2_distance) (HNSW.fresh shard_file) three_points
        = some s ∧
      step Ties.first l2_distance s (.insert (insert_at (axis 1 1) 1 0)) = some s' ∧
      s.search Ties.first l2_distance (axis 0 0) 3 3 ≠ some [] ∧
      ∀ q, ∃ before after,
        s.search Ties.first l2_distance q s.nodes.keys.length s.nodes.keys.length = some before ∧
        s'.search Ties.first l2_distance q s.nodes.keys.length s.nodes.keys.length = some after ∧
        ∀ y, y ≠ 1 → y ∈ before.map Result.id → y ∈ after.map Result.id := by
  have hall : (Trace.run (step Ties.first l2_distance) (HNSW.fresh shard_file) three_points).map
      (fun s => decide (s.entry_point_id = 0 ∧
        (1 ∈ s.nodes.keys ∧ (s.get_node 1).is_deleted = true) ∧
        (∀ j ∈ s.nodes.keys, ∀ l ∈ (s.get_node j).neighbors.keys, l ≤ 0) ∧
        HasRoom Ties.first l2_distance s (insert_at (axis 1 1) 1 0) ∧
        (∀ j ∈ s.nodes.keys, ∀ k ∈ s.nodes.keys, j = k ∨ k ∈ s.links 0 j) ∧
        s.search Ties.first l2_distance (axis 0 0) 3 3 ≠ some [])) = some true := by
    decide +kernel
  obtain ⟨s, hrun, hs⟩ := Option.map_eq_some_iff.mp hall
  obtain ⟨hep, hdel, habove, hroom, hlinked, hfound⟩ := of_decide_eq_true hs
  have hentry : s.entry_point_id ≠ NO_ENTRY := by
    rw [hep]
    decide
  have hbypassed : Bypassed Ties.first l2_distance s (insert_at (axis 1 1) 1 0) :=
    bypassed_of_complete Ties.first l2_distance (sound_run Ties.first l2_distance hrun) hentry
      (by decide) (by rw [hep]; decide) habove hroom hlinked
  obtain ⟨s', hstep, hkeeps⟩ := revival_keeps_results Ties.first l2_distance shard_file
    three_points hrun (insert_at (axis 1 1) 1 0) hdel hbypassed
  exact ⟨s, s', hrun, hstep, hfound, hkeeps⟩

/-- **A live node gets lost.** The first of two nodes is the entry point. It is deleted, and a
search for everything returns the other one. After it is inserted again it has no links, and
the search returns nothing else. -/
theorem revived_entry_point_hides_others :
    (Trace.run (step Ties.first l2_distance) (HNSW.fresh shard_file)
        [.insert (insert_at (axis 0 1) 0 0), .insert (insert_at (axis 1 2) 1 0), .delete 0]).map
      (fun s => (s.nodes.keys.length,
        (s.search Ties.first l2_distance (axis 1 2) 2 2).map (List.map Result.id)))
      = some (2, some [1]) ∧
    (Trace.run (step Ties.first l2_distance) (HNSW.fresh shard_file)
        [.insert (insert_at (axis 0 1) 0 0), .insert (insert_at (axis 1 2) 1 0), .delete 0,
         .insert (insert_at (axis 0 1) 0 0)]).map
      (fun s => (s.nodes.keys.length, (s.get_node 1).is_deleted,
        (s.search Ties.first l2_distance (axis 1 2) 2 2).map (List.map Result.id)))
      = some (2, false, some [0]) := by
  constructor
  · decide +kernel
  · decide +kernel

end NanoDB.Index
