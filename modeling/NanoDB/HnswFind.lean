/-
What a search returns after a run of insertions and deletions.

`search_finds_all` and `search_not_empty` are about whole runs of the index in which every
insertion is welcome (`HnswAlive.lean`). Both fail without that: `star_hides_a_node` is a
run of 34 insertions whose last node no search finds, and `revived_index_is_dead` a run of
three operations after which every search comes back empty.
-/
import NanoDB.HnswAlive

set_option autoImplicit false

namespace NanoDB.Index

open Raft (Bytes)
open Beam (Cand Ties)

section Search

variable {V D : Type*} [Zero V] [LinearOrder D] (ties : Ties D) (dist : V → V → D)

/-- A search that enters a region: it ends, and returns the first `k` of what the beam search of
layer 0 delivers from some node of the region. -/
theorem search_region {s : HNSW V} {K : ℕ → Prop} (hs : s.Region K) (hK : K s.entry_point_id)
    (hentry : s.entry_point_id ≠ NO_ENTRY) (q : V) (k ef : ℕ) :
    ∃ b found results, K b ∧ Beam.Delivers (s.query dist q 0) (ef_search ef k) b found ∧
      (∀ c ∈ found, K c.id) ∧ s.search ties dist q k ef = some results ∧
      results.map Result.id = ((Beam.nearest_first ties found).take k).map Cand.id := by
  obtain ⟨b, hb, hKb⟩ := descend_spec dist hs q (layers_down s.current_max_layer 0)
    s.entry_point_id hK
  obtain ⟨found, hfound, hdel, hKfound⟩ := search_layer_spec ties dist hs hKb q (ef_search ef k) 0
  refine ⟨b, found, s.collect ties k found, hKb, hdel, hKfound, ?_, ?_⟩
  · rw [HNSW.search, if_neg hentry]
    dsimp only
    rw [hb, Option.bind_some, hfound]
    rfl
  · -- the tombstone check at the end has nothing left to skip
    have hall : (Beam.nearest_first ties found).filter (fun c => !(s.get_node c.id).is_deleted)
        = Beam.nearest_first ties found := by
      rw [List.filter_eq_self]
      intro c hc
      exact (hdel.sound c ((Beam.nearest_first_perm ties found).mem_iff.mp hc)).2.1
    unfold HNSW.collect
    rw [hall, List.map_map]
    rfl

/-- A search in a component. -/
theorem search_component {s : HNSW V} {K : ℕ → Prop} (hs : Component s K)
    (hentry : s.entry_point_id ≠ NO_ENTRY) (q : V) (k ef : ℕ) :
    ∃ b found results, K b ∧ Beam.Delivers (s.query dist q 0) (ef_search ef k) b found ∧
      (∀ c ∈ found, K c.id) ∧ s.search ties dist q k ef = some results ∧
      results.map Result.id = ((Beam.nearest_first ties found).take k).map Cand.id :=
  search_region ties dist hs.region hs.entry hentry q k ef

/-- In a component with a live node no search comes back empty. -/
theorem search_component_ne_nil {s : HNSW V} {K : ℕ → Prop} (hs : Component s K)
    (hentry : s.entry_point_id ≠ NO_ENTRY) {i : ℕ} (hi : K i)
    (hlive : (s.get_node i).is_deleted = false) (q : V) {k : ℕ} (hk : 1 ≤ k) (ef : ℕ) :
    ∃ results, s.search ties dist q k ef = some results ∧ results ≠ [] := by
  obtain ⟨b, found, results, hKb, hdel, -, hsearch, hids⟩ :=
    search_component ties dist hs hentry q k ef
  refine ⟨results, hsearch, ?_⟩
  have hfound : found ≠ [] := by
    rintro rfl
    rcases hdel.complete with hfull | hall
    · unfold ef_search at hfull
      rw [List.length_nil] at hfull
      split at hfull <;> omega
    · have hmem := hall i (hs.joined b i hKb hi)
        (show (!(s.get_node i).is_deleted) = true by rw [hlive]; rfl)
      simp at hmem
  have hlength := congrArg List.length hids
  rw [List.length_map, List.length_map, List.length_take,
    (Beam.nearest_first_perm ties found).length_eq] at hlength
  have := List.length_pos_of_ne_nil hfound
  intro hnil
  rw [hnil, List.length_nil] at hlength
  omega

/-- **The index never goes dead.** In every run of insertions of fresh ids and deletions in
which every insertion is welcome, every operation ends, and if an inserted id is alive no
search comes back empty. -/
theorem search_not_empty (storage_size : ℕ) (ops : List (Op V)) (hfresh : (inserted ops).Nodup)
    (hok : Trace.Along (step ties dist) (Welcome ties dist) (HNSW.fresh storage_size) ops) :
    ∃ s, Trace.run (step ties dist) (HNSW.fresh storage_size) ops = some s ∧
      ((∃ i ∈ inserted ops, (s.get_node i).is_deleted = false) →
        ∀ (q : V) (k ef : ℕ), 1 ≤ k →
          ∃ results, s.search ties dist q k ef = some results ∧ results ≠ []) := by
  obtain ⟨s, hrun, hkeys, hcase⟩ := searchable_run ties dist ops (HNSW.fresh storage_size) []
    (searchable_fresh storage_size) hfresh hok
  refine ⟨s, hrun, ?_⟩
  rintro ⟨i, hi, hlive⟩ q k ef hk
  rcases hcase with ⟨-, -, hdead⟩ | ⟨hentry, K, hK, -⟩
  · rw [hdead i (hkeys i hi)] at hlive
    simp at hlive
  · exact search_component_ne_nil ties dist hK hentry (hK.live i (hkeys i hi) hlive) hlive q hk ef

/-! ## Without deletions -/

/-- An insertion finds room in the lists of its neighbours, and its id is not the one that stands
for "no entry point". -/
def Roomy (s : HNSW V) : Op V → Prop
  | .insert i => i.id < NO_ENTRY ∧ HasRoom ties dist s i
  | .delete _ => False

instance decidableRoomy (s : HNSW V) (op : Op V) : Decidable (Roomy ties dist s op) := by
  rcases op with i | id
  · unfold Roomy
    infer_instance
  · exact isFalse (fun h => h)

/-- As long as nothing is deleted, an insertion that finds room is welcome. -/
theorem welcome_of_roomy {s : HNSW V} {ids : List ℕ} (hs : Searchable s ids)
    (hlive : ∀ i ∈ s.nodes.keys, (s.get_node i).is_deleted = false) {op : Op V}
    (h : Roomy ties dist s op) : Welcome ties dist s op := by
  cases op with
  | delete id => exact absurd h (fun h => h)
  | insert i =>
      refine ⟨h.1, h.2, fun hentry hnone => ?_⟩
      rcases hs.2 with ⟨h₁, -, -⟩ | ⟨-, K, hK, -⟩
      · exact absurd h₁ hentry
      · have hep := hK.written _ hK.entry
        have hdead := hnone _ hep
        rw [hlive _ hep] at hdead
        simp at hdead

/-- A run of insertions: everything is in the component. -/
theorem insertions_run (ins : List (Insertion V)) :
    ∀ (s : HNSW V) (ids : List ℕ), Searchable s ids →
      (∀ i ∈ s.nodes.keys, (s.get_node i).is_deleted = false) →
      (ids ++ ins.map Insertion.id).Nodup →
      Trace.Along (step ties dist) (Roomy ties dist) s (ins.map Op.insert) →
      ∃ s', Trace.run (step ties dist) s (ins.map Op.insert) = some s' ∧
        Searchable s' (ids ++ ins.map Insertion.id) ∧
        ∀ i ∈ s'.nodes.keys, (s'.get_node i).is_deleted = false := by
  induction ins with
  | nil =>
      intro s ids hs hlive _ _
      refine ⟨s, rfl, ?_, hlive⟩
      rw [List.map_nil, List.append_nil]
      exact hs
  | cons i ins ih =>
      intro s ids hs hlive hfresh hok
      have hsplit :
          ids ++ (i :: ins).map Insertion.id = (ids ++ [i.id]) ++ ins.map Insertion.id := by
        rw [List.map_cons, List.append_cons]
      rw [hsplit] at hfresh ⊢
      have hfresh₁ : (ids ++ inserted [Op.insert i]).Nodup := List.Nodup.of_append_left hfresh
      obtain ⟨s₁, hstep, hs₁, hgains⟩ := searchable_step ties dist hs hfresh₁
        (welcome_of_roomy ties dist hs hlive hok.1)
      have hgains := hgains i rfl
      -- nothing is deleted by an insertion, and the new node is alive
      have hlive₁ : ∀ j ∈ s₁.nodes.keys, (s₁.get_node j).is_deleted = false := by
        intro j hj
        by_cases hji : j = i.id
        · rw [hji]
          exact hgains.alive
        · rw [hgains.deleted j hji]
          exact hlive j (((hgains.keys j).mp hj).resolve_left hji)
      obtain ⟨s', hrun, hs', hlive'⟩ := ih s₁ _ hs₁ hlive₁ hfresh (hok.2 s₁ hstep)
      refine ⟨s', ?_, hs', hlive'⟩
      rw [List.map_cons, Trace.run_step hstep]
      exact hrun

/-- **Everything is found.** In every run of insertions of distinct ids that find room, every
insertion ends, and for every query the search for all `N` of them returns them all, each
once. -/
theorem search_finds_all (storage_size : ℕ) (ins : List (Insertion V))
    (hfresh : (ins.map Insertion.id).Nodup)
    (hok : Trace.Along (step ties dist) (Roomy ties dist) (HNSW.fresh storage_size)
      (ins.map Op.insert)) :
    ∃ s, Trace.run (step ties dist) (HNSW.fresh storage_size) (ins.map Op.insert) = some s ∧
      ∀ q : V, ∃ results, s.search ties dist q ins.length ins.length = some results ∧
        (results.map Result.id).Perm (ins.map Insertion.id) := by
  obtain ⟨s, hrun, ⟨hkeys, hcase⟩, hlive⟩ := insertions_run ties dist ins
    (HNSW.fresh storage_size) [] (searchable_fresh storage_size)
    (by simp [HNSW.fresh, Store.keys]) hfresh hok
  rw [List.nil_append] at hkeys hcase
  refine ⟨s, hrun, fun q => ?_⟩
  rcases hcase with ⟨hentry, hnil, -⟩ | ⟨hentry, K, hK, hids⟩
  · refine ⟨[], ?_, ?_⟩
    · rw [HNSW.search, if_pos hentry]
    · rw [hnil]
      exact List.Perm.refl _
  obtain ⟨b, found, results, hKb, hdel, hKfound, hsearch, hres⟩ :=
    search_component ties dist hK hentry q ins.length ins.length
  -- the beam search delivers exactly the inserted ids
  have hsub : found.map Cand.id ⊆ ins.map Insertion.id := by
    intro i hi
    obtain ⟨c, hc, rfl⟩ := List.mem_map.mp hi
    exact hids _ (hKfound c hc)
  have hperm : (found.map Cand.id).Perm (ins.map Insertion.id) := by
    have hsubperm := hdel.nodup.subperm hsub
    rcases hdel.complete with hfull | hall
    · apply hsubperm.perm_of_length_le
      rw [List.length_map, List.length_map]
      unfold ef_search at hfull
      split at hfull <;> omega
    · rw [List.perm_ext_iff_of_nodup hdel.nodup hfresh]
      refine fun i => ⟨fun hi => hsub hi, fun hi => ?_⟩
      have hiK := hK.live i (hkeys i hi) (hlive i (hkeys i hi))
      exact hall i (hK.joined b i hKb hiK)
        (show (!(s.get_node i).is_deleted) = true by rw [hlive i (hkeys i hi)]; rfl)
  refine ⟨results, hsearch, ?_⟩
  have hlength : (Beam.nearest_first ties found).length ≤ ins.length := by
    have := hperm.length_eq
    rw [List.length_map, List.length_map] at this
    rw [(Beam.nearest_first_perm ties found).length_eq, this]
  rw [hres, List.take_of_length_le hlength]
  exact ((Beam.nearest_first_perm ties found).map _).trans hperm

end Search

/-! ## Runs on points -/

/-- A vector given by its first coordinates; the others are zero. -/
structure Coords where
  coords : List ℕ
deriving DecidableEq, Repr

instance : Zero Coords := ⟨⟨[]⟩⟩

/-- The sum of the squared differences. -/
def squares : List ℕ → List ℕ → ℕ
  | [], b => (b.map (fun y => y * y)).sum
  | x :: a, b => (x - b.headD 0 + (b.headD 0 - x)) ^ 2 + squares a b.tail

/-- `l2_distance`: the squared Euclidean distance. -/
def l2_distance (a b : Coords) : ℕ := squares a.coords b.coords

/-- `a` on axis `n`. -/
def axis (n a : ℕ) : Coords := ⟨List.replicate n 0 ++ [a]⟩

def insert_at (v : Coords) (id : ℕ) (level : Fin MAX_LAYERS) : Insertion Coords :=
  ⟨v, id, level, []⟩

/-- Two points on different levels are both found from anywhere. -/
theorem search_finds_both :
    ∃ s, Trace.run (step Ties.first l2_distance) (HNSW.fresh shard_file)
        ([insert_at (axis 0 1) 3 1, insert_at (axis 1 2) 0 0].map Op.insert) = some s ∧
      ∀ q, ∃ results, s.search Ties.first l2_distance q 2 2 = some results ∧
        (results.map Result.id).Perm [3, 0] :=
  search_finds_all Ties.first l2_distance shard_file
    [insert_at (axis 0 1) 3 1, insert_at (axis 1 2) 0 0] (by decide +kernel) (by decide +kernel)

/-- The origin and one point on each of 33 axes, point `n` at distance `n`. -/
def star : List (Insertion Coords) := (List.range 34).map (fun n => insert_at (axis n n) n 0)

/-- **A node that no search finds.** From the origin every other point lies in a direction of
its own, so the origin's list takes one after the other and is full after 32 of them. To
point 33 only the origin is a neighbour worth selecting; the origin chooses again among its
33 candidates and drops the farthest, which is point 33. The search for all 34 returns 33. -/
theorem star_hides_a_node :
    (star.map Insertion.id).Nodup ∧ star.length = 34 ∧
    ((Trace.run (step Ties.first l2_distance) (HNSW.fresh shard_file) (star.map Op.insert)).bind
        (fun s => s.search Ties.first l2_distance (axis 0 0) 34 34)).map
      (fun results => results.map Result.id) = some (List.range 33) := by
  refine ⟨?_, ?_, ?_⟩
  · decide +kernel
  · decide +kernel
  · decide +kernel

/-- A node that is inserted above a dead one is found. -/
theorem search_not_empty_above_dead :
    ∃ s, Trace.run (step Ties.first l2_distance) (HNSW.fresh shard_file)
        [.insert (insert_at (axis 0 1) 0 0), .delete 0, .insert (insert_at (axis 1 2) 1 1)]
      = some s ∧
      ∀ (q : Coords) (k ef : ℕ), 1 ≤ k →
        ∃ results, s.search Ties.first l2_distance q k ef = some results ∧ results ≠ [] := by
  obtain ⟨s, hrun, h⟩ := search_not_empty Ties.first l2_distance shard_file
    [.insert (insert_at (axis 0 1) 0 0), .delete 0, .insert (insert_at (axis 1 2) 1 1)]
    (by decide +kernel) (by decide +kernel)
  have hlive : (Trace.run (step Ties.first l2_distance) (HNSW.fresh shard_file)
      [.insert (insert_at (axis 0 1) 0 0), .delete 0, .insert (insert_at (axis 1 2) 1 1)]).map
      (fun s => (s.get_node 1).is_deleted) = some false := by
    decide +kernel
  rw [hrun] at hlive
  exact ⟨s, hrun, h ⟨1, by decide, Option.some.inj hlive⟩⟩

/-- **A dead index.** The only node is deleted and another one inserted on the same level:
it is linked to nothing, the deleted node stays the entry point, and a search for any number
of neighbours returns none. -/
theorem revived_index_is_dead :
    (Trace.run (step Ties.first l2_distance) (HNSW.fresh shard_file)
        [.insert (insert_at (axis 0 1) 0 0), .delete 0, .insert (insert_at (axis 1 2) 1 0)]).map
      (fun s => ((s.get_node 1).is_deleted, s.search Ties.first l2_distance (axis 1 2) 10 0))
      = some (false, some []) := by
  decide +kernel

end NanoDB.Index
