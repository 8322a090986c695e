/-
Which node records the operations of the index access, and that all of them lie in the file.

`get_node` is an offset into the mapping without a check, so what keeps an access inside the
file is that every id it is called with was written. Each function of the graph has a companion
here that lists the ids it calls `get_node` with, along the same control flow; where the source
stops comparing at the first hit the list may go on to the last one. `Shallow` adds the other
index of the neighbour arrays, the layer.
-/
import NanoDB.HnswLists
import NanoDB.HnswSearch

set_option autoImplicit false

namespace NanoDB.Index

open Beam (Cand Ties)

variable {V D : Type*} [Zero V] [LinearOrder D] (ties : Ties D) (dist : V → V → D)

/-! ## Accesses -/

/-- The greedy search. -/
def HNSW.descend_accesses (s : HNSW V) (q : V) : List ℕ → ℕ × D → List ℕ
  | [], _ => []
  | l :: layers, b =>
      Beam.walk_reads (s.query dist q l) (s.capacity + 1) b ++
        match Beam.walk (s.query dist q l) (s.capacity + 1) b with
        | none => []
        | some b' => s.descend_accesses q layers b'

/-- The loop of `select_neighbors_heuristic` compares a candidate with those chosen before. -/
def HNSW.select_accesses (s : HNSW V) (keep_all : Bool) (max_keep exclude_id : ℕ) :
    List ℕ → List (Cand D) → List ℕ
  | _, [] => []
  | selected, cand :: cands =>
      if selected.length ≥ max_keep then []
      else if cand.id = exclude_id then
        HNSW.select_accesses s keep_all max_keep exclude_id selected cands
      else (if keep_all then [] else cand.id :: selected) ++
        if keep_all = false ∧ ∃ chosen ∈ selected,
            dist (s.get_node cand.id).vector (s.get_node chosen).vector < cand.distance then
          HNSW.select_accesses s keep_all max_keep exclude_id selected cands
        else HNSW.select_accesses s keep_all max_keep exclude_id (selected ++ [cand.id]) cands

def HNSW.heuristic_accesses (s : HNSW V) (ordered : List (Cand D)) (max_keep exclude_id : ℕ) :
    List ℕ :=
  s.select_accesses dist (decide (ordered.length ≤ max_keep)) max_keep exclude_id [] ordered

/-- A full list is read with its neighbours, unless it has the new one. -/
def HNSW.add_link_accesses (s : HNSW V) (src dest layer : ℕ) : List ℕ :=
  let ns := s.links layer src
  src :: if ns.length < max_conn layer ∨ dest ∈ ns then []
    else
      let cands : List (Cand D) := (ns ++ [dest]).map
        (fun n => ⟨dist (s.get_node src).vector (s.get_node n).vector, n⟩)
      ns ++ [dest] ++ s.heuristic_accesses dist (ties.sort cands) (max_conn layer) src

def HNSW.link_all_accesses (id layer : ℕ) : HNSW V → List ℕ → List ℕ
  | _, [] => []
  | s, n :: ns =>
      let there := s.add_link ties dist id n layer
      s.add_link_accesses ties dist id n layer ++ (there.add_link_accesses ties dist n id layer ++
        HNSW.link_all_accesses id layer (there.add_link ties dist n id layer) ns)

def HNSW.connect_layer_accesses (s : HNSW V) (id curr_obj layer : ℕ) : List ℕ :=
  id :: (Beam.search_reads ties (s.query dist (s.get_node id).vector layer) EF_CONSTRUCTION
    curr_obj ++
    match s.search_layer ties dist curr_obj (s.get_node id).vector EF_CONSTRUCTION layer with
    | none => []
    | some candidates =>
        let ordered := Beam.nearest_first ties candidates
        s.heuristic_accesses dist ordered M id ++ HNSW.link_all_accesses ties dist id layer s
          (s.select_neighbors_heuristic dist ordered M id))

def HNSW.connect_accesses (id : ℕ) : List ℕ → HNSW V × ℕ → List ℕ
  | [], _ => []
  | l :: layers, r =>
      r.1.connect_layer_accesses ties dist id r.2 l ++
        match r.1.connect_layer ties dist id r.2 l with
        | none => []
        | some r' => HNSW.connect_accesses id layers r'

/-- `insert`, after the storage was expanded. -/
def HNSW.insert_accesses (s : HNSW V) (i : Insertion V) : List ℕ :=
  let s := s.place i.id i.level i.vec_data
  i.id :: if s.entry_point_id = NO_ENTRY then []
    else
      let start := (s.entry_point_id, dist i.vec_data (s.get_node s.entry_point_id).vector)
      let layers := layers_down s.current_max_layer i.level
      s.entry_point_id :: (s.descend_accesses dist i.vec_data layers start ++
        match s.descend dist i.vec_data layers start with
        | none => []
        | some b => HNSW.connect_accesses ties dist i.id
            (List.range (min i.level.val s.current_max_layer + 1)).reverse (s, b.1))

def HNSW.delete_accesses (s : HNSW V) (id : ℕ) : List ℕ :=
  if slot_end id > s.storage_size then [] else [id]

def HNSW.search_accesses (s : HNSW V) (q : V) (k ef : ℕ) : List ℕ :=
  if s.entry_point_id = NO_ENTRY then []
  else
    let start := (s.entry_point_id, dist q (s.get_node s.entry_point_id).vector)
    let layers := layers_down s.current_max_layer 0
    s.entry_point_id :: (s.descend_accesses dist q layers start ++
      match s.descend dist q layers start with
      | none => []
      | some b =>
          Beam.search_reads ties (s.query dist q 0) (ef_search ef k) b.1 ++
            match s.search_layer ties dist b.1 q (ef_search ef k) 0 with
            | none => []
            | some found => found.map Cand.id)

/-! ## Accesses stay in a region -/

section Region

variable {s : HNSW V} {K : ℕ → Prop}

theorem descend_accesses_mem (hs : s.Region K) (q : V) (layers : List ℕ) :
    ∀ i, K i → ∀ a ∈ s.descend_accesses dist q layers (i, dist q (s.get_node i).vector), K a := by
  induction layers with
  | nil =>
      intro i _ a ha
      exact absurd ha List.not_mem_nil
  | cons l layers ih =>
      intro i hi a ha
      obtain ⟨j, hwalk, hreach⟩ := Beam.walk_spec (s.query dist q l)
        (fun v hv => hs.range v (hs.reach dist hi hv))
      rw [HNSW.descend_accesses] at ha
      rcases List.mem_append.mp ha with ha | ha
      · exact Beam.walk_reads_mem (g := s.query dist q l) (fun v hv => hs.closed v hv l) _ _ rfl
          hi a ha
      · have hwalk : Beam.walk (s.query dist q l) (s.capacity + 1)
            (i, dist q (s.get_node i).vector) = some (j, dist q (s.get_node j).vector) := hwalk
        rw [hwalk] at ha
        exact ih j (hs.reach dist hi hreach) a ha

theorem select_accesses_mem (s : HNSW V) (keep_all : Bool) (max_keep exclude_id : ℕ)
    (cands : List (Cand D)) : ∀ selected, (∀ n ∈ selected, K n) → (∀ c ∈ cands, K c.id) →
      ∀ a ∈ s.select_accesses dist keep_all max_keep exclude_id selected cands, K a := by
  induction cands with
  | nil =>
      intro selected _ _ a ha
      exact absurd ha List.not_mem_nil
  | cons c cands ih =>
      intro selected hsel hcands a ha
      have hc := hcands c List.mem_cons_self
      have hrest : ∀ d ∈ cands, K d.id := fun d hd => hcands d (List.mem_cons_of_mem c hd)
      have hmore : ∀ n ∈ selected ++ [c.id], K n := by
        intro n hn
        rcases List.mem_append.mp hn with hn | hn
        · exact hsel n hn
        · rw [List.mem_singleton.mp hn]
          exact hc
      rw [HNSW.select_accesses] at ha
      by_cases hfull : selected.length ≥ max_keep
      · rw [if_pos hfull] at ha
        exact absurd ha List.not_mem_nil
      rw [if_neg hfull] at ha
      by_cases hex : c.id = exclude_id
      · rw [if_pos hex] at ha
        exact ih selected hsel hrest a ha
      rw [if_neg hex] at ha
      rcases List.mem_append.mp ha with ha | ha
      · split at ha
        · exact absurd ha List.not_mem_nil
        · rcases List.mem_cons.mp ha with rfl | ha
          · exact hc
          · exact hsel a ha
      · split at ha
        · exact ih selected hsel hrest a ha
        · exact ih _ hmore hrest a ha

theorem heuristic_accesses_mem (s : HNSW V) {ordered : List (Cand D)}
    (h : ∀ c ∈ ordered, K c.id) (max_keep exclude_id : ℕ) :
    ∀ a ∈ s.heuristic_accesses dist ordered max_keep exclude_id, K a :=
  select_accesses_mem dist s _ max_keep exclude_id ordered []
    (fun _ hn => absurd hn List.not_mem_nil) h

theorem add_link_accesses_mem (hs : s.Closed K) {src dest : ℕ} (hsrc : K src) (hdest : K dest)
    (layer : ℕ) : ∀ a ∈ s.add_link_accesses ties dist src dest layer, K a := by
  have hlist : ∀ n ∈ s.links layer src ++ [dest], K n := by
    intro n hn
    rcases List.mem_append.mp hn with hn | hn
    · exact hs src hsrc layer n hn
    · rw [List.mem_singleton.mp hn]
      exact hdest
  intro a ha
  rcases List.mem_cons.mp ha with rfl | ha
  · exact hsrc
  split at ha
  · exact absurd ha List.not_mem_nil
  rcases List.mem_append.mp ha with ha | ha
  · exact hlist a ha
  · refine heuristic_accesses_mem dist s (fun c hc => ?_) _ _ a ha
    obtain ⟨n, hn, rfl⟩ := List.mem_map.mp ((ties.sort_perm _).mem_iff.mp hc)
    exact hlist n hn

theorem link_all_accesses_mem {id : ℕ} (hid : K id) (layer : ℕ) (selected : List ℕ) :
    ∀ s : HNSW V, s.Closed K → (∀ n ∈ selected, K n) →
      ∀ a ∈ HNSW.link_all_accesses ties dist id layer s selected, K a := by
  induction selected with
  | nil =>
      intro s _ _ a ha
      exact absurd ha List.not_mem_nil
  | cons n ns ih =>
      intro s hs hsel a ha
      have hn := hsel n List.mem_cons_self
      have hthere := closed_add_link ties dist hs id hn layer
      rcases List.mem_append.mp ha with ha | ha
      · exact add_link_accesses_mem ties dist hs hid hn layer a ha
      rcases List.mem_append.mp ha with ha | ha
      · exact add_link_accesses_mem ties dist hthere hn hid layer a ha
      · exact ih _ (closed_add_link ties dist hthere n hid layer)
          (fun m hm => hsel m (List.mem_cons_of_mem n hm)) a ha

theorem connect_layer_accesses_mem (hs : s.Region K) {id curr : ℕ} (hid : K id) (hcurr : K curr)
    (l : ℕ) : ∀ a ∈ s.connect_layer_accesses ties dist id curr l, K a := by
  obtain ⟨found, hfound, -, hK⟩ := search_layer_spec ties dist hs hcurr (s.get_node id).vector
    EF_CONSTRUCTION l
  have hordered : ∀ c ∈ Beam.nearest_first ties found, K c.id :=
    fun c hc => hK c ((Beam.nearest_first_perm ties found).mem_iff.mp hc)
  intro a ha
  rcases List.mem_cons.mp ha with rfl | ha
  · exact hid
  rcases List.mem_append.mp ha with ha | ha
  · exact Beam.search_reads_mem ties (fun v hv => hs.closed v hv l) hcurr a ha
  rw [hfound] at ha
  rcases List.mem_append.mp ha with ha | ha
  · exact heuristic_accesses_mem dist s hordered _ _ a ha
  · refine link_all_accesses_mem ties dist hid l _ s hs.closed (fun n hn => ?_) a ha
    obtain ⟨c, hc, rfl⟩ := List.mem_map.mp ((select_spec dist s _ _ _).1.subset hn)
    exact hordered c hc

theorem connect_accesses_mem {id : ℕ} (hid : K id) (layers : List ℕ) :
    ∀ (s : HNSW V) (curr : ℕ), s.Region K → (∀ i, K i → i ∈ s.nodes.keys) → K curr →
      ∀ a ∈ HNSW.connect_accesses ties dist id layers (s, curr), K a := by
  induction layers with
  | nil =>
      intro s curr _ _ _ a ha
      exact absurd ha List.not_mem_nil
  | cons l layers ih =>
      intro s curr hs hkeys hcurr a ha
      obtain ⟨selected, hR, hconnect⟩ := connect_layer_round ties dist hs hkeys id hcurr l
      obtain ⟨hclosed, hrel, -⟩ := hR.links ties dist hid
      rw [HNSW.connect_accesses] at ha
      rcases List.mem_append.mp ha with ha | ha
      · exact connect_layer_accesses_mem ties dist hs hid hcurr l a ha
      · rw [hconnect] at ha
        exact ih _ _ (hs.relink hrel hclosed) (fun i hi => (hrel.keys i).mpr (hkeys i hi))
          hR.next.1 a ha

/-- A search that starts in a region stays in it. -/
theorem search_accesses_region (hs : s.Region K)
    (hstart : s.entry_point_id ≠ NO_ENTRY → K s.entry_point_id) (q : V) (k ef : ℕ) :
    ∀ a ∈ s.search_accesses ties dist q k ef, K a := by
  intro a ha
  rw [HNSW.search_accesses] at ha
  split at ha
  · exact absurd ha List.not_mem_nil
  rename_i hentry
  have hep := hstart hentry
  obtain ⟨b, hb, hKb⟩ := descend_spec dist hs q (layers_down s.current_max_layer 0) _ hep
  obtain ⟨found, hfound, -, hK⟩ := search_layer_spec ties dist hs hKb q (ef_search ef k) 0
  rcases List.mem_cons.mp ha with rfl | ha
  · exact hep
  rcases List.mem_append.mp ha with ha | ha
  · exact descend_accesses_mem dist hs q _ _ hep a ha
  rw [hb] at ha
  rcases List.mem_append.mp ha with ha | ha
  · exact Beam.search_reads_mem ties (fun v hv => hs.closed v hv 0) hKb a ha
  · rw [hfound] at ha
    obtain ⟨c, hc, rfl⟩ := List.mem_map.mp ha
    exact hK c hc

end Region

/-! ## The operations -/

section Sound

variable {s : HNSW V} (hs : s.Sound)

include hs

/-- An insertion accesses its slot and written ones. -/
theorem insert_accesses_mem (i : Insertion V) :
    ∀ a ∈ s.insert_accesses ties dist i, a ∈ s.nodes.keys ∨ a = i.id := by
  have hregion := place_region hs.region i.id i.level i.vec_data
  obtain ⟨hentry₁, -⟩ := place_rest s i.id i.level i.vec_data
  intro a ha
  rcases List.mem_cons.mp ha with rfl | ha
  · exact Or.inr rfl
  split at ha
  · exact absurd ha List.not_mem_nil
  rename_i hentry
  have hep : (s.place i.id i.level i.vec_data).entry_point_id ∈ s.nodes.keys ∨
      (s.place i.id i.level i.vec_data).entry_point_id = i.id := by
    rw [hentry₁] at hentry ⊢
    exact Or.inl (hs.entry hentry)
  obtain ⟨b, hb, hKb⟩ := descend_spec dist hregion i.vec_data
    (layers_down (s.place i.id i.level i.vec_data).current_max_layer i.level) _ hep
  rcases List.mem_cons.mp ha with rfl | ha
  · exact hep
  rcases List.mem_append.mp ha with ha | ha
  · exact descend_accesses_mem dist hregion i.vec_data _ _ hep a ha
  · rw [hb] at ha
    exact connect_accesses_mem ties dist (Or.inr rfl) _ _ _ hregion
      (fun j hj => (place_keys s i.id i.level i.vec_data j).mpr hj.symm) hKb a ha

/-- A search accesses written slots. -/
theorem search_accesses_mem (q : V) (k ef : ℕ) :
    ∀ a ∈ s.search_accesses ties dist q k ef, a ∈ s.nodes.keys :=
  search_accesses_region ties dist hs.region hs.entry q k ef

end Sound

/-! ## Layers -/

/-- No layer behind the arrays is in use. -/
structure HNSW.Shallow (s : HNSW V) : Prop where
  top : s.current_max_layer < MAX_LAYERS
  links : ∀ l, MAX_LAYERS ≤ l → ∀ i, s.links l i = []

theorem shallow_step {s s' : HNSW V} (hs : s.Sound) (hshallow : s.Shallow) {op : Op V}
    (hstep : step ties dist s op = some s') : s'.Shallow := by
  cases op with
  | delete id =>
      obtain rfl := Option.some.inj hstep
      refine ⟨?_, fun l hl i => ?_⟩
      · rw [(delete_rest s id).2]
        exact hshallow.top
      · rw [delete_links]
        exact hshallow.links l hl i
  | insert i =>
      have hplace : ∀ l, MAX_LAYERS ≤ l → ∀ j,
          (s.place i.id i.level i.vec_data).links l j = [] := by
        intro l hl j
        exact place_lists (Q := fun l _ ns => MAX_LAYERS ≤ l → ns = [])
          (fun l j _ hl => hshallow.links l hl j) (fun _ _ => rfl) _ _ l j hl
      have hlevel := i.level.isLt
      -- the rounds stay on layers that both nodes can have
      obtain ⟨t, ep, max_layer, h, ⟨-, ht⟩, -, -, -, hmax⟩ := insert_rounds ties dist hs i
        (fun rest t => (∀ l ∈ rest, l < MAX_LAYERS) ∧
          ∀ l, MAX_LAYERS ≤ l → ∀ j, t.links l j = [])
        ⟨by simp, hplace⟩
        ⟨fun l hl => by
          rw [List.mem_reverse, List.mem_range] at hl
          omega, hplace⟩
        (by
          rintro l rest t curr selected ⟨hlow, ht⟩ hR
          have hl := hlow l List.mem_cons_self
          refine ⟨fun l' hl' => hlow l' (List.mem_cons_of_mem l hl'), fun l' hl' j => ?_⟩
          rw [(hR.links ties dist (Or.inr rfl)).2.2 l' (by omega)]
          exact ht l' hl' j)
      obtain rfl := Option.some.inj (h.symm.trans hstep)
      exact ⟨hmax.trans_lt (max_lt hlevel hshallow.top), ht⟩

/-! ## Runs -/

/-- What every index has that was built by inserts and deletes. -/
theorem run_sound {storage_size : ℕ} {ops : List (Op V)} {s : HNSW V}
    (hrun : Trace.run (step ties dist) (HNSW.fresh storage_size) ops = some s) :
    s.Sound ∧ s.Fits ∧ s.Shallow := by
  have hstart : (HNSW.fresh storage_size : HNSW V).Sound ∧
      (HNSW.fresh storage_size : HNSW V).Fits ∧ (HNSW.fresh storage_size : HNSW V).Shallow :=
    ⟨fresh_sound storage_size, fun _ _ => ⟨Nat.zero_le _, List.not_mem_nil⟩,
      by change 0 < MAX_LAYERS; decide, fun _ _ _ => rfl⟩
  exact Trace.run_invariant
    (P := fun t : HNSW V => t.Sound ∧ t.Fits ∧ t.Shallow)
    (fun t op t' h ht => ⟨sound_step ties dist h.1 ht, fits_step ties dist h.1 h.2.1 ht,
      shallow_step ties dist h.1 h.2.2 ht⟩) hstart hrun

/-- **Graph accesses stay in bounds.** After any inserts and deletes every list fits into its
array and names written nodes other than its own, no layer behind the arrays is in use, and every
record that an operation then reads or writes lies in the file, as it is after the expansion in
the case of an insertion. -/
theorem accesses_in_bounds (storage_size : ℕ) (ops : List (Op V)) :
    ∃ s, Trace.run (step ties dist) (HNSW.fresh storage_size) ops = some s ∧
      (∀ l i, (s.links l i).length ≤ max_conn l ∧
        ∀ j ∈ s.links l i, j ∈ s.nodes.keys ∧ j ≠ i) ∧
      (s.current_max_layer < MAX_LAYERS ∧ ∀ l, MAX_LAYERS ≤ l → ∀ i, s.links l i = []) ∧
      (∀ i : Insertion V, ∀ a ∈ s.insert_accesses ties dist i,
        slot_end a ≤ (s.expand i.id).storage_size) ∧
      (∀ id, ∀ a ∈ s.delete_accesses id, slot_end a ≤ s.storage_size) ∧
      ∀ q k ef, ∀ a ∈ s.search_accesses ties dist q k ef, slot_end a ≤ s.storage_size := by
  obtain ⟨s, hrun, -⟩ := holds_run ties dist ops _ _ (holds_fresh storage_size)
  obtain ⟨hs, hfits, hshallow⟩ := run_sound ties dist hrun
  have hfile : ∀ j ∈ s.nodes.keys, slot_end j ≤ s.storage_size :=
    fun j hj => (lt_capacity_iff s j).mp (hs.region.range j hj)
  refine ⟨s, hrun, fun l i => ⟨(hfits l i).1, fun j hj => ⟨?_, ?_⟩⟩,
    ⟨hshallow.top, hshallow.links⟩, fun i a ha => ?_, fun id a ha => ?_, fun q k ef a ha => ?_⟩
  · exact links_written hs.region.closed i l j hj
  · rintro rfl
    exact (hfits l j).2 hj
  · rcases insert_accesses_mem ties dist hs i a ha with ha | rfl
    · exact (hfile a ha).trans (expand_size s i.id).2
    · exact (expand_size s i.id).1
  · rw [HNSW.delete_accesses] at ha
    split at ha
    · exact absurd ha List.not_mem_nil
    · rw [List.mem_singleton.mp ha]
      omega
  · exact hfile a (search_accesses_mem ties dist hs q k ef a ha)

end NanoDB.Index
