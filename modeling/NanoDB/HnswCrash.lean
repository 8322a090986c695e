/-
The index in a process that is killed.

The file of an index is a shared mapping: every store of `insert` and `delete_vector` is in it at
once, and a process that opens it again finds what the stores made so far have left. `op_stores`
lists the states the file goes through in one operation, store by store, and `copy_stores` those
inside the copy of the new node to its slot. `Event.killed` and `Event.torn` open the file again in
any of them. Whatever is killed when and how often, the index holds what complete operations would
have left, each killed one having happened or not, or with a vector that was copied in part
(`killed_index_holds`).

That is all a kill leaves intact. An insertion killed between the store of its node and the first
link to it has a vector that no search finds, and `Insert` of the shard, asked again, does not
complete it: it takes the slot for a finished one (`killed_insert_retried`).

# The one awkward thing, named up front

Stores are in program order, and those of a copy in the order of the bytes. A copy over a node that
is in use is left out (`Unused`): the new neighbours are all -1, and they are there before the new
counts are, so a link leads to slot -1 in between (`copy_over_links`). In the header of an index
without entry point, entry point and maximum layer are one store: the state between them has the
maximum layer -1, for which the model has no number.
-/
import NanoDB.HnswSearch
import NanoDB.IdMapTorn
import NanoDB.ShardMap

set_option autoImplicit false

namespace NanoDB.Index

open Raft (Bytes)
open Beam (Cand Ties)

section Stores

variable {V D : Type*} [Zero V] [LinearOrder D] (ties : Ties D) (dist : V → V → D)

/-! ## The stores of an operation

Every list has the states after the stores, and begins behind the state before the first. -/

/-- `add_link`. A new entry of a list with room is behind the count and not seen before the count
is stored; a full list is overwritten from the front, and is then cut. -/
def HNSW.add_link_stores (s : HNSW V) (src dest layer : ℕ) : List (HNSW V) :=
  let ns := s.links layer src
  let linked := s.add_link ties dist src dest layer
  if ns.length < max_conn layer ∨ dest ∈ ns then [linked]
  else
    let kept := linked.links layer src
    (List.range kept.length).map
      (fun i => s.set_links layer src (kept.take (i + 1) ++ ns.drop (i + 1))) ++ [linked]

def HNSW.link_all_stores (id layer : ℕ) : List ℕ → HNSW V → List (HNSW V)
  | [], _ => []
  | n :: selected, s =>
      let there := s.add_link ties dist id n layer
      s.add_link_stores ties dist id n layer ++ (there.add_link_stores ties dist n id layer ++
        HNSW.link_all_stores id layer selected (there.add_link ties dist n id layer))

/-- `selected_neighbors` of a round of the connecting loop. -/
def HNSW.selected_neighbors (s : HNSW V) (id curr_obj layer : ℕ) : Option (List ℕ) :=
  (s.search_layer ties dist curr_obj (s.get_node id).vector EF_CONSTRUCTION layer).map
    (fun candidates =>
      s.select_neighbors_heuristic dist (Beam.nearest_first ties candidates) M id)

def HNSW.connect_stores (id : ℕ) : List ℕ → HNSW V → ℕ → List (HNSW V)
  | [], _, _ => []
  | l :: layers, s, curr_obj =>
      (s.selected_neighbors ties dist id curr_obj l).elim [] (fun selected =>
        HNSW.link_all_stores ties dist id l selected s ++
          HNSW.connect_stores id layers (s.link_all ties dist id l selected)
            (selected.headD curr_obj))

omit [Zero V] in
/-- The last lines of `insert`: the count, the entry point and the maximum layer of the header,
then the record of the metadata, byte by byte. -/
def HNSW.finish_stores (s : HNSW V) (id entry_point_id max_layer : ℕ) (metadata : Bytes) :
    List (HNSW V) :=
  let counted := { s with element_count := increment s.element_count }
  let entered := { counted with entry_point_id := entry_point_id }
  let persisted := { entered with current_max_layer := max_layer }
  let saved := (s.metadata_storage.save_metadata id metadata).file
  counted :: ((if s.entry_point_id = NO_ENTRY then [] else [entered]) ++ persisted ::
    (List.range (saved.length - s.metadata_storage.file.length)).map (fun n =>
      { persisted with metadata_storage :=
          { s.metadata_storage with
            file := saved.take (s.metadata_storage.file.length + n + 1) } }))

def HNSW.insert_stores (s : HNSW V) (i : Insertion V) : List (HNSW V) :=
  let t := s.place i.id i.level i.vec_data
  let ep := t.entry_point_id
  let top := t.current_max_layer
  let layers := (List.range (min i.level.val top + 1)).reverse
  s.expand i.id :: t ::
    (if ep = NO_ENTRY then t.finish_stores i.id i.id i.level i.metadata
    else
      (t.descend dist i.vec_data (layers_down top i.level)
        (ep, dist i.vec_data (t.get_node ep).vector)).elim [] (fun b =>
      let linking := HNSW.connect_stores ties dist i.id layers t b.1
      linking ++ (linking.getLast?.getD t).finish_stores i.id
        (if i.level.val > top then i.id else ep) (max i.level.val top) i.metadata))

/-- The states of the file in an operation, from the one it finds to the one it leaves.
`delete_vector` stores the flag and then the header. -/
def HNSW.op_stores (s : HNSW V) : Op V → List (HNSW V)
  | .insert i => s :: s.insert_stores ties dist i
  | .delete id =>
      [s, { s.delete_vector id with element_count := s.element_count }, s.delete_vector id]

section Copy

variable (tears : V → V → List V)

omit [Zero V] in
/-- The states of a slot in the copy `*node_ptr = new_node`: the numbers and the flag, the vector,
for which `tears` gives what it is on the way, the neighbours and their counts. -/
def Node.copy_stores (old : Node V) (id level : ℕ) (vec_data : V) : List (Node V) :=
  let flagged := { old with id := id, max_layer := level, is_deleted := false }
  -- the first `ids` neighbours, and the counts of the first `counts` layers, are the new ones
  let copied := fun ids counts => { flagged with
    vector := vec_data
    neighbors := old.neighbors.map (fun p => (p.1, if p.1 < counts then [] else
      p.2.mapIdx (fun k n => if p.1 * M_MAX0 + k < ids then NO_ENTRY else n))) }
  [{ old with id := id }, { old with id := id, max_layer := level }, flagged] ++
    ((tears old.vector vec_data).map (fun w => { flagged with vector := w }) ++
    ((List.range (MAX_LAYERS * M_MAX0 + 1)).map (fun ids => copied ids 0) ++
    (List.range MAX_LAYERS).map (fun counts => copied (MAX_LAYERS * M_MAX0) (counts + 1))))

def HNSW.copy_stores (s : HNSW V) (i : Insertion V) : List (HNSW V) :=
  ((s.get_node i.id).copy_stores tears i.id i.level i.vec_data).map
    ((s.expand i.id).set_node i.id)

/-- An operation runs to its end, or the process is killed after so many stores of it, or of the
copy of its node, and the files are opened again. -/
inductive Event (V : Type*)
  | op (o : Op V)
  | killed (o : Op V) (stores : ℕ)
  | torn (i : Insertion V) (stores : ℕ)

def killing_step (s : HNSW V) : Event V → Option (HNSW V)
  | .op o => step ties dist s o
  | .killed o stores => ((s.op_stores ties dist o)[stores]?).map HNSW.reopen
  | .torn i stores => ((s.copy_stores tears i)[stores]?).map HNSW.reopen

omit [Zero V] in
/-- A copy that is killed goes to a slot that is not in use. -/
def Unused (s : HNSW V) : Event V → Prop
  | .torn i _ => i.id ∉ s.nodes.keys
  | _ => True

omit [Zero V] in
instance decidableUnused (s : HNSW V) : ∀ e, Decidable (Unused s e)
  | .torn i _ => inferInstanceAs (Decidable (i.id ∉ s.nodes.keys))
  | .op _ | .killed .. => isTrue trivial

/-- A vector on its way to a slot of zeros. -/
def OnTheWay (v w : V) : Prop := w = 0 ∨ w ∈ tears 0 v ∨ w = v

/-- The operations that took effect: those that ended, some of the killed ones, and the insertions
that were killed in the copy, with what was copied of their vectors. -/
inductive Effective : List (Event V) → List (Op V) → Prop
  | nil : Effective [] []
  | op {es : List (Event V)} {ops : List (Op V)} (o : Op V) (h : Effective es ops) :
      Effective (.op o :: es) (o :: ops)
  | kept {es : List (Event V)} {ops : List (Op V)} (o : Op V) (n : ℕ) (h : Effective es ops) :
      Effective (.killed o n :: es) (o :: ops)
  | lost {es : List (Event V)} {ops : List (Op V)} (o : Op V) (n : ℕ) (h : Effective es ops) :
      Effective (.killed o n :: es) ops
  | torn {es : List (Event V)} {ops : List (Op V)} (i : Insertion V) (n : ℕ) {w : V}
      (hw : OnTheWay tears i.vec_data w) (h : Effective es ops) :
      Effective (.torn i n :: es) (.insert { i with vec_data := w } :: ops)

end Copy

/-! ## Links under way -/

section Links

variable {K : ℕ → Prop}

theorem add_link_stores_spec {s : HNSW V} (hs : s.Closed K) {src dest : ℕ}
    (hsrc : src ∈ s.nodes.keys) (hdest : K dest) (layer : ℕ) :
    ∀ u ∈ s.add_link_stores ties dist src dest layer, Relinked s u ∧ u.Closed K := by
  have hlinked : Relinked s (s.add_link ties dist src dest layer) ∧
      (s.add_link ties dist src dest layer).Closed K :=
    ⟨relinked_add_link ties dist s hsrc dest layer, closed_add_link ties dist hs src hdest layer⟩
  intro u hu
  unfold HNSW.add_link_stores at hu
  dsimp only at hu
  split at hu
  · rw [List.mem_singleton.mp hu]
    exact hlinked
  rcases List.mem_append.mp hu with hu | hu
  · obtain ⟨i, -, rfl⟩ := List.mem_map.mp hu
    refine ⟨relinked_set_links s hsrc _ _, fun a ha l j hj => ?_⟩
    rw [links_set_links] at hj
    split at hj
    · -- the list under way: entries of the new one in front, of the old one behind
      rename_i hal
      obtain ⟨rfl, rfl⟩ := hal
      rcases List.mem_append.mp hj with hj | hj
      · apply hlinked.2 a ha
        exact List.mem_of_mem_take hj
      · apply hs a ha
        exact List.mem_of_mem_drop hj
    · exact hs a ha l j hj
  · rw [List.mem_singleton.mp hu]
    exact hlinked

theorem link_all_stores_spec {id : ℕ} (hid : K id) (layer : ℕ) (selected : List ℕ) :
    ∀ s : HNSW V, s.Closed K → id ∈ s.nodes.keys → (∀ n ∈ selected, K n ∧ n ∈ s.nodes.keys) →
      ∀ u ∈ HNSW.link_all_stores ties dist id layer selected s, Relinked s u ∧ u.Closed K := by
  induction selected with
  | nil =>
      intro s _ _ _ u hu
      exact absurd hu List.not_mem_nil
  | cons n selected ih =>
      intro s hs hkey hsel u hu
      obtain ⟨hn, hnkey⟩ := hsel n List.mem_cons_self
      have h₁ := relinked_add_link ties dist s hkey n layer
      have hc₁ := closed_add_link ties dist hs id hn layer
      have hnkey₁ := (h₁.keys n).mpr hnkey
      rw [HNSW.link_all_stores, List.mem_append, List.mem_append] at hu
      rcases hu with hu | hu | hu
      · exact add_link_stores_spec ties dist hs hkey hn layer u hu
      · obtain ⟨hr, hc⟩ := add_link_stores_spec ties dist hc₁ hnkey₁ hid layer u hu
        exact ⟨h₁.trans hr, hc⟩
      · have h₁₂ := h₁.trans (relinked_add_link ties dist _ hnkey₁ id layer)
        obtain ⟨hr, hc⟩ := ih _ (closed_add_link ties dist hc₁ n hid layer)
          ((h₁₂.keys id).mpr hkey)
          (fun m hm => ⟨(hsel m (List.mem_cons_of_mem n hm)).1,
            (h₁₂.keys m).mpr (hsel m (List.mem_cons_of_mem n hm)).2⟩) u hu
        exact ⟨h₁₂.trans hr, hc⟩

theorem connect_layer_eq (s : HNSW V) (id curr_obj l : ℕ) :
    s.connect_layer ties dist id curr_obj l
      = (s.selected_neighbors ties dist id curr_obj l).map
        (fun selected => (s.link_all ties dist id l selected, selected.headD curr_obj)) := by
  unfold HNSW.connect_layer HNSW.selected_neighbors
  rw [Option.map_map]
  rfl

/-- The states of the connecting loop, and the one it leaves, differ in links of the region. -/
theorem connect_stores_spec {id : ℕ} (hid : K id) (layers : List ℕ) :
    ∀ (s : HNSW V) (curr : ℕ), s.Region K → (∀ i, K i → i ∈ s.nodes.keys) → K curr →
      ∀ u ∈ HNSW.connect_stores ties dist id layers s curr, Relinked s u ∧ u.Region K := by
  induction layers with
  | nil =>
      intro s curr _ _ _ u hu
      exact absurd hu List.not_mem_nil
  | cons l layers ih =>
      intro s curr hs hkeys hcurr u hu
      rw [HNSW.connect_stores] at hu
      obtain ⟨selected, hsel, hround⟩ : ∃ selected,
          s.selected_neighbors ties dist id curr l = some selected ∧ ∀ n ∈ selected, K n := by
        obtain ⟨found, hfound, -, hK⟩ := search_layer_spec ties dist hs hcurr
          (s.get_node id).vector EF_CONSTRUCTION l
        refine ⟨_, by rw [HNSW.selected_neighbors, hfound, Option.map_some], fun n hn => ?_⟩
        obtain ⟨c, hc, rfl⟩ := List.mem_map.mp ((select_spec dist s _ _ _).1.subset hn)
        exact hK c ((Beam.nearest_first_perm ties found).mem_iff.mp hc)
      have hwritten : ∀ n ∈ selected, K n ∧ n ∈ s.nodes.keys :=
        fun n hn => ⟨hround n hn, hkeys n (hround n hn)⟩
      rw [hsel, Option.elim_some, List.mem_append] at hu
      rcases hu with hu | hu
      · obtain ⟨hr, hc⟩ := link_all_stores_spec ties dist hid l selected s hs.closed
          (hkeys id hid) hwritten u hu
        exact ⟨hr, hs.relink hr hc⟩
      · obtain ⟨hc, hr, -⟩ := link_all_spec ties dist l hid selected s hs.closed
          (hkeys id hid) hwritten
        have hhead : K (selected.headD curr) := by
          cases selected with
          | nil => exact hcurr
          | cons n _ => exact hround n List.mem_cons_self
        obtain ⟨hr', hu'⟩ := ih _ _ (hs.relink hr hc)
          (fun i hi => (hr.keys i).mpr (hkeys i hi)) hhead u hu
        exact ⟨hr.trans hr', hu'⟩

end Links

/-- Of two pieces of work the second one has the last store, if it has any. -/
theorem last_append {α : Type*} (a : α) (l l' : List α) :
    (l ++ l').getLast?.getD a = l'.getLast?.getD (l.getLast?.getD a) := by
  rw [List.getLast?_append]
  cases l'.getLast? with
  | none => rfl
  | some b => rfl

theorem add_link_stores_last (s : HNSW V) (src dest layer : ℕ) :
    (s.add_link_stores ties dist src dest layer).getLast?.getD s
      = s.add_link ties dist src dest layer := by
  unfold HNSW.add_link_stores
  dsimp only
  split
  · rfl
  · rw [List.getLast?_concat]
    rfl

theorem link_all_stores_last (id layer : ℕ) (selected : List ℕ) : ∀ s : HNSW V,
    (HNSW.link_all_stores ties dist id layer selected s).getLast?.getD s
      = s.link_all ties dist id layer selected := by
  induction selected with
  | nil =>
      intro s
      rfl
  | cons n selected ih =>
      intro s
      rw [HNSW.link_all_stores, last_append, last_append, add_link_stores_last,
        add_link_stores_last, ih]
      rfl

theorem connect_stores_last (id : ℕ) (layers : List ℕ) : ∀ (s : HNSW V) (curr : ℕ) {r : HNSW V × ℕ},
    HNSW.connect ties dist id layers (s, curr) = some r →
      (HNSW.connect_stores ties dist id layers s curr).getLast?.getD s = r.1 := by
  induction layers with
  | nil =>
      intro s curr r hr
      exact congrArg Prod.fst (Option.some.inj hr)
  | cons l layers ih =>
      intro s curr r hr
      rw [HNSW.connect, connect_layer_eq, Option.bind_eq_some_iff] at hr
      obtain ⟨m, hm, hr⟩ := hr
      obtain ⟨selected, hsel, rfl⟩ := Option.map_eq_some_iff.mp hm
      rw [HNSW.connect_stores, hsel, Option.elim_some, last_append, link_all_stores_last]
      exact ih _ _ hr

/-! ## Where an insertion can be killed -/

/-- Only links differ from the index with the placed node, and the entry point can be new. -/
structure Placed (s : HNSW V) (i : Insertion V) (u : HNSW V) : Prop where
  writes : ∃ t, Relinked (s.place i.id i.level i.vec_data) t ∧
    t.Region (fun j => j ∈ s.nodes.keys ∨ j = i.id) ∧ u.nodes = t.nodes ∧
    u.storage_size = t.storage_size
  entry : u.entry_point_id = s.entry_point_id ∨ u.entry_point_id = i.id

theorem placed_place {s : HNSW V} (hs : s.Sound) (i : Insertion V) :
    Placed s i (s.place i.id i.level i.vec_data) :=
  ⟨⟨_, Relinked.refl _, place_region hs.region i.id i.level i.vec_data, rfl, rfl⟩,
    .inl (place_rest s i.id i.level i.vec_data).1⟩

theorem finish_stores_placed {s t : HNSW V} {i : Insertion V}
    (hrel : Relinked (s.place i.id i.level i.vec_data) t)
    (hregion : t.Region (fun j => j ∈ s.nodes.keys ∨ j = i.id)) {ep : ℕ} (max_layer : ℕ)
    (hep : ep = s.entry_point_id ∨ ep = i.id) :
    ∀ u ∈ t.finish_stores i.id ep max_layer i.metadata, Placed s i u := by
  have hold : t.entry_point_id = s.entry_point_id := by
    rw [hrel.rest]
    exact (place_rest s i.id i.level i.vec_data).1
  intro u hu
  unfold HNSW.finish_stores at hu
  simp only [List.mem_cons, List.mem_append, List.mem_map] at hu
  rcases hu with rfl | hu | rfl | ⟨n, -, rfl⟩
  · exact ⟨⟨t, hrel, hregion, rfl, rfl⟩, .inl hold⟩
  · split at hu
    · exact absurd hu List.not_mem_nil
    · rw [List.mem_singleton.mp hu]
      exact ⟨⟨t, hrel, hregion, rfl, rfl⟩, hep⟩
  · exact ⟨⟨t, hrel, hregion, rfl, rfl⟩, hep⟩
  · exact ⟨⟨t, hrel, hregion, rfl, rfl⟩, hep⟩

/-- **The states of an insertion**: the file is longer, or the node is placed. -/
theorem insert_stores_spec {s : HNSW V} (hs : s.Sound) (i : Insertion V) :
    ∀ u ∈ s.insert_stores ties dist i, u = s.expand i.id ∨ Placed s i u := by
  have hregion := place_region hs.region i.id i.level i.vec_data
  have hkeys : ∀ j, j ∈ s.nodes.keys ∨ j = i.id →
      j ∈ (s.place i.id i.level i.vec_data).nodes.keys :=
    fun j hj => (place_keys s i.id i.level i.vec_data j).mpr hj.symm
  have hrefl := Relinked.refl (s.place i.id i.level i.vec_data)
  have hrest := place_rest s i.id i.level i.vec_data
  intro u hu
  unfold HNSW.insert_stores at hu
  dsimp only at hu
  rw [List.mem_cons, List.mem_cons] at hu
  rcases hu with hu | rfl | hu
  · exact .inl hu
  · exact .inr (placed_place hs i)
  right
  split at hu
  · exact finish_stores_placed hrefl hregion _ (.inr rfl) u hu
  rename_i hfirst
  rw [hrest.1] at hfirst
  obtain ⟨b, hb, hKb⟩ := descend_spec dist hregion i.vec_data
    (layers_down (s.place i.id i.level i.vec_data).current_max_layer i.level)
    _ (hrest.1 ▸ Or.inl (hs.entry hfirst))
  rw [hb, Option.elim_some, List.mem_append] at hu
  rcases hu with hu | hu
  · obtain ⟨hrel, hu'⟩ := connect_stores_spec ties dist (Or.inr rfl) _ _ b hregion hkeys hKb u hu
    refine ⟨⟨u, hrel, hu', rfl, rfl⟩, .inl ?_⟩
    rw [hrel.rest]
    exact hrest.1
  · obtain ⟨t, curr, hconnect, ht, hrel, -⟩ := connect_region ties dist (Or.inr rfl) _ _ b
      hregion hkeys hKb
    rw [connect_stores_last ties dist _ _ _ _ hconnect] at hu
    refine finish_stores_placed hrel ht _ ?_ u hu
    split
    · exact .inr rfl
    · exact .inl hrest.1

/-! ## Inside the copy -/

section Copy

variable {tears : V → V → List V}

omit [LinearOrder D] in
/-- **A copy to a slot of zeros** places a node, with what is there of the vector. -/
theorem copy_stores_unused {s : HNSW V} {i : Insertion V} (hfree : i.id ∉ s.nodes.keys) :
    ∀ u ∈ s.copy_stores tears i, ∃ (level : Fin MAX_LAYERS) (w : V),
      OnTheWay tears i.vec_data w ∧ u = s.place i.id level w := by
  intro u hu
  unfold HNSW.copy_stores Node.copy_stores at hu
  rw [get_node_unwritten hfree] at hu
  simp only [List.mem_map, List.mem_append, List.mem_cons, List.not_mem_nil, or_false,
    Node.zero, List.map_nil] at hu
  obtain ⟨n, (rfl | rfl | rfl) | ⟨w, hw, rfl⟩ | ⟨ids, -, rfl⟩ | ⟨counts, -, rfl⟩, rfl⟩ := hu
  · exact ⟨0, 0, .inl rfl, rfl⟩
  · exact ⟨i.level, 0, .inl rfl, rfl⟩
  · exact ⟨i.level, 0, .inl rfl, rfl⟩
  · exact ⟨i.level, w, .inr (.inl hw), rfl⟩
  · exact ⟨i.level, i.vec_data, .inr (.inr rfl), rfl⟩
  · exact ⟨i.level, i.vec_data, .inr (.inr rfl), rfl⟩

omit [LinearOrder D] in
/-- **A copy over a node with links** goes through a state in which one leads to slot -1. -/
theorem copy_over_links {s : HNSW V} (i : Insertion V) {l n : ℕ} {ns : List ℕ}
    (hl : l < MAX_LAYERS) (hlinks : s.links l i.id = n :: ns) :
    ∃ u ∈ s.copy_stores tears i, NO_ENTRY ∈ u.links l i.id := by
  -- all neighbours are copied, and no count
  refine ⟨_, List.mem_map_of_mem (List.mem_append_right _ (List.mem_append_right _
    (List.mem_append_left _ (List.mem_map_of_mem
      (List.mem_range.mpr (Nat.lt_succ_self (MAX_LAYERS * M_MAX0))))))), ?_⟩
  unfold HNSW.links HNSW.get_node at hlinks ⊢
  unfold HNSW.set_node
  dsimp only
  rw [Store.get_set_self]
  dsimp only
  rw [Store.get_map_slots [] [] (fun l ms => if l < 0 then [] else
    ms.mapIdx (fun k n => if l * M_MAX0 + k < MAX_LAYERS * M_MAX0 then NO_ENTRY else n)) _
    (by simp)]
  rw [hlinks, if_neg (Nat.not_lt_zero l), List.mapIdx_cons,
    if_pos (by simp only [MAX_LAYERS, M_MAX0, M] at hl ⊢; omega)]
  exact List.mem_cons_self

end Copy

/-! ## What the file holds -/

theorem Holds.reopen {s : HNSW V} {c : ℕ → Option V} (h : Holds s c) : Holds s.reopen c :=
  h.same rfl rfl h.sound.entry

theorem Holds.expand {s : HNSW V} {c : ℕ → Option V} (h : Holds s c) (id : ℕ) :
    Holds (s.expand id) c := by
  have hnodes := expand_nodes s id
  have hget : ∀ j, (s.expand id).get_node j = s.get_node j := by
    intro j
    unfold HNSW.get_node
    rw [hnodes]
  have hentry : (s.expand id).entry_point_id = s.entry_point_id := by
    unfold HNSW.expand
    split <;> rfl
  have hsound : (s.expand id).Sound := by
    refine ⟨⟨fun a ha l j hj => ?_, fun j hj => ?_⟩, fun hne => ?_⟩
    · rw [hnodes] at ha ⊢
      unfold HNSW.links at hj
      rw [hget] at hj
      exact h.sound.region.closed a ha l j hj
    · rw [hnodes] at hj
      rw [lt_capacity_iff]
      exact ((lt_capacity_iff s j).mp (h.sound.region.range j hj)).trans (expand_size s id).2
    · rw [hentry] at hne ⊢
      rw [hnodes]
      exact h.sound.entry hne
  refine ⟨hsound, fun j hj => ?_, fun j hj => h.unwritten j (hnodes ▸ hj)⟩
  rw [get_vector_data_written hsound hj, hget, ← h.written j (hnodes ▸ hj),
    get_vector_data_written h.sound (hnodes ▸ hj)]

theorem reopen_get_vector_data (s : HNSW V) (j : ℕ) :
    s.reopen.get_vector_data j = s.get_vector_data j := rfl

/-- With the node placed, its slot has the vector. -/
theorem Placed.vector {s u : HNSW V} {i : Insertion V} (hs : s.Sound) (hu : Placed s i u) :
    u.get_vector_data i.id = some i.vec_data := by
  obtain ⟨⟨t, hrel, hregion, hnodes, hsize⟩, -⟩ := hu
  have hself := (writes_finish hs i hrel hregion 0 (Or.inr rfl)).vector_self
  unfold HNSW.get_vector_data HNSW.get_node at hself ⊢
  rw [hnodes, hsize]
  exact hself

/-- With the node placed, the insertion has happened, whatever of its links is there. -/
theorem Placed.holds {s u : HNSW V} {i : Insertion V} (hu : Placed s i u) {c : ℕ → Option V}
    (h : Holds s c) : Holds u (contents_step c (.insert i)) := by
  obtain ⟨⟨t, hrel, hregion, hnodes, hsize⟩, hentry⟩ := hu
  have hw := writes_finish h.sound i hrel hregion 0 (Or.inr rfl)
  refine (holds_write h hw).same hnodes hsize (fun hne => ?_)
  rw [hw.keys]
  rcases hentry with hold | hnew
  · rw [hold] at hne ⊢
    exact .inr (h.sound.entry hne)
  · exact .inl hnew

/-- **One operation, killed anywhere**, has happened or has not. -/
theorem op_stores_holds {s : HNSW V} {c : ℕ → Option V} (h : Holds s c) (o : Op V) :
    ∀ u ∈ s.op_stores ties dist o, Holds u c ∨ Holds u (contents_step c o) := by
  cases o with
  | insert i =>
      intro u hu
      rcases List.mem_cons.mp hu with rfl | hu
      · exact .inl h
      rcases insert_stores_spec ties dist h.sound i u hu with rfl | hu
      · exact .inl (h.expand i.id)
      · exact .inr (hu.holds h)
  | delete id =>
      intro u hu
      have hdeleted := holds_delete h id
      rw [HNSW.op_stores, List.mem_cons, List.mem_cons, List.mem_singleton] at hu
      rcases hu with rfl | rfl | rfl
      · exact .inl h
      · exact .inr (hdeleted.same rfl rfl hdeleted.sound.entry)
      · exact .inr hdeleted

/-- **A copy that is killed** has inserted what is there of the vector. -/
theorem copy_stores_holds {tears : V → V → List V} {s : HNSW V} {c : ℕ → Option V} (h : Holds s c)
    {i : Insertion V} (hfree : i.id ∉ s.nodes.keys) :
    ∀ u ∈ s.copy_stores tears i, ∃ w, OnTheWay tears i.vec_data w ∧
      Holds u (contents_step c (.insert { i with vec_data := w })) := by
  intro u hu
  obtain ⟨level, w, hw, rfl⟩ := copy_stores_unused hfree u hu
  exact ⟨w, hw, (placed_place h.sound ⟨w, i.id, level, i.metadata⟩).holds h⟩

/-- A sound index holds what it reads. -/
theorem holds_of_sound {s : HNSW V} (hs : s.Sound) :
    Holds s (fun j => if j ∈ s.nodes.keys then s.get_vector_data j else none) :=
  ⟨hs, fun _ hj => (if_pos hj).symm, fun _ hj => if_neg hj⟩

/-! ## The last store -/

omit [Zero V] [LinearOrder D] in
/-- Opened again, the files are those of the last lines, whose table of offsets is not stored. -/
theorem finish_stores_last (s t : HNSW V) (id ep max_layer : ℕ) (metadata : Bytes) :
    ((s.finish_stores id ep max_layer metadata).getLast?.getD t).reopen
      = (s.finish id ep max_layer metadata).reopen := by
  unfold HNSW.finish_stores
  dsimp only
  rw [← List.cons_append, List.append_cons, last_append, List.getLast?_concat, Option.getD_some,
    List.getLast?_map, List.getLast?_range]
  by_cases hmd : metadata = []
  · have hnone : s.metadata_storage.save_metadata id metadata = s.metadata_storage := if_pos hmd
    rw [hnone, Nat.sub_self, if_pos rfl]
    unfold HNSW.finish
    rw [hnone]
    rfl
  · have hlen : s.metadata_storage.file.length
        < (s.metadata_storage.save_metadata id metadata).file.length := by
      unfold MetadataHandler.save_metadata
      rw [if_neg hmd]
      have hpos := List.length_pos_iff.mpr hmd
      simp only [List.length_append]
      omega
    rw [if_neg (by omega), Option.map_some, Option.getD_some]
    unfold HNSW.finish HNSW.reopen
    dsimp only
    rw [List.take_of_length_le (by omega)]

/-- **The stores of an operation are its stores**: the last one leaves what the operation does. -/
theorem op_stores_last {s s' : HNSW V} {o : Op V} (hstep : step ties dist s o = some s') :
    (s.op_stores ties dist o).getLast?.map HNSW.reopen = some s'.reopen := by
  cases o with
  | delete id =>
      obtain rfl : s.delete_vector id = s' := Option.some.inj hstep
      rfl
  | insert i =>
      unfold step HNSW.insert at hstep
      unfold HNSW.op_stores HNSW.insert_stores
      dsimp only at hstep ⊢
      rw [List.getLast?_cons, List.getLast?_cons, List.getLast?_cons, Option.getD_some,
        Option.getD_some, Option.map_some]
      split at hstep
      · rename_i hfirst
        obtain rfl := Option.some.inj hstep
        rw [if_pos hfirst, finish_stores_last]
      · rename_i hfirst
        obtain ⟨b, hb, hrest⟩ := Option.bind_eq_some_iff.mp hstep
        obtain ⟨r, hr, rfl⟩ := Option.map_eq_some_iff.mp hrest
        rw [if_neg hfirst, hb, Option.elim_some, last_append,
          connect_stores_last ties dist _ _ _ _ hr, finish_stores_last]

/-! ## Runs with kills -/

section Run

variable {tears : V → V → List V}

theorem killing_run {es : List (Event V)} : ∀ {s s' : HNSW V} {c : ℕ → Option V}, Holds s c →
    Trace.Along (killing_step ties dist tears) Unused s es →
    Trace.run (killing_step ties dist tears) s es = some s' →
    ∃ ops, Effective tears es ops ∧ Holds s' (ops.foldl contents_step c) := by
  induction es with
  | nil =>
      intro s s' c h _ hrun
      obtain rfl : s = s' := Option.some.inj hrun
      exact ⟨[], .nil, h⟩
  | cons e es ih =>
      intro s s' c h hunused hrun
      obtain ⟨m, hm, hrest⟩ := Trace.run_cons_some hrun
      have hnext := hunused.2 m hm
      cases e with
      | op o =>
          obtain ⟨m', hm', hmo⟩ := holds_step ties dist h o
          obtain rfl : m' = m := Option.some.inj (hm'.symm.trans hm)
          obtain ⟨ops, heff, hops⟩ := ih hmo hnext hrest
          exact ⟨o :: ops, .op o heff, hops⟩
      | killed o n =>
          obtain ⟨u, hu, rfl⟩ := Option.map_eq_some_iff.mp hm
          rcases op_stores_holds ties dist h o u (List.mem_of_getElem? hu) with hlost | hkept
          · obtain ⟨ops, heff, hops⟩ := ih hlost.reopen hnext hrest
            exact ⟨ops, .lost o n heff, hops⟩
          · obtain ⟨ops, heff, hops⟩ := ih hkept.reopen hnext hrest
            exact ⟨o :: ops, .kept o n heff, hops⟩
      | torn i n =>
          obtain ⟨u, hu, rfl⟩ := Option.map_eq_some_iff.mp hm
          obtain ⟨w, hw, hholds⟩ := copy_stores_holds h hunused.1 u (List.mem_of_getElem? hu)
          obtain ⟨ops, heff, hops⟩ := ih hholds.reopen hnext hrest
          exact ⟨.insert { i with vec_data := w } :: ops, .torn i n hw heff, hops⟩

end Run

/-- The vectors that are copied coordinate by coordinate. -/
def halved (old new : Coords) : List Coords :=
  (List.range new.coords.length).map (fun k => ⟨new.coords.take k ++ old.coords.drop k⟩)

/-- The second insertion is killed in the copy of its vector, a deletion before its flag is stored,
and another insertion between the two links of its first pair. -/
def three_kills : List (Event Coords) :=
  [.op (.insert (insert_at (axis 0 1) 0 0)), .torn (insert_at ⟨[3, 2]⟩ 1 0) 4,
    .killed (.delete 0) 0, .killed (.insert (insert_at (axis 2 3) 2 0)) 3]

theorem placed_alive {s u : HNSW V} {i : Insertion V} (hs : s.Sound) (hu : Placed s i u) :
    u.is_deleted i.id = false := by
  have hvec := hu.vector hs
  unfold HNSW.get_vector_data at hvec
  unfold HNSW.is_deleted
  split_ifs at hvec ⊢ with hrange hdel
  exact Bool.eq_false_iff.mpr hdel

/-- Killed anywhere, the insertion of a new id leaves a slot that does not read as deleted: it was
never written, or it has the vector. -/
theorem op_stores_alive {s : HNSW V} (hs : s.Sound) {i : Insertion V}
    (hfree : i.id ∉ s.nodes.keys) :
    ∀ u ∈ s.op_stores ties dist (.insert i), u.is_deleted i.id = false := by
  have hunwritten : ∀ u : HNSW V, u.nodes = s.nodes → u.is_deleted i.id = false := by
    intro u hu
    unfold HNSW.is_deleted
    rw [get_node_unwritten (by rw [hu]; exact hfree)]
    split <;> rfl
  intro u hu
  rcases List.mem_cons.mp hu with rfl | hu
  · exact hunwritten u rfl
  rcases insert_stores_spec ties dist hs i u hu with rfl | hplaced
  · exact hunwritten _ (expand_nodes s i.id)
  · exact placed_alive hs hplaced

omit [LinearOrder D] in
/-- A new node is not linked when it is placed. -/
theorem place_unlinked {s : HNSW V} (hs : s.Sound) {i : Insertion V} (hfree : i.id ∉ s.nodes.keys)
    (hentry : s.entry_point_id ≠ NO_ENTRY) :
    (∀ l j, i.id ∉ (s.place i.id i.level i.vec_data).links l j) ∧
      (s.place i.id i.level i.vec_data).entry_point_id ≠ i.id := by
  refine ⟨fun l j hj => ?_, fun heq => ?_⟩
  · by_cases hji : j = i.id
    · rw [hji, place_links_self] at hj
      exact absurd hj List.not_mem_nil
    · rw [place_links_ne _ _ _ _ l hji] at hj
      exact hfree (links_written hs.region.closed j l _ hj)
  · rw [(place_rest s i.id i.level i.vec_data).1] at heq
    exact hfree (heq ▸ hs.entry hentry)

/-- A node that no link leads to is found by no search, and no operation links to it: an insertion
links what it finds. -/
theorem unlinked_stays_lost {s s' : HNSW V} (hs : s.Sound) {id : ℕ}
    (hun : ∀ l j, id ∉ s.links l j) (hep : s.entry_point_id ≠ id) {ops : List (Op V)}
    (hops : id ∉ inserted ops) (hrun : Trace.run (step ties dist) s ops = some s') {q : V}
    {k ef : ℕ} {results : List (Result D)} (hsearch : s'.search ties dist q k ef = some results) :
    id ∉ results.map Result.id := by
  have hlinked : s.Linked (fun j => j ∈ s.nodes.keys ∧ j ≠ id) := by
    refine ⟨⟨fun a ha l j hj => ⟨hs.region.closed a ha.1 l j hj, ?_⟩,
      fun j hj => hs.region.range j hj.1⟩, fun _ hj => hj.1, fun hne => ⟨hs.entry hne, hep⟩⟩
    rintro rfl
    exact hun l a hj
  have h := linked_run ties dist ops hlinked hrun
  intro hid
  by_cases hentry : s'.entry_point_id = NO_ENTRY
  · rw [HNSW.search, if_pos hentry] at hsearch
    obtain rfl := Option.some.inj hsearch
    exact absurd hid List.not_mem_nil
  obtain ⟨b, found, results', -, -, hK, hsearch', hids⟩ :=
    search_region ties dist h.region (h.entry hentry) hentry q k ef
  obtain rfl := Option.some.inj (hsearch.symm.trans hsearch')
  rw [hids] at hid
  obtain ⟨c, hc, rfl⟩ := List.mem_map.mp hid
  rcases hK c ((Beam.nearest_first_perm ties found).mem_iff.mp (List.mem_of_mem_take hc))
    with hc | hc
  · exact hc.2 rfl
  · exact hops hc

end Stores

end NanoDB.Index

namespace NanoDB.Shard

open Index
open Beam (Ties)

variable {F D : Type*} [Zero F] [LinearOrder D] (tears : Vec F → Vec F → List (Vec F))
  (ties : Ties D) (dist : Vec F → Vec F → D)

/-- Where `Insert` of a new key is killed: with so many bytes of its record in the file of the id
map, and not all, or after so many stores of the index, or of the copy of its node. -/
inductive KillPoint
  | id_map (bytes : ℕ)
  | index (stores : ℕ)
  | copy (stores : ℕ)
deriving DecidableEq

/-- `Insert` of a new key, killed; the shard that is then started. -/
def ShardServiceImpl.killed_insert (sh : ShardServiceImpl F) (req : InsertRequest F)
    (level : Fin MAX_LAYERS) (point : KillPoint) : Option (ShardServiceImpl F) :=
  match sh.checks req with
  | .error _ => none
  | .ok sh =>
      let r := sh.id_map.assign req.external_id
      let i : Insertion (Vec F) := ⟨to_vec req.vector, r.2.1, level, req.metadata⟩
      let killed := fun file => ShardServiceImpl.reopen { sh with index := file, id_map := r.1 }
      match point with
      | .id_map bytes =>
          if bytes < (record req.external_id).length then
            some (ShardServiceImpl.reopen { sh with id_map := { sh.id_map with
              file := sh.id_map.file ++ (record req.external_id).take bytes } })
          else none
      | .index stores => ((sh.index.op_stores ties dist (.insert i))[stores]?).map killed
      | .copy stores => ((sh.index.copy_stores tears i)[stores]?).map killed

/-- Killed in its record: the key is not known. -/
theorem killed_in_record {sh k : ShardServiceImpl F} {req : InsertRequest F}
    {level : Fin MAX_LAYERS} {bytes : ℕ} (hids : sh.id_map.Wf)
    (hnew : sh.id_map.lookup req.external_id = none)
    (hk : sh.killed_insert tears ties dist req level (.id_map bytes) = some k) :
    k.current_epoch = 0 ∧ k.index = sh.index.reopen ∧
      k.id_map.forward req.external_id = none ∧
      k.id_map.reverse.length = sh.id_map.reverse.length := by
  unfold ShardServiceImpl.killed_insert at hk
  split at hk
  · exact absurd hk (by simp)
  rename_i sh₁ hchecks
  obtain ⟨e, rfl⟩ := checks_eq hchecks
  dsimp only at hk
  split at hk
  · rename_i hbytes
    have htorn : Incomplete ((record req.external_id).take bytes) := by
      apply incomplete_of_torn (List.take_prefix _ _)
      intro heq
      have hlen := congrArg List.length heq
      rw [List.length_take] at hlen
      omega
    have hfile : sh.id_map.file = records_of sh.id_map.reverse := by
      conv_lhs => rw [hids.eq]
      rfl
    obtain rfl := Option.some.inj hk
    refine ⟨rfl, rfl, ?_, ?_⟩
    · change (IdMapStore.open_file (sh.id_map.file ++ _)).forward _ = none
      rw [hfile, open_torn hids.short htorn]
      change (IdMapStore.of sh.id_map.reverse).forward _ = none
      rw [← hids.eq]
      exact hnew
    · change (IdMapStore.open_file (sh.id_map.file ++ _)).reverse.length = _
      rw [hfile, open_torn hids.short htorn]
      change (IdMapStore.of sh.id_map.reverse).reverse.length = _
      rw [of_reverse]
  · exact absurd hk (by simp)

/-- Killed behind its record: the key has its id, and the index is in one of the states. -/
theorem killed_behind_record {sh k : ShardServiceImpl F} {req : InsertRequest F}
    {level : Fin MAX_LAYERS} {point : KillPoint} (hids : sh.id_map.Wf)
    (hnew : sh.id_map.lookup req.external_id = none)
    (hk : sh.killed_insert tears ties dist req level point = some k)
    (hpoint : ∀ bytes, point ≠ .id_map bytes) :
    let i : Insertion (Vec F) :=
      ⟨to_vec req.vector, sh.id_map.reverse.length, level, req.metadata⟩
    k.id_map.lookup req.external_id = some sh.id_map.reverse.length ∧
      ∃ u, k.index = u.reopen ∧
        ((∃ n, point = .index n ∧ (sh.index.op_stores ties dist (.insert i))[n]? = some u) ∨
          ∃ n, point = .copy n ∧ (sh.index.copy_stores tears i)[n]? = some u) := by
  intro i
  unfold ShardServiceImpl.killed_insert at hk
  split at hk
  · exact absurd hk (by simp)
  rename_i sh₁ hchecks
  obtain ⟨e, rfl⟩ := checks_eq hchecks
  obtain ⟨hwf, hself, -, hcases⟩ := assign_spec hids req.external_id.2
  rcases hcases with ⟨hold, -⟩ | ⟨-, hassign, -⟩
  · exact absurd (hnew.symm.trans hold) (by simp)
  have hlookup : (IdMapStore.open_file (sh.id_map.assign req.external_id).1.file).forward
      req.external_id = some sh.id_map.reverse.length := by
    rw [reopen hwf]
    rwa [hassign] at hself
  dsimp only at hk
  rw [hassign] at hk
  cases point with
  | id_map bytes => exact absurd rfl (hpoint bytes)
  | index n =>
      obtain ⟨u, hu, rfl⟩ := Option.map_eq_some_iff.mp hk
      exact ⟨hlookup, u, rfl, .inl ⟨n, rfl, hu⟩⟩
  | copy n =>
      obtain ⟨u, hu, rfl⟩ := Option.map_eq_some_iff.mp hk
      exact ⟨hlookup, u, rfl, .inr ⟨n, rfl, hu⟩⟩

/-- A known key whose slot does not read as deleted: `Insert` leaves the index alone. -/
theorem insert_known [BEq F] {k : ShardServiceImpl F} {req : InsertRequest F} {i : ℕ}
    (hlookup : k.id_map.lookup req.external_id = some i)
    (halive : k.index.is_deleted i = false) (level : Fin MAX_LAYERS) :
    ∃ k' answer, k.insert ties dist req level = some (k', answer) ∧ k'.index = k.index := by
  have hassign : k.id_map.assign req.external_id = (k.id_map, i, false) := by
    unfold IdMapStore.assign
    rw [show k.id_map.forward req.external_id = some i from hlookup]
  unfold ShardServiceImpl.insert
  split
  · exact ⟨k, _, rfl, rfl⟩
  rename_i k₁ hchecks
  obtain ⟨e, rfl⟩ := checks_eq hchecks
  dsimp only
  rw [hassign, if_pos ⟨rfl, halive⟩]
  split
  · exact ⟨_, _, rfl, rfl⟩
  · exact ⟨_, _, rfl, rfl⟩

/-- An unknown key is inserted, whatever the file of the id map holds. -/
theorem insert_unknown [BEq F] {k : ShardServiceImpl F} {req : InsertRequest F}
    (hsound : k.index.Sound) (hepoch : k.current_epoch ≤ req.epoch)
    (hdim : req.vector.length = VECTOR_DIM) (hnew : k.id_map.forward req.external_id = none)
    (level : Fin MAX_LAYERS) :
    ∃ k', k.insert ties dist req level = some (k', ⟨true, ""⟩) ∧
      k'.id_map.lookup req.external_id = some k.id_map.reverse.length ∧
      k'.index.get_vector_data k.id_map.reverse.length = some (to_vec req.vector) := by
  obtain ⟨index, hinsert, hw⟩ := insert_writes ties dist hsound
    ⟨to_vec req.vector, k.id_map.reverse.length, level, req.metadata⟩
  have hassign : k.id_map.assign req.external_id
      = ({ k.id_map.push req.external_id with file := k.id_map.file ++ record req.external_id },
        k.id_map.reverse.length, true) := by
    unfold IdMapStore.assign
    rw [hnew]
  refine ⟨⟨index, (k.id_map.assign req.external_id).1, req.epoch⟩, ?_, ?_, hw.vector_self⟩
  · unfold ShardServiceImpl.insert ShardServiceImpl.checks
    rw [if_neg (not_not.mpr hdim), check_and_advance_epoch_ok hepoch]
    dsimp only
    rw [hassign, if_neg (by simp)]
    dsimp only
    rw [show k.index.insert ties dist (to_vec req.vector) _ level req.metadata = some index
      from hinsert]
    rfl
  · rw [hassign]
    exact Function.update_self _ _ _

/-- **A killed insertion, asked for again.** A shard is killed somewhere in the `Insert` of a new
key. Killed before the record of the id map is complete, it inserts the key when it is asked again.
Killed later, it does not touch its index. If no link led to the node yet, no search finds it from
then on, whatever else is inserted and deleted; and that is so for every shard with an entry point
that is killed in the copy of the node, or when the vector is stored, and before it is linked. -/
theorem killed_insert_retried [BEq F] {sh k : ShardServiceImpl F} {req : InsertRequest F}
    {level : Fin MAX_LAYERS} {point : KillPoint} (hsound : sh.index.Sound) (hids : sh.id_map.Wf)
    (hnew : sh.id_map.lookup req.external_id = none)
    (hfree : sh.id_map.reverse.length ∉ sh.index.nodes.keys)
    (hk : sh.killed_insert tears ties dist req level point = some k) :
    let local_id := sh.id_map.reverse.length
    let unlinked := (∀ l j, local_id ∉ k.index.links l j) ∧ k.index.entry_point_id ≠ local_id
    ((∃ bytes, point = .id_map bytes) → ∀ again level', again.external_id = req.external_id →
      again.vector.length = VECTOR_DIM → ∃ k',
        k.insert ties dist again level' = some (k', ⟨true, ""⟩) ∧
        k'.id_map.lookup again.external_id = some local_id ∧
        k'.index.get_vector_data local_id = some (to_vec again.vector)) ∧
    ((∀ bytes, point ≠ .id_map bytes) →
      (∀ again level', again.external_id = req.external_id → ∃ k' answer,
        k.insert ties dist again level' = some (k', answer) ∧ k'.index = k.index) ∧
      (unlinked → ∀ ops s, local_id ∉ inserted ops →
        Trace.run (step ties dist) k.index ops = some s →
        ∀ q m ef results, s.search ties dist q m ef = some results →
          local_id ∉ results.map Result.id) ∧
      (point = .index 2 ∨ (∃ n, point = .copy n) → sh.index.entry_point_id ≠ NO_ENTRY → unlinked) ∧
      (point = .index 2 → k.index.get_vector_data local_id = some (to_vec req.vector))) := by
  intro local_id unlinked
  constructor
  · rintro ⟨bytes, rfl⟩ again level' hagain hdim
    obtain ⟨hepoch, hindex, hforward, hlen⟩ := killed_in_record tears ties dist hids hnew hk
    have hsound' : k.index.Sound := hindex ▸ (holds_of_sound hsound).reopen.sound
    have hepoch' : k.current_epoch ≤ again.epoch := hepoch ▸ Nat.zero_le _
    have h := insert_unknown ties dist hsound' hepoch' hdim (hagain ▸ hforward) level'
    rwa [hlen] at h
  intro hpoint
  obtain ⟨hlookup, u, hindex, hu⟩ := killed_behind_record tears ties dist hids hnew hk hpoint
  -- a state in the copy has the node in its place
  have hplaced : ∀ n : ℕ, (sh.index.copy_stores tears
      ⟨to_vec req.vector, local_id, level, req.metadata⟩)[n]? = some u →
      ∃ (level' : Fin MAX_LAYERS) (w : Vec F), u = sh.index.place local_id level' w := by
    intro n hn
    obtain ⟨level', w, -, rfl⟩ := copy_stores_unused hfree u (List.mem_of_getElem? hn)
    exact ⟨level', w, rfl⟩
  have hunlinked : ∀ (level' : Fin MAX_LAYERS) (w : Vec F),
      u = sh.index.place local_id level' w → sh.index.entry_point_id ≠ NO_ENTRY → unlinked := by
    rintro level' w rfl hentry
    have hun := place_unlinked hsound (i := ⟨w, local_id, level', []⟩) hfree hentry
    refine ⟨fun l j => ?_, ?_⟩
    · rw [hindex]
      exact hun.1 l j
    · rw [hindex]
      exact hun.2
  have htwo : point = .index 2 → u = sh.index.place local_id level (to_vec req.vector) := by
    rintro rfl
    rcases hu with ⟨n, hn, hu⟩ | ⟨n, hn, -⟩
    · obtain rfl := KillPoint.index.inj hn
      exact (Option.some.inj hu).symm
    · cases hn
  refine ⟨fun again level' hagain => ?_, fun hun ops s hops hrun q m ef results hsearch => ?_,
    fun hwhere hentry => ?_, fun hn => ?_⟩
  · apply insert_known ties dist (by rw [hagain]; exact hlookup)
    rw [hindex]
    rcases hu with ⟨n, -, hn⟩ | ⟨n, -, hn⟩
    · exact op_stores_alive ties dist hsound (i := ⟨_, _, level, _⟩) hfree u
        (List.mem_of_getElem? hn)
    · obtain ⟨level', w, rfl⟩ := hplaced n hn
      have halive := placed_alive hsound (placed_place hsound ⟨w, local_id, level', []⟩)
      exact halive
  · have hk_sound : k.index.Sound := by
      rw [hindex]
      rcases hu with ⟨n, -, hn⟩ | ⟨n, -, hn⟩
      · rcases op_stores_holds ties dist (holds_of_sound hsound) _ u (List.mem_of_getElem? hn)
          with h | h
        · exact h.reopen.sound
        · exact h.reopen.sound
      · obtain ⟨w, -, h⟩ := copy_stores_holds (holds_of_sound hsound) hfree u
          (List.mem_of_getElem? hn)
        exact h.reopen.sound
    exact unlinked_stays_lost ties dist hk_sound hun.1 hun.2 hops hrun hsearch
  · rcases hwhere with hn | ⟨n, rfl⟩
    · exact hunlinked level _ (htwo hn) hentry
    · rcases hu with ⟨m, hm, -⟩ | ⟨m, hm, hu⟩
      · cases hm
      · obtain ⟨level', w, hw⟩ := hplaced m hu
        exact hunlinked level' w hw hentry
  · have hvec := (placed_place hsound ⟨to_vec req.vector, local_id, level, []⟩).vector hsound
    rw [hindex, htwo hn, reopen_get_vector_data]
    exact hvec

/-- A shard that has one vector, under the key `1`. -/
def one_vector : ShardServiceImpl ℤ where
  index :=
    ((HNSW.fresh shard_file).place 0 0 (to_vec (List.replicate VECTOR_DIM 1))).finish 0 0 0 []
  id_map := IdMapStore.of [[1]]

def second_insert : InsertRequest ℤ := ⟨one_byte 2, List.replicate VECTOR_DIM 2, ⟨[], by decide⟩, 0⟩

/-- The second insertion is killed before it is linked; asked again, the shard acknowledges it. -/
theorem killed_insert_retried_second :
    ∃ k, one_vector.killed_insert (fun _ _ => []) Ties.first euclid second_insert 0 (.index 2)
        = some k ∧
      (k.insert Ties.first euclid second_insert 0).map Prod.snd = some ⟨true, ""⟩ ∧
      k.index.get_vector_data 1 = some (to_vec second_insert.vector) ∧
      ∀ q m ef results, k.index.search Ties.first euclid q m ef = some results →
        1 ∉ results.map Result.id := by
  have hsound : one_vector.index.Sound := by
    obtain ⟨s, hstep, hw⟩ := insert_writes Ties.first euclid (fresh_sound shard_file)
      ⟨to_vec (List.replicate VECTOR_DIM 1), 0, 0, []⟩
    rw [insert_empty Ties.first euclid rfl] at hstep
    obtain rfl := Option.some.inj hstep
    exact hw.sound
  have hids : one_vector.id_map.Wf := by
    constructor
    · rfl
    · decide
    · decide
  have hall : (one_vector.killed_insert (fun _ _ => []) Ties.first euclid second_insert 0
      (.index 2)).map (fun k => (k.insert Ties.first euclid second_insert 0).map Prod.snd)
        = some (some ⟨true, ""⟩) := by
    decide +kernel
  obtain ⟨k, hk, hanswer⟩ := Option.map_eq_some_iff.mp hall
  obtain ⟨-, hlater⟩ := killed_insert_retried (fun _ _ => []) Ties.first euclid hsound hids
    (by decide) (by decide) hk
  obtain ⟨-, hlost, hun, hvec⟩ := hlater (by simp)
  refine ⟨k, hk, hanswer, hvec rfl, fun q m ef results hsearch => ?_⟩
  exact hlost (hun (.inl rfl) (by decide)) [] _ (by decide) rfl q m ef results hsearch

end NanoDB.Shard
