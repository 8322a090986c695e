/-
What holds of the neighbour lists in every run of insertions and deletions.

A list never grows over its array and never names its own node (`HNSW.Fits`): `add_link` sees
to both by itself. The other two properties depend on what an insertion finds. A slot that is
written again gets empty lists, but the lists of other nodes still name it.

* `add_link` looks for the new neighbour only in a full list, so a list with room that still
  names a revived node gets it a second time (`stale_link_appended_twice`). Lists are sets as
  long as no live list with room names the node that is inserted (`lists_stay_sets`).
* The new level of a revived node may lie below links that still lead to it, and below the top
  layer that its being the entry point stands for (`revived_entry_point_lowers_level`). The
  layers stay consistent as long as neither is the case (`layers_stay_consistent`).
-/
import NanoDB.HnswRevive

set_option autoImplicit false

namespace NanoDB.Index

open Beam (Cand Ties)

variable {V D : Type*} [Zero V] [LinearOrder D] (ties : Ties D) (dist : V → V → D)

/-! ## One link -/

/-- What `add_link` can do to its list: append, leave it, or choose again. -/
theorem add_link_cases (s : HNSW V) (src dest layer : ℕ) :
    ((s.links layer src).length < max_conn layer ∧
      (s.add_link ties dist src dest layer).links layer src = s.links layer src ++ [dest]) ∨
    (dest ∈ s.links layer src ∧
      (s.add_link ties dist src dest layer).links layer src = s.links layer src) ∨
    (dest ∉ s.links layer src ∧ ∃ ordered : List ℕ,
      ordered.Perm (s.links layer src ++ [dest]) ∧
      ((s.add_link ties dist src dest layer).links layer src).Sublist ordered ∧
      src ∉ (s.add_link ties dist src dest layer).links layer src ∧
      ((s.add_link ties dist src dest layer).links layer src).length ≤ max_conn layer) := by
  by_cases hroom : (s.links layer src).length < max_conn layer
  · exact Or.inl ⟨hroom, add_link_room ties dist s dest hroom⟩
  refine Or.inr ?_
  unfold HNSW.add_link
  dsimp only
  rw [if_neg hroom]
  by_cases hmem : dest ∈ s.links layer src
  · rw [if_pos hmem]
    exact Or.inl ⟨hmem, rfl⟩
  rw [if_neg hmem, links_set_links, if_pos ⟨rfl, rfl⟩]
  obtain ⟨hsub, hself, hlen⟩ := select_spec dist s (ties.sort ((s.links layer src ++ [dest]).map
    (fun n => ⟨dist (s.get_node src).vector (s.get_node n).vector, n⟩))) (max_conn layer) src
  refine Or.inr ⟨hmem, _, ?_, hsub, hself, hlen⟩
  refine ((ties.sort_perm _).map Cand.id).trans (List.Perm.of_eq ?_)
  rw [List.map_map]
  exact List.map_id _

/-- The other lists stay. -/
theorem add_link_other (s : HNSW V) {src layer l i : ℕ} (dest : ℕ) (h : ¬ (i = src ∧ l = layer)) :
    (s.add_link ties dist src dest layer).links l i = s.links l i :=
  (add_link_links ties dist s src dest layer).1 l i h

/-- A property of all lists that the changed one keeps. -/
theorem add_link_lists {Q : ℕ → ℕ → List ℕ → Prop} {s : HNSW V}
    (hs : ∀ l i, Q l i (s.links l i)) {src dest layer : ℕ}
    (h : Q layer src ((s.add_link ties dist src dest layer).links layer src)) (l i : ℕ) :
    Q l i ((s.add_link ties dist src dest layer).links l i) := by
  by_cases hil : i = src ∧ l = layer
  · rw [hil.1, hil.2]
    exact h
  · rw [add_link_other ties dist s dest hil]
    exact hs l i

/-! ## Lists fit -/

/-- No list is longer than its array, and none names its own node. -/
def HNSW.Fits (s : HNSW V) : Prop :=
  ∀ l i, (s.links l i).length ≤ max_conn l ∧ i ∉ s.links l i

theorem fits_add_link {s : HNSW V} (hs : s.Fits) {src dest : ℕ} (hne : dest ≠ src) (layer : ℕ) :
    (s.add_link ties dist src dest layer).Fits := by
  refine add_link_lists ties dist (Q := fun l i ns => ns.length ≤ max_conn l ∧ i ∉ ns) hs ?_
  rcases add_link_cases ties dist s src dest layer with
    ⟨hroom, h⟩ | ⟨-, h⟩ | ⟨-, -, -, -, hself, hlen⟩
  · rw [h, List.length_append, List.length_singleton, List.mem_append, List.mem_singleton, not_or]
    exact ⟨hroom, (hs layer src).2, fun h => hne h.symm⟩
  · rw [h]
    exact hs layer src
  · exact ⟨hlen, hself⟩

theorem fits_link_all {s : HNSW V} (hs : s.Fits) {id : ℕ} (layer : ℕ) {selected : List ℕ}
    (hself : id ∉ selected) : (s.link_all ties dist id layer selected).Fits := by
  refine List.foldlRecOn selected _ hs (fun t ht n hn => ?_)
  have hne : n ≠ id := fun h => hself (h ▸ hn)
  exact fits_add_link ties dist (fits_add_link ties dist ht hne layer) (fun h => hne h.symm) layer

omit [LinearOrder D] in
/-- Placing a node empties its lists. -/
theorem place_lists {Q : ℕ → ℕ → List ℕ → Prop} {s : HNSW V} {id : ℕ}
    (hs : ∀ l i, i ≠ id → Q l i (s.links l i)) (hnil : ∀ l, Q l id []) (level : ℕ) (vec_data : V)
    (l i : ℕ) : Q l i ((s.place id level vec_data).links l i) := by
  by_cases hi : i = id
  · rw [hi, place_links_self]
    exact hnil l
  · rw [place_links_ne s id level vec_data l hi]
    exact hs l i hi

/-- **One operation** keeps the lists in their arrays. -/
theorem fits_step {s s' : HNSW V} (hs : s.Sound) (hfits : s.Fits) {op : Op V}
    (hstep : step ties dist s op = some s') : s'.Fits := by
  cases op with
  | delete id =>
      obtain rfl := Option.some.inj hstep
      intro l i
      rw [delete_links]
      exact hfits l i
  | insert i =>
      have hplace : (s.place i.id i.level i.vec_data).Fits :=
        place_lists (Q := fun l i ns => ns.length ≤ max_conn l ∧ i ∉ ns)
          (fun l j _ => hfits l j) (fun _ => ⟨Nat.zero_le _, List.not_mem_nil⟩) _ _
      obtain ⟨t, ep, max_layer, h, ht, -⟩ := insert_rounds ties dist hs i (fun _ t => t.Fits) hplace
        hplace (fun l _ t _ _ ht hR => fits_link_all ties dist ht l hR.not_self)
      obtain rfl := Option.some.inj (h.symm.trans hstep)
      exact ht

/-! ## Lists are sets -/

/-- No list names a node twice. -/
def HNSW.Distinct (s : HNSW V) : Prop := ∀ l i, (s.links l i).Nodup

/-- A list stays a set unless it has room and names the new neighbour already. -/
theorem distinct_add_link {s : HNSW V} (hs : s.Distinct) {src dest layer : ℕ}
    (hnew : (s.links layer src).length < max_conn layer → dest ∉ s.links layer src) :
    (s.add_link ties dist src dest layer).Distinct := by
  refine add_link_lists ties dist (Q := fun _ _ ns => ns.Nodup) hs ?_
  have happend : dest ∉ s.links layer src → (s.links layer src ++ [dest]).Nodup := by
    intro h
    rw [List.nodup_append]
    refine ⟨hs layer src, List.nodup_singleton dest, fun a ha b hb hab => h ?_⟩
    rw [← List.mem_singleton.mp hb, ← hab]
    exact ha
  rcases add_link_cases ties dist s src dest layer with
    ⟨hroom, h⟩ | ⟨-, h⟩ | ⟨hmem, ordered, hperm, hsub, -⟩
  · rw [h]
    exact happend (hnew hroom)
  · rw [h]
    exact hs layer src
  · exact hsub.nodup (hperm.nodup_iff.mpr (happend hmem))

/-- A round keeps the lists sets if the new node starts without links to what was selected, and
no selected list with room names it. -/
theorem distinct_link_all {id : ℕ} (layer : ℕ) (selected : List ℕ) :
    ∀ s : HNSW V, s.Distinct → selected.Nodup → id ∉ selected →
      (∀ n ∈ selected, n ∉ s.links layer id) →
      (∀ n ∈ selected, (s.links layer n).length < max_conn layer → id ∉ s.links layer n) →
      (s.link_all ties dist id layer selected).Distinct := by
  induction selected with
  | nil =>
      intro s hs _ _ _ _
      exact hs
  | cons n ns ih =>
      intro s hs hnodup hself hfrom hto
      obtain ⟨hn, hnodup⟩ := List.nodup_cons.mp hnodup
      rw [List.mem_cons, not_or] at hself
      -- there and back; the list of `n` is the one it had before
      have hkeep : ∀ m, m ≠ id →
          (s.add_link ties dist id n layer).links layer m = s.links layer m :=
        fun m hm => add_link_other ties dist s n (fun h => hm h.1)
      have hto₁ : ((s.add_link ties dist id n layer).links layer n).length < max_conn layer →
          id ∉ (s.add_link ties dist id n layer).links layer n := by
        rw [hkeep n (fun h => hself.1 h.symm)]
        exact hto n List.mem_cons_self
      have hs₁ := distinct_add_link ties dist hs (fun _ => hfrom n List.mem_cons_self)
      have hs₂ := distinct_add_link ties dist hs₁ hto₁
      refine ih _ hs₂ hnodup hself.2 (fun m hm => ?_) (fun m hm => ?_)
      · -- the list of the new node gained `n`
        have hmn : m ≠ n := fun h => hn (h ▸ hm)
        rw [add_link_other ties dist _ id (fun h => hself.1 h.1)]
        intro hmem
        rcases (add_link_links ties dist s id n layer).2 m hmem with h | h
        · exact hfrom m (List.mem_cons_of_mem _ hm) h
        · exact hmn h
      · have hmn : m ≠ n := fun h => hn (h ▸ hm)
        have hmid : m ≠ id := fun h => hself.2 (h ▸ hm)
        rw [add_link_other ties dist _ id (fun h => hmn h.1), hkeep m hmid]
        exact hto m (List.mem_cons_of_mem _ hm)

/-- No live node whose list has room names the node that is about to be inserted, on a layer
where it will be linked. -/
def NotNamed (s : HNSW V) : Op V → Prop
  | .insert i => ∀ l ≤ min i.level.val s.current_max_layer, ∀ j ∈ s.nodes.keys, j ≠ i.id →
      (s.get_node j).is_deleted = false → (s.links l j).length < max_conn l → i.id ∉ s.links l j
  | .delete _ => True

instance decidableNotNamed (s : HNSW V) : (op : Op V) → Decidable (NotNamed s op)
  | .insert _ => by unfold NotNamed; infer_instance
  | .delete _ => by unfold NotNamed; infer_instance

omit [LinearOrder D] in
/-- A new id is named nowhere. -/
theorem notNamed_of_new {s : HNSW V} (hs : s.Sound) {i : Insertion V}
    (hnew : i.id ∉ s.nodes.keys) : NotNamed s (.insert i) :=
  fun l _ j hj _ _ _ hmem => hnew (hs.region.closed j hj l _ hmem)

theorem distinct_step {s s' : HNSW V} (hs : s.Sound) (hdistinct : s.Distinct) {op : Op V}
    (hok : NotNamed s op) (hstep : step ties dist s op = some s') : s'.Distinct := by
  cases op with
  | delete id =>
      obtain rfl := Option.some.inj hstep
      intro l i
      rw [delete_links]
      exact hdistinct l i
  | insert i =>
      have hplace : (s.place i.id i.level i.vec_data).Distinct :=
        place_lists (Q := fun _ _ ns => ns.Nodup) (fun l j _ => hdistinct l j)
          (fun _ => List.nodup_nil) _ _
      -- the layers that are still to come are as they were when the node was placed
      obtain ⟨t, ep, max_layer, h, ⟨ht, -⟩, -⟩ := insert_rounds ties dist hs i
        (fun rest t => t.Distinct ∧ rest.Nodup ∧
          (∀ l ∈ rest, l ≤ min i.level.val s.current_max_layer) ∧
          Relinked (s.place i.id i.level i.vec_data) t ∧
          ∀ l ∈ rest, ∀ j, t.links l j = (s.place i.id i.level i.vec_data).links l j)
        ⟨hplace, List.nodup_nil, by simp, Relinked.refl _, fun _ _ _ => rfl⟩
        ⟨hplace, List.nodup_reverse.mpr List.nodup_range,
          fun l hl => by
            rw [List.mem_reverse, List.mem_range] at hl
            omega,
          Relinked.refl _, fun _ _ _ => rfl⟩
        (by
          rintro l rest t curr selected ⟨ht, hnodup, hbelow, hrel, hsame⟩ hR
          obtain ⟨hl, hnodup⟩ := List.nodup_cons.mp hnodup
          obtain ⟨-, hrel', hother⟩ := hR.links ties dist (Or.inr rfl)
          refine ⟨?_, hnodup, fun l' hl' => hbelow l' (List.mem_cons_of_mem l hl'),
            hrel.trans hrel', fun l' hl' j => ?_⟩
          · have hlayer := hsame l List.mem_cons_self
            refine distinct_link_all ties dist l selected t ht hR.nodup hR.not_self
              (fun n _ => ?_) (fun n hn => ?_)
            · rw [hlayer, place_links_self]
              exact List.not_mem_nil
            · have hne : n ≠ i.id := fun h => hR.not_self (h ▸ hn)
              have hlive := hR.live n hn
              rw [hrel.deleted, place_get_node_ne s i.id i.level i.vec_data hne] at hlive
              rw [hlayer, place_links_ne s i.id i.level i.vec_data l hne]
              exact hok l (hbelow l List.mem_cons_self) n ((hR.mem n hn).resolve_right hne) hne
                hlive
          · rw [hother l' (fun h => hl (h ▸ hl')), hsame l' (List.mem_cons_of_mem l hl')])
      obtain rfl := Option.some.inj (h.symm.trans hstep)
      exact ht

/-- **Neighbour lists stay sets** in every run in which no live list with room names a node that
is inserted. -/
theorem lists_stay_sets {storage_size : ℕ} {ops : List (Op V)} {s : HNSW V}
    (hrun : Trace.run (step ties dist) (HNSW.fresh storage_size) ops = some s)
    (hok : Trace.Along (step ties dist) NotNamed (HNSW.fresh storage_size) ops) (layer id : ℕ) :
    (s.links layer id).Nodup := by
  have hstart : (HNSW.fresh storage_size : HNSW V).Sound ∧
      (HNSW.fresh storage_size : HNSW V).Distinct :=
    ⟨fresh_sound storage_size, fun _ _ => List.nodup_nil⟩
  refine (Trace.run_invariant_along (P := fun t => t.Sound ∧ t.Distinct)
    (fun t op t' h hop ht => ?_) hstart hok hrun).2 layer id
  exact ⟨sound_step ties dist h.1 ht, distinct_step ties dist h.1 h.2 hop ht⟩

/-- Node 1 is revived while the node that still names it is deleted. -/
theorem lists_stay_sets_revival :
    ∃ s, Trace.run (step Ties.first l2_distance) (HNSW.fresh shard_file)
        [.insert (insert_at (axis 0 1) 0 0), .insert (insert_at (axis 1 2) 1 0), .delete 1,
         .delete 0, .insert (insert_at (axis 2 3) 2 1), .insert (insert_at (axis 1 2) 1 0)]
        = some s ∧
      (s.links 0 0 = [1] ∧ s.links 0 1 = [2] ∧ s.links 0 2 = [1]) ∧
      ∀ layer id, (s.links layer id).Nodup := by
  have hall : (Trace.run (step Ties.first l2_distance) (HNSW.fresh shard_file)
      [.insert (insert_at (axis 0 1) 0 0), .insert (insert_at (axis 1 2) 1 0), .delete 1,
       .delete 0, .insert (insert_at (axis 2 3) 2 1), .insert (insert_at (axis 1 2) 1 0)]).map
      (fun s => decide (s.links 0 0 = [1] ∧ s.links 0 1 = [2] ∧ s.links 0 2 = [1]))
      = some true := by
    decide +kernel
  obtain ⟨s, hrun, hs⟩ := Option.map_eq_some_iff.mp hall
  exact ⟨s, hrun, of_decide_eq_true hs, fun layer id =>
    lists_stay_sets Ties.first l2_distance hrun (by decide +kernel) layer id⟩

/-- **A list names a node twice.** Node 0 still names node 1 when that is inserted again, and its
list has room. -/
theorem stale_link_appended_twice :
    (Trace.run (step Ties.first l2_distance) (HNSW.fresh shard_file)
      [.insert (insert_at (axis 0 1) 0 0), .insert (insert_at (axis 1 2) 1 0), .delete 1,
       .insert (insert_at (axis 1 2) 1 0)]).map (fun s => s.links 0 0) = some [1, 1] := by
  decide +kernel

/-! ## Layers -/

theorem add_link_max_layer (s : HNSW V) (src dest layer i : ℕ) :
    ((s.add_link ties dist src dest layer).get_node i).max_layer = (s.get_node i).max_layer := by
  have hset : ∀ ns, ((s.set_links layer src ns).get_node i).max_layer
      = (s.get_node i).max_layer := by
    intro ns
    rw [HNSW.set_links, get_node_set_node]
    split
    · rename_i h
      rw [h]
    · rfl
  unfold HNSW.add_link
  dsimp only
  split
  · exact hset _
  split
  · rfl
  · exact hset _

/-- Every link of a layer joins two nodes that take part in it. -/
def HNSW.Joins (s : HNSW V) : Prop :=
  ∀ l i, ∀ j ∈ s.links l i, l ≤ (s.get_node i).max_layer ∧ l ≤ (s.get_node j).max_layer

theorem joins_add_link {s : HNSW V} (hs : s.Joins) {src dest layer : ℕ}
    (hsrc : layer ≤ (s.get_node src).max_layer) (hdest : layer ≤ (s.get_node dest).max_layer) :
    (s.add_link ties dist src dest layer).Joins := by
  intro l i j hj
  rw [add_link_max_layer, add_link_max_layer]
  by_cases hil : i = src ∧ l = layer
  · obtain ⟨rfl, rfl⟩ := hil
    rcases (add_link_links ties dist s i dest l).2 j hj with h | rfl
    · exact hs l i j h
    · exact ⟨hsrc, hdest⟩
  · rw [add_link_other ties dist s dest hil] at hj
    exact hs l i j hj

theorem joins_link_all {s : HNSW V} (hs : s.Joins) {id layer : ℕ} {selected : List ℕ}
    (hid : layer ≤ (s.get_node id).max_layer)
    (hsel : ∀ n ∈ selected, layer ≤ (s.get_node n).max_layer) :
    (s.link_all ties dist id layer selected).Joins ∧
      ∀ i, ((s.link_all ties dist id layer selected).get_node i).max_layer
        = (s.get_node i).max_layer := by
  refine List.foldlRecOn (motive := fun t : HNSW V => t.Joins ∧
    ∀ i, (t.get_node i).max_layer = (s.get_node i).max_layer) selected _ ⟨hs, fun _ => rfl⟩ ?_
  rintro t ⟨ht, hsame⟩ n hn
  have hidt : layer ≤ (t.get_node id).max_layer := (hsame id).symm ▸ hid
  have hnt : layer ≤ (t.get_node n).max_layer := (hsame n).symm ▸ hsel n hn
  have hthere := joins_add_link ties dist ht hidt hnt
  refine ⟨joins_add_link ties dist hthere ?_ ?_, fun i => ?_⟩
  · rw [add_link_max_layer]
    exact hnt
  · rw [add_link_max_layer]
    exact hidt
  · rw [add_link_max_layer, add_link_max_layer, hsame]

omit [LinearOrder D] in
/-- A search of a layer stays among the nodes that take part in it. -/
theorem HNSW.Joins.reach {s : HNSW V} (hs : s.Joins) {l i j : ℕ}
    (hi : l ≤ (s.get_node i).max_layer)
    (hreach : Relation.ReflTransGen (fun a b => b ∈ s.links l a) i j) :
    l ≤ (s.get_node j).max_layer := by
  induction hreach with
  | refl => exact hi
  | tail _ hedge _ => exact (hs l _ _ hedge).2

/-- The top layer is that of the entry point, and links join nodes that take part in their
layer. -/
structure HNSW.Layered (s : HNSW V) : Prop where
  joins : s.Joins
  entry : s.entry_point_id ≠ NO_ENTRY →
    s.current_max_layer = (s.get_node s.entry_point_id).max_layer
  top : s.entry_point_id ≠ NO_ENTRY → ∀ i, (s.get_node i).max_layer ≤ s.current_max_layer
  empty : s.entry_point_id = NO_ENTRY → ∀ i, (s.get_node i).max_layer = 0

/-- The node that is inserted is not the sentinel, does not lower the entry point, and is named
by no other node on a layer above its new level. -/
def LevelFits (s : HNSW V) : Op V → Prop
  | .insert i => i.id ≠ NO_ENTRY ∧ (i.id = s.entry_point_id → s.current_max_layer ≤ i.level.val) ∧
      ∀ l ≤ s.current_max_layer, i.level.val < l → ∀ j ∈ s.nodes.keys, j ≠ i.id →
        i.id ∉ s.links l j
  | .delete _ => True

instance decidableLevelFits (s : HNSW V) : (op : Op V) → Decidable (LevelFits s op)
  | .insert _ => by unfold LevelFits; infer_instance
  | .delete _ => by unfold LevelFits; infer_instance

section Place

variable {s : HNSW V} (hs : s.Layered) {i : Insertion V} (hok : LevelFits s (.insert i))

include hs hok

omit [LinearOrder D] in
/-- Placing the node leaves no link behind that is too high for it. -/
theorem joins_place : (s.place i.id i.level i.vec_data).Joins := by
  intro l j k hk
  have hj : j ≠ i.id := by
    rintro rfl
    rw [place_links_self] at hk
    exact List.not_mem_nil hk
  rw [place_links_ne s i.id i.level i.vec_data l hj] at hk
  rw [place_get_node_ne s i.id i.level i.vec_data hj]
  obtain ⟨hlj, hlk⟩ := hs.joins l j k hk
  refine ⟨hlj, ?_⟩
  by_cases hki : k = i.id
  · rw [hki, place_get_node_self]
    change l ≤ i.level.val
    by_contra hlow
    rw [hki] at hk
    by_cases hentry : s.entry_point_id = NO_ENTRY
    · rw [hs.empty hentry] at hlj
      omega
    · have hkey : j ∈ s.nodes.keys := written_of_link hk
      exact hok.2.2 l (hlj.trans (hs.top hentry j)) (not_le.mp hlow) j hkey hj hk
  · rw [place_get_node_ne s i.id i.level i.vec_data hki]
    exact hlk

omit [LinearOrder D] in
/-- The last lines of an insertion leave entry point and top layer in agreement. -/
theorem layered_finish {t : HNSW V} (hjoins : t.Joins)
    (hsame : ∀ j, (t.get_node j).max_layer
      = ((s.place i.id i.level i.vec_data).get_node j).max_layer)
    (hentry : s.entry_point_id ≠ NO_ENTRY) :
    (t.finish i.id (if i.level.val > s.current_max_layer then i.id else s.entry_point_id)
      (max i.level.val s.current_max_layer) i.metadata).Layered := by
  have hself : (t.get_node i.id).max_layer = i.level.val := by
    rw [hsame, place_get_node_self]
    rfl
  have hother : ∀ j, j ≠ i.id → (t.get_node j).max_layer = (s.get_node j).max_layer := by
    intro j hj
    rw [hsame, place_get_node_ne s i.id i.level i.vec_data hj]
  have hne : (if i.level.val > s.current_max_layer then i.id else s.entry_point_id)
      ≠ NO_ENTRY := by
    split
    · exact hok.1
    · exact hentry
  refine ⟨hjoins, fun _ => ?_, fun _ j => ?_, fun h => absurd h hne⟩
  · change max i.level.val s.current_max_layer = (t.get_node _).max_layer
    change _ = (t.get_node (if _ then _ else _)).max_layer
    by_cases hup : i.level.val > s.current_max_layer
    · rw [if_pos hup, hself]
      omega
    rw [if_neg hup]
    by_cases hep : s.entry_point_id = i.id
    · have hlow := hok.2.1 hep.symm
      rw [hep, hself]
      omega
    · rw [hother _ hep, ← hs.entry hentry]
      omega
  · change (t.get_node j).max_layer ≤ max i.level.val s.current_max_layer
    by_cases hj : j = i.id
    · rw [hj, hself]
      exact le_max_left _ _
    · rw [hother j hj]
      exact (hs.top hentry j).trans (le_max_right _ _)

end Place

omit [LinearOrder D] in
/-- The first insertion makes its node the entry point. -/
theorem layered_first {s : HNSW V} (hs : s.Layered) {i : Insertion V}
    (hok : LevelFits s (.insert i)) (hentry : s.entry_point_id = NO_ENTRY) :
    ((s.place i.id i.level i.vec_data).finish i.id i.id i.level i.metadata).Layered := by
  refine ⟨joins_place hs hok, fun _ => ?_, fun _ j => ?_, fun h => absurd h hok.1⟩
  · change i.level.val = ((s.place i.id i.level i.vec_data).get_node i.id).max_layer
    rw [place_get_node_self]
    rfl
  · change ((s.place i.id i.level i.vec_data).get_node j).max_layer ≤ i.level.val
    by_cases hj : j = i.id
    · rw [hj, place_get_node_self]
      exact le_refl _
    · rw [place_get_node_ne s i.id i.level i.vec_data hj, hs.empty hentry]
      exact Nat.zero_le _

theorem layered_step {s s' : HNSW V} (hs : s.Sound) (hlayered : s.Layered) {op : Op V}
    (hok : LevelFits s op) (hstep : step ties dist s op = some s') : s'.Layered := by
  cases op with
  | delete id =>
      obtain rfl := Option.some.inj hstep
      have hsame : ∀ j, ((s.delete_vector id).get_node j).max_layer
          = (s.get_node j).max_layer := by
        intro j
        rw [delete_get_node]
        split <;> rfl
      have hrest := delete_rest s id
      refine ⟨fun l i j hj => ?_, fun h => ?_, fun h i => ?_, fun h i => ?_⟩
      · rw [delete_links] at hj
        rw [hsame, hsame]
        exact hlayered.joins l i j hj
      · rw [hrest.1] at h ⊢
        rw [hrest.2, hsame]
        exact hlayered.entry h
      · rw [hrest.1] at h
        rw [hrest.2, hsame]
        exact hlayered.top h i
      · rw [hrest.1] at h
        rw [hsame]
        exact hlayered.empty h i
  | insert i =>
      have hplace := joins_place hlayered hok
      have hregion := place_region hs.region i.id i.level i.vec_data
      have hself : ((s.place i.id i.level i.vec_data).get_node i.id).max_layer = i.level.val := by
        rw [place_get_node_self]
        rfl
      -- the descent stays among nodes of the layer at which connecting starts
      rcases insert_rule ties dist hs i
          (K := fun j => (j ∈ s.nodes.keys ∨ j = i.id) ∧ min i.level.val s.current_max_layer
            ≤ ((s.place i.id i.level i.vec_data).get_node j).max_layer)
          (fun _ hj => hj.1)
          (fun l hl j hj k hk => by
            have := (hplace l j k hk).2
            exact ⟨hregion.closed j hj.1 l k hk, by omega⟩)
          (fun h => by
            refine ⟨Or.inl (hs.entry h), ?_⟩
            by_cases hep : s.entry_point_id = i.id
            · rw [hep, hself]
              exact min_le_left _ _
            · rw [place_get_node_ne s i.id i.level i.vec_data hep, ← hlayered.entry h]
              exact min_le_right _ _)
          (fun rest t curr => t.Joins ∧
            (∀ j, (t.get_node j).max_layer
              = ((s.place i.id i.level i.vec_data).get_node j).max_layer) ∧
            rest.Pairwise (· > ·) ∧
            ∀ l ∈ rest, l ≤ i.level.val ∧ l ≤ (t.get_node curr).max_layer)
          (fun _ b hb => by
            refine ⟨hplace, fun _ => rfl, List.pairwise_reverse.mpr List.pairwise_lt_range, ?_⟩
            intro l hl
            rw [List.mem_reverse, List.mem_range] at hl
            have := hb.2
            exact ⟨by omega, by omega⟩)
          (by
            rintro l rest t curr selected ⟨ht, hsame, hdown, hlow⟩ hR
            obtain ⟨hbelow, hdown⟩ := List.pairwise_cons.mp hdown
            obtain ⟨hlevel, hcurr⟩ := hlow l List.mem_cons_self
            have hsel : ∀ n ∈ selected, l ≤ (t.get_node n).max_layer :=
              fun n hn => ht.reach hcurr (hR.reach n hn)
            obtain ⟨hjoins, hkeep⟩ := joins_link_all ties dist ht
              (by rw [hsame, hself]; exact hlevel) hsel
            refine ⟨hjoins, fun j => (hkeep j).trans (hsame j), hdown, fun l' hl' => ?_⟩
            have hl' := hbelow l' hl'
            refine ⟨by omega, ?_⟩
            rw [hkeep]
            have hhead : l ≤ (t.get_node (selected.headD curr)).max_layer := by
              cases selected with
              | nil => exact hcurr
              | cons n ns => exact hsel n List.mem_cons_self
            omega)
        with ⟨hentry, h⟩ | ⟨hentry, t, -, ⟨ht, hsame, -⟩, -, -, h⟩
      · obtain rfl := Option.some.inj (h.symm.trans hstep)
        exact layered_first hlayered hok hentry
      · obtain rfl := Option.some.inj (h.symm.trans hstep)
        exact layered_finish hlayered hok ht hsame hentry

/-- **The layers stay consistent** in every run in which no insertion lowers a node below the top
layer it stands for or below a link that leads to it. -/
theorem layers_stay_consistent {storage_size : ℕ} {ops : List (Op V)} {s : HNSW V}
    (hrun : Trace.run (step ties dist) (HNSW.fresh storage_size) ops = some s)
    (hok : Trace.Along (step ties dist) LevelFits (HNSW.fresh storage_size) ops) :
    (s.entry_point_id ≠ NO_ENTRY →
      s.current_max_layer = (s.get_node s.entry_point_id).max_layer ∧
      ∀ i, (s.get_node i).max_layer ≤ s.current_max_layer) ∧
    ∀ l i, ∀ j ∈ s.links l i, l ≤ (s.get_node i).max_layer ∧ l ≤ (s.get_node j).max_layer := by
  have hstart : (HNSW.fresh storage_size : HNSW V).Sound ∧
      (HNSW.fresh storage_size : HNSW V).Layered :=
    ⟨fresh_sound storage_size, fun _ _ _ h => absurd h List.not_mem_nil, fun h => absurd rfl h,
      fun h => absurd rfl h, fun _ _ => rfl⟩
  have hend := (Trace.run_invariant_along (P := fun t => t.Sound ∧ t.Layered)
    (fun t op t' h hop ht => ⟨sound_step ties dist h.1 ht, layered_step ties dist h.1 h.2 hop ht⟩)
    hstart hok hrun).2
  exact ⟨fun h => ⟨hend.entry h, hend.top h⟩, hend.joins⟩

/-- The entry point is revived on a higher layer. -/
theorem layers_stay_consistent_revival :
    ∃ s, Trace.run (step Ties.first l2_distance) (HNSW.fresh shard_file)
        [.insert (insert_at (axis 0 1) 0 1), .insert (insert_at (axis 1 2) 1 1), .delete 0,
         .insert (insert_at (axis 2 3) 0 2)] = some s ∧
      (s.links 1 0 = [] ∧ s.links 1 1 = [0] ∧ s.current_max_layer = 2) ∧
      s.current_max_layer = (s.get_node s.entry_point_id).max_layer := by
  have hall : (Trace.run (step Ties.first l2_distance) (HNSW.fresh shard_file)
      [.insert (insert_at (axis 0 1) 0 1), .insert (insert_at (axis 1 2) 1 1), .delete 0,
       .insert (insert_at (axis 2 3) 0 2)]).map
      (fun s => decide ((s.links 1 0 = [] ∧ s.links 1 1 = [0] ∧ s.current_max_layer = 2) ∧
        s.entry_point_id ≠ NO_ENTRY)) = some true := by
    decide +kernel
  obtain ⟨s, hrun, hs⟩ := Option.map_eq_some_iff.mp hall
  obtain ⟨hlinks, hentry⟩ := of_decide_eq_true hs
  exact ⟨s, hrun, hlinks, ((layers_stay_consistent Ties.first l2_distance hrun
    (by decide +kernel)).1 hentry).1⟩

/-- **The entry point claims a layer it does not take part in.** It is deleted and inserted again
on a lower level. -/
theorem revived_entry_point_lowers_level :
    (Trace.run (step Ties.first l2_distance) (HNSW.fresh shard_file)
      [.insert (insert_at (axis 0 1) 0 1), .delete 0, .insert (insert_at (axis 0 1) 0 0)]).map
      (fun s => (s.entry_point_id, s.current_max_layer, (s.get_node 0).max_layer))
      = some (0, 1, 0) := by
  decide +kernel

end NanoDB.Index
