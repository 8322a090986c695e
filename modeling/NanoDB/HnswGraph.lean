/-
What the pieces of `HNSW::insert` do to the graph.

Linking changes neighbour lists and nothing else (`Relinked`), a full list is replaced by a
selection from its members and the new one, and a list with room grows by one. The two loops
of the source that have no bound of their own, the greedy descent and the beam search, end
as long as they stay among nodes in range; both stay in any set that is closed under the
links (`descend_spec`, `search_layer_spec`).
-/
import NanoDB.Hnsw
import NanoDB.Lib.Selection

set_option autoImplicit false

namespace NanoDB.Index

open Raft (Bytes)
open Beam (Cand Ties)
open Selection (mark taken)

/-! ## Storage -/

theorem le_grow (fuel : ℕ) : ∀ next needed, next ≤ grow fuel next needed := by
  induction fuel with
  | zero =>
      intro next needed
      exact le_refl _
  | succ fuel ih =>
      intro next needed
      rw [grow]
      split
      · exact le_trans (Nat.le_add_right _ _) (ih _ _)
      · exact le_refl _

theorem needed_le_grow (fuel : ℕ) :
    ∀ next needed, needed ≤ fuel + next → needed ≤ grow fuel next needed := by
  induction fuel with
  | zero =>
      intro next needed h
      rw [grow]
      omega
  | succ fuel ih =>
      intro next needed h
      rw [grow]
      split
      · apply ih
        have hstep : 0 < max (min next MAX_GROWTH_STEP) MIN_GROWTH_STEP :=
          lt_max_of_lt_right (by decide)
        omega
      · omega

section Storage

variable {V : Type*}

/-- The storage covers the slot after the expansion, and does not shrink. -/
theorem expand_size (s : HNSW V) (id : ℕ) :
    slot_end id ≤ (s.expand id).storage_size ∧ s.storage_size ≤ (s.expand id).storage_size := by
  unfold HNSW.expand
  split
  · exact ⟨needed_le_grow _ _ _ (Nat.le_add_right _ _), le_grow _ _ _⟩
  · exact ⟨by omega, le_refl _⟩

theorem lt_capacity_iff (s : HNSW V) (id : ℕ) : id < s.capacity ↔ slot_end id ≤ s.storage_size := by
  unfold HNSW.capacity slot_end
  rw [Nat.lt_iff_add_one_le, Nat.le_div_iff_mul_le (by decide), Nat.add_mul, Nat.one_mul]
  have : 0 < NODE_SIZE := by decide
  omega

theorem expand_nodes (s : HNSW V) (id : ℕ) : (s.expand id).nodes = s.nodes := by
  unfold HNSW.expand
  split <;> rfl

/-! ## Placing a node -/

section Place

variable (s : HNSW V) (id level : ℕ) (vec_data : V)

theorem place_keys (j : ℕ) :
    j ∈ (s.place id level vec_data).nodes.keys ↔ j = id ∨ j ∈ s.nodes.keys := by
  unfold HNSW.place HNSW.set_node
  rw [Store.mem_keys_set, expand_nodes]

theorem place_rest : (s.place id level vec_data).entry_point_id = s.entry_point_id ∧
    (s.place id level vec_data).current_max_layer = s.current_max_layer := by
  unfold HNSW.place HNSW.set_node HNSW.expand
  split <;> exact ⟨rfl, rfl⟩

theorem place_lt_capacity : id < (s.place id level vec_data).capacity :=
  (lt_capacity_iff _ _).mpr (expand_size s id).1

theorem place_capacity_mono {j : ℕ} (h : j < s.capacity) :
    j < (s.place id level vec_data).capacity :=
  (lt_capacity_iff _ _).mpr (le_trans ((lt_capacity_iff _ _).mp h) (expand_size s id).2)

variable [Zero V]

theorem place_get_node_ne {j : ℕ} (h : j ≠ id) :
    (s.place id level vec_data).get_node j = s.get_node j := by
  unfold HNSW.place HNSW.get_node HNSW.set_node
  rw [Store.get_set_ne _ _ _ h, expand_nodes]

theorem place_get_node_self :
    (s.place id level vec_data).get_node id = Node.new id level vec_data :=
  Store.get_set_self _ _ _ _

theorem place_links_self (l : ℕ) : (s.place id level vec_data).links l id = [] := by
  unfold HNSW.links
  rw [place_get_node_self]
  rfl

theorem place_links_ne (l : ℕ) {j : ℕ} (h : j ≠ id) :
    (s.place id level vec_data).links l j = s.links l j := by
  unfold HNSW.links
  rw [place_get_node_ne s id level vec_data h]

end Place

variable [Zero V]

/-! ## Changing links -/

theorem get_node_set_node (s : HNSW V) (i j : ℕ) (n : Node V) :
    (s.set_node i n).get_node j = if j = i then n else s.get_node j :=
  Store.get_set _ _ _ _ _

/-- A deletion sets one flag. -/
theorem delete_get_node (s : HNSW V) (id j : ℕ) :
    (s.delete_vector id).get_node j
      = if j = id ∧ slot_end id ≤ s.storage_size then { s.get_node j with is_deleted := true }
        else s.get_node j := by
  unfold HNSW.delete_vector
  by_cases hcap : slot_end id > s.storage_size
  · rw [if_pos hcap, if_neg (fun h => absurd h.2 (not_le.mpr hcap))]
  rw [if_neg hcap]
  by_cases hdel : (s.get_node id).is_deleted = true
  · rw [if_pos hdel]
    split
    · rename_i h
      rw [h.1, ← hdel]
    · rfl
  · rw [if_neg hdel]
    refine (get_node_set_node s id j _).trans ?_
    by_cases hj : j = id
    · rw [if_pos hj, if_pos ⟨hj, not_lt.mp hcap⟩, hj]
    · rw [if_neg hj, if_neg (fun h => hj h.1)]

theorem delete_rest (s : HNSW V) (id : ℕ) :
    (s.delete_vector id).entry_point_id = s.entry_point_id ∧
    (s.delete_vector id).current_max_layer = s.current_max_layer := by
  unfold HNSW.delete_vector
  split
  · exact ⟨rfl, rfl⟩
  split <;> exact ⟨rfl, rfl⟩

theorem links_set_links (s : HNSW V) (l l' i j : ℕ) (ns : List ℕ) :
    (s.set_links l i ns).links l' j = if j = i ∧ l' = l then ns else s.links l' j := by
  unfold HNSW.links HNSW.set_links
  rw [get_node_set_node]
  by_cases hj : j = i
  · rw [if_pos hj]
    dsimp only
    rw [Store.get_set, hj]
    simp
  · rw [if_neg hj, if_neg (fun h => hj h.1)]

/-- The same index up to the neighbour lists. -/
structure Relinked (s s' : HNSW V) : Prop where
  vector : ∀ i, (s'.get_node i).vector = (s.get_node i).vector
  deleted : ∀ i, (s'.get_node i).is_deleted = (s.get_node i).is_deleted
  keys : ∀ i, i ∈ s'.nodes.keys ↔ i ∈ s.nodes.keys
  rest : s' = { s with nodes := s'.nodes }

theorem Relinked.refl (s : HNSW V) : Relinked s s :=
  ⟨fun _ => rfl, fun _ => rfl, fun _ => Iff.rfl, rfl⟩

theorem Relinked.trans {s s' s'' : HNSW V} (h : Relinked s s') (h' : Relinked s' s'') :
    Relinked s s'' := by
  refine ⟨fun i => (h'.vector i).trans (h.vector i), fun i => (h'.deleted i).trans (h.deleted i),
    fun i => (h'.keys i).trans (h.keys i), ?_⟩
  rw [h'.rest, h.rest]

theorem Relinked.capacity {s s' : HNSW V} (h : Relinked s s') : s'.capacity = s.capacity := by
  rw [h.rest]
  rfl

theorem relinked_set_links (s : HNSW V) {i : ℕ} (hi : i ∈ s.nodes.keys) (l : ℕ) (ns : List ℕ) :
    Relinked s (s.set_links l i ns) := by
  unfold HNSW.set_links
  refine ⟨fun j => ?_, fun j => ?_, fun j => ?_, rfl⟩
  · rw [get_node_set_node]
    split
    · rename_i h
      rw [h]
    · rfl
  · rw [get_node_set_node]
    split
    · rename_i h
      rw [h]
    · rfl
  · refine (Store.mem_keys_set _ _ _ _).trans ⟨fun h => ?_, Or.inr⟩
    rcases h with rfl | h
    · exact hi
    · exact h

end Storage

/-! ## Selecting -/

section Graph

variable {V D : Type*} [Zero V] [LinearOrder D] (ties : Ties D) (dist : V → V → D)

/-- Whether the loop keeps `cand`, after `kept`. -/
def HNSW.keeps (s : HNSW V) (keep_all : Bool) (max_keep exclude_id : ℕ) (kept : List (Cand D))
    (cand : Cand D) : Bool :=
  decide (kept.length < max_keep ∧ cand.id ≠ exclude_id ∧
    (keep_all = true ∨ ∀ chosen ∈ kept,
      ¬ dist (s.get_node cand.id).vector (s.get_node chosen.id).vector < cand.distance))

/-- The loop makes these decisions. -/
theorem select_loop_eq (s : HNSW V) (keep_all : Bool) (max_keep exclude_id : ℕ)
    (cands : List (Cand D)) :
    ∀ kept : List (Cand D),
      s.select_loop dist keep_all max_keep exclude_id (kept.map Cand.id) cands
        = (kept ++ taken (mark (s.keeps dist keep_all max_keep exclude_id) kept cands)).map
            Cand.id := by
  induction cands with
  | nil =>
      intro kept
      rw [HNSW.select_loop]
      simp [mark, taken]
  | cons c cands ih =>
      intro kept
      rw [HNSW.select_loop, List.length_map]
      by_cases hfull : kept.length ≥ max_keep
      · -- `break`
        have hnone : ∀ x, s.keeps dist keep_all max_keep exclude_id kept x = false :=
          fun x => decide_eq_false (fun h => absurd h.1 (not_lt.mpr hfull))
        rw [if_pos hfull, Selection.taken_mark_of_none hnone, List.append_nil]
      rw [if_neg hfull, mark, Selection.append_taken_cons]
      have hnext : ∀ b, s.keeps dist keep_all max_keep exclude_id kept c = b →
          s.select_loop dist keep_all max_keep exclude_id
              ((if b then kept ++ [c] else kept).map Cand.id) cands
            = ((if s.keeps dist keep_all max_keep exclude_id kept c then kept ++ [c] else kept)
                ++ taken (mark (s.keeps dist keep_all max_keep exclude_id)
                  (if s.keeps dist keep_all max_keep exclude_id kept c then kept ++ [c] else kept)
                  cands)).map Cand.id := by
        rintro b rfl
        exact ih _
      by_cases hex : c.id = exclude_id
      · rw [if_pos hex]
        exact hnext false (decide_eq_false (fun h => h.2.1 hex))
      rw [if_neg hex]
      by_cases hnear : keep_all = false ∧ ∃ chosen ∈ kept.map Cand.id,
          dist (s.get_node c.id).vector (s.get_node chosen).vector < c.distance
      · rw [if_pos hnear]
        obtain ⟨hall, chosen, hchosen, hlt⟩ := hnear
        obtain ⟨e, he, rfl⟩ := List.mem_map.mp hchosen
        apply hnext false
        apply decide_eq_false
        rintro ⟨-, -, h | h⟩
        · simp [hall] at h
        · exact h e he hlt
      · rw [if_neg hnear]
        have hfar : keep_all = true ∨ ∀ chosen ∈ kept, ¬ dist (s.get_node c.id).vector
            (s.get_node chosen.id).vector < c.distance := by
          rcases Bool.eq_false_or_eq_true keep_all with hall | hall
          · exact Or.inl hall
          · exact Or.inr (fun e he hlt => hnear ⟨hall, e.id, List.mem_map_of_mem he, hlt⟩)
        have hkeep := hnext true (decide_eq_true ⟨not_le.mp hfull, hex, hfar⟩)
        rw [if_pos rfl, List.map_append] at hkeep
        exact hkeep

/-- The first candidate is kept unless it is the excluded one. -/
theorem keeps_nil (s : HNSW V) {keep_all : Bool} {max_keep exclude_id : ℕ} (hkeep : 1 ≤ max_keep) :
    s.keeps dist keep_all max_keep exclude_id []
      = fun c : Cand D => decide (c.id ≠ exclude_id) := by
  funext c
  simp [HNSW.keeps, Nat.lt_of_succ_le hkeep]

/-- What is selected, by the decisions. -/
theorem select_eq (s : HNSW V) (ordered : List (Cand D)) (max_keep exclude_id : ℕ) :
    s.select_neighbors_heuristic dist ordered max_keep exclude_id
      = (taken (mark (s.keeps dist (decide (ordered.length ≤ max_keep)) max_keep exclude_id) []
          ordered)).map Cand.id :=
  select_loop_eq dist s (decide (ordered.length ≤ max_keep)) max_keep exclude_id ordered []

/-- The selection keeps candidates, in order, never the excluded one and never too many. -/
theorem select_spec (s : HNSW V) (ordered : List (Cand D)) (max_keep exclude_id : ℕ) :
    (s.select_neighbors_heuristic dist ordered max_keep exclude_id).Sublist
        (ordered.map Cand.id) ∧
      exclude_id ∉ s.select_neighbors_heuristic dist ordered max_keep exclude_id ∧
      (s.select_neighbors_heuristic dist ordered max_keep exclude_id).length ≤ max_keep := by
  have hkept : ∀ kept (c : Cand D), (exclude_id ∉ kept.map Cand.id ∧ kept.length ≤ max_keep) →
      s.keeps dist (decide (ordered.length ≤ max_keep)) max_keep exclude_id kept c = true →
      exclude_id ∉ (kept ++ [c]).map Cand.id ∧ (kept ++ [c]).length ≤ max_keep := by
    rintro kept c ⟨hex, -⟩ hc
    obtain ⟨hroom, hne, -⟩ := of_decide_eq_true hc
    refine ⟨?_, ?_⟩
    · rw [List.map_append, List.mem_append, not_or]
      exact ⟨hex, fun h => hne (List.mem_singleton.mp h).symm⟩
    · rw [List.length_append]
      exact hroom
  obtain ⟨hex, hlen⟩ :=
    Selection.taken_invariant hkept ordered [] ⟨List.not_mem_nil, Nat.zero_le max_keep⟩
  rw [select_eq, List.length_map]
  exact ⟨(Selection.taken_mark_sublist _ [] ordered).map Cand.id, hex, hlen⟩

/-- Something is selected as soon as there is a candidate that is not excluded. -/
theorem select_ne_nil (s : HNSW V) {max_keep exclude_id : ℕ} (hkeep : 1 ≤ max_keep)
    {ordered : List (Cand D)} (h : ∃ c ∈ ordered, c.id ≠ exclude_id) :
    s.select_neighbors_heuristic dist ordered max_keep exclude_id ≠ [] := by
  obtain ⟨c, hc, hne⟩ := h
  rw [select_eq]
  intro hnil
  have hhead := Selection.head?_taken_mark
    (s.keeps dist (decide (ordered.length ≤ max_keep)) max_keep exclude_id) ordered
  rw [List.map_eq_nil_iff.mp hnil, keeps_nil dist s hkeep] at hhead
  have hno := List.find?_eq_none.mp hhead.symm c hc
  exact hno (decide_eq_true hne)

/-! ## Linking -/

/-- Linking touches one list, and that gains nothing but the new neighbour. -/
theorem add_link_links (s : HNSW V) (src dest layer : ℕ) :
    (∀ l i, ¬ (i = src ∧ l = layer) →
      (s.add_link ties dist src dest layer).links l i = s.links l i) ∧
    ∀ j ∈ (s.add_link ties dist src dest layer).links layer src,
      j ∈ s.links layer src ∨ j = dest := by
  unfold HNSW.add_link
  dsimp only
  split
  · refine ⟨fun l i h => ?_, fun j hj => ?_⟩
    · rw [links_set_links, if_neg h]
    · rw [links_set_links, if_pos ⟨rfl, rfl⟩] at hj
      simpa using hj
  split
  · exact ⟨fun _ _ _ => rfl, fun j hj => Or.inl hj⟩
  · refine ⟨fun l i h => ?_, fun j hj => ?_⟩
    · rw [links_set_links, if_neg h]
    · rw [links_set_links, if_pos ⟨rfl, rfl⟩] at hj
      have hmem := (select_spec dist s _ _ _).1.subset hj
      obtain ⟨c, hc, rfl⟩ := List.mem_map.mp hmem
      rw [(ties.sort_perm _).mem_iff] at hc
      obtain ⟨n, hn, rfl⟩ := List.mem_map.mp hc
      simpa using hn

/-- A list with room grows by the new neighbour. -/
theorem add_link_room (s : HNSW V) {src layer : ℕ} (dest : ℕ)
    (h : (s.links layer src).length < max_conn layer) :
    (s.add_link ties dist src dest layer).links layer src = s.links layer src ++ [dest] := by
  unfold HNSW.add_link
  dsimp only
  rw [if_pos h, links_set_links, if_pos ⟨rfl, rfl⟩]

theorem relinked_add_link (s : HNSW V) {src : ℕ} (hsrc : src ∈ s.nodes.keys) (dest layer : ℕ) :
    Relinked s (s.add_link ties dist src dest layer) := by
  unfold HNSW.add_link
  dsimp only
  split
  · exact relinked_set_links s hsrc _ _
  split
  · exact Relinked.refl s
  · exact relinked_set_links s hsrc _ _

/-- The links stay in `K`. -/
def HNSW.Closed (s : HNSW V) (K : ℕ → Prop) : Prop := ∀ i, K i → ∀ l, ∀ j ∈ s.links l i, K j

theorem closed_add_link {s : HNSW V} {K : ℕ → Prop} (hs : s.Closed K) (src : ℕ) {dest : ℕ}
    (hdest : K dest) (layer : ℕ) : (s.add_link ties dist src dest layer).Closed K := by
  obtain ⟨hother, hsub⟩ := add_link_links ties dist s src dest layer
  intro i hi l j hj
  by_cases hil : i = src ∧ l = layer
  · obtain ⟨rfl, rfl⟩ := hil
    rcases hsub j hj with h | rfl
    · exact hs i hi l j h
    · exact hdest
  · rw [hother l i hil] at hj
    exact hs i hi l j hj

/-- What linking with all selected neighbours keeps. -/
theorem link_all_spec {K : ℕ → Prop} {id : ℕ} (layer : ℕ) (hid : K id) (selected : List ℕ) :
    ∀ s : HNSW V, s.Closed K → id ∈ s.nodes.keys → (∀ n ∈ selected, K n ∧ n ∈ s.nodes.keys) →
      (s.link_all ties dist id layer selected).Closed K ∧
      Relinked s (s.link_all ties dist id layer selected) ∧
      ∀ l, l ≠ layer → ∀ i, (s.link_all ties dist id layer selected).links l i = s.links l i := by
  induction selected with
  | nil =>
      intro s hs _ _
      exact ⟨hs, Relinked.refl s, fun _ _ _ => rfl⟩
  | cons n ns ih =>
      intro s hs hkey hsel
      obtain ⟨hn, hnkey⟩ := hsel n List.mem_cons_self
      -- one pair of links, there and back
      have h₁ := relinked_add_link ties dist s hkey n layer
      have h₂ := relinked_add_link ties dist (s.add_link ties dist id n layer)
        ((h₁.keys n).mpr hnkey) id layer
      have h₁₂ := h₁.trans h₂
      have hclosed :=
        closed_add_link ties dist (closed_add_link ties dist hs id hn layer) n hid layer
      obtain ⟨hc, hr, ho⟩ := ih _ hclosed ((h₁₂.keys id).mpr hkey)
        (fun m hm => ⟨(hsel m (List.mem_cons_of_mem _ hm)).1,
          (h₁₂.keys m).mpr (hsel m (List.mem_cons_of_mem _ hm)).2⟩)
      refine ⟨hc, h₁₂.trans hr, fun l hl i => ?_⟩
      -- both links of the round are on `layer`
      rw [HNSW.link_all, List.foldl_cons]
      refine (ho l hl i).trans ?_
      rw [(add_link_links ties dist _ _ _ _).1 l i (fun h => hl h.2),
        (add_link_links ties dist _ _ _ _).1 l i (fun h => hl h.2)]

/-- A pair of links on layer 0, seen from the new node. -/
theorem pair_links_self {s : HNSW V} {id n : ℕ} (hne : n ≠ id)
    (hroom : (s.links 0 id).length < M_MAX0) :
    ((s.add_link ties dist id n 0).add_link ties dist n id 0).links 0 id
      = s.links 0 id ++ [n] := by
  rw [(add_link_links ties dist _ n id 0).1 0 id (fun h => hne h.1.symm),
    add_link_room ties dist s n hroom]

/-- The new node's list takes all selected neighbours, in order. -/
theorem link_all_self {id : ℕ} (selected : List ℕ) :
    ∀ s : HNSW V, id ∉ selected → (s.links 0 id).length + selected.length ≤ M_MAX0 →
      (s.link_all ties dist id 0 selected).links 0 id = s.links 0 id ++ selected := by
  induction selected with
  | nil =>
      intro s _ _
      exact (List.append_nil _).symm
  | cons n ns ih =>
      intro s hnot hroom
      rw [List.mem_cons, not_or] at hnot
      rw [List.length_cons] at hroom
      have hpair : ((s.add_link ties dist id n 0).add_link ties dist n id 0).links 0 id
          = s.links 0 id ++ [n] :=
        pair_links_self ties dist (fun h => hnot.1 h.symm) (by omega)
      rw [HNSW.link_all, List.foldl_cons]
      refine (ih _ hnot.2 ?_).trans ?_
      · rw [hpair, List.length_append, List.length_singleton]
        omega
      · rw [hpair, List.append_assoc, List.singleton_append]

/-- With room in every list involved, linking only adds links, and both directions of every
one it is asked for. -/
theorem link_all_room {id : ℕ} (selected : List ℕ) :
    ∀ s : HNSW V, selected.Nodup → id ∉ selected →
      (s.links 0 id).length + selected.length ≤ M_MAX0 →
      (∀ n ∈ selected, (s.links 0 n).length < M_MAX0) →
      (∀ i, ∀ j ∈ s.links 0 i, j ∈ (s.link_all ties dist id 0 selected).links 0 i) ∧
      ∀ n ∈ selected, n ∈ (s.link_all ties dist id 0 selected).links 0 id ∧
        id ∈ (s.link_all ties dist id 0 selected).links 0 n := by
  induction selected with
  | nil =>
      intro s _ _ _ _
      exact ⟨fun _ _ h => h, fun _ h => absurd h (by simp)⟩
  | cons n ns ih =>
      intro s hnodup hnot hroom hrooms
      rw [List.mem_cons, not_or] at hnot
      rw [List.length_cons] at hroom
      have hne : n ≠ id := fun h => hnot.1 h.symm
      obtain ⟨hnn, hnodup'⟩ := List.nodup_cons.mp hnodup
      -- the two lists that change
      have hid₂ := pair_links_self (s := s) ties dist hne (by omega)
      have h₁' := (add_link_links ties dist s id n 0).1 0
      have h₂ : ((s.add_link ties dist id n 0).add_link ties dist n id 0).links 0 n
          = s.links 0 n ++ [id] := by
        rw [add_link_room ties dist _ id, h₁' n (fun h => hne h.1)]
        rw [h₁' n (fun h => hne h.1)]
        exact hrooms n List.mem_cons_self
      have h₂' := (add_link_links ties dist (s.add_link ties dist id n 0) n id 0).1 0
      generalize hs₂ : (s.add_link ties dist id n 0).add_link ties dist n id 0 = s₂ at hid₂ h₂ h₂'
      have hother : ∀ i, i ≠ id → i ≠ n → s₂.links 0 i = s.links 0 i := by
        intro i hi hi'
        rw [h₂' i (fun h => hi' h.1), h₁' i (fun h => hi h.1)]
      obtain ⟨hmono, hboth⟩ := ih s₂ hnodup' hnot.2 (by
          rw [hid₂, List.length_append, List.length_singleton]
          omega) (fun m hm => by
          have hmn : m ≠ n := fun h => hnn (h ▸ hm)
          have hmid : m ≠ id := fun h => hnot.2 (h ▸ hm)
          rw [hother m hmid hmn]
          exact hrooms m (List.mem_cons_of_mem _ hm))
      have hfold : s.link_all ties dist id 0 (n :: ns) = s₂.link_all ties dist id 0 ns := by
        rw [HNSW.link_all, List.foldl_cons, hs₂]
        rfl
      rw [hfold]
      refine ⟨fun i j hj => hmono i j ?_, fun m hm => ?_⟩
      · by_cases hi : i = id
        · rw [hi, hid₂]
          exact List.mem_append_left _ (hi ▸ hj)
        by_cases hi' : i = n
        · rw [hi', h₂]
          exact List.mem_append_left _ (hi' ▸ hj)
        · rw [hother i hi hi']
          exact hj
      · rcases List.mem_cons.mp hm with rfl | hm
        · refine ⟨hmono id m ?_, hmono m id ?_⟩
          · rw [hid₂]
            simp
          · rw [h₂]
            simp
        · exact hboth m hm

/-! ## Searching in a region -/

/-- A set of nodes in range that no link leaves. -/
structure HNSW.Region (s : HNSW V) (K : ℕ → Prop) : Prop where
  closed : s.Closed K
  range : ∀ i, K i → i < s.capacity

section Region

variable {s : HNSW V} {K : ℕ → Prop}

theorem HNSW.Region.relink {s' : HNSW V} (h : s.Region K) (hr : Relinked s s')
    (hc : s'.Closed K) : s'.Region K :=
  ⟨hc, fun i hi => hr.capacity ▸ h.range i hi⟩

omit [LinearOrder D] in
theorem HNSW.Region.reach (h : s.Region K) {q : V} {l i j : ℕ} (hi : K i)
    (hij : (s.query dist q l).Reach i j) : K j := by
  induction hij with
  | refl => exact hi
  | tail _ hedge ih => exact h.closed _ ih l _ hedge

/-- The greedy descent stays in a set that no link of its layers leaves. -/
theorem descend_layers (hrange : ∀ i, K i → i < s.capacity) (q : V) (layers : List ℕ)
    (hclosed : ∀ l ∈ layers, ∀ i, K i → ∀ j ∈ s.links l i, K j) :
    ∀ i, K i → ∃ j, s.descend dist q layers (i, dist q (s.get_node i).vector)
      = some (j, dist q (s.get_node j).vector) ∧ K j := by
  induction layers with
  | nil =>
      intro i hi
      exact ⟨i, rfl, hi⟩
  | cons l layers ih =>
      intro i hi
      have hstays : ∀ v, (s.query dist q l).Reach i v → K v := by
        intro v hv
        induction hv with
        | refl => exact hi
        | tail _ hedge ih => exact hclosed l List.mem_cons_self _ ih _ hedge
      obtain ⟨j, hwalk, hreach⟩ := Beam.walk_spec (s.query dist q l)
        (fun v hv => hrange v (hstays v hv))
      obtain ⟨k, hk, hKk⟩ := ih (fun l' hl' => hclosed l' (List.mem_cons_of_mem _ hl')) j
        (hstays j hreach)
      refine ⟨k, ?_, hKk⟩
      rw [HNSW.descend]
      exact (congrArg (Option.bind · (s.descend dist q layers)) hwalk).trans hk

/-- **The greedy descent** ends in the region, with the distance of the node it ends at. -/
theorem descend_spec (h : s.Region K) (q : V) (layers : List ℕ) :
    ∀ i, K i → ∃ j, s.descend dist q layers (i, dist q (s.get_node i).vector)
      = some (j, dist q (s.get_node j).vector) ∧ K j :=
  descend_layers dist h.range q layers (fun l _ i hi => h.closed i hi l)

/-- **The beam search** ends and finds nodes of the region. -/
theorem search_layer_spec (h : s.Region K) {i : ℕ} (hi : K i) (q : V) (ef l : ℕ) :
    ∃ found, s.search_layer ties dist i q ef l = some found ∧
      Beam.Delivers (s.query dist q l) ef i found ∧ ∀ c ∈ found, K c.id := by
  obtain ⟨found, hfound, hdel⟩ : ∃ found, s.search_layer ties dist i q ef l = some found ∧
      Beam.Delivers (s.query dist q l) ef i found :=
    Beam.search_spec ties (fun v hv => h.range v (h.reach dist hi hv))
  exact ⟨found, hfound, hdel, fun c hc => h.reach dist hi (hdel.sound c hc).1⟩

/-! ## One round of connecting -/

/-- What a round selects. -/
structure Selects (id : ℕ) (found : List (Cand D)) (selected : List ℕ) : Prop where
  mem : ∀ n ∈ selected, n ∈ found.map Cand.id
  nodup : selected.Nodup
  not_self : id ∉ selected
  length : selected.length ≤ M
  ne_nil : (∃ c ∈ found, c.id ≠ id) → selected ≠ []

theorem connect_layer_spec (h : s.Region K) (id : ℕ) {curr : ℕ} (hcurr : K curr) (l : ℕ) :
    ∃ (found : List (Cand D)) (selected : List ℕ),
      Beam.Delivers (s.query dist (s.get_node id).vector l) EF_CONSTRUCTION curr found ∧
      (∀ c ∈ found, K c.id) ∧ Selects id found selected ∧
      s.connect_layer ties dist id curr l
        = some (s.link_all ties dist id l selected, selected.headD curr) := by
  obtain ⟨found, hfound, hdel, hK⟩ := search_layer_spec ties dist h hcurr (s.get_node id).vector
    EF_CONSTRUCTION l
  have hperm := Beam.nearest_first_perm ties found
  obtain ⟨hsub, hself, hlen⟩ := select_spec dist s (Beam.nearest_first ties found) M id
  refine ⟨found, _, hdel, hK, ⟨?_, ?_, hself, hlen, ?_⟩, ?_⟩
  · intro n hn
    exact ((hperm.map Cand.id).mem_iff).mp (hsub.subset hn)
  · exact hsub.nodup ((hperm.map Cand.id).nodup_iff.mpr hdel.nodup)
  · rintro ⟨c, hc, hne⟩
    apply select_ne_nil dist s (by decide)
    exact ⟨c, hperm.mem_iff.mpr hc, hne⟩
  · rw [HNSW.connect_layer, hfound]
    rfl

/-- A round of connecting at `layer`, from `curr`: what it knows of the nodes it selects. -/
structure Round (K : ℕ → Prop) (id layer : ℕ) (s : HNSW V) (curr : ℕ) (selected : List ℕ) :
    Prop where
  region : s.Region K
  keys : ∀ i, K i → i ∈ s.nodes.keys
  start : K curr
  mem : ∀ n ∈ selected, K n
  reach : ∀ n ∈ selected, Relation.ReflTransGen (fun i j => j ∈ s.links layer i) curr n
  live : ∀ n ∈ selected, (s.get_node n).is_deleted = false
  nodup : selected.Nodup
  not_self : id ∉ selected
  length : selected.length ≤ M

/-- What linking in a round keeps. -/
theorem Round.links {id layer curr : ℕ} {selected : List ℕ} (hid : K id)
    (h : Round K id layer s curr selected) :
    (s.link_all ties dist id layer selected).Closed K ∧
      Relinked s (s.link_all ties dist id layer selected) ∧
      ∀ l, l ≠ layer → ∀ i, (s.link_all ties dist id layer selected).links l i = s.links l i :=
  link_all_spec ties dist layer hid selected s h.region.closed (h.keys id hid)
    (fun n hn => ⟨h.mem n hn, h.keys n (h.mem n hn)⟩)

/-- The next layer is entered at the nearest node selected, or where this one was. -/
theorem Round.next {id layer curr : ℕ} {selected : List ℕ}
    (h : Round K id layer s curr selected) :
    K (selected.headD curr) ∧ (curr ≠ id → selected.headD curr ≠ id) := by
  cases selected with
  | nil => exact ⟨h.start, fun hne => hne⟩
  | cons n ns =>
      refine ⟨h.mem n List.mem_cons_self, fun _ hn => h.not_self ?_⟩
      rw [← hn]
      exact List.mem_cons_self

/-- **One round** returns, and links the new node with what it selected. -/
theorem connect_layer_round (hs : s.Region K) (hkeys : ∀ i, K i → i ∈ s.nodes.keys) (id : ℕ)
    {curr : ℕ} (hcurr : K curr) (l : ℕ) : ∃ selected, Round K id l s curr selected ∧
      s.connect_layer ties dist id curr l
        = some (s.link_all ties dist id l selected, selected.headD curr) := by
  obtain ⟨found, selected, hdel, hK, hsel, hconnect⟩ := connect_layer_spec ties dist hs id hcurr l
  refine ⟨selected, ⟨hs, hkeys, hcurr, fun n hn => ?_, fun n hn => ?_, fun n hn => ?_, hsel.nodup,
    hsel.not_self, hsel.length⟩, hconnect⟩
  all_goals obtain ⟨c, hc, rfl⟩ := List.mem_map.mp (hsel.mem n hn)
  · exact hK c hc
  · exact (hdel.sound c hc).1
  · have hlive : (!(s.get_node c.id).is_deleted) = true := (hdel.sound c hc).2.1
    simpa using hlive

/-- **The rule of the connecting loop.** What every round carries from the layers it has before
it to those after it holds when the loop ends; and the loop ends, keeps the region and changes
nothing but links. -/
theorem connect_rule {id : ℕ} (hid : K id) (P : List ℕ → HNSW V → ℕ → Prop)
    (hround : ∀ l layers s curr selected, P (l :: layers) s curr →
      Round K id l s curr selected →
      P layers (s.link_all ties dist id l selected) (selected.headD curr)) (layers : List ℕ) :
    ∀ (s : HNSW V) (curr : ℕ), s.Region K → (∀ i, K i → i ∈ s.nodes.keys) → K curr →
      P layers s curr →
      ∃ s' curr', HNSW.connect ties dist id layers (s, curr) = some (s', curr') ∧
        P [] s' curr' ∧ s'.Region K ∧ Relinked s s' ∧ K curr' := by
  induction layers with
  | nil =>
      intro s curr hs _ hcurr hP
      exact ⟨s, curr, rfl, hP, hs, Relinked.refl s, hcurr⟩
  | cons l layers ih =>
      intro s curr hs hkeys hcurr hP
      obtain ⟨selected, hR, hconnect⟩ := connect_layer_round ties dist hs hkeys id hcurr l
      obtain ⟨hclosed, hrel, -⟩ := hR.links ties dist hid
      obtain ⟨s', curr', hrest, hP', hs', hrel', hK'⟩ := ih _ _ (hs.relink hrel hclosed)
        (fun i hi => (hrel.keys i).mpr (hkeys i hi)) hR.next.1
        (hround l layers s curr selected hP hR)
      refine ⟨s', curr', ?_, hP', hs', hrel.trans hrel', hK'⟩
      rw [HNSW.connect, hconnect]
      exact hrest

/-- **The rounds of connecting** end, keep the region and change nothing but links. Above
layer 0 they leave the links of layer 0 alone, and they do not end at the new node unless
they started there. -/
theorem connect_region {id : ℕ} (hid : K id) (layers : List ℕ) :
    ∀ (s : HNSW V) (curr : ℕ), s.Region K → (∀ i, K i → i ∈ s.nodes.keys) → K curr →
      ∃ s' curr', HNSW.connect ties dist id layers (s, curr) = some (s', curr') ∧
        s'.Region K ∧ Relinked s s' ∧ K curr' ∧
        (0 ∉ layers → ∀ i, s'.links 0 i = s.links 0 i) ∧ (curr ≠ id → curr' ≠ id) := by
  intro s curr hs hkeys hcurr
  obtain ⟨s', curr', hconnect, ⟨hzero, hne⟩, hs', hrel, hK'⟩ := connect_rule ties dist hid
    (fun rest s' curr' => (0 ∉ layers → 0 ∉ rest ∧ ∀ i, s'.links 0 i = s.links 0 i) ∧
      (curr ≠ id → curr' ≠ id))
    (by
      rintro l rest t c selected ⟨hzero, hne⟩ hR
      refine ⟨fun h => ?_, fun h => hR.next.2 (hne h)⟩
      obtain ⟨hrest, hlinks⟩ := hzero h
      rw [List.mem_cons, not_or] at hrest
      refine ⟨hrest.2, fun i => ?_⟩
      rw [(hR.links ties dist hid).2.2 0 hrest.1, hlinks])
    layers s curr hs hkeys hcurr ⟨fun h => ⟨h, fun _ => rfl⟩, fun h => h⟩
  exact ⟨s', curr', hconnect, hs', hrel, hK', fun h => (hzero h).2, hne⟩

/-- In a region without a live node nothing is selected. -/
theorem connect_dead (h : s.Region K) (hdead : ∀ i, K i → (s.get_node i).is_deleted = true)
    {id curr : ℕ} (hcurr : K curr) (layers : List ℕ) :
    HNSW.connect ties dist id layers (s, curr) = some (s, curr) := by
  induction layers with
  | nil => rfl
  | cons l layers ih =>
      obtain ⟨found, selected, hdel, hK, hsel, hround⟩ :=
        connect_layer_spec ties dist h id hcurr l
      have hnil : selected = [] := by
        rw [List.eq_nil_iff_forall_not_mem]
        intro n hn
        obtain ⟨c, hc, -⟩ := List.mem_map.mp (hsel.mem n hn)
        have hlive : (!(s.get_node c.id).is_deleted) = true := (hdel.sound c hc).2.1
        rw [hdead _ (hK c hc)] at hlive
        simp at hlive
      rw [HNSW.connect, hround, hnil]
      exact ih

end Region

end Graph

end NanoDB.Index
