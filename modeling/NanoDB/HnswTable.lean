/-
The index as a table of slots: what `insert` and `delete_vector` do to the vector, the flag
and the metadata of every id.

`insert` may also be called with an id that is in use, which is how a shard revives a
deleted key; the slot is then overwritten and its links are built anew. Every call returns
(`insert_writes`): all that is needed is that the links stay among the written slots.
-/
import NanoDB.HnswAlive

set_option autoImplicit false

namespace NanoDB.Index

open Raft (Bytes)
open Beam (Cand Ties)

variable {V D : Type*} [Zero V]

/-- Links and entry point stay among the written slots, and these are in range. -/
structure HNSW.Sound (s : HNSW V) : Prop where
  region : s.Region (fun i => i ∈ s.nodes.keys)
  entry : s.entry_point_id ≠ NO_ENTRY → s.entry_point_id ∈ s.nodes.keys

theorem fresh_sound (storage_size : ℕ) : (HNSW.fresh storage_size : HNSW V).Sound :=
  ⟨⟨fun _ hi => absurd hi (by simp [HNSW.fresh, Store.keys]),
    fun _ hi => absurd hi (by simp [HNSW.fresh, Store.keys])⟩, fun h => absurd rfl h⟩

/-! ## Reading a slot -/

/-- A slot that was never written reads as zeros. -/
theorem get_node_unwritten {s : HNSW V} {j : ℕ} (hj : j ∉ s.nodes.keys) :
    s.get_node j = Node.zero :=
  Store.get_of_not_mem _ _ hj

/-- A node with a link was written. -/
theorem written_of_link {s : HNSW V} {i j l : ℕ} (hj : j ∈ s.links l i) : i ∈ s.nodes.keys := by
  by_contra hi
  rw [HNSW.links, get_node_unwritten hi] at hj
  exact List.not_mem_nil hj

/-- Where links of written nodes lead to written nodes, all links do. -/
theorem links_written {s : HNSW V} (hclosed : s.Closed (fun i => i ∈ s.nodes.keys)) (i l : ℕ) :
    ∀ j ∈ s.links l i, j ∈ s.nodes.keys :=
  fun j hj => hclosed i (written_of_link hj) l j hj

section Written

variable {s : HNSW V} (hs : s.Sound) {j : ℕ} (hj : j ∈ s.nodes.keys)

include hs hj

theorem HNSW.Sound.in_range : ¬ slot_end j > s.storage_size :=
  not_lt.mpr ((lt_capacity_iff _ _).mp (hs.region.range j hj))

theorem is_deleted_written : s.is_deleted j = (s.get_node j).is_deleted :=
  if_neg (hs.in_range hj)

theorem get_vector_data_written :
    s.get_vector_data j
      = if (s.get_node j).is_deleted then none else some (s.get_node j).vector :=
  if_neg (hs.in_range hj)

/-- `is_deleted` and `get_vector_data` agree. -/
theorem is_deleted_iff : s.is_deleted j = true ↔ s.get_vector_data j = none := by
  rw [is_deleted_written hs hj, get_vector_data_written hs hj]
  split
  · rename_i h
    exact ⟨fun _ => rfl, fun _ => h⟩
  · rename_i h
    exact ⟨fun h' => absurd h' h, fun h' => absurd h' (by simp)⟩

end Written

/-! ## Inserting -/

/-- What `insert` leaves. -/
structure Writes (s : HNSW V) (i : Insertion V) (s' : HNSW V) : Prop where
  sound : s'.Sound
  keys : ∀ j, j ∈ s'.nodes.keys ↔ j = i.id ∨ j ∈ s.nodes.keys
  vector_self : s'.get_vector_data i.id = some i.vec_data
  vector_ne : ∀ j, j ≠ i.id → j ∈ s.nodes.keys → s'.get_vector_data j = s.get_vector_data j
  size : s.storage_size ≤ s'.storage_size
  metadata : s'.metadata_storage = s.metadata_storage.save_metadata i.id i.metadata

/-- From the placed node on, only links, entry point, count and metadata change. -/
theorem writes_finish {s t : HNSW V} (hs : s.Sound) (i : Insertion V)
    (hrel : Relinked (s.place i.id i.level i.vec_data) t)
    (hregion : t.Region (fun j => j ∈ s.nodes.keys ∨ j = i.id)) {ep : ℕ} (max_layer : ℕ)
    (hep : ep ∈ s.nodes.keys ∨ ep = i.id) :
    Writes s i (t.finish i.id ep max_layer i.metadata) := by
  have hgains :=
    ((gains_place s i.id i.level i.vec_data).relink hrel).finish ep max_layer i.metadata
  -- the region of the search is the set of slots now written
  have hkey : ∀ j, j ∈ s.nodes.keys ∨ j = i.id ↔
      j ∈ (t.finish i.id ep max_layer i.metadata).nodes.keys :=
    fun j => or_comm.trans (hgains.keys j).symm
  have hsound : (t.finish i.id ep max_layer i.metadata).Sound := by
    refine ⟨⟨fun j hj l k hk => ?_, fun j hj => ?_⟩, fun _ => (hkey ep).mp hep⟩
    · exact (hkey k).mp (hregion.closed j ((hkey j).mpr hj) l k hk)
    · exact hregion.range j ((hkey j).mpr hj)
  refine ⟨hsound, hgains.keys, ?_, fun j hj hmem => ?_, ?_, ?_⟩
  · rw [get_vector_data_written hsound ((hkey _).mp (Or.inr rfl)), hgains.alive]
    have hvec : (t.get_node i.id).vector = i.vec_data := by
      rw [hrel.vector, place_get_node_self]
      rfl
    exact congrArg some hvec
  · rw [get_vector_data_written hsound ((hkey _).mp (Or.inl hmem)), get_vector_data_written hs hmem,
      hgains.deleted j hj]
    have hvec : (t.get_node j).vector = (s.get_node j).vector := by
      rw [hrel.vector, place_get_node_ne s i.id i.level i.vec_data hj]
    exact congrArg (fun v => if (s.get_node j).is_deleted = true then none else some v) hvec
  · have ht : t.storage_size = (s.place i.id i.level i.vec_data).storage_size := by
      rw [hrel.rest]
    exact le_trans (expand_size s i.id).2 (le_of_eq ht.symm)
  · have hplace : (s.place i.id i.level i.vec_data).metadata_storage = s.metadata_storage := by
      unfold HNSW.place HNSW.set_node HNSW.expand
      split <;> rfl
    have ht : t.metadata_storage = s.metadata_storage := by
      rw [hrel.rest]
      exact hplace
    exact congrArg (fun m => m.save_metadata i.id i.metadata) ht

/-- The metadata of the two kinds of slots after an insertion. -/
theorem Writes.get_metadata {s s' : HNSW V} {i : Insertion V} (h : Writes s i s')
    (hwf : s.metadata_storage.Wf) :
    (∀ j, j ≠ i.id → s'.get_metadata j = s.get_metadata j) ∧
      ((i.metadata = [] → s.get_metadata i.id = []) → s'.get_metadata i.id = i.metadata) := by
  unfold HNSW.get_metadata
  rw [h.metadata]
  refine ⟨fun j hj => get_save_ne hwf _ hj, fun hold => ?_⟩
  by_cases hmd : i.metadata = []
  · rw [hmd, save_metadata_nil]
    exact hold hmd
  · exact get_save_self _ _ hmd

/-- Metadata that fit stay so. -/
theorem Writes.short {s s' : HNSW V} {i : Insertion V} (h : Writes s i s')
    (hwf : s.metadata_storage.Wf) (hshort : ∀ j, (s.get_metadata j).length < 2 ^ 32)
    (hi : i.metadata.length < 2 ^ 32) (j : ℕ) : (s'.get_metadata j).length < 2 ^ 32 := by
  obtain ⟨hne, hself⟩ := h.get_metadata hwf
  by_cases hj : j = i.id
  · by_cases hmd : i.metadata = []
    · have hsame : s'.get_metadata j = s.get_metadata j := by
        rw [HNSW.get_metadata, h.metadata, hmd, save_metadata_nil]
        rfl
      rw [hsame]
      exact hshort j
    · rw [hj, hself (fun h' => absurd h' hmd)]
      exact hi
  · rw [hne j hj]
    exact hshort j

/-- Other slots that read as live still do, also those that were never written. -/
theorem Writes.vector_kept {s s' : HNSW V} {i : Insertion V} (h : Writes s i s') {j : ℕ}
    (hj : j ≠ i.id) {v : V} (hv : s.get_vector_data j = some v) :
    s'.get_vector_data j = some v := by
  by_cases hmem : j ∈ s.nodes.keys
  · exact (h.vector_ne j hj hmem).trans hv
  have hmem' : j ∉ s'.nodes.keys := fun h' => ((h.keys j).mp h').elim hj hmem
  unfold HNSW.get_vector_data at hv ⊢
  rw [get_node_unwritten hmem] at hv
  rw [get_node_unwritten hmem']
  have hsize := h.size
  split at hv
  · simp at hv
  · rename_i hrange
    rw [if_neg (by omega)]
    exact hv

/-- All other slots of the file read as before. -/
theorem Writes.vector_same {s s' : HNSW V} {i : Insertion V} (h : Writes s i s') {j : ℕ}
    (hj : j ≠ i.id) (hr : j < s.capacity) : s'.get_vector_data j = s.get_vector_data j := by
  cases hv : s.get_vector_data j with
  | some v => exact h.vector_kept hj hv
  | none =>
      -- the slot is marked as deleted, so it was written
      have hmem : j ∈ s.nodes.keys := by
        by_contra hmem
        rw [HNSW.get_vector_data, if_neg (not_lt.mpr ((lt_capacity_iff _ _).mp hr)),
          get_node_unwritten hmem] at hv
        simp [Node.zero] at hv
      exact (h.vector_ne j hj hmem).trans hv

variable [LinearOrder D] (ties : Ties D) (dist : V → V → D)

/-- **The rule of an insertion.** It is the first one and only places the node; or it descends
to a node `b` of `K`, a set that no link above the new level leaves, and what then holds at the
start of the connecting loop and is kept by its rounds holds when only the last lines are left.
These set the entry point, the count and the metadata. -/
theorem insert_rule {s : HNSW V} (hs : s.Sound) (i : Insertion V) {K : ℕ → Prop}
    (hsub : ∀ j, K j → j ∈ s.nodes.keys ∨ j = i.id)
    (habove : ∀ l, i.level.val < l → ∀ j, K j →
      ∀ k ∈ (s.place i.id i.level i.vec_data).links l j, K k)
    (hentry : s.entry_point_id ≠ NO_ENTRY → K s.entry_point_id)
    (P : List ℕ → HNSW V → ℕ → Prop)
    (hstart : s.entry_point_id ≠ NO_ENTRY → ∀ b, K b →
      P (List.range (min i.level.val s.current_max_layer + 1)).reverse
        (s.place i.id i.level i.vec_data) b)
    (hround : ∀ l layers t curr selected, P (l :: layers) t curr →
      Round (fun j => j ∈ s.nodes.keys ∨ j = i.id) i.id l t curr selected →
      P layers (t.link_all ties dist i.id l selected) (selected.headD curr)) :
    (s.entry_point_id = NO_ENTRY ∧ step ties dist s (.insert i)
      = some ((s.place i.id i.level i.vec_data).finish i.id i.id i.level i.metadata)) ∨
    (s.entry_point_id ≠ NO_ENTRY ∧ ∃ t curr, P [] t curr ∧
      Relinked (s.place i.id i.level i.vec_data) t ∧
      t.Region (fun j => j ∈ s.nodes.keys ∨ j = i.id) ∧
      step ties dist s (.insert i) = some (t.finish i.id
        (if i.level.val > s.current_max_layer then i.id else s.entry_point_id)
        (max i.level.val s.current_max_layer) i.metadata)) := by
  have hregion := place_region hs.region i.id i.level i.vec_data
  by_cases hfirst : s.entry_point_id = NO_ENTRY
  · exact Or.inl ⟨hfirst, insert_empty ties dist hfirst i⟩
  · obtain ⟨b, hb, hstep⟩ := insert_descends_above ties dist i
      (fun j hj => hregion.range j (hsub j hj)) habove hfirst (hentry hfirst)
    obtain ⟨t, curr, hconnect, hP, ht, hrel, -⟩ := connect_rule ties dist (Or.inr rfl) P hround
      (List.range (min i.level.val s.current_max_layer + 1)).reverse _ b hregion
      (fun j hj => (place_keys s i.id i.level i.vec_data j).mpr hj.symm) (hsub b hb)
      (hstart hfirst b hb)
    rw [hconnect] at hstep
    exact Or.inr ⟨hfirst, t, curr, hP, hrel, ht, hstep⟩

/-- The rule for what does not depend on where the layers are entered. -/
theorem insert_rounds {s : HNSW V} (hs : s.Sound) (i : Insertion V)
    (P : List ℕ → HNSW V → Prop) (hfirst : P [] (s.place i.id i.level i.vec_data))
    (hstart : P (List.range (min i.level.val s.current_max_layer + 1)).reverse
      (s.place i.id i.level i.vec_data))
    (hround : ∀ l layers t curr selected, P (l :: layers) t →
      Round (fun j => j ∈ s.nodes.keys ∨ j = i.id) i.id l t curr selected →
      P layers (t.link_all ties dist i.id l selected)) :
    ∃ t ep max_layer,
      step ties dist s (.insert i) = some (t.finish i.id ep max_layer i.metadata) ∧ P [] t ∧
        Relinked (s.place i.id i.level i.vec_data) t ∧
        t.Region (fun j => j ∈ s.nodes.keys ∨ j = i.id) ∧ (ep ∈ s.nodes.keys ∨ ep = i.id) ∧
        max_layer ≤ max i.level.val s.current_max_layer := by
  have hregion := place_region hs.region i.id i.level i.vec_data
  rcases insert_rule ties dist hs i (fun _ hj => hj) (fun l _ j hj => hregion.closed j hj l)
      (fun h => Or.inl (hs.entry h)) (fun layers t _ => P layers t) (fun _ _ _ => hstart)
      hround with ⟨-, hstep⟩ | ⟨hentry, t, -, hP, hrel, ht, hstep⟩
  · exact ⟨_, _, _, hstep, hfirst, Relinked.refl _, hregion, Or.inr rfl, le_max_left _ _⟩
  · refine ⟨_, _, _, hstep, hP, hrel, ht, ?_, le_refl _⟩
    split
    · exact Or.inr rfl
    · exact Or.inl (hs.entry hentry)

/-- What an insertion comes to: the node is placed, links are built, and the last lines set the
entry point, the count and the metadata. -/
theorem insert_finishes {s : HNSW V} (hs : s.Sound) (i : Insertion V) :
    ∃ t ep max_layer,
      step ties dist s (.insert i) = some (t.finish i.id ep max_layer i.metadata) ∧
        Relinked (s.place i.id i.level i.vec_data) t ∧
        t.Region (fun j => j ∈ s.nodes.keys ∨ j = i.id) ∧ (ep ∈ s.nodes.keys ∨ ep = i.id) := by
  obtain ⟨t, ep, max_layer, hstep, -, hrel, ht, hep, -⟩ := insert_rounds ties dist hs i
    (fun _ _ => True) trivial trivial (fun _ _ _ _ _ _ _ => trivial)
  exact ⟨t, ep, max_layer, hstep, hrel, ht, hep⟩

/-- **Every insertion returns**, also one into a slot in use, and writes its slot. -/
theorem insert_writes {s : HNSW V} (hs : s.Sound) (i : Insertion V) :
    ∃ s', step ties dist s (.insert i) = some s' ∧ Writes s i s' := by
  obtain ⟨t, ep, max_layer, hstep, hrel, hregion, hep⟩ := insert_finishes ties dist hs i
  exact ⟨_, hstep, writes_finish hs i hrel hregion max_layer hep⟩

/-! ## Deleting -/

/-- A slot of the file is deleted. -/
theorem delete_self {s : HNSW V} {id : ℕ} (hr : id < s.capacity) :
    (s.delete_vector id).get_vector_data id = none := by
  have hnode : ((s.delete_vector id).get_node id).is_deleted = true := by
    rw [delete_get_node, if_pos ⟨rfl, (lt_capacity_iff _ _).mp hr⟩]
  unfold HNSW.get_vector_data
  rw [if_pos hnode]
  exact ite_self _

/-- What `delete_vector` leaves: the slot is out of range, or it is now written and deleted. -/
theorem delete_spec {s : HNSW V} (hs : s.Sound) (id : ℕ) :
    (s.delete_vector id).Sound ∧
      (∀ j, j ∈ s.nodes.keys → j ∈ (s.delete_vector id).nodes.keys) ∧
      (∀ j, j ∈ (s.delete_vector id).nodes.keys → j ∈ s.nodes.keys ∨ j = id) ∧
      (s.delete_vector id).metadata_storage = s.metadata_storage ∧
      (id ∈ (s.delete_vector id).nodes.keys → (s.delete_vector id).get_vector_data id = none) ∧
      ∀ j, j ≠ id → (s.delete_vector id).get_vector_data j = s.get_vector_data j := by
  obtain ⟨hentry, hcap, hkeys, -⟩ := delete_frame s id
  -- a slot comes into being at most for the deleted id, and only inside the file
  have hback : ∀ j, j ∈ (s.delete_vector id).nodes.keys →
      j ∈ s.nodes.keys ∨ (j = id ∧ j < s.capacity) := by
    intro j hj
    unfold HNSW.delete_vector at hj
    split at hj
    · exact Or.inl hj
    rename_i hrange
    split at hj
    · exact Or.inl hj
    · rcases (Store.mem_keys_set _ _ _ _).mp hj with rfl | h
      · exact Or.inr ⟨rfl, (lt_capacity_iff _ _).mpr (not_lt.mp hrange)⟩
      · exact Or.inl h
  have hsound : (s.delete_vector id).Sound := by
    refine ⟨⟨fun j hj l k hk => ?_, fun j hj => ?_⟩, fun h => ?_⟩
    · -- a slot that was only ever deleted has no links
      rw [delete_links] at hk
      exact hkeys k (links_written hs.region.closed j l k hk)
    · rw [hcap]
      exact (hback j hj).elim (hs.region.range j) (fun h => h.2)
    · rw [hentry] at h ⊢
      exact hkeys _ (hs.entry h)
  have hmeta : (s.delete_vector id).metadata_storage = s.metadata_storage := by
    unfold HNSW.delete_vector
    split
    · rfl
    split <;> rfl
  refine ⟨hsound, hkeys, fun j hj => (hback j hj).imp_right And.left, hmeta, fun hid => ?_,
    fun j hj => ?_⟩
  · have hrange : slot_end id ≤ s.storage_size :=
      (lt_capacity_iff _ _).mp (hcap ▸ hsound.region.range id hid)
    have hdel : ((s.delete_vector id).get_node id).is_deleted = true := by
      rw [delete_get_node, if_pos ⟨rfl, hrange⟩]
    rw [get_vector_data_written hsound hid, if_pos hdel]
  · have hnode : (s.delete_vector id).get_node j = s.get_node j := by
      rw [delete_get_node, if_neg (fun h => hj h.1)]
    have hsize : (s.delete_vector id).storage_size = s.storage_size := by
      unfold HNSW.delete_vector
      split
      · rfl
      split <;> rfl
    unfold HNSW.get_vector_data
    rw [hnode, hsize]

/-- **One operation** keeps the links among the written slots. -/
theorem sound_step {s s' : HNSW V} (hs : s.Sound) {op : Op V}
    (hstep : step ties dist s op = some s') : s'.Sound := by
  cases op with
  | insert i =>
      obtain ⟨s'', hstep', hwrites⟩ := insert_writes ties dist hs i
      obtain rfl : s'' = s' := Option.some.inj (hstep'.symm.trans hstep)
      exact hwrites.sound
  | delete id =>
      obtain rfl : s.delete_vector id = s' := Option.some.inj hstep
      exact (delete_spec hs id).1

/-! ## Slots that were inserted -/

/-- A set of written slots that has the entry point and that no link leaves. -/
structure HNSW.Linked (s : HNSW V) (K : ℕ → Prop) : Prop where
  region : s.Region K
  keys : ∀ j, K j → j ∈ s.nodes.keys
  entry : s.entry_point_id ≠ NO_ENTRY → K s.entry_point_id

theorem linked_fresh (storage_size : ℕ) :
    (HNSW.fresh storage_size : HNSW V).Linked (fun _ => False) :=
  ⟨⟨fun _ h => h.elim, fun _ h => h.elim⟩, fun _ h => h.elim, fun h => absurd rfl h⟩

/-- An insertion adds its id. -/
theorem linked_insert {s s' : HNSW V} {K : ℕ → Prop} (hs : s.Linked K) (i : Insertion V)
    (hstep : step ties dist s (.insert i) = some s') :
    s'.Linked (fun j => K j ∨ j = i.id) := by
  have hregion := place_region hs.region i.id i.level i.vec_data
  have hplaced : ∀ j, K j ∨ j = i.id → j ∈ (s.place i.id i.level i.vec_data).nodes.keys :=
    fun j hj => (place_keys s i.id i.level i.vec_data j).mpr (hj.symm.imp_right (hs.keys j))
  by_cases hfirst : s.entry_point_id = NO_ENTRY
  · obtain rfl := Option.some.inj ((insert_empty ties dist hfirst i).symm.trans hstep)
    exact ⟨⟨hregion.closed, hregion.range⟩, hplaced, fun _ => Or.inr rfl⟩
  · obtain ⟨b, hb, hdescends⟩ :=
      insert_descends ties dist i hregion hfirst (Or.inl (hs.entry hfirst))
    obtain ⟨t, curr, hconnect, ht, hrel, -⟩ := connect_region ties dist (Or.inr rfl)
      (List.range (min i.level.val s.current_max_layer + 1)).reverse _ b hregion hplaced hb
    rw [hconnect] at hdescends
    obtain rfl := Option.some.inj (hdescends.symm.trans hstep)
    refine ⟨⟨ht.closed, ht.range⟩, fun j hj => (hrel.keys j).mpr (hplaced j hj), fun _ => ?_⟩
    dsimp only [HNSW.finish]
    split
    · exact Or.inr rfl
    · exact Or.inl (hs.entry hfirst)

/-- A deletion may write a slot that was never inserted, and links nothing to it. -/
theorem linked_delete {s : HNSW V} {K : ℕ → Prop} (hs : s.Linked K) (id : ℕ) :
    (s.delete_vector id).Linked K := by
  obtain ⟨hentry, hcap, hkeys, -⟩ := delete_frame s id
  refine ⟨⟨fun j hj l k hk => ?_, fun j hj => ?_⟩, fun j hj => hkeys j (hs.keys j hj), ?_⟩
  · rw [delete_links] at hk
    exact hs.region.closed j hj l k hk
  · rw [hcap]
    exact hs.region.range j hj
  · rw [hentry]
    exact hs.entry

/-- **Runs**: links lead to inserted slots. -/
theorem linked_run (ops : List (Op V)) :
    ∀ {s s' : HNSW V} {K : ℕ → Prop}, s.Linked K →
      Trace.run (step ties dist) s ops = some s' →
      s'.Linked (fun j => K j ∨ j ∈ inserted ops) := by
  induction ops with
  | nil =>
      intro s s' K hs hrun
      obtain rfl := Option.some.inj hrun
      simpa [inserted] using hs
  | cons op ops ih =>
      intro s s' K hs hrun
      obtain ⟨t, hstep, hrest⟩ := Trace.run_cons_some hrun
      cases op with
      | insert i => simpa [inserted, or_assoc] using ih (linked_insert ties dist hs i hstep) hrest
      | delete id =>
          obtain rfl := Option.some.inj hstep
          simpa [inserted] using ih (linked_delete hs id) hrest

end NanoDB.Index
