/-
What a shard is for: a map from external ids to a vector and its metadata.

The map is spread over three stores. The id map never forgets, the index marks deleted
slots, and the metadata store keeps, for a slot, the last string that was not empty.
`Refines` says how the three stand for the map, `serve_refines` that every request keeps it.

# The one awkward thing, named up front

`save_metadata` returns early on an empty string. So a key that is deleted and inserted
again without metadata is stored with the metadata it had before. `Apt` asks that this does
not happen; a request of the wrong dimension or with a stale epoch is not about the map
either.
-/
import NanoDB.Lib.Service
import NanoDB.ShardService

set_option autoImplicit false

namespace NanoDB.Shard

open Raft (Bytes)
open Index
open Beam (Ties)

/-! ## The map -/

inductive Request (F : Type*)
  | insert (req : InsertRequest F) (level : Fin MAX_LAYERS)
  | delete (req : DeleteRequest)
  | get_vector (external_id : Text)
  | list_local_ids
deriving DecidableEq

inductive Answer (F : Type*)
  | write (res : WriteResponse)
  | vector (res : GetVectorResponse F)
  | ids (res : ListLocalIdsResponse)
deriving DecidableEq

/-- External ids to the vector and the metadata they were inserted with. -/
abbrev Table (F : Type*) := Bytes → Option (List F × Bytes)

/-- What a map answers. A key can be deleted that is not there; whether that is an error is
left open. -/
def Table.answers {F : Type*} [BEq F] (m : Table F) :
    Request F → Answer F → Table F → Prop
  | .insert req _, .write res, m' =>
      match m req.external_id with
      | none =>
          res = ⟨true, ""⟩ ∧
            m' = Function.update m req.external_id (some (req.vector, req.metadata.1))
      | some (vector, metadata) =>
          m' = m ∧ res = if vector == req.vector ∧ metadata = req.metadata.1 then ⟨true, ""⟩
            else ⟨false, different_data⟩
  | .delete req, .write res, m' =>
      m' = Function.update m req.external_id none ∧ (m req.external_id ≠ none → res.ok = true)
  | .get_vector external_id, .vector res, m' =>
      m' = m ∧
        match m external_id with
        | none => res.ok = false
        | some (vector, metadata) => res = ⟨true, vector, metadata, ""⟩
  | .list_local_ids, .ids res, m' =>
      m' = m ∧ res.ok = true ∧ res.external_ids.Nodup ∧
        ∀ x, x ∈ res.external_ids ↔ m x ≠ none
  | _, _, _ => False

section Serve

variable {F D : Type*} [Zero F] [BEq F] [LinearOrder D] (ties : Ties D) (dist : Vec F → Vec F → D)

/-- One request. -/
def serve (sh : ShardServiceImpl F) : Request F → Option (ShardServiceImpl F × Answer F)
  | .insert req level => (sh.insert ties dist req level).map (fun r => (r.1, .write r.2))
  | .delete req => some ((sh.delete req).1, .write (sh.delete req).2)
  | .get_vector external_id => some (sh, .vector (sh.get_vector external_id))
  | .list_local_ids => some (sh, .ids sh.list_local_ids)

end Serve

section Refinement

variable {F D : Type*} [Zero F]

/-- What the stores hold for an external id. -/
def ShardServiceImpl.view (sh : ShardServiceImpl F) (x : Bytes) : Option (List F × Bytes) :=
  (sh.id_map.lookup x).bind (fun i =>
    (sh.index.get_vector_data i).map (fun v => (of_vec v, sh.index.get_metadata i)))

/-- The three stores stand for the map `m`. -/
structure Refines (sh : ShardServiceImpl F) (m : Table F) : Prop where
  sound : sh.index.Sound
  ids : sh.id_map.Wf
  written : ∀ i, i < sh.id_map.reverse.length → i ∈ sh.index.nodes.keys
  metadata : sh.index.metadata_storage.Wf
  unused : ∀ i, sh.id_map.reverse.length ≤ i → sh.index.get_metadata i = []
  view : ∀ x, m x = sh.view x

theorem refines_fresh (storage_size : ℕ) :
    Refines (ShardServiceImpl.fresh storage_size : ShardServiceImpl F) (fun _ => none) where
  sound := fresh_sound storage_size
  ids := wf_empty
  written := fun _ h => absurd h (Nat.not_lt_zero _)
  metadata := fun _ => Or.inr rfl
  unused := fun _ _ => rfl
  view := fun _ => rfl

/-! ## Vectors on the wire -/

theorem of_vec_to_vec {vector : List F} (h : vector.length = VECTOR_DIM) :
    of_vec (to_vec vector) = vector := by
  unfold of_vec to_vec
  apply List.ext_getElem
  · rw [List.length_ofFn, h]
  · intro i _ hi
    rw [List.getElem_ofFn]
    change vector.getD i 0 = vector[i]
    rw [List.getD_eq_getElem?_getD, List.getElem?_eq_getElem hi]
    rfl

omit [Zero F] in
theorem all_finRange_beq [BEq F] (n : ℕ) (v w : Fin n → F) :
    (List.finRange n).all (fun i => v i == w i) = (List.ofFn v == List.ofFn w) := by
  induction n with
  | zero => rfl
  | succ n ih =>
      rw [List.finRange_succ, List.all_cons, List.all_map, List.ofFn_succ, List.ofFn_succ,
        List.cons_beq_cons, ← ih]
      rfl

/-- `std::equal` is `==` on the wire. -/
theorem equal_to_vec [BEq F] (v : Vec F) {vector : List F} (h : vector.length = VECTOR_DIM) :
    equal v (to_vec vector) = (of_vec v == vector) := by
  unfold equal
  rw [all_finRange_beq]
  exact congrArg (of_vec v == ·) (of_vec_to_vec h)

/-! ## One request -/

/-- **An index write stores the key**, whether its slot is new or revived, with the metadata that
are then there. -/
theorem refines_write {sh : ShardServiceImpl F} {m : Table F} (h : Refines sh m)
    {index : HNSW (Vec F)} {i : Insertion (Vec F)} (hw : Writes sh.index i index)
    {ids : IdMapStore} (hids : ids.Wf) {x : Bytes} (hx : ids.lookup x = some i.id)
    (hother : ∀ y, y ≠ x → ids.lookup y = sh.id_map.lookup y)
    (hlen : ids.reverse.length = max sh.id_map.reverse.length (i.id + 1))
    (hnext : i.id ≤ sh.id_map.reverse.length) (e : ℕ) :
    Refines ⟨index, ids, e⟩
      (Function.update m x (some (of_vec i.vec_data, index.get_metadata i.id))) := by
  have hmeta_ne := (hw.get_metadata h.metadata).1
  refine ⟨hw.sound, hids, fun j hj => ?_, ?_, fun j hj => ?_, fun y => ?_⟩
  · rw [hw.keys]
    by_cases hji : j = i.id
    · exact Or.inl hji
    · dsimp only at hj
      exact Or.inr (h.written j (by omega))
  · exact hw.metadata ▸ save_metadata_wf h.metadata _ _
  · dsimp only at hj
    rw [hmeta_ne j (by omega)]
    exact h.unused j (by omega)
  · -- two keys never share a local id, so the other views do not move
    unfold ShardServiceImpl.view
    dsimp only
    by_cases hy : y = x
    · rw [hy, hx, Function.update_self, Option.bind_some, hw.vector_self]
      rfl
    · rw [Function.update_of_ne hy, hother y hy, h.view y, ShardServiceImpl.view]
      cases hj : sh.id_map.lookup y with
      | none => rfl
      | some j =>
          have hji : j ≠ i.id := by
            rintro rfl
            exact hy (forward_inj hids ((hother y hy).trans hj) hx)
          have hmem : j ∈ sh.index.nodes.keys := by
            apply h.written
            exact (List.getElem?_eq_some_iff.mp ((forward_iff h.ids y j).mp hj)).1
          rw [Option.bind_some, Option.bind_some, hw.vector_ne j hji hmem, hmeta_ne j hji]

/-- Requests that are about the map: the right dimension, no stale epoch, and no revival
without metadata of a key that had some. -/
def Apt (sh : ShardServiceImpl F) : Request F → Prop
  | .insert req _ =>
      req.vector.length = VECTOR_DIM ∧ sh.current_epoch ≤ req.epoch ∧
        (req.metadata.1 = [] → ∀ i ∈ sh.id_map.lookup req.external_id,
          sh.index.is_deleted i = true → sh.index.get_metadata i = [])
  | .delete req => sh.current_epoch ≤ req.epoch
  | _ => True

instance decidableApt (sh : ShardServiceImpl F) : ∀ r, Decidable (Apt sh r)
  | .insert _ _ => by
      unfold Apt
      infer_instance
  | .delete _ => by
      unfold Apt
      infer_instance
  | .get_vector _ => isTrue trivial
  | .list_local_ids => isTrue trivial

theorem Refines.mem_keys {sh : ShardServiceImpl F} {m : Table F} (h : Refines sh m) {x : Bytes}
    {i : ℕ} (hi : sh.id_map.lookup x = some i) : i ∈ sh.index.nodes.keys := by
  apply h.written
  exact (List.getElem?_eq_some_iff.mp ((forward_iff h.ids x i).mp hi)).1

/-- The epoch is no part of the map. -/
theorem Refines.epoch {sh : ShardServiceImpl F} {m : Table F} (h : Refines sh m) (e : ℕ) :
    Refines { sh with current_epoch := e } m :=
  ⟨h.sound, h.ids, h.written, h.metadata, h.unused, h.view⟩

theorem delete_refines {sh : ShardServiceImpl F} {m : Table F} (h : Refines sh m)
    (req : DeleteRequest) (hapt : Apt sh (.delete req)) :
    Refines (sh.delete req).1 (Function.update m req.external_id none) ∧
      (m req.external_id ≠ none → (sh.delete req).2.ok = true) := by
  unfold ShardServiceImpl.delete
  rw [check_and_advance_epoch_ok hapt]
  dsimp only
  cases hi : sh.id_map.lookup req.external_id with
  | none =>
      have hnone : m req.external_id = none := by
        rw [h.view, ShardServiceImpl.view, hi]
        rfl
      refine ⟨?_, fun hsome => absurd hnone hsome⟩
      rw [← hnone, Function.update_eq_self]
      exact h.epoch req.epoch
  | some i =>
      obtain ⟨hsound, hkeys, -, hmeta, hself, hne⟩ := delete_spec h.sound i
      -- a delete keeps the metadata, it only hides it
      have hget : ∀ j, (sh.index.delete_vector i).get_metadata j = sh.index.get_metadata j := by
        intro j
        unfold HNSW.get_metadata
        rw [hmeta]
      refine ⟨⟨hsound, h.ids, fun j hj => hkeys j (h.written j hj), hmeta ▸ h.metadata,
        fun j hj => (hget j).trans (h.unused j hj), fun y => ?_⟩, fun _ => rfl⟩
      unfold ShardServiceImpl.view
      dsimp only
      by_cases hy : y = req.external_id
      · rw [hy, hi, Function.update_self, Option.bind_some, hself (hkeys i (h.mem_keys hi))]
        rfl
      · rw [Function.update_of_ne hy, h.view y, ShardServiceImpl.view]
        cases hj : sh.id_map.lookup y with
        | none => rfl
        | some j =>
            have hji : j ≠ i := by
              rintro rfl
              exact hy (forward_inj h.ids hj hi)
            rw [Option.bind_some, Option.bind_some, hne j hji, hget]

theorem get_vector_refines {sh : ShardServiceImpl F} {m : Table F} (h : Refines sh m)
    (x : Text) :
    match m x with
    | none => (sh.get_vector x).ok = false
    | some (vector, metadata) => sh.get_vector x = ⟨true, vector, metadata, ""⟩ := by
  rw [h.view, ShardServiceImpl.view, ShardServiceImpl.get_vector]
  cases sh.id_map.lookup x with
  | none => rfl
  | some i =>
      rw [Option.bind_some]
      dsimp only
      cases sh.index.get_vector_data i with
      | none => rfl
      | some v => rfl

theorem list_local_ids_refines {sh : ShardServiceImpl F} {m : Table F} (h : Refines sh m) :
    sh.list_local_ids.external_ids.Nodup ∧
      ∀ x, x ∈ sh.list_local_ids.external_ids ↔ m x ≠ none := by
  refine ⟨h.ids.nodup.filter _, fun x => ?_⟩
  unfold ShardServiceImpl.list_local_ids IdMapStore.list_all_external_ids
  dsimp only
  rw [List.mem_filter, ShardServiceImpl.listed, h.view, ShardServiceImpl.view]
  cases hi : sh.id_map.lookup x with
  | none => simp
  | some i =>
      have hmem : x ∈ sh.id_map.reverse :=
        List.mem_of_getElem? ((forward_iff h.ids x i).mp hi)
      have hdel := is_deleted_iff h.sound (h.mem_keys hi)
      rw [Option.bind_some, Ne, Option.map_eq_none_iff, ← hdel]
      simp [hmem]

variable [BEq F] [LinearOrder D] (ties : Ties D) (dist : Vec F → Vec F → D)

omit [BEq F] in
/-- The last part of `Insert`, once the key is known not to be live: the key is stored, with the
request's metadata unless those are empty and the slot has others. -/
theorem index_write_refines {sh : ShardServiceImpl F} {m : Table F} (h : Refines sh m)
    {req : InsertRequest F} (hdim : req.vector.length = VECTOR_DIM) (level : Fin MAX_LAYERS)
    {ids : IdMapStore} (hids : ids.Wf) {local_id : ℕ}
    (hx : ids.lookup req.external_id = some local_id)
    (hother : ∀ y, y ≠ req.external_id.1 → ids.lookup y = sh.id_map.lookup y)
    (hlen : ids.reverse.length = max sh.id_map.reverse.length (local_id + 1))
    (hnext : local_id ≤ sh.id_map.reverse.length) :
    ∃ index metadata,
      sh.index.insert ties dist (to_vec req.vector) local_id level req.metadata = some index ∧
        Refines ⟨index, ids, req.epoch⟩
          (Function.update m req.external_id (some (req.vector, metadata))) ∧
        ((req.metadata.1 = [] → sh.index.get_metadata local_id = []) →
          metadata = req.metadata.1) := by
  obtain ⟨index, hstep, hw⟩ := insert_writes ties dist h.sound
    ⟨to_vec req.vector, local_id, level, req.metadata.1⟩
  have hrefines := refines_write h hw hids hx hother hlen hnext req.epoch
  rw [of_vec_to_vec hdim] at hrefines
  exact ⟨index, index.get_metadata local_id, hstep, hrefines, (hw.get_metadata h.metadata).2⟩

/-- **What `Insert` does**: it refuses the request, compares it with the value that is there, or
stores it. -/
theorem insert_cases {sh : ShardServiceImpl F} {m : Table F} (h : Refines sh m)
    (req : InsertRequest F) (level : Fin MAX_LAYERS) :
    (∃ e, sh.checks req = .error e ∧ sh.insert ties dist req level = some (sh, ⟨false, e⟩)) ∨
    (∃ v md, m req.external_id = some (v, md) ∧
      sh.insert ties dist req level = some ({ sh with current_epoch := req.epoch },
        if v == req.vector ∧ md = req.metadata.1 then ⟨true, ""⟩ else ⟨false, different_data⟩)) ∨
    (m req.external_id = none ∧ ∃ sh' md,
      sh.insert ties dist req level = some (sh', ⟨true, ""⟩) ∧
      Refines sh' (Function.update m req.external_id (some (req.vector, md))) ∧
      (∀ y, y ≠ req.external_id.1 → sh'.id_map.lookup y = sh.id_map.lookup y) ∧
      ((req.metadata.1 = [] → ∀ i ∈ sh.id_map.lookup req.external_id,
          sh.index.is_deleted i = true → sh.index.get_metadata i = []) → md = req.metadata.1)) := by
  unfold ShardServiceImpl.insert
  cases hchecks : sh.checks req with
  | error e => exact Or.inl ⟨e, rfl, rfl⟩
  | ok sh₁ =>
      obtain ⟨hdim, -, rfl⟩ := checks_spec hchecks
      obtain ⟨hwf, hx, hother, hcases⟩ := assign_spec h.ids req.external_id.2
      dsimp only
      generalize sh.id_map.assign req.external_id = r at *
      obtain ⟨ids, local_id, is_new⟩ := r
      dsimp only at *
      -- the key is known, or it gets the next local id
      rcases hcases with ⟨hold, rfl, rfl⟩ | ⟨hnone, hnew, hrev⟩
      · have hmem := h.mem_keys hold
        have hlt := (List.getElem?_eq_some_iff.mp ((forward_iff h.ids _ _).mp hold)).1
        by_cases hdel : sh.index.is_deleted local_id = false
        · -- live: compare
          rw [if_pos ⟨rfl, hdel⟩]
          obtain ⟨v, hv⟩ : ∃ v, sh.index.get_vector_data local_id = some v := by
            rw [← Option.ne_none_iff_exists', Ne, ← is_deleted_iff h.sound hmem, hdel]
            exact Bool.false_ne_true
          have hview : m req.external_id = some (of_vec v, sh.index.get_metadata local_id) := by
            rw [h.view, ShardServiceImpl.view,
              show sh.id_map.lookup req.external_id = some local_id from hold, Option.bind_some, hv]
            rfl
          refine Or.inr (Or.inl ⟨_, _, hview, ?_⟩)
          rw [hv, same, equal_to_vec v hdim]
          simp only [Bool.and_eq_true, decide_eq_true_eq]
          split <;> rfl
        · -- deleted: revive
          rw [if_neg (fun hc => hdel hc.2)]
          have hdel' : sh.index.is_deleted local_id = true := by simpa using hdel
          have hview : m req.external_id = none := by
            rw [h.view, ShardServiceImpl.view,
              show sh.id_map.lookup req.external_id = some local_id from hold, Option.bind_some,
              (is_deleted_iff h.sound hmem).mp hdel']
            rfl
          obtain ⟨index, md, hindex, h', hmd⟩ := index_write_refines ties dist h hdim level hwf hx
            hother (by omega) (by omega)
          refine Or.inr (Or.inr ⟨hview, _, md, by rw [hindex]; rfl, h', hother, fun hrevive => ?_⟩)
          exact hmd (fun hnil => hrevive hnil local_id hold hdel')
      · -- a new key
        obtain ⟨rfl, rfl⟩ := Prod.mk.inj hnew
        rw [if_neg (by simp)]
        have hview : m req.external_id = none := by
          rw [h.view, ShardServiceImpl.view,
            show sh.id_map.lookup req.external_id = none from hnone]
          rfl
        obtain ⟨index, md, hindex, h', hmd⟩ := index_write_refines ties dist h hdim level hwf hx
          hother (by rw [hrev, List.length_append, List.length_singleton]; omega) (le_refl _)
        refine Or.inr (Or.inr ⟨hview, _, md, by rw [hindex]; rfl, h', hother, fun _ => ?_⟩)
        exact hmd (fun _ => h.unused _ (le_refl _))

theorem insert_refines {sh : ShardServiceImpl F} {m : Table F} (h : Refines sh m)
    (req : InsertRequest F) (level : Fin MAX_LAYERS) (hapt : Apt sh (.insert req level)) :
    ∃ sh' res m', sh.insert ties dist req level = some (sh', res) ∧
      m.answers (.insert req level) (.write res) m' ∧ Refines sh' m' := by
  obtain ⟨hdim, hepoch, hrevive⟩ := hapt
  obtain ⟨e, hchecks, -⟩ | ⟨v, md, hview, hins⟩ | ⟨hview, sh', md, hins, h', -, hmd⟩ :=
    insert_cases ties dist h req level
  · rw [ShardServiceImpl.checks, if_neg (not_not.mpr hdim), check_and_advance_epoch_ok hepoch]
      at hchecks
    simp at hchecks
  · refine ⟨_, _, m, hins, ?_, h.epoch req.epoch⟩
    unfold Table.answers
    dsimp only
    rw [hview]
    exact ⟨rfl, rfl⟩
  · rw [hmd hrevive] at h'
    refine ⟨sh', _, _, hins, ?_, h'⟩
    unfold Table.answers
    dsimp only
    rw [hview]
    exact ⟨rfl, rfl⟩

/-- **Every request is answered as by the map.** -/
theorem serve_refines {sh : ShardServiceImpl F} {m : Table F} (h : Refines sh m) (r : Request F)
    (hapt : Apt sh r) :
    ∃ sh' a m', serve ties dist sh r = some (sh', a) ∧ m.answers r a m' ∧ Refines sh' m' := by
  cases r with
  | insert req level =>
      obtain ⟨sh', res, m', hinsert, hanswers, h'⟩ := insert_refines ties dist h req level hapt
      refine ⟨sh', .write res, m', ?_, hanswers, h'⟩
      rw [serve, hinsert]
      rfl
  | delete req =>
      obtain ⟨h', hok⟩ := delete_refines h req hapt
      exact ⟨_, _, _, rfl, ⟨rfl, hok⟩, h'⟩
  | get_vector x => exact ⟨_, _, m, rfl, ⟨rfl, get_vector_refines h x⟩, h⟩
  | list_local_ids =>
      exact ⟨_, _, m, rfl, ⟨rfl, rfl, list_local_ids_refines h⟩, h⟩

/-- **A shard refines a map.** -/
theorem shard_refines_map (storage_size : ℕ) (rs : List (Request F))
    (hrs :
      Trace.Along (Service.next (serve ties dist)) Apt (ShardServiceImpl.fresh storage_size) rs) :
    ∃ sh as, Service.serve_all (serve ties dist) (ShardServiceImpl.fresh storage_size) rs
        = some (sh, as) ∧
      Service.Answers Table.answers (fun _ => none) rs as := by
  have hstep : ∀ (sh : ShardServiceImpl F) (m : Table F) (r : Request F), Refines sh m → Apt sh r →
      ∃ sh' a m', serve ties dist sh r = some (sh', a) ∧ m.answers r a m' ∧ Refines sh' m' :=
    fun _ _ r h hapt => serve_refines ties dist h r hapt
  exact Service.simulates hstep rs _ _ (refines_fresh storage_size) hrs

end Refinement

/-- The squared Euclidean distance, on integers. -/
def euclid (v w : Vec ℤ) : ℤ := ((List.finRange VECTOR_DIM).map (fun i => (v i - w i) ^ 2)).sum

/-- Insert, delete and insert again under one key. -/
def revival (metadata metadata' : Text) : List (Request ℤ) :=
  [.insert ⟨one_byte 1, List.replicate VECTOR_DIM 1, metadata, 0⟩ 0,
    .delete ⟨one_byte 1, 0⟩,
    .insert ⟨one_byte 1, List.replicate VECTOR_DIM 2, metadata', 1⟩ 2,
    .get_vector (one_byte 1), .list_local_ids]

theorem shard_refines_map_revival :
    ∃ sh as, Service.serve_all (serve Ties.first euclid) (ShardServiceImpl.fresh shard_file)
        (revival ⟨[97], by decide⟩ ⟨[98], by decide⟩) = some (sh, as) ∧
      Service.Answers Table.answers (fun _ => none)
        (revival ⟨[97], by decide⟩ ⟨[98], by decide⟩) as :=
  shard_refines_map Ties.first euclid shard_file (revival ⟨[97], by decide⟩ ⟨[98], by decide⟩)
    (by decide +kernel)

/-- **A revived key has its old metadata.** The second insert carries no metadata, the read
returns that of the first. -/
theorem revived_key_keeps_metadata :
    (Service.serve_all (serve Ties.first euclid) (ShardServiceImpl.fresh shard_file)
        (revival ⟨[97], by decide⟩ ⟨[], by decide⟩)).map Prod.snd
      = some [.write ⟨true, ""⟩, .write ⟨true, ""⟩, .write ⟨true, ""⟩,
          .vector ⟨true, List.replicate VECTOR_DIM 2, [97], ""⟩, .ids ⟨[[1]], true, ""⟩] ∧
    ¬ Service.Answers Table.answers (fun _ => none) (revival ⟨[97], by decide⟩ ⟨[], by decide⟩)
      [.write ⟨true, ""⟩, .write ⟨true, ""⟩, .write ⟨true, ""⟩,
        .vector ⟨true, List.replicate VECTOR_DIM 2, [97], ""⟩, .ids ⟨[[1]], true, ""⟩] := by
  constructor
  · decide +kernel
  · rintro ⟨m₁, ⟨-, rfl⟩, m₂, ⟨rfl, -⟩, m₃, h₃, m₄, ⟨-, h₄⟩, -⟩
    have hm₃ : m₃ (one_byte 1).1 = some (List.replicate VECTOR_DIM 2, []) := by
      dsimp only [Table.answers] at h₃
      rw [Function.update_self] at h₃
      rw [h₃.2, Function.update_self]
    dsimp only at h₄
    rw [hm₃] at h₄
    simp at h₄

end NanoDB.Shard
