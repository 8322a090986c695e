/-
What one request does to which keys a shard has, in any state the shard can be in.

`Sane` is what every request keeps, whether or not it is answered with success. An insert
loses no key, and it leaves its own key live unless it is fenced or meets a key that was
assigned and never written.
-/
import NanoDB.ShardService

set_option autoImplicit false

namespace NanoDB.Shard

open Raft (Bytes)
open Index
open Beam (Ties)

section Live

variable {F D : Type*} [Zero F]

/-- The shard has the key: `GetVector` returns it. -/
def ShardServiceImpl.live (sh : ShardServiceImpl F) (x : Bytes) : Bool :=
  match sh.id_map.lookup x with
  | none => false
  | some local_id => (sh.index.get_vector_data local_id).isSome

theorem live_iff {sh : ShardServiceImpl F} {x : Bytes} :
    sh.live x = true ↔
      ∃ i v, sh.id_map.lookup x = some i ∧ sh.index.get_vector_data i = some v := by
  unfold ShardServiceImpl.live
  cases sh.id_map.lookup x with
  | none => simp
  | some i => simp [Option.isSome_iff_exists]

/-- What is known of a shard in general. -/
structure Sane (sh : ShardServiceImpl F) : Prop where
  sound : sh.index.Sound
  ids : sh.id_map.Wf
  metadata : sh.index.metadata_storage.Wf
  short : ∀ i, (sh.index.get_metadata i).length < 2 ^ 32

theorem Sane.epoch {sh : ShardServiceImpl F} (h : Sane sh) (e : ℕ) :
    Sane { sh with current_epoch := e } :=
  ⟨h.sound, h.ids, h.metadata, h.short⟩

/-- A live key is listed. -/
theorem live_listed {sh : ShardServiceImpl F} (h : Sane sh) {x : Bytes} (hx : sh.live x = true) :
    x ∈ sh.list_local_ids.external_ids := by
  obtain ⟨i, v, hi, hv⟩ := live_iff.mp hx
  unfold ShardServiceImpl.list_local_ids
  refine List.mem_filter.mpr ⟨List.mem_of_getElem? ((forward_iff h.ids x i).mp hi), ?_⟩
  unfold HNSW.get_vector_data at hv
  rw [ShardServiceImpl.listed, hi]
  dsimp only
  unfold HNSW.is_deleted
  split at hv
  · simp at hv
  split at hv
  · simp at hv
  · rename_i hrange hdel
    rw [if_neg hrange]
    simpa using hdel

/-- A live key is read, with metadata that fit. -/
theorem live_get_vector {sh : ShardServiceImpl F} (h : Sane sh) {x : Text}
    (hx : sh.live x = true) :
    (sh.get_vector x).ok = true ∧ (sh.get_vector x).metadata.length < 2 ^ 32 := by
  obtain ⟨i, v, hi, hv⟩ := live_iff.mp hx
  unfold ShardServiceImpl.get_vector
  rw [hi]
  dsimp only
  rw [hv]
  exact ⟨rfl, h.short i⟩

/-- What is read has the right dimension. -/
theorem get_vector_length {sh : ShardServiceImpl F} {x : Text} (h : (sh.get_vector x).ok = true) :
    (sh.get_vector x).vector.length = VECTOR_DIM := by
  unfold ShardServiceImpl.get_vector at h ⊢
  split at h
  · simp at h
  split at h
  · simp at h
  · exact List.length_ofFn

/-! ## Delete -/

theorem delete_sane {sh : ShardServiceImpl F} (h : Sane sh) (req : DeleteRequest) :
    Sane (sh.delete req).1 ∧
      ∀ y, y ≠ req.external_id.1 → sh.live y = true → (sh.delete req).1.live y = true := by
  unfold ShardServiceImpl.delete
  split
  · exact ⟨h, fun _ _ hy => hy⟩
  rename_i sh₁ hepoch
  obtain ⟨e, rfl⟩ := check_and_advance_epoch_eq hepoch
  dsimp only
  split
  · exact ⟨h.epoch e, fun _ _ hy => hy⟩
  rename_i i hi
  obtain ⟨hsound, -, -, hmeta, -, hne⟩ := delete_spec h.sound i
  refine ⟨⟨hsound, h.ids, hmeta ▸ h.metadata, fun j => ?_⟩, fun y hy hlive => ?_⟩
  · rw [HNSW.get_metadata, hmeta]
    exact h.short j
  · obtain ⟨j, v, hj, hv⟩ := live_iff.mp hlive
    have hji : j ≠ i := by
      rintro rfl
      exact hy (forward_inj h.ids hj hi)
    exact live_iff.mpr ⟨j, v, hj, (hne j hji).trans hv⟩

/-- Every local id that was assigned is written. -/
def Written (sh : ShardServiceImpl F) : Prop :=
  ∀ i, i < sh.id_map.reverse.length → i ∈ sh.index.nodes.keys

theorem Written.mem_keys {sh : ShardServiceImpl F} (hw : Written sh) (h : Sane sh) {x : Bytes}
    {i : ℕ} (hi : sh.id_map.lookup x = some i) : i ∈ sh.index.nodes.keys := by
  apply hw
  exact (List.getElem?_eq_some_iff.mp ((forward_iff h.ids x i).mp hi)).1

/-- Every local id that was assigned lies in the file. -/
def Ranged (sh : ShardServiceImpl F) : Prop :=
  ∀ i, i < sh.id_map.reverse.length → i < sh.index.capacity

theorem Written.ranged {sh : ShardServiceImpl F} (hw : Written sh) (h : Sane sh) : Ranged sh :=
  fun i hi => h.sound.region.range i (hw i hi)

theorem Ranged.lt {sh : ShardServiceImpl F} (hr : Ranged sh) (h : Sane sh) {x : Bytes} {i : ℕ}
    (hi : sh.id_map.lookup x = some i) : i < sh.index.capacity := by
  apply hr
  exact (List.getElem?_eq_some_iff.mp ((forward_iff h.ids x i).mp hi)).1

/-- **What is listed is live** exactly if all ids lie in the file: a slot outside is not marked as
deleted, and cannot be read. -/
theorem ranged_iff {sh : ShardServiceImpl F} (h : Sane sh) :
    Ranged sh ↔ ∀ x ∈ sh.list_local_ids.external_ids, sh.live x = true := by
  constructor
  · intro hr x hx
    obtain ⟨-, hlisted⟩ := List.mem_filter.mp hx
    unfold ShardServiceImpl.listed at hlisted
    split at hlisted
    · simp at hlisted
    · rename_i i hi
      have hin := not_lt.mpr ((lt_capacity_iff _ _).mp (hr.lt h hi))
      rw [HNSW.is_deleted, if_neg hin, Bool.not_eq_true'] at hlisted
      have hv : sh.index.get_vector_data i = some (sh.index.get_node i).vector := by
        rw [HNSW.get_vector_data, if_neg hin, if_neg (by simp [hlisted])]
      exact live_iff.mpr ⟨i, _, hi, hv⟩
  · intro hlive i hi
    by_contra hout
    have hout : slot_end i > sh.index.storage_size :=
      not_le.mp (fun hle => hout ((lt_capacity_iff _ _).mpr hle))
    obtain ⟨x, hx⟩ : ∃ x, sh.id_map.reverse[i]? = some x := ⟨_, List.getElem?_eq_getElem hi⟩
    have hlookup : sh.id_map.lookup x = some i := (forward_iff h.ids x i).mpr hx
    have hlisted : sh.listed x = true := by
      rw [ShardServiceImpl.listed, hlookup]
      simp [HNSW.is_deleted, hout]
    obtain ⟨j, v, hj, hv⟩ := live_iff.mp
      (hlive x (List.mem_filter.mpr ⟨List.mem_of_getElem? hx, hlisted⟩))
    obtain rfl : i = j := Option.some.inj (hlookup.symm.trans hj)
    rw [HNSW.get_vector_data, if_pos hout] at hv
    simp at hv

/-- With all ids in the file a delete that is admitted removes its key. None touches another. -/
theorem delete_ranged {sh : ShardServiceImpl F} (h : Sane sh) (hr : Ranged sh)
    (req : DeleteRequest) : Ranged (sh.delete req).1 ∧
      (Written sh → Written (sh.delete req).1) ∧
      (∀ y, y ≠ req.external_id.1 → (sh.delete req).1.live y = sh.live y) ∧
      (sh.current_epoch ≤ req.epoch → (sh.delete req).1.live req.external_id = false) := by
  unfold ShardServiceImpl.delete
  split
  · rename_i e hepoch
    refine ⟨hr, id, fun _ _ => rfl, fun hle => ?_⟩
    rw [check_and_advance_epoch_ok hle] at hepoch
    simp at hepoch
  rename_i sh₁ hepoch
  obtain ⟨e, rfl⟩ := check_and_advance_epoch_eq hepoch
  dsimp only
  split
  · rename_i hnone
    refine ⟨hr, id, fun _ _ => rfl, fun _ => ?_⟩
    unfold ShardServiceImpl.live
    dsimp only
    rw [hnone]
  rename_i i hi
  obtain ⟨-, hkeys, -, -, -, hne⟩ := delete_spec h.sound i
  refine ⟨fun j hj => (delete_frame sh.index i).2.1.symm ▸ hr j hj,
    fun hw j hj => hkeys j (hw j hj), fun y hy => ?_, fun _ => ?_⟩
  · unfold ShardServiceImpl.live
    dsimp only
    cases hj : sh.id_map.lookup y with
    | none => rfl
    | some j =>
        have hji : j ≠ i := by
          rintro rfl
          exact hy (forward_inj h.ids hj hi)
        exact congrArg Option.isSome (hne j hji)
  · unfold ShardServiceImpl.live
    dsimp only
    rw [hi]
    dsimp only
    rw [delete_self (hr.lt h hi)]
    rfl

/-- A delete adds nothing. -/
theorem delete_live_le {sh : ShardServiceImpl F} (h : Sane sh) (hr : Ranged sh)
    (req : DeleteRequest) {y : Bytes} (hy : (sh.delete req).1.live y = true) :
    sh.live y = true := by
  obtain ⟨-, -, hother, hself⟩ := delete_ranged h hr req
  by_cases hyx : y = req.external_id.1
  · by_cases hepoch : sh.current_epoch ≤ req.epoch
    · rw [hyx, hself hepoch] at hy
      simp at hy
    · -- it was refused
      rwa [ShardServiceImpl.delete, ShardServiceImpl.check_and_advance_epoch,
        if_pos (not_le.mp hepoch)] at hy
  · rwa [hother y hyx] at hy

/-- A delete that answers ok was admitted. -/
theorem delete_ok_admitted {sh : ShardServiceImpl F} {req : DeleteRequest}
    (h : (sh.delete req).2.ok = true) : sh.current_epoch ≤ req.epoch := by
  by_contra hlt
  rw [ShardServiceImpl.delete, ShardServiceImpl.check_and_advance_epoch,
    if_pos (not_le.mp hlt)] at h
  simp at h

/-! ## Insert -/

/-- An index write loses no key and adds its own. -/
theorem write_sane {sh : ShardServiceImpl F} (h : Sane sh) {req : InsertRequest F} {i : ℕ}
    {level : Fin MAX_LAYERS} {index : HNSW (Vec F)} {ids : IdMapStore} (hids : ids.Wf)
    (hx : ids.lookup req.external_id = some i)
    (hother : ∀ y, y ≠ req.external_id.1 → ids.lookup y = sh.id_map.lookup y)
    (hw : Writes sh.index ⟨to_vec req.vector, i, level, req.metadata.1⟩ index) (e : ℕ) :
    Sane ⟨index, ids, e⟩ ∧
      (∀ y, sh.live y = true → (⟨index, ids, e⟩ : ShardServiceImpl F).live y = true) ∧
      (⟨index, ids, e⟩ : ShardServiceImpl F).live req.external_id = true := by
  have hlive : (⟨index, ids, e⟩ : ShardServiceImpl F).live req.external_id = true :=
    live_iff.mpr ⟨i, _, hx, hw.vector_self⟩
  refine ⟨⟨hw.sound, hids, hw.metadata ▸ save_metadata_wf h.metadata _ _,
    hw.short h.metadata h.short req.metadata.2⟩, fun y hy => ?_, hlive⟩
  by_cases hyx : y = req.external_id.1
  · exact hyx ▸ hlive
  · obtain ⟨j, v, hj, hv⟩ := live_iff.mp hy
    have hj' := (hother y hyx).trans hj
    have hji : j ≠ i := by
      rintro rfl
      exact hyx (forward_inj hids hj' hx)
    exact live_iff.mpr ⟨j, v, hj', hw.vector_kept hji hv⟩

variable [BEq F] [LinearOrder D] (ties : Ties D) (dist : Vec F → Vec F → D)

/-- **The three ways an insert can go**: it is refused, it is answered from what is there, or the
index is written, for a key that is new or deleted. -/
theorem insert_outcome {sh : ShardServiceImpl F} (h : Sane sh) (req : InsertRequest F)
    (level : Fin MAX_LAYERS) :
    (∃ e, sh.checks req = .error e ∧ sh.insert ties dist req level = some (sh, ⟨false, e⟩)) ∨
    (sh.checks req = .ok { sh with current_epoch := req.epoch } ∧
      ((∃ i, sh.id_map.lookup req.external_id = some i ∧ sh.index.is_deleted i = false ∧
          sh.insert ties dist req level = some ({ sh with current_epoch := req.epoch },
            if same (sh.index.get_vector_data i) (sh.index.get_metadata i) req then ⟨true, ""⟩
              else ⟨false, different_data⟩)) ∨
        ∃ i ids index, ids.Wf ∧ ids.lookup req.external_id = some i ∧
          (∀ y, y ≠ req.external_id.1 → ids.lookup y = sh.id_map.lookup y) ∧
          ((sh.id_map.lookup req.external_id = some i ∧ sh.index.is_deleted i = true ∧
              ids.reverse = sh.id_map.reverse) ∨
            (sh.id_map.lookup req.external_id = none ∧ i = sh.id_map.reverse.length ∧
              ids.reverse = sh.id_map.reverse ++ [req.external_id.1])) ∧
          step ties dist sh.index (.insert ⟨to_vec req.vector, i, level, req.metadata.1⟩)
            = some index ∧
          sh.insert ties dist req level = some (⟨index, ids, req.epoch⟩, ⟨true, ""⟩))) := by
  unfold ShardServiceImpl.insert
  cases hchecks : sh.checks req with
  | error e => exact Or.inl ⟨e, rfl, rfl⟩
  | ok sh₁ =>
      obtain ⟨-, -, rfl⟩ := checks_spec hchecks
      refine Or.inr ⟨rfl, ?_⟩
      obtain ⟨hwf, hx, hother, hcases⟩ := assign_spec h.ids req.external_id.2
      dsimp only
      generalize sh.id_map.assign req.external_id = r at *
      obtain ⟨ids, i, is_new⟩ := r
      dsimp only at *
      obtain ⟨index, hstep, -⟩ := insert_writes ties dist h.sound
        ⟨to_vec req.vector, i, level, req.metadata.1⟩
      have hinsert : sh.index.insert ties dist (to_vec req.vector) i level req.metadata.1
          = some index := hstep
      rcases hcases with ⟨hold, rfl, rfl⟩ | ⟨hnone, hnew, hrev⟩
      · by_cases hdel : sh.index.is_deleted i = false
        · refine Or.inl ⟨i, hold, hdel, ?_⟩
          rw [if_pos ⟨rfl, hdel⟩]
          split <;> rfl
        · refine Or.inr ⟨i, sh.id_map, index, hwf, hx, hother,
            Or.inl ⟨hold, by simpa using hdel, rfl⟩, hstep, ?_⟩
          rw [if_neg (fun h' => hdel h'.2), hinsert]
          rfl
      · obtain ⟨rfl, rfl⟩ := Prod.mk.inj hnew
        refine Or.inr ⟨_, ids, index, hwf, hx, hother, Or.inr ⟨hnone, rfl, hrev⟩, hstep, ?_⟩
        rw [if_neg (by simp), hinsert]
        rfl

/-- **What an insert does to the keys**: it returns, loses none, has its own when it answers
ok, and also otherwise if it was admitted and did not meet an unwritten slot. -/
theorem insert_sane {sh : ShardServiceImpl F} (h : Sane sh) (req : InsertRequest F)
    (level : Fin MAX_LAYERS) :
    ∃ sh' res, sh.insert ties dist req level = some (sh', res) ∧ Sane sh' ∧
      (∀ y, sh.live y = true → sh'.live y = true) ∧
      (res.ok = true → sh'.live req.external_id = true) ∧
      (req.vector.length = VECTOR_DIM → sh.current_epoch ≤ req.epoch →
        (∀ i ∈ sh.id_map.lookup req.external_id, i ∈ sh.index.nodes.keys) →
        sh'.live req.external_id = true) := by
  rcases insert_outcome ties dist h req level with ⟨e, hchecks, hinsert⟩ | ⟨hchecks, hcase⟩
  · refine ⟨sh, ⟨false, e⟩, hinsert, h, fun _ hy => hy, fun h' => absurd h' (by simp), ?_⟩
    intro hdim hepoch
    rw [ShardServiceImpl.checks, if_neg (not_not.mpr hdim), check_and_advance_epoch_ok hepoch]
      at hchecks
    simp at hchecks
  rcases hcase with ⟨i, hi, hdel, hinsert⟩ | ⟨i, ids, index, hids, hx, hother, -, hstep, hinsert⟩
  · -- answered from what is there
    refine ⟨_, _, hinsert, h.epoch req.epoch, fun _ hy => hy, fun hok => ?_, fun _ _ hkey => ?_⟩
    · have hsame : same (sh.index.get_vector_data i) (sh.index.get_metadata i) req = true := by
        by_contra hne
        rw [if_neg hne] at hok
        simp at hok
      cases hv : sh.index.get_vector_data i with
      | none =>
          rw [hv, same] at hsame
          simp at hsame
      | some v => exact live_iff.mpr ⟨i, v, hi, hv⟩
    · have hne : sh.index.get_vector_data i ≠ none := by
        rw [Ne, ← is_deleted_iff h.sound (hkey i hi), hdel]
        exact Bool.false_ne_true
      obtain ⟨v, hv⟩ := Option.ne_none_iff_exists'.mp hne
      exact live_iff.mpr ⟨i, v, hi, hv⟩
  · obtain ⟨index', hstep', hw⟩ := insert_writes ties dist h.sound
      ⟨to_vec req.vector, i, level, req.metadata.1⟩
    obtain rfl : index' = index := Option.some.inj (hstep'.symm.trans hstep)
    obtain ⟨hsane, hkept, hlive⟩ := write_sane h hids hx hother hw req.epoch
    exact ⟨_, _, hinsert, hsane, hkept, fun _ => hlive, fun _ _ _ => hlive⟩

/-- With all ids in the file an insert changes no other key. -/
theorem insert_ranged {sh : ShardServiceImpl F} (h : Sane sh) (hr : Ranged sh)
    (req : InsertRequest F) (level : Fin MAX_LAYERS) :
    ∃ sh' res, sh.insert ties dist req level = some (sh', res) ∧ Ranged sh' ∧
      (Written sh → Written sh') ∧ ∀ y, y ≠ req.external_id.1 → sh'.live y = sh.live y := by
  rcases insert_outcome ties dist h req level with ⟨e, -, hinsert⟩ | ⟨-, hcase⟩
  · exact ⟨_, _, hinsert, hr, id, fun _ _ => rfl⟩
  rcases hcase with ⟨i, -, -, hinsert⟩ | ⟨i, ids, index, hids, hx, hother, hkind, hstep, hinsert⟩
  · exact ⟨_, _, hinsert, hr, id, fun _ _ => rfl⟩
  obtain ⟨index', hstep', hwrites⟩ := insert_writes ties dist h.sound
    ⟨to_vec req.vector, i, level, req.metadata.1⟩
  obtain rfl : index' = index := Option.some.inj (hstep'.symm.trans hstep)
  -- at most the id of this insert is new
  have hassigned : ∀ j, j < ids.reverse.length → j ≠ i → j < sh.id_map.reverse.length := by
    intro j hj hji
    rcases hkind with ⟨-, -, hrev⟩ | ⟨-, hnext, hrev⟩
    · rwa [hrev] at hj
    · rw [hrev, List.length_append, List.length_singleton] at hj
      omega
  have hself : i ∈ index'.nodes.keys := (hwrites.keys i).mpr (Or.inl rfl)
  refine ⟨_, _, hinsert, fun j hj => ?_, fun hw j hj => ?_, fun y hy => ?_⟩
  · by_cases hji : j = i
    · rw [hji]
      exact hwrites.sound.region.range i hself
    · exact (lt_capacity_iff _ _).mpr
        (le_trans ((lt_capacity_iff _ _).mp (hr j (hassigned j hj hji))) hwrites.size)
  · by_cases hji : j = i
    · rw [hji]
      exact hself
    · exact (hwrites.keys j).mpr (Or.inr (hw j (hassigned j hj hji)))
  · unfold ShardServiceImpl.live
    dsimp only
    rw [hother y hy]
    cases hj : sh.id_map.lookup y with
    | none => rfl
    | some j =>
        have hji : j ≠ i := by
          rintro rfl
          exact hy (forward_inj hids ((hother y hy).trans hj) hx)
        exact congrArg Option.isSome (hwrites.vector_same hji (hr.lt h hj))

end Live

end NanoDB.Shard
