/-
What a shard answers to `Stats`: the number of its keys.

The index counts right as long as it is not asked to insert a live id or to delete one that
was never written (`HnswCount.lean`). The shard service never asks for that: it looks at the
tombstone before it inserts, and it deletes only ids that it assigned and wrote. `Counted`
follows the keys of a shard through its writes and restarts.
-/
import NanoDB.HnswCount
import NanoDB.ShardLive

set_option autoImplicit false

namespace NanoDB.Shard

open Raft (Bytes)
open Index
open Beam (Ties)

section Count

variable {F D : Type*} [Zero F]

/-- `Stats`: the `element_count` of the answer. -/
def ShardServiceImpl.stats (sh : ShardServiceImpl F) : ℕ := sh.index.element_count

/-- The shard has these keys, every local id it assigned is written, and the count is right. -/
structure Counted (sh : ShardServiceImpl F) (keys : Finset Bytes) : Prop where
  sane : Sane sh
  recorded : sh.index.metadata_storage.Recorded
  written : Written sh
  live : ∀ x, x ∈ keys ↔ sh.live x = true
  count : sh.stats = keys.card

theorem sane_fresh (storage_size : ℕ) :
    Sane (ShardServiceImpl.fresh storage_size : ShardServiceImpl F) :=
  ⟨fresh_sound storage_size, wf_empty, fun _ => Or.inr rfl, fun _ => Nat.two_pow_pos 32⟩

theorem counted_fresh (storage_size : ℕ) :
    Counted (ShardServiceImpl.fresh storage_size : ShardServiceImpl F) ∅ :=
  ⟨sane_fresh storage_size, ⟨[], by simp, rfl⟩, fun _ h => absurd h (Nat.not_lt_zero _),
    fun _ => iff_of_false (by simp) (by simp [ShardServiceImpl.live, ShardServiceImpl.fresh,
      IdMapStore.lookup]), rfl⟩

section Keys

variable {sh : ShardServiceImpl F} {keys : Finset Bytes} (h : Counted sh keys)

include h

/-- A key is there if its slot is not marked as deleted. -/
theorem Counted.mem_iff {x : Bytes} {i : ℕ} (hi : sh.id_map.lookup x = some i) :
    x ∈ keys ↔ (sh.index.get_node i).is_deleted = false := by
  rw [h.live, live_iff]
  have hdata := get_vector_data_written h.sane.sound (h.written.mem_keys h.sane hi)
  constructor
  · rintro ⟨j, v, hj, hv⟩
    obtain rfl : i = j := Option.some.inj (hi.symm.trans hj)
    rw [hdata] at hv
    split at hv
    · simp at hv
    · rename_i hdel
      simpa using hdel
  · intro hdel
    exact ⟨i, _, hi, hdata.trans (if_neg (by simp [hdel]))⟩

theorem Counted.not_mem {x : Bytes} (hi : sh.id_map.lookup x = none) : x ∉ keys := by
  rw [h.live, ShardServiceImpl.live, hi]
  exact Bool.false_ne_true

/-- The index counts a delete if the key is there. -/
theorem Counted.count_delete_vector {x : Bytes} {i : ℕ} (hi : sh.id_map.lookup x = some i) :
    (sh.index.delete_vector i).element_count = (keys.erase x).card := by
  have hcount : sh.index.element_count = keys.card := h.count
  rw [delete_count]
  by_cases hdel : (sh.index.get_node i).is_deleted = true
  · have hnot : x ∉ keys := by
      rw [h.mem_iff hi, hdel]
      simp
    rw [if_pos (Or.inr hdel), Finset.erase_eq_of_notMem hnot]
    exact hcount
  · have hin : x ∈ keys := (h.mem_iff hi).mpr (by simpa using hdel)
    have hpos := Finset.card_pos.mpr ⟨_, hin⟩
    have hmem := h.written.mem_keys h.sane hi
    rw [if_neg (fun h' => h'.elim (h.sane.sound.in_range hmem) hdel), decrement,
      if_neg (by omega), Finset.card_erase_of_mem hin, hcount]

end Keys

/-- **A restart** finds the keys again. The header of the file has 32 bits for their number. -/
theorem counted_reopen {sh : ShardServiceImpl F} {keys : Finset Bytes} (h : Counted sh keys)
    (hfits : keys.card < 2 ^ 32) : Counted sh.reopen keys := by
  have hids : sh.reopen.id_map = sh.id_map := reopen h.sane.ids
  refine ⟨⟨⟨⟨h.sane.sound.region.closed, h.sane.sound.region.range⟩, h.sane.sound.entry⟩,
    hids.symm ▸ h.sane.ids, open_file_wf h.recorded, fun i => ?_⟩, h.recorded,
    fun i hi => h.written i (by rwa [hids] at hi), fun x => ?_, ?_⟩
  · obtain ⟨records, hshort, hfile⟩ := h.recorded
    change ((MetadataHandler.open_file sh.index.metadata_storage.file).get_metadata i).length < _
    rw [open_file_get hshort hfile]
    cases hr : records[i]? with
    | none => exact Nat.two_pow_pos 32
    | some r => exact hshort r (List.mem_of_getElem? hr)
  · rw [h.live, ShardServiceImpl.live, ShardServiceImpl.live, hids]
    rfl
  · have hcount : sh.index.element_count = keys.card := h.count
    change sh.index.element_count % 2 ^ 32 = _
    rw [hcount, Nat.mod_eq_of_lt hfits]

/-! ## Delete -/

/-- **An admitted delete** removes its key, if it is there. -/
theorem counted_delete {sh : ShardServiceImpl F} {keys : Finset Bytes} (h : Counted sh keys)
    (req : DeleteRequest) (hepoch : sh.current_epoch ≤ req.epoch) :
    Counted (sh.delete req).1 (keys.erase req.external_id) ∧
      (sh.delete req).1.current_epoch = req.epoch := by
  obtain ⟨-, hwritten, hother, hself⟩ := delete_ranged h.sane (h.written.ranged h.sane) req
  have hsane := (delete_sane h.sane req).1
  have hlive : ∀ y, y ∈ keys.erase req.external_id.1 ↔ (sh.delete req).1.live y = true := by
    intro y
    rw [Finset.mem_erase, h.live]
    by_cases hy : y = req.external_id.1
    · rw [hy, hself hepoch]
      simp
    · rw [hother y hy]
      exact and_iff_right hy
  have hrest : (sh.delete req).1.index.metadata_storage.Recorded ∧
      (sh.delete req).1.stats = (keys.erase req.external_id).card ∧
      (sh.delete req).1.current_epoch = req.epoch := by
    unfold ShardServiceImpl.delete
    rw [check_and_advance_epoch_ok hepoch]
    dsimp only
    cases hi : sh.id_map.lookup req.external_id with
    | none =>
        dsimp only
        rw [Finset.erase_eq_of_notMem (h.not_mem hi)]
        exact ⟨h.recorded, h.count, rfl⟩
    | some i =>
        exact ⟨(delete_spec h.sane.sound i).2.2.2.1 ▸ h.recorded, h.count_delete_vector hi, rfl⟩
  exact ⟨⟨hsane, hrest.1, hwritten h.written, hlive, hrest.2.1⟩, hrest.2.2⟩

/-! ## Insert -/

variable [BEq F] [LinearOrder D] (ties : Ties D) (dist : Vec F → Vec F → D)

/-- **An admitted insert** adds its key, if it is not there. -/
theorem counted_insert {sh : ShardServiceImpl F} {keys : Finset Bytes} (h : Counted sh keys)
    (req : InsertRequest F) (level : Fin MAX_LAYERS) (hdim : req.vector.length = VECTOR_DIM)
    (hepoch : sh.current_epoch ≤ req.epoch) (hfits : keys.card + 1 < 2 ^ 64) :
    ∃ sh' res, sh.insert ties dist req level = some (sh', res) ∧
      Counted sh' (insert req.external_id.1 keys) ∧ sh'.current_epoch = req.epoch := by
  obtain ⟨sh', res, hinsert, -, hwritten, hother⟩ :=
    insert_ranged ties dist h.sane (h.written.ranged h.sane) req level
  obtain ⟨sh'', res', hinsert', hsane, -, -, hself⟩ := insert_sane ties dist h.sane req level
  obtain ⟨rfl, rfl⟩ := Prod.mk.inj (Option.some.inj (hinsert'.symm.trans hinsert))
  have hlive : ∀ y, y ∈ insert req.external_id.1 keys ↔ sh''.live y = true := by
    intro y
    rw [Finset.mem_insert, h.live]
    by_cases hy : y = req.external_id.1
    · rw [hy, hself hdim hepoch (fun i hi => h.written.mem_keys h.sane hi)]
      simp
    · rw [hother y hy]
      exact or_iff_right hy
  have hcount : sh.index.element_count = keys.card := h.count
  refine ⟨sh'', res', hinsert, ?_⟩
  rcases insert_outcome ties dist h.sane req level with ⟨e, hchecks, -⟩ | ⟨-, hcase⟩
  · rw [ShardServiceImpl.checks, if_neg (not_not.mpr hdim), check_and_advance_epoch_ok hepoch]
      at hchecks
    simp at hchecks
  rcases hcase with ⟨i, hi, hdel, hcall⟩ | ⟨i, ids, index, -, -, -, hkind, hstep, hcall⟩
  · -- the key is there
    obtain ⟨rfl, -⟩ := Prod.mk.inj (Option.some.inj (hcall.symm.trans hinsert))
    rw [is_deleted_written h.sane.sound (h.written.mem_keys h.sane hi)] at hdel
    refine ⟨⟨hsane, h.recorded, hwritten h.written, hlive, ?_⟩, rfl⟩
    rw [Finset.insert_eq_of_mem ((h.mem_iff hi).mpr hdel)]
    exact hcount
  · obtain ⟨rfl, -⟩ := Prod.mk.inj (Option.some.inj (hcall.symm.trans hinsert))
    obtain ⟨index', hstep', hw⟩ := insert_writes ties dist h.sane.sound
      ⟨to_vec req.vector, i, level, req.metadata.1⟩
    obtain rfl : index' = index := Option.some.inj (hstep'.symm.trans hstep)
    obtain ⟨index'', hstep'', -, -, hadded⟩ := insert_count ties dist h.sane.sound
      ⟨to_vec req.vector, i, level, req.metadata.1⟩
    obtain rfl : index'' = index' := Option.some.inj (hstep''.symm.trans hstep)
    have hnot : req.external_id.1 ∉ keys := by
      rcases hkind with ⟨hi, hdel, -⟩ | ⟨hnone, -, -⟩
      · rw [is_deleted_written h.sane.sound (h.written.mem_keys h.sane hi)] at hdel
        rw [h.mem_iff hi, hdel]
        simp
      · exact h.not_mem hnone
    refine ⟨⟨hsane, ?_, hwritten h.written, hlive, ?_⟩, rfl⟩
    · dsimp only
      rw [hw.metadata]
      exact save_metadata_recorded h.recorded _ req.metadata.2
    · change index''.element_count = _
      rw [hadded, increment, hcount, Finset.card_insert_of_notMem hnot, Nat.mod_eq_of_lt hfits]

end Count

end NanoDB.Shard
