/-
What `size()` counts.

`insert` increments `element_count` and `delete_vector` decrements it when the slot it is asked
to delete is not marked as deleted. Beside the index, `count_step` keeps the set of the ids that
were inserted and not deleted since. That the index knows this set (`Tracks`) is true of every
run; that the count is its size is not.

# The one awkward thing, named up front

The two functions never look at whether a slot is in use. Inserting an id that is alive counts
it twice. A slot of the file that was never written reads as not deleted, so deleting such an
id decrements the count, below zero if it was zero. `Counts` says which calls are counted
right, and `element_count_is_live_count_iff` that these are all.
-/
import Mathlib.Data.Finset.Card
import NanoDB.HnswTable

set_option autoImplicit false

namespace NanoDB.Index

open Beam (Cand Ties)

variable {V D : Type*} [Zero V]

/-! ## The ids that are alive -/

/-- An operation, on the set of ids that were inserted and not deleted since. -/
def live_step (live : Finset ℕ) : Op V → Finset ℕ
  | .insert i => insert i.id live
  | .delete id => live.erase id

/-- An operation, on the index and beside it on the set of live ids. -/
def count_step [LinearOrder D] (ties : Ties D) (dist : V → V → D) (s : HNSW V × Finset ℕ)
    (op : Op V) : Option (HNSW V × Finset ℕ) :=
  (step ties dist s.1 op).map (fun index => (index, live_step s.2 op))

/-- The index knows the live ids: they are the slots that were written and are not marked as
deleted. -/
structure Tracks (s : HNSW V × Finset ℕ) : Prop where
  sound : s.1.Sound
  live : ∀ j, j ∈ s.2 ↔ j ∈ s.1.nodes.keys ∧ (s.1.get_node j).is_deleted = false

/-- The count is right, also in an index that is opened on the file. -/
def CountRight (s : HNSW V × Finset ℕ) : Prop :=
  s.1.element_count = s.2.card ∧ s.1.reopen.element_count = s.2.card

/-- The calls that are counted right: an insert of an id that is not alive, as long as the number
of live ids fits the header, and a delete of an id that was written or is outside the file. -/
def Counts (s : HNSW V × Finset ℕ) : Op V → Prop
  | .insert i => i.id ∉ s.2 ∧ s.2.card + 1 < 2 ^ 32
  | .delete id => id ∈ s.1.nodes.keys ∨ slot_end id > s.1.storage_size

instance decidableCounts (s : HNSW V × Finset ℕ) : (op : Op V) → Decidable (Counts s op)
  | .insert _ => by unfold Counts; infer_instance
  | .delete _ => by unfold Counts; infer_instance

/-! ## One operation -/

theorem tracks_fresh (storage_size : ℕ) : Tracks ((HNSW.fresh storage_size : HNSW V), ∅) :=
  ⟨fresh_sound storage_size, fun j => by simp [HNSW.fresh, Store.keys]⟩

/-- A slot that is marked as deleted was written. -/
theorem written_of_deleted {s : HNSW V} {id : ℕ} (h : (s.get_node id).is_deleted = true) :
    id ∈ s.nodes.keys := by
  by_contra hnot
  rw [get_node_unwritten hnot] at h
  simp [Node.zero] at h

theorem delete_count (s : HNSW V) (id : ℕ) :
    (s.delete_vector id).element_count
      = if slot_end id > s.storage_size ∨ (s.get_node id).is_deleted = true then s.element_count
        else decrement s.element_count := by
  unfold HNSW.delete_vector
  by_cases hrange : slot_end id > s.storage_size
  · rw [if_pos hrange, if_pos (Or.inl hrange)]
  · by_cases hdel : (s.get_node id).is_deleted = true
    · rw [if_neg hrange, if_pos hdel, if_pos (Or.inr hdel)]
    · rw [if_neg hrange, if_neg hdel, if_neg (by simp [hrange, hdel])]

theorem tracks_delete {s : HNSW V × Finset ℕ} (h : Tracks s) (id : ℕ) :
    Tracks (s.1.delete_vector id, s.2.erase id) := by
  obtain ⟨hsound, hkeys, hback, -, hdead, -⟩ := delete_spec h.sound id
  refine ⟨hsound, fun j => ?_⟩
  rw [Finset.mem_erase, h.live]
  by_cases hj : j = id
  · subst hj
    -- the slot is deleted now, or it is not written
    refine iff_of_false (fun h' => h'.1 rfl) (fun h' => ?_)
    have hnone := hdead h'.1
    rw [get_vector_data_written hsound h'.1, if_neg (by simp [h'.2])] at hnone
    simp at hnone
  · have hnode : (s.1.delete_vector id).get_node j = s.1.get_node j := by
      rw [delete_get_node, if_neg (fun h' => hj h'.1)]
    rw [hnode]
    constructor
    · rintro ⟨-, hmem, halive⟩
      exact ⟨hkeys j hmem, halive⟩
    · rintro ⟨hmem, halive⟩
      exact ⟨hj, (hback j hmem).resolve_right hj, halive⟩

/-- A delete is counted right if and only if the id was written or is outside the file. -/
theorem delete_counts {s : HNSW V × Finset ℕ} (h : Tracks s) (hright : CountRight s) (id : ℕ) :
    CountRight (s.1.delete_vector id, s.2.erase id) ↔ Counts s (.delete id) := by
  obtain ⟨hcount, hheader⟩ := hright
  have hfits : s.1.element_count % 2 ^ 32 = s.1.element_count := hheader.trans hcount.symm
  unfold CountRight HNSW.reopen Counts
  dsimp only
  rw [delete_count]
  by_cases hsame : slot_end id > s.1.storage_size ∨ (s.1.get_node id).is_deleted = true
  · have hdead : id ∉ s.2 := by
      rw [h.live]
      rintro ⟨hmem, halive⟩
      rcases hsame with hrange | hdel
      · exact h.sound.in_range hmem hrange
      · exact absurd (halive.symm.trans hdel) (by simp)
    rw [if_pos hsame, Finset.erase_eq_of_notMem hdead]
    exact iff_of_true ⟨hcount, hheader⟩ (hsame.symm.imp_left written_of_deleted)
  · rw [if_neg hsame]
    push Not at hsame
    have halive : (s.1.get_node id).is_deleted = false := by simpa using hsame.2
    have hpow : (2 : ℕ) ^ 32 < 2 ^ 64 := by decide
    by_cases hmem : id ∈ s.1.nodes.keys
    · have hlive : id ∈ s.2 := (h.live id).mpr ⟨hmem, halive⟩
      have hpos : 0 < s.2.card := Finset.card_pos.mpr ⟨id, hlive⟩
      have hdec : decrement s.1.element_count = s.2.card - 1 := by
        rw [decrement, if_neg (by omega), hcount]
      refine iff_of_true ?_ (Or.inl hmem)
      rw [hdec, Finset.card_erase_of_mem hlive]
      exact ⟨rfl, Nat.mod_eq_of_lt (by omega)⟩
    · -- a slot that was never written reads as alive
      have hdead : id ∉ s.2 := fun h' => hmem ((h.live id).mp h').1
      refine iff_of_false (fun h' => ?_) (fun h' => h'.elim hmem (fun h' => ?_))
      · rw [Finset.erase_eq_of_notMem hdead, ← hcount, decrement] at h'
        obtain ⟨h', -⟩ := h'
        split at h'
        · omega
        · omega
      · exact absurd h' (not_lt.mpr hsame.1)

variable [LinearOrder D] (ties : Ties D) (dist : V → V → D)

/-- What an insertion does to the slots and to the count. -/
theorem insert_count {s : HNSW V} (hs : s.Sound) (i : Insertion V) :
    ∃ s', step ties dist s (.insert i) = some s' ∧ s'.Sound ∧ Gains s i.id s' ∧
      s'.element_count = increment s.element_count := by
  obtain ⟨t, ep, max_layer, hstep, hrel, hregion, hep⟩ := insert_finishes ties dist hs i
  refine ⟨_, hstep, (writes_finish hs i hrel hregion max_layer hep).sound,
    ((gains_place s i.id i.level i.vec_data).relink hrel).finish ep max_layer i.metadata, ?_⟩
  have hplace : (s.place i.id i.level i.vec_data).element_count = s.element_count := by
    unfold HNSW.place HNSW.set_node HNSW.expand
    split <;> rfl
  have ht : t.element_count = s.element_count := by
    rw [hrel.rest]
    exact hplace
  exact congrArg increment ht

theorem tracks_insert {s : HNSW V × Finset ℕ} (h : Tracks s) (i : Insertion V) {s' : HNSW V}
    (hsound : s'.Sound) (hgains : Gains s.1 i.id s') : Tracks (s', insert i.id s.2) := by
  refine ⟨hsound, fun j => ?_⟩
  rw [Finset.mem_insert, h.live, hgains.keys]
  by_cases hj : j = i.id
  · subst hj
    exact iff_of_true (Or.inl rfl) ⟨Or.inl rfl, hgains.alive⟩
  · rw [hgains.deleted j hj]
    simp [hj]

omit [Zero V] in
/-- An insert is counted right if and only if the id is not alive and there is room in the
header. -/
theorem insert_counts {s : HNSW V × Finset ℕ} (hright : CountRight s) (i : Insertion V)
    {s' : HNSW V} (hcount' : s'.element_count = increment s.1.element_count) :
    CountRight (s', insert i.id s.2) ↔ Counts s (.insert i) := by
  obtain ⟨hcount, hheader⟩ := hright
  have hheader : s.1.element_count % 2 ^ 32 = s.2.card := hheader
  have hlt : s.2.card < 2 ^ 32 := hheader ▸ Nat.mod_lt _ (by decide)
  have hpow : (2 : ℕ) ^ 32 < 2 ^ 64 := by decide
  have hinc : increment s.1.element_count = s.2.card + 1 := by
    rw [increment, hcount, Nat.mod_eq_of_lt (by omega)]
  unfold CountRight HNSW.reopen Counts
  dsimp only
  rw [hcount', hinc]
  by_cases hmem : i.id ∈ s.2
  · rw [Finset.insert_eq_of_mem hmem]
    refine iff_of_false (fun h => ?_) (fun h => h.1 hmem)
    omega
  · rw [Finset.card_insert_of_notMem hmem]
    constructor
    · rintro ⟨-, hmod⟩
      exact ⟨hmem, hmod ▸ Nat.mod_lt _ (by decide)⟩
    · rintro ⟨-, hfits⟩
      exact ⟨rfl, Nat.mod_eq_of_lt hfits⟩

/-- One operation: it returns, the index keeps track of the live ids, and a right count stays
right exactly if the operation is one that is counted right. -/
theorem count_step_spec (s : HNSW V × Finset ℕ) (op : Op V) (h : Tracks s)
    (hright : CountRight s) :
    ∃ s', count_step ties dist s op = some s' ∧ Tracks s' ∧ (CountRight s' ↔ Counts s op) := by
  cases op with
  | insert i =>
      obtain ⟨s', hstep, hsound, hgains, hcount⟩ := insert_count ties dist h.sound i
      refine ⟨(s', insert i.id s.2), ?_, tracks_insert h i hsound hgains,
        insert_counts hright i hcount⟩
      rw [count_step, hstep]
      rfl
  | delete id =>
      exact ⟨(s.1.delete_vector id, s.2.erase id), rfl, tracks_delete h id,
        delete_counts h hright id⟩

/-! ## Whole runs -/

/-- **When `size()` is the number of live ids.** Every run returns, and the count is right
throughout the run, in memory and in the header, if and only if every call of it is one that is
counted right. -/
theorem element_count_is_live_count_iff (storage_size : ℕ) (ops : List (Op V)) :
    (∀ n, ∃ s, Trace.run (count_step ties dist) (HNSW.fresh storage_size, ∅) (ops.take n) = some s ∧
      s.1.element_count = s.2.card ∧ s.1.reopen.element_count = s.2.card) ↔
    Trace.Along (count_step ties dist) Counts (HNSW.fresh storage_size, ∅) ops :=
  Trace.throughout_iff_along (P := CountRight)
    (fun s op hI hP => count_step_spec ties dist s op hI hP) ops (tracks_fresh storage_size)
    ⟨rfl, rfl⟩

/-- A fresh id, another one, a delete, a revival, and a delete outside the file. -/
theorem element_count_is_live_count_iff_revival :
    ∃ s : HNSW ℤ × Finset ℕ,
      Trace.run (count_step Ties.first (fun _ _ => (0 : ℤ))) (HNSW.fresh 4096, ∅)
        [.insert ⟨0, 0, 0, []⟩, .insert ⟨0, 1, 0, []⟩, .delete 0, .insert ⟨0, 0, 0, []⟩,
         .delete 9] = some s ∧ s.1.element_count = s.2.card := by
  obtain ⟨s, hrun, hcount, -⟩ := (element_count_is_live_count_iff Ties.first
    (fun _ _ => (0 : ℤ)) 4096 [.insert ⟨(0 : ℤ), 0, 0, []⟩, .insert ⟨0, 1, 0, []⟩, .delete 0,
      .insert ⟨0, 0, 0, []⟩, .delete 9]).mpr (by decide) 5
  exact ⟨s, hrun, hcount⟩

/-- Deleting an id that was never inserted, on a file that has room for it, makes the count of an
empty index the largest `size_t`. Inserting a live id again makes the count 2. -/
theorem count_of_unwritten_and_of_live_id :
    (Trace.run (count_step Ties.first (fun _ _ => (0 : ℤ))) ((HNSW.fresh 4096 : HNSW ℤ), ∅)
      [.delete 1]).map (fun s => (s.1.element_count, s.2.card)) = some (2 ^ 64 - 1, 0) ∧
    (Trace.run (count_step Ties.first (fun _ _ => (0 : ℤ))) ((HNSW.fresh 4096 : HNSW ℤ), ∅)
      [.insert ⟨0, 0, 0, []⟩, .insert ⟨0, 0, 0, []⟩]).map
        (fun s => (s.1.element_count, s.2.card)) = some (2, 1) := by
  decide

end NanoDB.Index
