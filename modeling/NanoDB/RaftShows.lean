/-
A log and the whole log it stands for.

Compaction throws entries away, so what the cluster proofs compare is not what a `RaftLog`
holds but the log it would hold had nothing been compacted. `Shows l L` ties the two: `l`
has the entries of `L` past its snapshot and the term of the last one before. Under it every
accessor of `cluster/raft_log.hpp` reads `L`, compaction changes nothing, and the other
mutations do to `L` what they are for.

# The one awkward thing, named up front

The accessors do not fail on an index the snapshot covers: `term_at` answers with the
snapshot's term and `command_at` with the empty command. Only at `snapshot_last_index`
itself is that term the entry's. So the lemmas about `term_at` ask for
`snapshot_last_index ≤ index`, those about `command_at` and `entries_from` for a strictly
larger index, and nothing is said below.
-/
import NanoDB.Lib.Replog
import NanoDB.RaftNode

set_option autoImplicit false

namespace NanoDB.Raft

open Replog

/-- `l` holds `L`, up to compaction. -/
structure Shows (l : RaftLog) (L : List PersistedEntry) : Prop where
  covered : l.snapshot_last_index ≤ L.length
  entries : l.entries = L.drop l.snapshot_last_index
  term : l.snapshot_last_term = lastTerm PersistedEntry.term (L.take l.snapshot_last_index)

variable {l l' : RaftLog} {L L' K : List PersistedEntry}

theorem shows_empty : Shows {} [] := ⟨le_refl 0, rfl, rfl⟩

theorem Shows.plain (h : Shows l L) (hl : l.Plain) : l.entries = L := by
  rw [h.entries, hl.1, List.drop_zero]

/-! ## Accessors -/

theorem lastTerm_take_succ {k : ℕ} {e : PersistedEntry} (h : L[k]? = some e) :
    lastTerm PersistedEntry.term (L.take (k + 1)) = e.term := by
  rw [lastTerm, List.take_add_one, h]
  simp

theorem Shows.last_index (h : Shows l L) : l.last_index = L.length := by
  have hcov := h.covered
  rw [RaftLog.last_index, h.entries, List.length_drop]
  omega

theorem Shows.last_term (h : Shows l L) : l.last_term = lastTerm PersistedEntry.term L := by
  have hcov := h.covered
  rw [RaftLog.last_term, h.entries]
  rcases Nat.lt_or_ge l.snapshot_last_index L.length with hlt | hge
  · rw [List.getLast?_drop, if_neg (by omega), lastTerm]
    cases hlast : L.getLast? with
    | none =>
        rw [List.getLast?_eq_none_iff.mp hlast] at hlt
        simp at hlt
    | some e => rfl
  · -- everything is in the snapshot
    rw [List.drop_of_length_le hge, h.term, List.take_of_length_le hge]
    rfl

theorem Shows.term_at (h : Shows l L) {k : ℕ} {e : PersistedEntry}
    (hk : l.snapshot_last_index ≤ k + 1) (he : L[k]? = some e) : l.term_at (k + 1) = e.term := by
  have hlt : k < L.length := (List.getElem?_eq_some_iff.mp he).1
  rw [RaftLog.term_at, if_neg (by omega), if_neg (by rw [h.last_index]; omega)]
  rcases Nat.lt_or_ge k l.snapshot_last_index with hlast | hreal
  · rw [if_pos (by omega), h.term, show l.snapshot_last_index = k + 1 by omega,
      lastTerm_take_succ he]
  · rw [if_neg (by omega), h.entries, List.getD_eq_getElem?_getD, List.getElem?_drop,
      show l.snapshot_last_index + (k + 1 - 1 - l.snapshot_last_index) = k by omega, he]
    rfl

theorem Shows.command_at (h : Shows l L) {k : ℕ} {e : PersistedEntry}
    (hk : l.snapshot_last_index ≤ k) (he : L[k]? = some e) : l.command_at (k + 1) = e.command := by
  have hlt : k < L.length := (List.getElem?_eq_some_iff.mp he).1
  rw [RaftLog.command_at, if_neg (by rw [h.last_index]; omega), h.entries,
    List.getD_eq_getElem?_getD, List.getElem?_drop,
    show l.snapshot_last_index + (k + 1 - 1 - l.snapshot_last_index) = k by omega, he]
  rfl

/-- The entries a leader sends from `k + 1` on are the rest of its log. -/
theorem Shows.entries_from (h : Shows l L) {k : ℕ} (hk : l.snapshot_last_index ≤ k) :
    entries_from l (k + 1) = L.drop k := by
  unfold Raft.entries_from
  rw [h.last_index]
  apply List.ext_getElem
  · simp
  · intro i h₁ h₂
    have hi : k + i < L.length := by
      rw [List.length_drop] at h₂
      omega
    have hget : L[k + i]? = some L[k + i] := List.getElem?_eq_getElem hi
    rw [List.getElem_map, List.getElem_range', Nat.one_mul, Nat.add_right_comm,
      h.term_at (by omega) hget, h.command_at (by omega) hget, List.getElem_drop]

/-- The commands at the indices behind `a` up to `b`. -/
theorem Shows.commands (h : Shows l L) {a b : ℕ} (ha : l.snapshot_last_index ≤ a)
    (hb : b ≤ L.length) : (List.range' (a + 1) (b - a)).map l.command_at
      = ((L.take b).drop a).map PersistedEntry.command := by
  apply List.ext_getElem
  · simp only [List.length_map, List.length_range', List.length_drop, List.length_take]
    omega
  · intro i h₁ h₂
    rw [List.length_map, List.length_range'] at h₁
    have hget : L[a + i]? = some L[a + i] := List.getElem?_eq_getElem (by omega)
    rw [List.getElem_map, List.getElem_range', Nat.one_mul, Nat.add_right_comm,
      h.command_at (by omega) hget, List.getElem_map, List.getElem_drop, List.getElem_take]

/-- The entries of two logs that agree up to `c`, read through absolute indices that neither
snapshot covers. -/
theorem entry_eq_of_take (hl : Shows l L) (hl' : Shows l' L') {c idx : ℕ}
    (h : L.take c = L'.take c) (hc : c ≤ L.length) (hidx : idx ≤ c)
    (hsnap : l.snapshot_last_index < idx) (hsnap' : l'.snapshot_last_index < idx) :
    l'.has_entry_at idx = true ∧ l'.term_at idx = l.term_at idx ∧
      l'.command_at idx = l.command_at idx := by
  obtain ⟨m, rfl⟩ : ∃ m, idx = m + 1 := ⟨idx - 1, by omega⟩
  obtain ⟨e, he⟩ : ∃ e, L[m]? = some e := ⟨_, List.getElem?_eq_getElem (by omega)⟩
  have he' : L'[m]? = some e := by
    rw [← List.getElem?_take_of_lt (show m < c by omega), ← h,
      List.getElem?_take_of_lt (show m < c by omega), he]
  have hlt : m < L'.length := (List.getElem?_eq_some_iff.mp he').1
  refine ⟨?_, by rw [hl.term_at (by omega) he, hl'.term_at (by omega) he'],
    by rw [hl.command_at (by omega) he, hl'.command_at (by omega) he']⟩
  rw [has_entry_at_iff, hl'.last_index]
  omega

/-! ## Mutations -/

theorem Shows.append (h : Shows l L) (term : ℕ) (command : Bytes) :
    Shows (l.append term command) (L ++ [⟨term, command⟩]) where
  covered := by
    rw [List.length_append]
    exact le_trans h.covered (Nat.le_add_right _ _)
  entries := by
    rw [RaftLog.append]
    dsimp only
    rw [List.drop_append_of_le_length h.covered, h.entries]
  term := by
    rw [RaftLog.append]
    dsimp only
    rw [List.take_append_of_le_length h.covered, h.term]

/-- The snapshot up to `up_to` of a log that has those entries: nothing changes. -/
theorem Shows.compact_within (h : Shows l L) {up_to term : ℕ} (data : Bytes)
    (hle : up_to ≤ L.length)
    (hterm : term = lastTerm PersistedEntry.term (L.take up_to)) :
    Shows (l.compact up_to term data) L := by
  have hcov := h.covered
  rw [RaftLog.compact]
  by_cases hold : up_to ≤ l.snapshot_last_index
  · rw [if_pos hold]
    exact h
  · rw [if_neg hold]
    refine ⟨hle, ?_, hterm⟩
    dsimp only
    rw [h.entries, List.length_drop, Nat.min_eq_left (by omega), List.drop_drop,
      show l.snapshot_last_index + (up_to - l.snapshot_last_index) = up_to by omega]

/-- `RaftNode::compact` takes the term from the log itself. -/
theorem Shows.compact (h : Shows l L) {up_to : ℕ} (data : Bytes) (hle : up_to ≤ L.length) :
    Shows (l.compact up_to (l.term_at up_to) data) L := by
  by_cases hold : up_to ≤ l.snapshot_last_index
  · rw [RaftLog.compact, if_pos hold]
    exact h
  · obtain ⟨k, rfl⟩ : ∃ k, up_to = k + 1 := ⟨up_to - 1, by omega⟩
    have hget : L[k]? = some L[k] := List.getElem?_eq_getElem hle
    apply h.compact_within data hle
    rw [h.term_at (by omega) hget, lastTerm_take_succ hget]

/-- A snapshot of `K` that reaches past the log replaces it. -/
theorem Shows.compact_beyond (h : Shows l L) {up_to term : ℕ} (data : Bytes)
    (hnew : l.snapshot_last_index < up_to) (hbeyond : L.length ≤ up_to) (hle : up_to ≤ K.length)
    (hterm : term = lastTerm PersistedEntry.term (K.take up_to)) :
    Shows (l.compact up_to term data) (K.take up_to) := by
  rw [RaftLog.compact, if_neg (by omega)]
  refine ⟨?_, ?_, ?_⟩
  · rw [List.length_take, Nat.min_eq_left hle]
  · dsimp only
    rw [h.entries, List.length_drop, Nat.min_eq_right (by omega), List.drop_drop,
      List.drop_of_length_le (by omega), List.drop_of_length_le (by rw [List.length_take]; omega)]
  · dsimp only
    rw [List.take_take, Nat.min_self, hterm]

/-- **Storing entries**: a log that agrees with `K` up to `keep` and up to its snapshot, cut at
`keep` and continued with the entries of `K` behind it, holds `K` up to their end. What the
snapshot covers stays, even when the entries end below it. -/
theorem Shows.truncate_and_append (h : Shows l L) {keep : ℕ} {es : List PersistedEntry}
    (hkeep : L.take keep = K.take keep)
    (hsnap : L.take l.snapshot_last_index = K.take l.snapshot_last_index)
    (hK : keep + es.length ≤ K.length)
    (hes : K.take (keep + es.length) = K.take keep ++ es) :
    Shows (l.truncate_and_append keep es)
      (K.take (max (keep + es.length) l.snapshot_last_index)) := by
  have hcov := h.covered
  have hcovK : l.snapshot_last_index ≤ K.length := by
    have := congrArg List.length hsnap
    rw [List.length_take, List.length_take] at this
    omega
  refine ⟨?_, ?_, ?_⟩
  · change l.snapshot_last_index ≤ _
    rw [List.length_take]
    omega
  · rw [truncate_and_append_entries]
    change _ = (K.take _).drop l.snapshot_last_index
    rw [h.entries]
    -- the snapshot may cover the cut, and even the new entries
    rcases Nat.lt_or_ge keep l.snapshot_last_index with hlt | hge
    · rw [Nat.sub_eq_zero_of_le (Nat.le_of_lt hlt), List.take_zero, List.nil_append]
      rcases Nat.le_total (keep + es.length) l.snapshot_last_index with hend | hend
      · rw [Nat.max_eq_right hend, List.drop_of_length_le (by omega),
          List.drop_of_length_le (by rw [List.length_take]; omega)]
      · have hnone : (K.take keep).drop l.snapshot_last_index = [] :=
          List.drop_of_length_le (by rw [List.length_take]; omega)
        rw [Nat.max_eq_left hend, hes, List.drop_append, hnone, List.length_take,
          Nat.min_eq_left (by omega), List.nil_append]
    · rw [Nat.max_eq_left (by omega), hes, Nat.sub_eq_zero_of_le hge, List.drop_zero,
        List.drop_append_of_le_length (by rw [List.length_take]; omega), ← hkeep,
        List.drop_take]
  · change l.snapshot_last_term = lastTerm _ ((K.take _).take l.snapshot_last_index)
    rw [List.take_take, Nat.min_eq_left (le_max_right _ _), ← hsnap, h.term]

end NanoDB.Raft
