/-
`cluster/raft_log.hpp`: the replicated log, in memory.

Indices are absolute and start at `1`. After a compaction the entries up to
`snapshot_last_index` are gone and only the term of the last of them and the
snapshot bytes remain, so every accessor distinguishes "covered by the snapshot"
from "a real entry". The file side (`persist`, `open_file`) is in `RaftFile`.

`truncate_and_append_entries` says what a follower's log becomes: the old log *cut at
`keep_count`*, then the new entries, whatever the old log held behind that point. What the
accessors read is said in `RaftShows`.
-/
import Mathlib.Data.List.Basic
import Mathlib.Tactic.Common

set_option autoImplicit false

namespace NanoDB.Raft

/-- `std::string` used as a byte string: commands, snapshot data, file contents. -/
abbrev Bytes := List UInt8

/-- `PersistedEntry`. -/
structure PersistedEntry where
  term : ℕ
  command : Bytes
deriving DecidableEq, Repr, Inhabited

/-- The fields of `RaftLog` other than the path. -/
structure RaftLog where
  entries : List PersistedEntry := []
  snapshot_last_index : ℕ := 0
  snapshot_last_term : ℕ := 0
  snapshot_data : Bytes := []
deriving DecidableEq, Repr, Inhabited

/-! ## Accessors -/

def RaftLog.last_index (l : RaftLog) : ℕ := l.snapshot_last_index + l.entries.length

def RaftLog.last_term (l : RaftLog) : ℕ :=
  match l.entries.getLast? with
  | some e => e.term
  | none => l.snapshot_last_term

/-- `term_at`: `0` outside the log, the snapshot's term for every covered index. -/
def RaftLog.term_at (l : RaftLog) (index : ℕ) : ℕ :=
  if index = 0 then 0
  else if index > l.last_index then 0
  else if index ≤ l.snapshot_last_index then l.snapshot_last_term
  else (l.entries.getD (index - 1 - l.snapshot_last_index) default).term

def RaftLog.has_entry_at (l : RaftLog) (index : ℕ) : Bool := 1 ≤ index && index ≤ l.last_index

def RaftLog.has_real_entry_at (l : RaftLog) (index : ℕ) : Bool :=
  index > l.snapshot_last_index && index ≤ l.last_index

theorem has_entry_at_iff (l : RaftLog) (index : ℕ) :
    l.has_entry_at index = true ↔ 1 ≤ index ∧ index ≤ l.last_index := by
  rw [RaftLog.has_entry_at, Bool.and_eq_true, decide_eq_true_iff, decide_eq_true_iff]

theorem has_real_entry_at_iff (l : RaftLog) (index : ℕ) :
    l.has_real_entry_at index = true ↔
      l.snapshot_last_index < index ∧ index ≤ l.last_index := by
  rw [RaftLog.has_real_entry_at, Bool.and_eq_true, decide_eq_true_iff, decide_eq_true_iff]

/-- `command_at`: empty for a covered index and outside the log. -/
def RaftLog.command_at (l : RaftLog) (index : ℕ) : Bytes :=
  if index < 1 ∨ index ≤ l.snapshot_last_index ∨ index > l.last_index then []
  else (l.entries.getD (index - 1 - l.snapshot_last_index) default).command

/-! ## Mutations -/

/-- `truncate_and_append`: cut at the absolute index `keep_count`, then push the new
entries one by one, skipping those the snapshot covers. -/
def RaftLog.truncate_and_append (l : RaftLog) (keep_count : ℕ) (new_entries : List PersistedEntry) :
    RaftLog :=
  let physical_keep :=
    if keep_count > l.snapshot_last_index then keep_count - l.snapshot_last_index else 0
  let kept := if physical_keep < l.entries.length then l.entries.take physical_keep else l.entries
  { l with
    entries := new_entries.zipIdx.foldl
      (fun es p => if keep_count + 1 + p.2 ≤ l.snapshot_last_index then es else es ++ [p.1])
      kept }

def RaftLog.append (l : RaftLog) (term : ℕ) (command : Bytes) : RaftLog :=
  { l with entries := l.entries ++ [⟨term, command⟩] }

/-- `compact`: no upper bound on `up_to_index`, as for a snapshot that covers entries
this log never had. -/
def RaftLog.compact (l : RaftLog) (up_to_index snapshot_term : ℕ) (snapshot_data : Bytes) :
    RaftLog :=
  if up_to_index ≤ l.snapshot_last_index then l
  else
    { entries := l.entries.drop (min (up_to_index - l.snapshot_last_index) l.entries.length)
      snapshot_last_index := up_to_index
      snapshot_last_term := snapshot_term
      snapshot_data := snapshot_data }

/-! ## What the push loop appends -/

/-- The push loop of `truncate_and_append`, started at offset `k`: the entries past the
snapshot, in order. -/
theorem push_loop_eq (snap keep : ℕ) (new : List PersistedEntry) :
    ∀ (k : ℕ) (es : List PersistedEntry),
      (new.zipIdx k).foldl (fun es p => if keep + 1 + p.2 ≤ snap then es else es ++ [p.1]) es
        = es ++ new.drop (snap - (keep + k)) := by
  induction new with
  | nil => intro k es; simp
  | cons e new ih =>
      intro k es
      rw [List.zipIdx_cons, List.foldl_cons]
      by_cases hcov : keep + 1 + k ≤ snap
      · obtain ⟨d, hd⟩ : ∃ d, snap - (keep + k) = d + 1 := ⟨snap - (keep + k) - 1, by omega⟩
        rw [if_pos hcov, ih, hd, List.drop_succ_cons]
        rw [show snap - (keep + (k + 1)) = d by omega]
      · rw [if_neg hcov, ih, show snap - (keep + k) = 0 by omega,
          show snap - (keep + (k + 1)) = 0 by omega]
        simp

/-- **What a follower's log becomes**: the entries up to `keep_count`, then the new ones
the snapshot does not cover. Nothing behind `keep_count` survives. -/
theorem truncate_and_append_entries (l : RaftLog) (keep_count : ℕ)
    (new_entries : List PersistedEntry) :
    (l.truncate_and_append keep_count new_entries).entries
      = l.entries.take (keep_count - l.snapshot_last_index)
        ++ new_entries.drop (l.snapshot_last_index - keep_count) := by
  have hkeep : (if keep_count > l.snapshot_last_index
      then keep_count - l.snapshot_last_index else 0) = keep_count - l.snapshot_last_index := by
    split <;> omega
  have hkept : (if keep_count - l.snapshot_last_index < l.entries.length
      then l.entries.take (keep_count - l.snapshot_last_index) else l.entries)
      = l.entries.take (keep_count - l.snapshot_last_index) := by
    split
    · rfl
    · rw [List.take_of_length_le (by omega)]
  simp only [RaftLog.truncate_and_append, hkeep, hkept]
  rw [push_loop_eq]
  simp

/-! ## Logs that were never compacted -/

/-- No snapshot: the state of every log in a run without compactions. -/
def RaftLog.Plain (l : RaftLog) : Prop :=
  l.snapshot_last_index = 0 ∧ l.snapshot_last_term = 0 ∧ l.snapshot_data = []

theorem plain_append {l : RaftLog} (h : l.Plain) (term : ℕ) (command : Bytes) :
    (l.append term command).Plain := h

theorem plain_truncate_and_append {l : RaftLog} (h : l.Plain) (keep_count : ℕ)
    (new_entries : List PersistedEntry) :
    (l.truncate_and_append keep_count new_entries).Plain := h

end NanoDB.Raft
