/-
Compaction is transparent: a `RaftLog` and the plain list of its entries.

The list is what the log would be without snapshots: appending appends, `truncate_and_append`
cuts and appends, compaction does nothing. `log_step` performs an operation on both, if it is
one that the callers in `cluster/raft_node.hpp` may ask for. `Shows` is the simulation
relation, so what is left is that each operation keeps it and that each accessor of the log
reads the list.
-/
import NanoDB.Lib.Trace
import NanoDB.RaftShows

set_option autoImplicit false

namespace NanoDB.Raft

open Replog

/-! ## The plain list -/

/-- The term of an entry of a plain log, `0` outside. -/
def plain_term_at (L : List PersistedEntry) (index : ℕ) : ℕ :=
  if index = 0 then 0 else ((L[index - 1]?).map PersistedEntry.term).getD 0

/-- The command of an entry of a plain log, empty outside. -/
def plain_command_at (L : List PersistedEntry) (index : ℕ) : Bytes :=
  if index = 0 then [] else ((L[index - 1]?).map PersistedEntry.command).getD []

/-! ## The operations -/

inductive LogOp
  | append (term : ℕ) (command : Bytes)
  | truncate_and_append (keep_count : ℕ) (new_entries : List PersistedEntry)
  | compact (up_to_index snapshot_term : ℕ) (snapshot_data : Bytes)
deriving DecidableEq

def LogOp.on_log (l : RaftLog) : LogOp → RaftLog
  | .append term command => l.append term command
  | .truncate_and_append keep_count new_entries => l.truncate_and_append keep_count new_entries
  | .compact up_to_index snapshot_term snapshot_data =>
      l.compact up_to_index snapshot_term snapshot_data

def LogOp.on_list (L : List PersistedEntry) : LogOp → List PersistedEntry
  | .append term command => L ++ [⟨term, command⟩]
  | .truncate_and_append keep_count new_entries => L.take keep_count ++ new_entries
  | .compact _ _ _ => L

/-- What may be asked of the log `l` that stands for `L`. Entries that a snapshot covers can
only be replaced by themselves, and a snapshot has the term of its last entry. -/
def LogOp.Allowed (l : RaftLog) (L : List PersistedEntry) : LogOp → Prop
  | .append _ _ => True
  | .truncate_and_append keep_count new_entries =>
      keep_count ≤ l.last_index ∧ (keep_count < l.snapshot_last_index →
        l.snapshot_last_index ≤ keep_count + new_entries.length ∧
          new_entries.take (l.snapshot_last_index - keep_count)
            = (L.take l.snapshot_last_index).drop keep_count)
  | .compact up_to_index snapshot_term _ =>
      l.snapshot_last_index < up_to_index ∧ up_to_index ≤ l.last_index ∧
        snapshot_term = plain_term_at L up_to_index

instance decidableAllowed (l : RaftLog) (L : List PersistedEntry) :
    (op : LogOp) → Decidable (op.Allowed l L)
  | .append _ _ => isTrue trivial
  | .truncate_and_append _ _ => by unfold LogOp.Allowed; infer_instance
  | .compact _ _ _ => by unfold LogOp.Allowed; infer_instance

/-- One operation, on the log and on the list. -/
def log_step (s : RaftLog × List PersistedEntry) (op : LogOp) :
    Option (RaftLog × List PersistedEntry) :=
  if op.Allowed s.1 s.2 then some (op.on_log s.1, op.on_list s.2) else none

/-! ## The simulation -/

variable {l : RaftLog} {L : List PersistedEntry}

theorem plain_term_at_succ (k : ℕ) :
    plain_term_at L (k + 1) = ((L[k]?).map PersistedEntry.term).getD 0 := rfl

theorem plain_command_at_succ (k : ℕ) :
    plain_command_at L (k + 1) = ((L[k]?).map PersistedEntry.command).getD [] := rfl

theorem plain_term_at_length : plain_term_at L L.length = lastTerm PersistedEntry.term L := by
  rcases List.eq_nil_or_concat L with rfl | ⟨L, e, rfl⟩
  · rfl
  · rw [List.concat_eq_append, List.length_append, List.length_singleton, plain_term_at_succ,
      List.getElem?_concat_length]
    simp [lastTerm]

/-- Replacing a suffix, the covered part of it by itself. -/
theorem Shows.replace (h : Shows l L) {keep : ℕ} {es : List PersistedEntry}
    (hkeep : keep ≤ L.length)
    (hcov : keep < l.snapshot_last_index → l.snapshot_last_index ≤ keep + es.length ∧
      es.take (l.snapshot_last_index - keep) = (L.take l.snapshot_last_index).drop keep) :
    Shows (l.truncate_and_append keep es) (L.take keep ++ es) := by
  have hlen : (L.take keep).length = keep := List.length_take_of_le hkeep
  have hfront : (L.take keep ++ es).take keep = L.take keep := List.take_left' hlen
  have hsnap : L.take l.snapshot_last_index
      = (L.take keep ++ es).take l.snapshot_last_index := by
    rcases Nat.lt_or_ge keep l.snapshot_last_index with hlt | hge
    · obtain ⟨-, hsame⟩ := hcov hlt
      rw [List.take_append, hlen, hsame, List.take_take, Nat.min_eq_right (by omega)]
      calc L.take l.snapshot_last_index
          = (L.take l.snapshot_last_index).take keep
            ++ (L.take l.snapshot_last_index).drop keep := (List.take_append_drop _ _).symm
        _ = _ := by rw [List.take_take, Nat.min_eq_left (by omega)]
    · rw [List.take_append_of_le_length (by omega), List.take_take, Nat.min_eq_left hge]
  have hall : (L.take keep ++ es).length = keep + es.length := by
    rw [List.length_append, hlen]
  have hend := h.truncate_and_append hfront.symm hsnap (le_of_eq hall.symm)
    (by rw [hfront, List.take_of_length_le (le_of_eq hall)])
  rwa [List.take_of_length_le (by omega)] at hend

theorem log_step_shows {s s' : RaftLog × List PersistedEntry} {op : LogOp} (h : Shows s.1 s.2)
    (hstep : log_step s op = some s') : Shows s'.1 s'.2 := by
  obtain ⟨l, L⟩ := s
  rw [log_step, Option.ite_none_right_eq_some] at hstep
  obtain ⟨hallowed, heq⟩ := hstep
  obtain rfl := Option.some.inj heq
  cases op with
  | append term command => exact h.append term command
  | truncate_and_append keep es =>
      obtain ⟨hkeep, hcov⟩ := hallowed
      rw [h.last_index] at hkeep
      exact h.replace hkeep hcov
  | compact up_to term data =>
      obtain ⟨hnew, hle, rfl⟩ := hallowed
      rw [h.last_index] at hle
      apply h.compact_within data hle
      have htake : (L.take up_to).length = up_to := List.length_take_of_le hle
      rw [← plain_term_at_length, htake]
      unfold plain_term_at
      rw [List.getElem?_take_of_lt (by omega)]

/-! ## The accessors -/

theorem Shows.term_at_plain (h : Shows l L) {index : ℕ} (hindex : l.snapshot_last_index ≤ index) :
    l.term_at index = plain_term_at L index := by
  cases index with
  | zero => rfl
  | succ k =>
      rw [plain_term_at_succ]
      cases hk : L[k]? with
      | some e => exact h.term_at hindex hk
      | none =>
          have hlen := List.getElem?_eq_none_iff.mp hk
          rw [RaftLog.term_at, if_neg (by omega), if_pos (by rw [h.last_index]; omega)]
          rfl

theorem Shows.command_at_plain (h : Shows l L) {index : ℕ}
    (hindex : l.snapshot_last_index < index) : l.command_at index = plain_command_at L index := by
  obtain ⟨k, rfl⟩ : ∃ k, index = k + 1 := ⟨index - 1, by omega⟩
  rw [plain_command_at_succ]
  cases hk : L[k]? with
  | some e => exact h.command_at (by omega) hk
  | none =>
      have hlen := List.getElem?_eq_none_iff.mp hk
      rw [RaftLog.command_at, if_pos (by rw [h.last_index]; omega)]
      rfl

/-- **Compaction is transparent.** After every sequence of operations the log ends where the
list ends, with the same term, and every accessor reads the list: above the snapshot, and for
the term also at its last index. -/
theorem compaction_transparent (ops : List LogOp) {l : RaftLog} {L : List PersistedEntry}
    (hrun : Trace.run log_step ({}, []) ops = some (l, L)) :
    l.last_index = L.length ∧ l.last_term = plain_term_at L L.length ∧
    (∀ index, l.snapshot_last_index < index →
      l.term_at index = plain_term_at L index ∧ l.command_at index = plain_command_at L index ∧
        l.has_real_entry_at index = decide (1 ≤ index ∧ index ≤ L.length)) ∧
    l.term_at l.snapshot_last_index = plain_term_at L l.snapshot_last_index := by
  have h : Shows l L := Trace.run_invariant (P := fun s => Shows s.1 s.2)
    (fun s op s' hs hstep => log_step_shows hs hstep) shows_empty hrun
  refine ⟨h.last_index, h.last_term.trans plain_term_at_length.symm, fun index hindex => ?_,
    h.term_at_plain (le_refl _)⟩
  refine ⟨h.term_at_plain (le_of_lt hindex), h.command_at_plain hindex, ?_⟩
  rw [Bool.eq_iff_iff, has_real_entry_at_iff, decide_eq_true_iff, h.last_index]
  omega

/-- Five entries, a snapshot of three, a replacement that starts below the snapshot, and a
second snapshot. -/
theorem compaction_transparent_two_snapshots :
    ∃ l L, Trace.run log_step ({}, [])
      [.append 1 [10], .append 1 [11], .append 2 [12], .append 2 [13], .append 2 [14],
       .compact 3 2 [7], .truncate_and_append 1 [⟨1, [11]⟩, ⟨2, [12]⟩, ⟨3, [15]⟩],
       .append 3 [16], .compact 4 3 [8]] = some (l, L) ∧
      l.snapshot_last_index = 4 ∧ l.last_index = L.length ∧
        l.command_at 5 = plain_command_at L 5 := by
  have hrun : Trace.run log_step ({}, [])
      [.append 1 [10], .append 1 [11], .append 2 [12], .append 2 [13], .append 2 [14],
       .compact 3 2 [7], .truncate_and_append 1 [⟨1, [11]⟩, ⟨2, [12]⟩, ⟨3, [15]⟩],
       .append 3 [16], .compact 4 3 [8]]
      = some (⟨[⟨3, [16]⟩], 4, 3, [8]⟩,
        [⟨1, [10]⟩, ⟨1, [11]⟩, ⟨2, [12]⟩, ⟨3, [15]⟩, ⟨3, [16]⟩]) := by decide
  obtain ⟨hlast, -, habove, -⟩ := compaction_transparent _ hrun
  exact ⟨_, _, hrun, rfl, hlast, (habove 5 (by decide)).2.1⟩

end NanoDB.Raft
