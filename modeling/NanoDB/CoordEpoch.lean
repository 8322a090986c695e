/-
From log index to fencing epoch.

The coordinator never sees a log index: it takes the position of a command in
`applied_commands`, adds `snapshot_last_index + 1` and calls that the command's epoch. So the
queue has to hold the applied commands behind the snapshot, one for each index. `Settled`
says that it does unless an empty command was applied, which the apply loop does not queue.
`/raft/propose` hands its body to `propose` unchecked, and `empty_command_shifts` is what one
empty body does: every later command gets the epoch of an earlier index, and a compaction
throws away a command it should have kept.

Here it is shown that nothing else does. If no proposed command is empty, then none in any
log is (`commands_filled`), every queue is aligned in every state of a run in order, and the
coordinator's loop applies each command with the epoch that is its log index (`apply_log`).
-/
import NanoDB.CoordPoll
import NanoDB.RaftIndex

set_option autoImplicit false

namespace NanoDB.Raft

open Quorum Replog

/-! ## An empty command -/

/-- One node alone proposes the empty command and then another. -/
def empty_command : List Act :=
  [.start_election 0, .finish_election 0, .propose 0 [], .propose 0 [97]]

/-- Two commands are applied and one is queued, at the position of index `1` although it sits
at index `2`. Compacting up to index `1` drops it, and compacting up to `2` is refused. -/
theorem empty_command_shifts :
    (run [0] empty_command).map (fun s => ((s.node 0).last_applied,
        (s.node 0).log.snapshot_last_index, (s.node 0).applied_commands,
        (s.node 0).log.command_at 1, (s.node 0).log.command_at 2))
      = some (2, 0, [[97]], [], [97]) ∧
    (run [0] empty_command).map (fun s => ((compact (s.node 0) 1 [7]).1.applied_commands,
        (compact (s.node 0) 1 [7]).2, (compact (s.node 0) 2 [7]).2))
      = some ([], true, false) :=
  ⟨rfl, rfl⟩

/-! ## No empty commands -/

/-- The command of a proposal is not empty. -/
def Act.Filled : Act → Prop
  | .propose _ command => command ≠ []
  | _ => True

/-- The steps of the positive result. -/
def InOrderFilled (s : Cluster) (a : Act) : Prop := InOrder s a ∧ a.Filled

instance : DecidablePred Act.Filled := fun a => by
  rcases a <;> unfold Act.Filled <;> infer_instance

instance (s : Cluster) (a : Act) : Decidable (InOrderFilled s a) := by
  unfold InOrderFilled
  infer_instance

variable {P : List ℤ} {s s' : Cluster} {r : Logs}

/-- Leader logs gain entries from the winner's own log and from proposals only. -/
theorem mem_llog_shadow {a : Act} {t : ℕ} {e : PersistedEntry}
    (he : e ∈ (shadow s s' r a).llog t) :
    e ∈ r.llog t ∨ (∃ i, e ∈ r.log i) ∨ ∃ i, a = .propose i e.command := by
  cases a with
  -- the winner's own log becomes the leader log of its term
  | finish_election i =>
      simp only [shadow] at he
      split_ifs at he
      · by_cases ht : t = r.term i
        · rw [ht, elect_llog_self] at he
          exact Or.inr (Or.inl ⟨i, he⟩)
        · rw [elect_llog_ne r i ht] at he
          exact Or.inl he
      · exact Or.inl he
  | propose i command =>
      simp only [shadow] at he
      by_cases ht : t = r.term i
      · rw [ht, append_llog_self] at he
        rcases List.mem_append.mp he with he | he
        · exact Or.inl (ht ▸ he)
        · rw [List.mem_singleton.mp he]
          exact Or.inr (Or.inr ⟨i, rfl⟩)
      · rw [append_llog_ne r _ ht] at he
        exact Or.inl he
  -- the handlers move logs and votes, never a leader log
  | deliver_request_vote i req =>
      simp only [shadow] at he
      split_ifs at he <;> exact Or.inl he
  | deliver_append_entries i req =>
      simp only [shadow] at he
      split_ifs at he <;> exact Or.inl he
  | deliver_install_snapshot i req =>
      simp only [shadow] at he
      split_ifs at he <;> exact Or.inl he
  | _ => exact Or.inl he

/-- No leader log has an entry with the empty command. -/
def AllFilled (r : Logs) : Prop := ∀ t, ∀ e ∈ r.llog t, e.command ≠ []

/-- Then no log has: every entry is in the leader log of its term. -/
theorem AllFilled.log (hr : Replog.Wf PersistedEntry.term (IsMajority P) r) (h : AllFilled r)
    (i : ℤ) : ∀ e ∈ r.log i, e.command ≠ [] := by
  intro e he
  obtain ⟨k, hk⟩ := List.mem_iff_getElem?.mp he
  obtain ⟨-, htake⟩ := hr.log_sourced i k e hk
  apply h e.term
  rw [← List.getElem?_take_of_lt (Nat.lt_succ_self k), htake,
    List.getElem?_take_of_lt (Nat.lt_succ_self k)] at hk
  exact List.mem_of_getElem? hk

theorem AllFilled.step (hr : Replog.Wf PersistedEntry.term (IsMajority P) r) (h : AllFilled r)
    {a : Act} (ha : a.Filled) : AllFilled (shadow s s' r a) := by
  intro t e he
  rcases mem_llog_shadow he with he | ⟨i, he⟩ | ⟨i, rfl⟩
  · exact h t e he
  · exact h.log hr i e he
  · exact ha

/-- The invariant of a run in order without empty proposals. -/
theorem commands_filled {peers : List ℤ} (hsent : -1 ∉ peers) {acts : List Act}
    (hok : Trace.Along step InOrderFilled (Cluster.init peers) acts)
    (hs : run peers acts = some s) : ∃ r, Inv peers s r ∧ AllFilled r := by
  refine Trace.run_invariant_along (P := fun t => ∃ r, Inv peers t r ∧ AllFilled r)
    (fun t a t' ht ha hstep => ?_) ⟨_, inv_init peers, fun _ _ he => by simp [State.init] at he⟩
    hok hs
  obtain ⟨r, hI, hfilled⟩ := ht
  exact ⟨_, (step_inv hsent hI ha.1 hstep).1, hfilled.step hI.wf ha.2⟩

/-! ## The queue of a node -/

/-- The queue of `n` holds one command for each applied index behind the snapshot, the one the
log has there; and whoever in the cluster `s` applied that index applied that command. -/
structure Aligned (s : Cluster) (n : RaftNode) : Prop where
  snapshot : n.log.snapshot_last_index ≤ n.last_applied
  length : n.applied_commands.length = n.last_applied - n.log.snapshot_last_index
  command : ∀ k c, n.applied_commands[k]? = some c →
    n.log.has_real_entry_at (n.log.snapshot_last_index + k + 1) = true ∧
      n.log.command_at (n.log.snapshot_last_index + k + 1) = c ∧
      ∀ j c', (j, n.log.snapshot_last_index + k + 1, c') ∈ s.applied → c' = c

/-- The queue of a settled node, index by index. -/
theorem Settled.queue_eq {T : ℕ} {L : List PersistedEntry} {n : RaftNode}
    (hshows : Shows n.log L) (h : Settled P r T L n) (hL : ∀ e ∈ L, e.command ≠ []) :
    n.applied_commands = (List.range' (n.log.snapshot_last_index + 1)
      (n.last_applied - n.log.snapshot_last_index)).map n.log.command_at := by
  have hlen := h.commit.le_length
  rw [← h.applied] at hlen
  rw [h.queue (fun e he => hL e (List.mem_of_mem_take he)), hshows.commands (le_refl _) hlen]

theorem Settled.aligned (hI : Inv P s r) {T : ℕ} {L : List PersistedEntry} {n : RaftNode}
    (hshows : Shows n.log L) (h : Settled P r T L n) (hL : ∀ e ∈ L, e.command ≠ []) :
    Aligned s n := by
  have hqueue := h.queue_eq hshows hL
  have hlen := h.commit.le_length
  have happ := h.applied
  refine ⟨by rw [happ]; exact h.snapshot, by rw [hqueue]; simp, fun k c hk => ?_⟩
  rw [hqueue, List.getElem?_map, Option.map_eq_some_iff] at hk
  obtain ⟨idx, hidx, rfl⟩ := hk
  obtain ⟨hk, rfl⟩ : k < n.last_applied - n.log.snapshot_last_index ∧
      n.log.snapshot_last_index + k + 1 = idx := by
    obtain ⟨hlt, hget⟩ := List.getElem?_eq_some_iff.mp hidx
    rw [List.length_range'] at hlt
    rw [List.getElem_range'] at hget
    omega
  refine ⟨?_, rfl, fun j c' hc' => ?_⟩
  · rw [Raft.has_real_entry_at_iff, hshows.last_index]
    omega
  · exact (hI.commit.applied j _ c' hc').agree hI.wf hI.safe
      (h.commit.applied hshows (by omega) (by omega))

theorem Aligned.compact_true {n : RaftNode} (h : Aligned s n) (up_to : ℕ) (data : Bytes) :
    (compact n up_to data).2 = true ↔
      n.log.snapshot_last_index < up_to ∧ up_to ≤ n.last_applied := by
  have hlen := h.length
  unfold compact
  by_cases hsnap : up_to ≤ n.log.snapshot_last_index
  · rw [if_pos hsnap]
    simp only [Bool.false_eq_true, false_iff]
    omega
  rw [if_neg hsnap]
  by_cases hlast : up_to > n.last_applied
  · rw [if_pos hlast]
    simp only [Bool.false_eq_true, false_iff]
    omega
  · -- the third check repeats the second
    rw [if_neg hlast, if_neg (by omega)]
    simp only [true_iff]
    omega

end NanoDB.Raft

namespace NanoDB.Coord

open Raft (Bytes RaftLog RaftNode InOrderFilled Aligned two_committed snapshot_sent)

/-! ## The coordinator's loop -/

/-- The commands at the log indices past `lo` up to `hi`, each applied with its index as the
epoch. -/
def apply_log (parse : Bytes → Command) (l : RaftLog) (lo hi : ℕ) (c : Coordinator) :
    Coordinator :=
  (List.range' (lo + 1) (hi - lo)).foldl
    (fun c idx => apply_command idx c (parse (l.command_at idx))) c

theorem apply_commands_range (g : ℕ → Command) (m : ℕ) : ∀ (applied : ℕ) (c : Coordinator),
    apply_commands applied c ((List.range' (applied + 1) m).map g)
      = (List.range' (applied + 1) m).foldl (fun c idx => apply_command idx c (g idx)) c := by
  induction m with
  | zero =>
      intro applied c
      rfl
  | succ m ih =>
      intro applied c
      rw [List.range'_succ, List.map_cons, List.foldl_cons, apply_commands]
      exact ih (applied + 1) _

/-- **A poll applies log indices**: what the queue of the node holds past the cursor is what
the log has past the snapshot and the cursor. -/
theorem poll_applies_log (parse : Bytes → Command)
    (parse_snapshot : Bytes → Option (List SnapshotShard)) (threshold : ℕ) (c : Coordinator)
    {n : RaftNode} (hqueue : n.applied_commands = (List.range' (n.log.snapshot_last_index + 1)
      (n.last_applied - n.log.snapshot_last_index)).map n.log.command_at) :
    (apply_pending_raft_commands threshold c (status parse parse_snapshot n)).1.g_shards
      = (apply_log parse n.log (n.log.snapshot_last_index
          + (snapshot_catch_up c (status parse parse_snapshot n)).g_local_applied_count)
          n.last_applied (snapshot_catch_up c (status parse parse_snapshot n))).g_shards := by
  set st := status parse parse_snapshot n with hst
  set c₁ := snapshot_catch_up c st with hc₁
  -- what the coordinator reads is the queue parsed, index by index
  have hcmds : st.applied_commands = (List.range' (n.log.snapshot_last_index + 1)
      (n.last_applied - n.log.snapshot_last_index)).map (fun i => parse (n.log.command_at i)) := by
    rw [hst, status, hqueue, List.map_map]
    rfl
  have hlen : st.applied_commands.length = n.last_applied - n.log.snapshot_last_index := by
    rw [hcmds, List.length_map, List.length_range']
  rcases Nat.lt_or_ge st.applied_commands.length c₁.g_local_applied_count with hlt | hge
  · -- the cursor is past the queue: nothing to apply
    rw [apply_pending_raft_commands, if_pos (Nat.le_of_lt hlt), apply_log,
      show n.last_applied - (n.log.snapshot_last_index + c₁.g_local_applied_count) = 0 by omega]
    rfl
  · have hdrop : (List.range' (n.log.snapshot_last_index + 1)
        (n.last_applied - n.log.snapshot_last_index)).drop c₁.g_local_applied_count
        = List.range' (n.log.snapshot_last_index + c₁.g_local_applied_count + 1)
          (n.last_applied - (n.log.snapshot_last_index + c₁.g_local_applied_count)) := by
      rw [List.drop_range', Nat.mul_one, Nat.add_right_comm, Nat.sub_sub]
    rw [(polled threshold c st hge).shards, ← hc₁, hcmds, ← List.map_drop, hdrop, apply_log,
      ← apply_commands_range]
    rfl

/-! ## Epochs are log indices -/

/-- **Applied commands are aligned with the log.** In every state of a run in order in which
no proposed command is empty: the queue of every node holds, for each applied index behind
the snapshot, the command committed there; a coordinator polling the node applies each
command with its log index as the epoch; and a compaction up to any applied index succeeds
and leaves the queue aligned. -/
theorem commands_aligned {peers : List ℤ} (hsent : -1 ∉ peers) {acts : List Raft.Act}
    {s : Raft.Cluster} (hok : Trace.Along Raft.step InOrderFilled (Raft.Cluster.init peers) acts)
    (hs : Raft.run peers acts = some s) (i : ℤ) :
    Aligned s (s.node i) ∧
    (∀ parse parse_snapshot threshold c,
      (apply_pending_raft_commands threshold c
          (status parse parse_snapshot (s.node i))).1.g_shards
        = (apply_log parse (s.node i).log ((s.node i).log.snapshot_last_index
            + (snapshot_catch_up c (status parse parse_snapshot (s.node i))).g_local_applied_count)
            (s.node i).last_applied
            (snapshot_catch_up c (status parse parse_snapshot (s.node i)))).g_shards) ∧
    ∀ up_to data,
      ((Raft.compact (s.node i) up_to data).2 = true ↔
        (s.node i).log.snapshot_last_index < up_to ∧ up_to ≤ (s.node i).last_applied) ∧
      Aligned s (Raft.compact (s.node i) up_to data).1 := by
  obtain ⟨r, hI, hfilled⟩ := Raft.commands_filled hsent hok hs
  have hset := hI.commit.node i
  have hshows := hI.logs.shows i
  have hL := hfilled.log hI.wf i
  have haligned := hset.aligned hI hshows hL
  refine ⟨haligned, fun parse parse_snapshot threshold c =>
    poll_applies_log parse parse_snapshot threshold c (hset.queue_eq hshows hL),
    fun up_to data => ⟨haligned.compact_true up_to data, ?_⟩⟩
  -- a compaction keeps the node settled on the same whole log, so alignment is read off again
  refine (hset.compact up_to data).aligned hI ?_ hL
  rcases Raft.compact_cases (s.node i) up_to data with heq | ⟨-, hlast, -, heq⟩
  · rw [heq]
    exact hshows
  · have hlen := hset.commit.le_length
    have happ := hset.applied
    rw [heq]
    exact hshows.compact data (by omega)

/-- After the compaction of `snapshot_sent` the queue of node `0` holds the second command
alone, with position `0` behind a snapshot up to index `1`. -/
theorem commands_aligned_snapshot_sent :
    ∃ s, Raft.run [0, 1, 2] (two_committed ++ snapshot_sent) = some s ∧
      (s.node 0).log.snapshot_last_index = 1 ∧
      (s.node 0).applied_commands = [[98]] ∧ (s.node 0).log.command_at 2 = [98] := by
  have hview : (Raft.run [0, 1, 2] (two_committed ++ snapshot_sent)).map
      (fun s => ((s.node 0).log.snapshot_last_index, (s.node 0).applied_commands))
      = some (1, [[98]]) := rfl
  obtain ⟨s, hs, hs₀⟩ := Option.map_eq_some_iff.mp hview
  obtain ⟨hsnap, hqueue⟩ := Prod.mk.inj hs₀
  obtain ⟨-, hcommand, -⟩ := (commands_aligned (by decide) (by decide +kernel) hs 0).1.command
    0 [98] (by rw [hqueue]; rfl)
  rw [hsnap] at hcommand
  exact ⟨s, hs, hsnap, hqueue, hcommand⟩

end NanoDB.Coord
