/-
A coordinator beside its Raft node: deliveries of committed commands and polls.

The Raft node delivers the committed commands one at a time into `applied_commands`, and
`apply_pending_raft_commands` runs now and then, compacting when it sees fit. After its own
compaction a coordinator re-installs its own snapshot at the next poll, because
`g_snapshot_applied_index` is left behind; `agree_installed` shows that this is harmless. So
whatever the schedule, the coordinator holds what applying the commands in one go gives
(`run_replays`).
-/
import NanoDB.CoordSnapshot
import NanoDB.Lib.Trace

set_option autoImplicit false

namespace NanoDB.Coord

/-! ## The Raft node behind the status -/

/-- What `handle_install_snapshot` does to the status. -/
def RaftStatus.install (st : RaftStatus) (new_snap : ℕ) (data : Option (List SnapshotShard)) :
    RaftStatus :=
  if new_snap ≤ st.snapshot_last_index then st
  else
    let trim_count := min (new_snap - st.snapshot_last_index) st.applied_commands.length
    { snapshot_last_index := new_snap
      snapshot_data := data
      applied_commands := st.applied_commands.drop trim_count }

section Status

-- how the bytes of a command and of a snapshot parse
variable (parse : Raft.Bytes → Command) (parse_snapshot : Raft.Bytes → Option (List SnapshotShard))

/-- `RaftNode::status`, as far as the coordinator reads it. -/
def status (n : Raft.RaftNode) : RaftStatus :=
  ⟨n.log.snapshot_last_index, parse_snapshot n.log.snapshot_data, n.applied_commands.map parse⟩

/-- `RaftNode::compact` is `RaftStatus.compact`, on a node that has applied what it shows. -/
theorem status_compact (n : Raft.RaftNode) (up_to_index : ℕ) {data : Raft.Bytes}
    {snap : List SnapshotShard} (hdata : parse_snapshot data = some snap)
    (happlied : n.last_applied = n.log.snapshot_last_index + n.applied_commands.length) :
    (status parse parse_snapshot (Raft.compact n up_to_index data).1,
        (Raft.compact n up_to_index data).2)
      = (status parse parse_snapshot n).compact up_to_index snap := by
  unfold Raft.compact RaftStatus.compact
  have hlength : (status parse parse_snapshot n).applied_commands.length
      = n.applied_commands.length := List.length_map _
  have hsnap : (status parse parse_snapshot n).snapshot_last_index
      = n.log.snapshot_last_index := rfl
  rw [hsnap, hlength]
  by_cases h₁ : up_to_index ≤ n.log.snapshot_last_index
  · rw [if_pos h₁, if_pos h₁]
  rw [if_neg h₁, if_neg h₁]
  by_cases h₂ : up_to_index > n.last_applied
  · -- the second check of the node subsumes the third
    have h₃ : up_to_index - n.log.snapshot_last_index > n.applied_commands.length := by omega
    rw [if_pos h₂, if_pos h₃]
  · have h₃ : ¬ up_to_index - n.log.snapshot_last_index > n.applied_commands.length := by omega
    rw [if_neg h₂, if_neg h₃, if_neg h₃]
    simp [status, Raft.RaftLog.compact, hdata, h₁]

/-- `RaftNode::handle_install_snapshot` is `RaftStatus.install`, for a request of a term
that is not over. -/
theorem status_install (n : Raft.RaftNode) (req : Raft.InstallSnapshotRequest)
    (hterm : n.state.current_term ≤ req.term) :
    status parse parse_snapshot (Raft.handle_install_snapshot n req).1
      = (status parse parse_snapshot n).install req.last_included_index
          (parse_snapshot req.data) := by
  have hcur : ¬ req.term < (Raft.observe_term n req.term).state.current_term := by
    unfold Raft.observe_term
    split
    · exact lt_irrefl _
    · omega
  have hlog := Raft.observe_term_log n req.term
  have hcmds : (Raft.observe_term n req.term).applied_commands = n.applied_commands := by
    unfold Raft.observe_term
    split <;> rfl
  unfold Raft.handle_install_snapshot RaftStatus.install
  rw [if_neg hcur]
  by_cases hold : req.last_included_index ≤ n.log.snapshot_last_index
  · simp [status, hlog, hcmds, hold]
  · simp [status, Raft.RaftLog.compact, hlog, hcmds, hold]

end Status

/-! ## One poll -/

theorem apply_command_counters (e : ℕ) (c : Coordinator) (cmd : Command) :
    (apply_command e c cmd).g_snapshot_applied_index = c.g_snapshot_applied_index := by
  unfold apply_command
  cases cmd with
  | add_shard k replicas =>
      dsimp only
      split <;> rfl
  | remove_shard k => rfl
  | set_primary k p => rfl
  | malformed => rfl

theorem apply_commands_counters (cmds : List Command) :
    ∀ applied (c : Coordinator),
      (apply_commands applied c cmds).g_snapshot_applied_index = c.g_snapshot_applied_index := by
  induction cmds with
  | nil =>
      intro applied c
      rfl
  | cons cmd cmds ih =>
      intro applied c
      rw [apply_commands, ih, apply_command_counters]

/-- What a poll leaves behind, from the coordinator after the catch-up: the pending commands
are applied, and the log is compacted up to there or left alone. -/
structure Polled (c₁ : Coordinator) (st : RaftStatus) (c' : Coordinator) (st' : RaftStatus) :
    Prop where
  shards : c'.g_shards = (apply_commands (st.snapshot_last_index + c₁.g_local_applied_count) c₁
    (st.applied_commands.drop c₁.g_local_applied_count)).g_shards
  snapshot : c'.g_snapshot_applied_index = c₁.g_snapshot_applied_index
  built : c₁.Built → c'.Built
  status : (st' = st ∧ c'.g_local_applied_count = st.applied_commands.length) ∨
    (0 < st.applied_commands.length ∧ c'.g_local_applied_count = 0 ∧
      st' = ⟨st.snapshot_last_index + st.applied_commands.length,
        some (serialize_raft_snapshot c'), []⟩)

/-- A compaction up to the last applied command always succeeds. -/
theorem compact_all (st : RaftStatus) (snap : List SnapshotShard)
    (h : 0 < st.applied_commands.length) :
    st.compact (st.snapshot_last_index + st.applied_commands.length) snap
      = (⟨st.snapshot_last_index + st.applied_commands.length, some snap, []⟩, true) := by
  unfold RaftStatus.compact
  rw [if_neg (by omega), Nat.add_sub_cancel_left, if_neg (lt_irrefl _), List.drop_length]

theorem polled (threshold : ℕ) (c : Coordinator) (st : RaftStatus)
    (hcount : (snapshot_catch_up c st).g_local_applied_count ≤ st.applied_commands.length) :
    Polled (snapshot_catch_up c st) st (apply_pending_raft_commands threshold c st).1
      (apply_pending_raft_commands threshold c st).2 := by
  unfold apply_pending_raft_commands
  generalize snapshot_catch_up c st = c₁ at hcount
  by_cases hnew : st.applied_commands.length ≤ c₁.g_local_applied_count
  · -- nothing is pending
    dsimp only
    rw [if_pos hnew]
    refine ⟨?_, rfl, id, Or.inl ⟨rfl, le_antisymm hcount hnew⟩⟩
    rw [List.drop_eq_nil_of_le hnew]
    rfl
  dsimp only
  rw [if_neg hnew]
  have hsnap := apply_commands_counters (st.applied_commands.drop c₁.g_local_applied_count)
    (st.snapshot_last_index + c₁.g_local_applied_count) c₁
  by_cases hthreshold : st.applied_commands.length ≥ threshold
  · rw [if_pos hthreshold, compact_all st _ (by omega)]
    exact ⟨rfl, hsnap, fun hb => built_apply_commands _ _ hb, Or.inr ⟨by omega, rfl, rfl⟩⟩
  · rw [if_neg hthreshold]
    exact ⟨rfl, hsnap, fun hb => built_apply_commands _ _ hb, Or.inl ⟨rfl, rfl⟩⟩

theorem built_catch_up {c : Coordinator} (hc : c.Built) (st : RaftStatus) :
    (snapshot_catch_up c st).Built := by
  unfold snapshot_catch_up
  split
  · cases st.snapshot_data with
    | none => exact hc
    | some snap => exact built_installed c snap
  · exact hc

/-! ## Agreement -/

/-- The same active replicas and the same taken ids: no command tells the two apart. -/
structure Agree (g g' : List ShardClient) : Prop where
  live : live_shards g = live_shards g'
  ids : ∀ k, k ∈ g.map ShardClient.shard_id ↔ k ∈ g'.map ShardClient.shard_id

theorem Agree.refl (g : List ShardClient) : Agree g g := ⟨rfl, fun _ => Iff.rfl⟩

theorem Agree.trans {g g' g'' : List ShardClient} (h : Agree g g') (h' : Agree g' g'') :
    Agree g g'' :=
  ⟨h.live.trans h'.live, fun k => (h.ids k).trans (h'.ids k)⟩

/-- The order and the multiplicity of the taken ids do not matter. -/
theorem added_congr (applied : ℕ) (cmds : List Command) {taken taken' : List ℤ}
    (h : ∀ k, k ∈ taken ↔ k ∈ taken') : added applied taken cmds = added applied taken' cmds := by
  rw [added_of_more_taken cmds applied taken taken' (fun k => (h k).mp), eq_comm,
    List.filter_eq_self]
  intro sc hsc
  rw [decide_eq_true_eq, ← h]
  exact ((mem_added_iff sc cmds applied taken).mp hsc).1

theorem Agree.apply_commands {c d : Coordinator} (h : Agree c.g_shards d.g_shards) (applied : ℕ)
    (cmds : List Command) :
    Agree (apply_commands applied c cmds).g_shards (apply_commands applied d cmds).g_shards := by
  constructor
  · rw [apply_commands_shards, apply_commands_shards, live_shards_append, live_shards_append,
      live_shards_map_evolve, h.live, ← live_shards_map_evolve, added_congr applied cmds h.ids]
  · intro k
    rw [mem_ids_apply_commands, mem_ids_apply_commands, h.ids]

/-- **Re-installing one's own snapshot** changes nothing that shows. -/
theorem agree_installed (c : Coordinator) :
    Agree (apply_raft_snapshot c (some (serialize_raft_snapshot c))).g_shards c.g_shards := by
  have hold := live_shards_evolve_inactive 0 [] c.g_shards
  rw [show evolve 0 [] = id from rfl, List.map_id] at hold
  rw [installed_shards]
  constructor
  · rw [live_shards_append, hold, List.nil_append]
    unfold live_shards
    rw [List.filter_filter]
    simp only [Bool.and_self]
  · intro k
    rw [List.map_append, List.map_map, List.mem_append]
    refine ⟨fun hk => hk.elim id (fun hk => ?_), Or.inl⟩
    obtain ⟨sc, hsc, rfl⟩ := List.mem_map.mp hk
    exact List.mem_map_of_mem (mem_live_shards.mp hsc).1

/-! ## A coordinator and its Raft node -/

/-- What happens next: the Raft node delivers the next committed command, or the coordinator
polls. -/
inductive Turn
  | deliver
  | poll (threshold : ℕ)
deriving DecidableEq, Repr

/-- How many commands the Raft node has delivered, snapshot included. -/
def RaftStatus.delivered (st : RaftStatus) : ℕ :=
  st.snapshot_last_index + st.applied_commands.length

/-- One turn; `history` is what the cluster has committed. -/
def turn (history : List Command) (s : Coordinator × RaftStatus) :
    Turn → Option (Coordinator × RaftStatus)
  | .deliver => (history[s.2.delivered]?).map
      (fun cmd => (s.1, { s.2 with applied_commands := s.2.applied_commands ++ [cmd] }))
  | .poll threshold => some (apply_pending_raft_commands threshold s.1 s.2)

section Replay

variable {history : List Command} {m : ℕ} {c₀ : Coordinator}

/-- The status shows the part of the history behind its snapshot. -/
structure Shows (history : List Command) (st : RaftStatus) : Prop where
  bound : st.delivered ≤ history.length
  cmds : st.applied_commands
    = (history.drop st.snapshot_last_index).take st.applied_commands.length

theorem Shows.deliver {st : RaftStatus} (h : Shows history st) {cmd : Command}
    (hcmd : history[st.delivered]? = some cmd) :
    Shows history { st with applied_commands := st.applied_commands ++ [cmd] } := by
  obtain ⟨hlt, -⟩ := List.getElem?_eq_some_iff.mp hcmd
  constructor
  · simp only [RaftStatus.delivered, List.length_append, List.length_singleton] at hlt ⊢
    omega
  · have hnext : (history.drop st.snapshot_last_index)[st.applied_commands.length]? = some cmd := by
      rw [List.getElem?_drop]
      exact hcmd
    rw [List.length_append, List.length_singleton, List.take_add_one, hnext, ← h.cmds]
    rfl

/-- The history up to what is delivered. -/
theorem Shows.take_delivered {st : RaftStatus} (h : Shows history st) :
    history.take st.delivered = history.take st.snapshot_last_index ++ st.applied_commands := by
  rw [RaftStatus.delivered, List.take_add, ← h.cmds]

/-- What is left of the commands after the first `n` is the history from there. -/
theorem Shows.pending {st : RaftStatus} (h : Shows history st) (n : ℕ) :
    st.applied_commands.drop n = (history.drop (st.snapshot_last_index + n)).take
      (st.applied_commands.length - n) := by
  have hdrop := congrArg (List.drop n) h.cmds
  rw [List.drop_take, List.drop_drop] at hdrop
  exact hdrop

/-- After a compaction the status shows the same. -/
theorem Shows.compacted {st : RaftStatus} (h : Shows history st)
    (data : Option (List SnapshotShard)) :
    Shows history ⟨st.delivered, data, []⟩ :=
  ⟨h.bound, rfl⟩

/-- The coordinator holds what the commands from position `m` on make of `c₀`, up to the last
one it has applied. It is level with the snapshot of its Raft node, or has just made one. -/
structure Replays (history : List Command) (m : ℕ) (c₀ : Coordinator)
    (s : Coordinator × RaftStatus) : Prop where
  shows_ : Shows history s.2
  built : s.1.Built
  reached : ∃ k, Agree s.1.g_shards (apply_commands m c₀ ((history.drop m).take k)).g_shards ∧
    ((s.1.g_snapshot_applied_index = s.2.snapshot_last_index ∧
        m + k = s.2.snapshot_last_index + s.1.g_local_applied_count ∧
        s.1.g_local_applied_count ≤ s.2.applied_commands.length) ∨
      (s.1.g_snapshot_applied_index < s.2.snapshot_last_index ∧
        s.2.snapshot_data = some (serialize_raft_snapshot s.1) ∧
        m + k = s.2.snapshot_last_index))

/-- The catch-up makes the coordinator level with the snapshot and shows nothing new. -/
theorem Replays.catch_up {s : Coordinator × RaftStatus} (hs : Replays history m c₀ s) :
    let c₁ := snapshot_catch_up s.1 s.2
    ∃ k, Agree c₁.g_shards (apply_commands m c₀ ((history.drop m).take k)).g_shards ∧
      c₁.g_snapshot_applied_index = s.2.snapshot_last_index ∧
      m + k = s.2.snapshot_last_index + c₁.g_local_applied_count ∧
      c₁.g_local_applied_count ≤ s.2.applied_commands.length := by
  obtain ⟨k, hagree, ⟨hsnap, hk, hcount⟩ | ⟨hsnap, hdata, hk⟩⟩ := hs.reached
  · have hno : ¬ s.2.snapshot_last_index > s.1.g_snapshot_applied_index := by omega
    unfold snapshot_catch_up
    dsimp only
    rw [if_neg hno]
    exact ⟨k, hagree, hsnap, hk, hcount⟩
  · unfold snapshot_catch_up
    dsimp only
    rw [if_pos hsnap, hdata]
    exact ⟨k, (agree_installed s.1).trans hagree, rfl, hk, Nat.zero_le _⟩

/-- **One poll** brings the coordinator up to what is delivered. -/
theorem Replays.poll {s : Coordinator × RaftStatus} (hs : Replays history m c₀ s)
    (threshold : ℕ) :
    let s' := apply_pending_raft_commands threshold s.1 s.2
    Replays history m c₀ s' ∧ s'.2.delivered = s.2.delivered ∧
      ∃ k, m + k = s.2.delivered ∧
        Agree s'.1.g_shards (apply_commands m c₀ ((history.drop m).take k)).g_shards := by
  obtain ⟨k, hagree, hsnap, hk, hcount⟩ := hs.catch_up
  have hpoll := polled threshold s.1 s.2 hcount
  have hbound := hs.shows_.bound
  have hbuilt := hpoll.built (built_catch_up hs.built s.2)
  generalize snapshot_catch_up s.1 s.2 = c₁ at hagree hsnap hk hcount hpoll
  intro s'
  -- the pending commands continue the ones replayed so far
  have hpending :
      (history.drop m).take (k + (s.2.applied_commands.length - c₁.g_local_applied_count))
      = (history.drop m).take k ++ s.2.applied_commands.drop c₁.g_local_applied_count := by
    rw [List.take_add, List.drop_drop, hk, hs.shows_.pending]
  have hlength : ((history.drop m).take k).length = k := by
    rw [List.length_take, List.length_drop]
    unfold RaftStatus.delivered at hbound
    omega
  have hreached : Agree s'.1.g_shards (apply_commands m c₀ ((history.drop m).take
      (k + (s.2.applied_commands.length - c₁.g_local_applied_count)))).g_shards := by
    rw [hpoll.shards, hpending, apply_commands_append, hlength, hk]
    exact hagree.apply_commands _ _
  have hend : m + (k + (s.2.applied_commands.length - c₁.g_local_applied_count))
      = s.2.delivered := by
    unfold RaftStatus.delivered
    omega
  have hsnap' : s'.1.g_snapshot_applied_index = s.2.snapshot_last_index :=
    hpoll.snapshot.trans hsnap
  rcases hpoll.status with ⟨hst, hcnt⟩ | ⟨hpos, hcnt, hst⟩
  · have hst' : s'.2 = s.2 := hst
    have hcnt' : s'.1.g_local_applied_count = s.2.applied_commands.length := hcnt
    refine ⟨⟨?_, hbuilt, _, hreached, Or.inl ⟨?_, ?_, ?_⟩⟩, ?_, _, hend, hreached⟩
    · rw [hst']
      exact hs.shows_
    · rw [hst', hsnap']
    · rw [hst', hcnt', hend]
      rfl
    · rw [hst', hcnt']
    · rw [hst']
  · have hst' : s'.2 = ⟨s.2.delivered, some (serialize_raft_snapshot s'.1), []⟩ := hst
    refine ⟨⟨?_, hbuilt, _, hreached, Or.inr ⟨?_, ?_, ?_⟩⟩, ?_, _, hend, hreached⟩
    · rw [hst']
      exact hs.shows_.compacted _
    · rw [hst', hsnap']
      exact Nat.lt_add_of_pos_right hpos
    · rw [hst']
    · rw [hst', hend]
    · rw [hst']
      rfl

/-- **Any schedule** of deliveries and polls goes through, as long as there is something to
deliver, and keeps the coordinator on the replayed commands. -/
theorem run_replays (turns : List Turn) :
    ∀ s, Replays history m c₀ s → s.2.delivered + turns.count .deliver ≤ history.length →
      ∃ s', Trace.run (turn history) s turns = some s' ∧ Replays history m c₀ s' ∧
        s'.2.delivered = s.2.delivered + turns.count .deliver := by
  -- a delivery only lengthens the queue; the property moves with the polls
  induction turns with
  | nil =>
      intro s hs _
      exact ⟨s, rfl, hs, rfl⟩
  | cons t turns ih =>
      intro s hs hle
      cases t with
      | deliver =>
          rw [List.count_cons_self] at hle ⊢
          obtain ⟨cmd, hcmd⟩ : ∃ cmd, history[s.2.delivered]? = some cmd :=
            ⟨_, List.getElem?_eq_getElem (by omega)⟩
          have hs' : Replays history m c₀
              (s.1, { s.2 with applied_commands := s.2.applied_commands ++ [cmd] }) := by
            obtain ⟨k, hagree, hpos⟩ := hs.reached
            refine ⟨hs.shows_.deliver hcmd, hs.built, k, hagree, hpos.imp (fun h => ?_) id⟩
            refine ⟨h.1, h.2.1, ?_⟩
            rw [List.length_append]
            exact Nat.le_add_right_of_le h.2.2
          have hdel : RaftStatus.delivered
              { s.2 with applied_commands := s.2.applied_commands ++ [cmd] }
              = s.2.delivered + 1 := by
            simp [RaftStatus.delivered, Nat.add_assoc]
          obtain ⟨s', hrun, hs'', hd⟩ := ih _ hs' (by rw [hdel]; omega)
          refine ⟨s', ?_, hs'', ?_⟩
          · rw [Trace.run_cons, turn, hcmd]
            exact hrun
          · rw [hd, hdel]
            omega
      | poll threshold =>
          rw [List.count_cons_of_ne (by simp)] at hle ⊢
          obtain ⟨hs', hd, -⟩ := hs.poll threshold
          obtain ⟨s', hrun, hs'', hd'⟩ := ih _ hs' (by rw [hd]; exact hle)
          exact ⟨s', hrun, hs'', by rw [hd', hd]⟩

end Replay

end NanoDB.Coord
