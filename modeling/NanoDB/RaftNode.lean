/-
`cluster/raft_node.hpp`: one Raft node, one definition for each critical section.

Every handler of the source runs under the node's mutex, so a handler is a function
from the node to the node and the reply. Where the source releases the mutex in the
middle of a function (the vote collection in `start_election`, the two lock scopes
and the RPC in `send_append_entries_to_peer`) the function is split there, and the
interleavings are those of `RaftCluster`. Deadlines, threads and channels are not
part of the node; a peer is its id.

A function that applies committed entries also returns what it applied, as pairs of
log index and command. That record is only for stating what a node has applied: the
code itself keeps `applied_commands`, which drops empty commands and so does not
determine the index.
-/
import NanoDB.RaftLog
import Mathlib.Data.List.Sort

set_option autoImplicit false

namespace NanoDB.Raft

/-- `enum class Role`. -/
inductive Role
  | Follower
  | Candidate
  | Leader
deriving DecidableEq, Repr, Inhabited

/-- `PersistentState` (`cluster/raft_state.hpp`), in memory: `voted_for` is `-1` when no
vote was cast in `current_term`. -/
structure PersistentState where
  current_term : ℕ := 0
  voted_for : ℤ := -1
deriving DecidableEq, Repr, Inhabited

/-! ## Messages of `proto/raft.proto` -/

structure RequestVoteRequest where
  term : ℕ
  candidate_id : ℤ
  last_log_index : ℕ
  last_log_term : ℕ
deriving DecidableEq, Repr

structure RequestVoteResponse where
  term : ℕ
  vote_granted : Bool
deriving DecidableEq, Repr

/-- The `index` of each entry is sent but read by nobody, so it is left out. -/
structure AppendEntriesRequest where
  term : ℕ
  leader_id : ℤ
  prev_log_index : ℕ
  prev_log_term : ℕ
  entries : List PersistedEntry
  leader_commit : ℕ
deriving DecidableEq, Repr

structure AppendEntriesResponse where
  term : ℕ
  success : Bool
deriving DecidableEq, Repr

structure InstallSnapshotRequest where
  term : ℕ
  leader_id : ℤ
  last_included_index : ℕ
  last_included_term : ℕ
  data : Bytes
deriving DecidableEq, Repr

structure InstallSnapshotResponse where
  term : ℕ
deriving DecidableEq, Repr

/-! ## The node -/

/-- `RaftNode`. `next_index` and `match_index` are `std::map<int, uint64_t>` read with
`operator[]`, so an absent key reads as `0`; on a leader their keys are the stubs. -/
structure RaftNode where
  node_id : ℤ
  peers : List ℤ
  state : PersistentState := {}
  log : RaftLog := {}
  role : Role := .Follower
  leader_id : ℤ := -1
  commit_index : ℕ := 0
  last_applied : ℕ := 0
  applied_commands : List Bytes := []
  next_index : ℤ → ℕ := fun _ => 0
  match_index : ℤ → ℕ := fun _ => 0

/-- The keys of `stubs_`: every peer but the node itself. -/
def RaftNode.stubs (n : RaftNode) : List ℤ := (n.peers.filter (fun p => p ≠ n.node_id)).dedup

/-- The constructor, on the contents of the two files. -/
def RaftNode.open_files (node_id : ℤ) (peers : List ℤ) (state : PersistentState)
    (log : RaftLog) : RaftNode :=
  { node_id := node_id
    peers := peers
    state := state
    log := log
    last_applied := log.snapshot_last_index
    commit_index := log.snapshot_last_index }

/-- What a restart keeps: the persisted term, vote and log. -/
def RaftNode.restart (n : RaftNode) : RaftNode :=
  RaftNode.open_files n.node_id n.peers n.state n.log

/-! ## Committing -/

/-- `compute_new_commit_index`. `match_index` is the list of the map's values. -/
def compute_new_commit_index (leader_last_index : ℕ) (match_index : List ℕ) (cluster_size : ℕ)
    (current_commit_index current_term : ℕ) (term_at : ℕ → ℕ) : ℕ :=
  let match_values := (leader_last_index :: match_index).insertionSort (· ≥ ·)
  let majority := cluster_size / 2 + 1
  let candidate_n := match_values.getD (majority - 1) 0
  if candidate_n > current_commit_index ∧ term_at candidate_n = current_term then candidate_n
  else current_commit_index

/-- The loop of `apply_committed_entries_locked`, for `k` more entries. -/
def apply_loop : ℕ → RaftNode → RaftNode × List (ℕ × Bytes)
  | 0, n => (n, [])
  | k + 1, n =>
      let last_applied := n.last_applied + 1
      let cmd := n.log.command_at last_applied
      let n' := { n with
        last_applied := last_applied
        -- an empty command is not queued
        applied_commands := if cmd = [] then n.applied_commands else n.applied_commands ++ [cmd] }
      let rest := apply_loop k n'
      (rest.1, (last_applied, cmd) :: rest.2)

def apply_committed_entries_locked (n : RaftNode) : RaftNode × List (ℕ × Bytes) :=
  apply_loop (n.commit_index - n.last_applied) n

def advance_commit_index_locked (n : RaftNode) : RaftNode × List (ℕ × Bytes) :=
  let new_commit := compute_new_commit_index n.log.last_index (n.stubs.map n.match_index)
    n.peers.length n.commit_index n.state.current_term n.log.term_at
  if new_commit > n.commit_index then
    apply_committed_entries_locked { n with commit_index := new_commit }
  else (n, [])

/-! ## RPC handlers -/

def become_follower_locked (n : RaftNode) (new_term : ℕ) : RaftNode :=
  { n with state := ⟨new_term, -1⟩, role := .Follower }

/-- The first line of every handler. -/
def observe_term (n : RaftNode) (term : ℕ) : RaftNode :=
  if term > n.state.current_term then become_follower_locked n term else n

def handle_request_vote (n : RaftNode) (req : RequestVoteRequest) :
    RaftNode × RequestVoteResponse :=
  let n := observe_term n req.term
  let term := n.state.current_term
  if req.term < term then (n, ⟨term, false⟩)
  else
    let can_vote := n.state.voted_for = -1 ∨ n.state.voted_for = req.candidate_id
    let log_ok := req.last_log_term > n.log.last_term ∨
      (req.last_log_term = n.log.last_term ∧ req.last_log_index ≥ n.log.last_index)
    if can_vote ∧ log_ok then
      ({ n with state := ⟨term, req.candidate_id⟩ }, ⟨term, true⟩)
    else (n, ⟨term, false⟩)

/-- The consistency check on `prev_log_index`: skipped for `0` and for an index the
snapshot covers. -/
def prev_ok (l : RaftLog) (req : AppendEntriesRequest) : Bool :=
  if req.prev_log_index > 0 ∧ req.prev_log_index > l.snapshot_last_index then
    l.has_real_entry_at req.prev_log_index && l.term_at req.prev_log_index = req.prev_log_term
  else true

/-- Storing the entries of an accepted `AppendEntries`; a heartbeat stores nothing. -/
def store_entries (n : RaftNode) (req : AppendEntriesRequest) : RaftNode :=
  if req.entries = [] then n
  else { n with log := n.log.truncate_and_append req.prev_log_index req.entries }

/-- Following the leader's commit index at the end of an accepted `AppendEntries`. -/
def follow_commit (n : RaftNode) (leader_commit : ℕ) : RaftNode × List (ℕ × Bytes) :=
  if leader_commit > n.commit_index then
    apply_committed_entries_locked { n with commit_index := min leader_commit n.log.last_index }
  else (n, [])

def handle_append_entries (n : RaftNode) (req : AppendEntriesRequest) :
    RaftNode × AppendEntriesResponse × List (ℕ × Bytes) :=
  let n := observe_term n req.term
  let term := n.state.current_term
  if req.term < term then (n, ⟨term, false⟩, [])
  else
    let n := { n with role := .Follower, leader_id := req.leader_id }
    if prev_ok n.log req then
      let r := follow_commit (store_entries n req) req.leader_commit
      (r.1, ⟨term, true⟩, r.2)
    else (n, ⟨term, false⟩, [])

def handle_install_snapshot (n : RaftNode) (req : InstallSnapshotRequest) :
    RaftNode × InstallSnapshotResponse :=
  let n := observe_term n req.term
  let term := n.state.current_term
  if req.term < term then (n, ⟨term⟩)
  else
    let n := { n with role := .Follower, leader_id := req.leader_id }
    if req.last_included_index ≤ n.log.snapshot_last_index then (n, ⟨term⟩)
    else
      let old_snap := n.log.snapshot_last_index
      let new_snap := req.last_included_index
      let trim_count := min (new_snap - old_snap) n.applied_commands.length
      ({ n with
          applied_commands := n.applied_commands.drop trim_count
          last_applied := if new_snap > n.last_applied then new_snap else n.last_applied
          commit_index := if new_snap > n.commit_index then new_snap else n.commit_index
          log := n.log.compact new_snap req.last_included_term req.data }, ⟨term⟩)

/-- `RaftNode::compact`, called by the coordinator. -/
def compact (n : RaftNode) (up_to_index : ℕ) (snapshot_data : Bytes) : RaftNode × Bool :=
  if up_to_index ≤ n.log.snapshot_last_index then (n, false)
  else if up_to_index > n.last_applied then (n, false)
  else
    let trim_count := up_to_index - n.log.snapshot_last_index
    if trim_count > n.applied_commands.length then (n, false)
    else
      ({ n with
          applied_commands := n.applied_commands.drop trim_count
          log := n.log.compact up_to_index (n.log.term_at up_to_index) snapshot_data }, true)

/-! ## The leader's side, one definition a lock scope -/

/-- The first lock scope of `propose`; `none` when the node is not the leader. -/
def propose (n : RaftNode) (command : Bytes) : Option (RaftNode × List (ℕ × Bytes)) :=
  if n.role = .Leader then
    some (advance_commit_index_locked
      { n with log := n.log.append n.state.current_term command })
  else none

/-- The first lock scope of `start_election`. -/
def start_election (n : RaftNode) : RaftNode :=
  { n with
    state := ⟨n.state.current_term + 1, n.node_id⟩
    role := .Candidate
    leader_id := -1 }

/-- The request of the first lock scope of `start_election`, sent to every stub. -/
def election_request (n : RaftNode) : RequestVoteRequest :=
  { term := n.state.current_term
    candidate_id := n.node_id
    last_log_index := n.log.last_index
    last_log_term := n.log.last_term }

/-- A vote reply in the lambda of `start_election`: the node and whether the future
resolves to `true`. -/
def on_vote_reply (n : RaftNode) (election_term : ℕ) (resp : RequestVoteResponse) :
    RaftNode × Bool :=
  if resp.term > election_term then (observe_term n resp.term, false)
  else (n, resp.vote_granted)

/-- What a candidate that has counted a majority becomes. -/
def RaftNode.elected (n : RaftNode) : RaftNode :=
  let next := n.log.last_index + 1
  { n with
    role := .Leader
    leader_id := n.node_id
    next_index := fun p => if p ∈ n.stubs then next else 0
    match_index := fun _ => 0 }

/-- The last lock scope of `start_election`. -/
def finish_election (n : RaftNode) (election_term votes : ℕ) : RaftNode :=
  let majority := n.peers.length / 2 + 1
  if n.role = .Candidate ∧ n.state.current_term = election_term ∧ votes ≥ majority then n.elected
  else n

/-- What the first lock scope of `send_append_entries_to_peer` decides. -/
inductive SendCheck
  | give_up
  | snapshot (req : InstallSnapshotRequest)
  | entries
deriving DecidableEq, Repr

def send_check (n : RaftNode) (term next_idx : ℕ) : SendCheck :=
  let prev_log_index := next_idx - 1
  if n.role ≠ .Leader ∨ n.state.current_term ≠ term then .give_up
  else if prev_log_index < n.log.snapshot_last_index then
    .snapshot
      { term := term
        leader_id := n.node_id
        last_included_index := n.log.snapshot_last_index
        last_included_term := n.log.snapshot_last_term
        data := n.log.snapshot_data }
  else .entries

/-- The entries of the request, index by index from `next_idx` to `last_index`. -/
def entries_from (l : RaftLog) (next_idx : ℕ) : List PersistedEntry :=
  (List.range' next_idx (l.last_index + 1 - next_idx)).map
    (fun i => ⟨l.term_at i, l.command_at i⟩)

/-- The second lock scope of `send_append_entries_to_peer`: the request put on the wire. -/
def build_append_entries (n : RaftNode) (term next_idx : ℕ) : Option AppendEntriesRequest :=
  let prev_log_index := next_idx - 1
  if n.role ≠ .Leader ∨ n.state.current_term ≠ term then none
  else
    some
      { term := term
        leader_id := n.node_id
        prev_log_index := prev_log_index
        prev_log_term := n.log.term_at prev_log_index
        entries := entries_from n.log next_idx
        leader_commit := n.commit_index }

/-- The lock scope after the `AppendEntries` reply. -/
def on_append_reply (n : RaftNode) (peer : ℤ) (req : AppendEntriesRequest)
    (resp : AppendEntriesResponse) : RaftNode × List (ℕ × Bytes) :=
  if resp.term > n.state.current_term then (become_follower_locked n resp.term, [])
  else if n.role ≠ .Leader ∨ n.state.current_term ≠ req.term then (n, [])
  else if resp.success then
    let new_match := req.prev_log_index + req.entries.length
    advance_commit_index_locked
      { n with
        match_index :=
          if new_match > n.match_index peer then Function.update n.match_index peer new_match
          else n.match_index
        next_index := Function.update n.next_index peer (new_match + 1) }
  else if n.next_index peer > 1 then
    ({ n with next_index := Function.update n.next_index peer (n.next_index peer - 1) }, [])
  else (n, [])

/-- The lock scope after the `InstallSnapshot` reply. -/
def on_snapshot_reply (n : RaftNode) (peer : ℤ) (req : InstallSnapshotRequest)
    (resp : InstallSnapshotResponse) : RaftNode :=
  if resp.term > n.state.current_term then become_follower_locked n resp.term
  else if n.role ≠ .Leader ∨ n.state.current_term ≠ req.term then n
  else if req.last_included_index > n.match_index peer then
    { n with
      match_index := Function.update n.match_index peer req.last_included_index
      next_index := Function.update n.next_index peer (req.last_included_index + 1) }
  else n

/-! ## What the handlers leave alone

The mutating helpers touch few fields; these equations say which, so that no proof
about a cluster has to unfold a loop. -/

/-- Applying `k` entries moves `last_applied` and the queue of commands only. -/
theorem apply_loop_fst (k : ℕ) : ∀ n : RaftNode, ∃ cmds, (apply_loop k n).1
    = { n with last_applied := n.last_applied + k, applied_commands := cmds } := by
  induction k with
  | zero => intro n; exact ⟨n.applied_commands, rfl⟩
  | succ k ih =>
      intro n
      obtain ⟨cmds, hcmds⟩ := ih
        { n with
          last_applied := n.last_applied + 1
          applied_commands := if n.log.command_at (n.last_applied + 1) = [] then n.applied_commands
            else n.applied_commands ++ [n.log.command_at (n.last_applied + 1)] }
      refine ⟨cmds, ?_⟩
      rw [apply_loop, hcmds, Nat.add_assoc, Nat.add_comm 1 k]

/-- It applies the next `k` indices, each with the command the log has there. -/
theorem apply_loop_snd (k : ℕ) : ∀ n : RaftNode, (apply_loop k n).2
    = (List.range' (n.last_applied + 1) k).map (fun i => (i, n.log.command_at i)) := by
  induction k with
  | zero => intro n; rfl
  | succ k ih =>
      intro n
      rw [apply_loop, List.range'_succ, List.map_cons]
      dsimp only
      rw [ih]

/-- It queues the commands of those indices, the empty ones left out. -/
theorem apply_loop_queue (k : ℕ) : ∀ n : RaftNode, (apply_loop k n).1.applied_commands
    = n.applied_commands ++
      ((List.range' (n.last_applied + 1) k).map n.log.command_at).filter (fun c => c ≠ []) := by
  induction k with
  | zero => intro n; simp [apply_loop]
  | succ k ih =>
      intro n
      rw [apply_loop, List.range'_succ, List.map_cons]
      dsimp only
      rw [ih]
      dsimp only
      by_cases hcmd : n.log.command_at (n.last_applied + 1) = []
      · simp [hcmd]
      · simp [hcmd]

theorem apply_committed_fst (n : RaftNode) : ∃ cmds, (apply_committed_entries_locked n).1
    = { n with last_applied := max n.last_applied n.commit_index, applied_commands := cmds } := by
  obtain ⟨cmds, hcmds⟩ := apply_loop_fst (n.commit_index - n.last_applied) n
  refine ⟨cmds, ?_⟩
  rw [apply_committed_entries_locked, hcmds,
    show n.last_applied + (n.commit_index - n.last_applied)
      = max n.last_applied n.commit_index by omega]

/-- Every newly applied pair carries an index up to the commit index and the log's
command there. -/
theorem mem_apply_committed {n : RaftNode} {i : ℕ} {c : Bytes}
    (h : (i, c) ∈ (apply_committed_entries_locked n).2) :
    n.last_applied < i ∧ i ≤ n.commit_index ∧ c = n.log.command_at i := by
  rw [apply_committed_entries_locked, apply_loop_snd, List.mem_map] at h
  obtain ⟨j, hj, hjc⟩ := h
  obtain ⟨rfl, rfl⟩ := Prod.mk.inj hjc
  rw [List.mem_range'_1] at hj
  exact ⟨by omega, by omega, rfl⟩

/-- The new commit index of `advance_commit_index_locked`. -/
def RaftNode.new_commit (n : RaftNode) : ℕ :=
  compute_new_commit_index n.log.last_index (n.stubs.map n.match_index)
    n.peers.length n.commit_index n.state.current_term n.log.term_at

theorem advance_commit_cases (n : RaftNode) :
    advance_commit_index_locked n = (n, []) ∨
    (n.commit_index < n.new_commit ∧
      advance_commit_index_locked n
        = apply_committed_entries_locked { n with commit_index := n.new_commit }) := by
  have hdef : advance_commit_index_locked n = if n.new_commit > n.commit_index then
      apply_committed_entries_locked { n with commit_index := n.new_commit } else (n, []) := rfl
  rw [hdef]
  by_cases h : n.new_commit > n.commit_index
  · rw [if_pos h]
    exact Or.inr ⟨h, rfl⟩
  · rw [if_neg h]
    exact Or.inl rfl

/-- Advancing the commit index touches neither identity, term, vote, role, log nor the
leader's bookkeeping. -/
theorem advance_commit_fst (n : RaftNode) : ∃ c a cmds, (advance_commit_index_locked n).1
    = { n with commit_index := c, last_applied := a, applied_commands := cmds } := by
  rcases advance_commit_cases n with h | ⟨-, h⟩
  · rw [h]
    exact ⟨n.commit_index, n.last_applied, n.applied_commands, rfl⟩
  · rw [h]
    obtain ⟨cmds, hcmds⟩ := apply_committed_fst { n with commit_index := n.new_commit }
    exact ⟨_, _, cmds, hcmds⟩

/-! ## The outcomes of the handlers -/

theorem observe_term_log (n : RaftNode) (t : ℕ) : (observe_term n t).log = n.log := by
  rw [observe_term]
  split <;> rfl

theorem observe_term_commit (n : RaftNode) (t : ℕ) :
    (observe_term n t).commit_index = n.commit_index := by
  rw [observe_term]
  split <;> rfl

/-- Between `n` and `n'` neither the log nor what was committed and applied has moved. -/
structure Unmoved (n n' : RaftNode) : Prop where
  log : n'.log = n.log
  commit : n'.commit_index = n.commit_index
  applied : n'.last_applied = n.last_applied
  queue : n'.applied_commands = n.applied_commands

theorem Unmoved.refl (n : RaftNode) : Unmoved n n := ⟨rfl, rfl, rfl, rfl⟩

theorem unmoved_observe_term (n : RaftNode) (t : ℕ) : Unmoved n (observe_term n t) := by
  rw [observe_term]
  split
  · exact ⟨rfl, rfl, rfl, rfl⟩
  · exact Unmoved.refl n

theorem unmoved_on_vote_reply (n : RaftNode) (t : ℕ) (resp : RequestVoteResponse) :
    Unmoved n (on_vote_reply n t resp).1 := by
  rw [on_vote_reply]
  split
  · exact unmoved_observe_term n resp.term
  · exact Unmoved.refl n

theorem observe_term_term (n : RaftNode) (t : ℕ) :
    (observe_term n t).state.current_term = max n.state.current_term t := by
  rw [observe_term]
  split
  · simp only [become_follower_locked]
    omega
  · omega

/-- Past the handlers' first check the node is in the term of the request. -/
theorem observe_term_of_not_lt {n : RaftNode} {t : ℕ}
    (h : ¬ t < (observe_term n t).state.current_term) :
    (observe_term n t).state.current_term = t := by
  rw [observe_term_term] at h ⊢
  omega

/-- A request is refused for its term, refused by the log, or granted. -/
theorem handle_request_vote_cases (n : RaftNode) (req : RequestVoteRequest) :
    (∃ resp, handle_request_vote n req = (observe_term n req.term, resp) ∧
      resp.vote_granted = false) ∨
    ((observe_term n req.term).state.current_term = req.term ∧
      ((observe_term n req.term).state.voted_for = -1 ∨
        (observe_term n req.term).state.voted_for = req.candidate_id) ∧
      (req.last_log_term > n.log.last_term ∨
        (req.last_log_term = n.log.last_term ∧ req.last_log_index ≥ n.log.last_index)) ∧
      handle_request_vote n req
        = ({ observe_term n req.term with
              state := ⟨(observe_term n req.term).state.current_term, req.candidate_id⟩ },
            ⟨(observe_term n req.term).state.current_term, true⟩)) := by
  rw [handle_request_vote]
  dsimp only
  by_cases hold : req.term < (observe_term n req.term).state.current_term
  · rw [if_pos hold]
    exact Or.inl ⟨_, rfl, rfl⟩
  · rw [if_neg hold, observe_term_log]
    have hterm := observe_term_of_not_lt hold
    -- free to vote, and the candidate's log is not behind
    by_cases hok : ((observe_term n req.term).state.voted_for = -1 ∨
        (observe_term n req.term).state.voted_for = req.candidate_id) ∧
      (req.last_log_term > n.log.last_term ∨
        (req.last_log_term = n.log.last_term ∧ req.last_log_index ≥ n.log.last_index))
    · rw [if_pos hok]
      exact Or.inr ⟨hterm, hok.1, hok.2, rfl⟩
    · rw [if_neg hok]
      exact Or.inl ⟨_, rfl, rfl⟩

theorem unmoved_request_vote (n : RaftNode) (req : RequestVoteRequest) :
    Unmoved n (handle_request_vote n req).1 := by
  have hu := unmoved_observe_term n req.term
  rcases handle_request_vote_cases n req with ⟨_, heq, -⟩ | ⟨-, -, -, heq⟩
  · rw [heq]
    exact hu
  · rw [heq]
    exact ⟨hu.log, hu.commit, hu.applied, hu.queue⟩

/-- Following a commit index moves the commit index, `last_applied` and the queue only,
and applies indices up to the new commit index. -/
theorem follow_commit_spec (n : RaftNode) (leader_commit : ℕ) :
    ∃ a cmds,
      (follow_commit n leader_commit).1
        = { n with
            commit_index := if leader_commit > n.commit_index
              then min leader_commit n.log.last_index else n.commit_index
            last_applied := a
            applied_commands := cmds } ∧
      a = (if leader_commit > n.commit_index
        then max n.last_applied (min leader_commit n.log.last_index) else n.last_applied) ∧
      ∀ i c, (i, c) ∈ (follow_commit n leader_commit).2 →
        leader_commit > n.commit_index ∧ n.last_applied < i ∧
          i ≤ min leader_commit n.log.last_index ∧ c = n.log.command_at i := by
  rw [follow_commit]
  by_cases h : leader_commit > n.commit_index
  · rw [if_pos h, if_pos h, if_pos h]
    obtain ⟨cmds, hcmds⟩ := apply_committed_fst
      { n with commit_index := min leader_commit n.log.last_index }
    refine ⟨_, cmds, hcmds, rfl, fun i c hic => ?_⟩
    have hmem := mem_apply_committed hic
    exact ⟨h, hmem.1, hmem.2.1, hmem.2.2⟩
  · rw [if_neg h, if_neg h, if_neg h]
    refine ⟨n.last_applied, n.applied_commands, rfl, rfl, fun i c hic => ?_⟩
    simp at hic

/-- An `AppendEntries` is refused for its term, refused by the consistency check, or
accepted. -/
theorem handle_append_entries_cases (n : RaftNode) (req : AppendEntriesRequest) :
    (∃ resp, handle_append_entries n req = (observe_term n req.term, resp, []) ∧
      resp.success = false) ∨
    ((observe_term n req.term).state.current_term = req.term ∧ ∃ resp,
      handle_append_entries n req
        = ({ observe_term n req.term with role := .Follower, leader_id := req.leader_id },
            resp, []) ∧ resp.success = false) ∨
    ((observe_term n req.term).state.current_term = req.term ∧ prev_ok n.log req = true ∧
      handle_append_entries n req
        = ((follow_commit (store_entries
              { observe_term n req.term with role := .Follower, leader_id := req.leader_id } req)
            req.leader_commit).1, ⟨req.term, true⟩,
          (follow_commit (store_entries
              { observe_term n req.term with role := .Follower, leader_id := req.leader_id } req)
            req.leader_commit).2)) := by
  rw [handle_append_entries]
  dsimp only
  by_cases hold : req.term < (observe_term n req.term).state.current_term
  · rw [if_pos hold]
    exact Or.inl ⟨_, rfl, rfl⟩
  · rw [if_neg hold]
    have hterm := observe_term_of_not_lt hold
    -- in the term of the request: the previous entry decides
    by_cases hprev : prev_ok (observe_term n req.term).log req = true
    · rw [if_pos hprev, hterm]
      rw [observe_term_log] at hprev
      exact Or.inr (Or.inr ⟨rfl, hprev, rfl⟩)
    · rw [if_neg hprev]
      exact Or.inr (Or.inl ⟨hterm, _, rfl, rfl⟩)

/-- An `InstallSnapshot` is refused for its term, old news, or installed. -/
theorem handle_install_snapshot_cases (n : RaftNode) (req : InstallSnapshotRequest) :
    (req.term < (observe_term n req.term).state.current_term ∧
      handle_install_snapshot n req
        = (observe_term n req.term, ⟨(observe_term n req.term).state.current_term⟩)) ∨
    ((observe_term n req.term).state.current_term = req.term ∧
      req.last_included_index ≤ n.log.snapshot_last_index ∧
      handle_install_snapshot n req
        = ({ observe_term n req.term with role := .Follower, leader_id := req.leader_id },
            ⟨req.term⟩)) ∨
    ((observe_term n req.term).state.current_term = req.term ∧
      n.log.snapshot_last_index < req.last_included_index ∧
      handle_install_snapshot n req
        = ({ observe_term n req.term with
              role := .Follower
              leader_id := req.leader_id
              applied_commands := (observe_term n req.term).applied_commands.drop
                (min (req.last_included_index - n.log.snapshot_last_index)
                  (observe_term n req.term).applied_commands.length)
              last_applied := if req.last_included_index > (observe_term n req.term).last_applied
                then req.last_included_index else (observe_term n req.term).last_applied
              commit_index := if req.last_included_index > n.commit_index
                then req.last_included_index else n.commit_index
              log := n.log.compact req.last_included_index req.last_included_term req.data },
            ⟨req.term⟩)) := by
  rw [handle_install_snapshot]
  dsimp only
  by_cases hold : req.term < (observe_term n req.term).state.current_term
  · rw [if_pos hold]
    exact Or.inl ⟨hold, rfl⟩
  · rw [if_neg hold, observe_term_log, observe_term_commit]
    have hterm := observe_term_of_not_lt hold
    by_cases hnews : req.last_included_index ≤ n.log.snapshot_last_index
    · rw [if_pos hnews, hterm]
      exact Or.inr (Or.inl ⟨rfl, hnews, rfl⟩)
    · rw [if_neg hnews, hterm]
      exact Or.inr (Or.inr ⟨rfl, Nat.lt_of_not_le hnews, rfl⟩)

/-- `compact` refuses, or cuts the log and the queue of commands. -/
theorem compact_cases (n : RaftNode) (up_to_index : ℕ) (snapshot_data : Bytes) :
    compact n up_to_index snapshot_data = (n, false) ∨
    (n.log.snapshot_last_index < up_to_index ∧ up_to_index ≤ n.last_applied ∧
      up_to_index - n.log.snapshot_last_index ≤ n.applied_commands.length ∧
      compact n up_to_index snapshot_data
        = ({ n with
              applied_commands := n.applied_commands.drop
                (up_to_index - n.log.snapshot_last_index)
              log := n.log.compact up_to_index (n.log.term_at up_to_index) snapshot_data },
            true)) := by
  rw [compact]
  dsimp only
  -- the three guards of the source, in its order
  by_cases hsnap : up_to_index ≤ n.log.snapshot_last_index
  · rw [if_pos hsnap]
    exact Or.inl rfl
  rw [if_neg hsnap]
  by_cases hlast : up_to_index > n.last_applied
  · rw [if_pos hlast]
    exact Or.inl rfl
  rw [if_neg hlast]
  by_cases hcount : up_to_index - n.log.snapshot_last_index > n.applied_commands.length
  · rw [if_pos hcount]
    exact Or.inl rfl
  · rw [if_neg hcount]
    exact Or.inr ⟨by omega, by omega, by omega, rfl⟩

/-- The node after a positive `AppendEntries` reply, before the commit index is advanced. -/
def RaftNode.matched (n : RaftNode) (peer : ℤ) (new_match : ℕ) : RaftNode :=
  { n with
    match_index :=
      if new_match > n.match_index peer then Function.update n.match_index peer new_match
      else n.match_index
    next_index := Function.update n.next_index peer (new_match + 1) }

/-- An `AppendEntries` reply ends the leadership, is stale, moves `match_index` forward, or
moves `next_index` back. -/
theorem on_append_reply_cases (n : RaftNode) (peer : ℤ) (req : AppendEntriesRequest)
    (resp : AppendEntriesResponse) :
    (n.state.current_term < resp.term ∧
      on_append_reply n peer req resp = (become_follower_locked n resp.term, [])) ∨
    on_append_reply n peer req resp = (n, []) ∨
    (n.role = .Leader ∧ n.state.current_term = req.term ∧ resp.success = true ∧
      on_append_reply n peer req resp = advance_commit_index_locked
        (n.matched peer (req.prev_log_index + req.entries.length))) ∨
    (n.role = .Leader ∧ 1 < n.next_index peer ∧
      on_append_reply n peer req resp = ({ n with
        next_index := Function.update n.next_index peer (n.next_index peer - 1) }, [])) := by
  rw [on_append_reply]
  dsimp only
  -- the early returns of the source, in its order
  by_cases hterm : resp.term > n.state.current_term
  · rw [if_pos hterm]
    exact Or.inl ⟨hterm, rfl⟩
  rw [if_neg hterm]
  by_cases hlead : n.role ≠ .Leader ∨ n.state.current_term ≠ req.term
  · rw [if_pos hlead]
    exact Or.inr (Or.inl rfl)
  rw [if_neg hlead]
  rw [not_or, not_not, not_not] at hlead
  by_cases hok : resp.success = true
  · rw [if_pos hok]
    exact Or.inr (Or.inr (Or.inl ⟨hlead.1, hlead.2, hok, rfl⟩))
  rw [if_neg hok]
  by_cases hnext : n.next_index peer > 1
  · rw [if_pos hnext]
    exact Or.inr (Or.inr (Or.inr ⟨hlead.1, hnext, rfl⟩))
  · rw [if_neg hnext]
    exact Or.inr (Or.inl rfl)

/-- A snapshot reply ends the leadership, is stale or old news, or moves `match_index`. -/
theorem on_snapshot_reply_cases (n : RaftNode) (peer : ℤ) (req : InstallSnapshotRequest)
    (resp : InstallSnapshotResponse) :
    (n.state.current_term < resp.term ∧
      on_snapshot_reply n peer req resp = become_follower_locked n resp.term) ∨
    on_snapshot_reply n peer req resp = n ∨
    (n.role = .Leader ∧ n.state.current_term = req.term ∧ resp.term ≤ req.term ∧
      on_snapshot_reply n peer req resp = n.matched peer req.last_included_index) := by
  rw [on_snapshot_reply]
  by_cases hterm : resp.term > n.state.current_term
  · rw [if_pos hterm]
    exact Or.inl ⟨hterm, rfl⟩
  rw [if_neg hterm]
  by_cases hlead : n.role ≠ .Leader ∨ n.state.current_term ≠ req.term
  · rw [if_pos hlead]
    exact Or.inr (Or.inl rfl)
  rw [if_neg hlead]
  rw [not_or, not_not, not_not] at hlead
  by_cases hnew : req.last_included_index > n.match_index peer
  · rw [if_pos hnew, RaftNode.matched, if_pos hnew]
    exact Or.inr (Or.inr ⟨hlead.1, hlead.2, by omega, rfl⟩)
  · rw [if_neg hnew]
    exact Or.inr (Or.inl rfl)

end NanoDB.Raft
