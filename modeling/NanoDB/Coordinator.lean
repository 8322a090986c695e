/-
`cluster/coordinator_main.cpp`: the topology of a coordinator as a replicated state machine.

A coordinator keeps the replicas it has ever heard of in `g_shards` (append-only; a removed
one is only marked inactive) and the hash ring of the active shard ids. Committed Raft
commands change both, and each command's absolute log index is the fencing epoch it stamps.
`apply_pending_raft_commands` is what the poller and the handlers call: it installs a newer
snapshot, applies the commands it has not seen, and compacts the log when enough of them
have piled up.

JSON is left out: a command, a snapshot and a config file are the values they parse to, and
whatever does not parse is `malformed`, which the source logs and skips.
-/
import Mathlib.Data.List.Dedup
import NanoDB.HashRing
import NanoDB.RaftNode

set_option autoImplicit false

namespace NanoDB.Coord

/-! ## Data -/

/-- `ShardEndpoint` (`cluster/cluster_config.hpp`): one line of the config file. -/
structure ShardEndpoint where
  shard_id : ℤ
  replica_id : ℤ
  host : String
  port : ℤ
  is_primary : Bool
deriving DecidableEq, Repr

/-- `ShardClient`, without its channel and stub. -/
structure ShardClient where
  shard_id : ℤ
  replica_id : ℤ
  host : String
  port : ℤ
  active : Bool
  is_primary : Bool
  epoch : ℕ
deriving DecidableEq, Repr

/-- One element of `"replicas"` in an `add_shard` command. -/
structure ReplicaSpec where
  replica_id : ℤ
  host : String
  port : ℤ
  primary : Bool
deriving DecidableEq, Repr

/-- A committed command as `apply_pending_raft_commands` reads it. -/
inductive Command
  | add_shard (shard_id : ℤ) (replicas : List ReplicaSpec)
  | remove_shard (shard_id : ℤ)
  | set_primary (shard_id replica_id : ℤ)
  | malformed
deriving DecidableEq, Repr

/-- One element of `"shards"` in a snapshot. -/
structure SnapshotShard where
  shard_id : ℤ
  replica_id : ℤ
  host : String
  port : ℤ
  primary : Bool
  epoch : ℕ
deriving DecidableEq, Repr

/-- What `RaftNode::status` shows the coordinator. `snapshot_data` is `none` for the empty
string. -/
structure RaftStatus where
  snapshot_last_index : ℕ := 0
  snapshot_data : Option (List SnapshotShard) := none
  applied_commands : List Command := []
deriving DecidableEq, Repr

/-- The coordinator's globals. -/
structure Coordinator where
  g_shards : List ShardClient
  active_ring : HashRing
  g_local_applied_count : ℕ := 0
  g_snapshot_applied_index : ℕ := 0

/-! ## Topology -/

def make_shard_client (shard_id replica_id : ℤ) (host : String) (port : ℤ) (is_primary : Bool) :
    ShardClient :=
  ⟨shard_id, replica_id, host, port, true, is_primary, 0⟩

/-- `live_shards`: the active replicas. -/
def live_shards (g_shards : List ShardClient) : List ShardClient :=
  g_shards.filter (fun sc => sc.active)

/-- The `std::set` of active ids, in its iteration order. -/
def active_ids (g_shards : List ShardClient) : List ℤ :=
  ((live_shards g_shards).map ShardClient.shard_id).dedup.mergeSort (fun a b => decide (a ≤ b))

theorem mem_active_ids {g_shards : List ShardClient} {sid : ℤ} :
    sid ∈ active_ids g_shards ↔ ∃ sc ∈ live_shards g_shards, sc.shard_id = sid := by
  unfold active_ids
  rw [List.mem_mergeSort, List.mem_dedup, List.mem_map]

/-- The replicas changed and the ring rebuilt. -/
def Coordinator.rebuild (c : Coordinator) (g_shards : List ShardClient) : Coordinator :=
  { c with g_shards := g_shards, active_ring := HashRing.build (active_ids g_shards) }

/-! ## Config file -/

/-- The body of `persist_cluster_state`: what is written to the config file. -/
def persist_cluster_state (c : Coordinator) : List ShardEndpoint :=
  (live_shards c.g_shards).map
    (fun sc => ⟨sc.shard_id, sc.replica_id, sc.host, sc.port, sc.is_primary⟩)

/-- Start-up from the config file and a reopened Raft node. `load_cluster_config` throws on
an empty list of shards, and `main` then exits. -/
def start (config : List ShardEndpoint) (snapshot_last_index : ℕ) : Option Coordinator :=
  if config = [] then none
  else
    let g_shards := config.map
      (fun ep => make_shard_client ep.shard_id ep.replica_id ep.host ep.port ep.is_primary)
    some
      { g_shards := g_shards
        active_ring := HashRing.build (active_ids g_shards)
        g_snapshot_applied_index := snapshot_last_index }

/-! ## Snapshots -/

def serialize_raft_snapshot (c : Coordinator) : List SnapshotShard :=
  (live_shards c.g_shards).map
    (fun sc => ⟨sc.shard_id, sc.replica_id, sc.host, sc.port, sc.is_primary, sc.epoch⟩)

def apply_raft_snapshot (c : Coordinator) : Option (List SnapshotShard) → Coordinator
  | none => c
  | some snap =>
      let new_clients := snap.map (fun r =>
        { make_shard_client r.shard_id r.replica_id r.host r.port r.primary with epoch := r.epoch })
      c.rebuild (c.g_shards.map (fun sc => { sc with active := false }) ++ new_clients)

/-! ## Commands -/

/-- The new replicas of an `add_shard`. -/
def new_clients (shard_id : ℤ) (replicas : List ReplicaSpec) (command_epoch : ℕ) :
    List ShardClient :=
  replicas.map (fun r =>
    { make_shard_client shard_id r.replica_id r.host r.port r.primary with epoch := command_epoch })

/-- One iteration of the loop of `apply_pending_raft_commands`. -/
def apply_command (command_epoch : ℕ) (c : Coordinator) : Command → Coordinator
  | .add_shard shard_id replicas =>
      -- the existence test sees inactive replicas too
      if ∃ sc ∈ c.g_shards, sc.shard_id = shard_id then c
      else c.rebuild (c.g_shards ++ new_clients shard_id replicas command_epoch)
  | .remove_shard shard_id =>
      c.rebuild (c.g_shards.map
        (fun sc => if sc.shard_id = shard_id then { sc with active := false } else sc))
  | .set_primary shard_id replica_id =>
      { c with
        g_shards := c.g_shards.map (fun sc =>
          if sc.shard_id ≠ shard_id then sc
          else
            { sc with is_primary := decide (sc.replica_id = replica_id), epoch := command_epoch }) }
  | .malformed => c

/-- The loop: `applied` commands precede the given ones, so the next one has the absolute
index `applied + 1`. -/
def apply_commands : ℕ → Coordinator → List Command → Coordinator
  | _, c, [] => c
  | applied, c, cmd :: cmds => apply_commands (applied + 1) (apply_command (applied + 1) c cmd) cmds

/-! ## Polling -/

/-- `RaftNode::compact`, seen through the status. -/
def RaftStatus.compact (st : RaftStatus) (up_to_index : ℕ) (snapshot_data : List SnapshotShard) :
    RaftStatus × Bool :=
  if up_to_index ≤ st.snapshot_last_index then (st, false)
  else
    let trim_count := up_to_index - st.snapshot_last_index
    if trim_count > st.applied_commands.length then (st, false)
    else
      ({ snapshot_last_index := up_to_index
         snapshot_data := some snapshot_data
         applied_commands := st.applied_commands.drop trim_count }, true)

def COMPACTION_THRESHOLD : ℕ := 64

/-- The snapshot catch-up at the head of `apply_pending_raft_commands`. -/
def snapshot_catch_up (c : Coordinator) (st : RaftStatus) : Coordinator :=
  if st.snapshot_last_index > c.g_snapshot_applied_index then
    { apply_raft_snapshot c st.snapshot_data with
      g_snapshot_applied_index := st.snapshot_last_index
      g_local_applied_count := 0 }
  else c

/-- `apply_pending_raft_commands`, for any compaction threshold. -/
def apply_pending_raft_commands (threshold : ℕ) (c : Coordinator) (st : RaftStatus) :
    Coordinator × RaftStatus :=
  let c := snapshot_catch_up c st
  if st.applied_commands.length ≤ c.g_local_applied_count then (c, st)
  else
    let c := apply_commands (st.snapshot_last_index + c.g_local_applied_count) c
      (st.applied_commands.drop c.g_local_applied_count)
    let c := { c with g_local_applied_count := st.applied_commands.length }
    if c.g_local_applied_count ≥ threshold then
      let compact_up_to := st.snapshot_last_index + c.g_local_applied_count
      let r := st.compact compact_up_to (serialize_raft_snapshot c)
      if r.2 then ({ c with g_local_applied_count := 0 }, r.1) else (c, r.1)
    else (c, st)

end NanoDB.Coord
