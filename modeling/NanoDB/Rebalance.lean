/-
`cluster/coordinator_main.cpp`: `POST /admin/shards/remove`.

The cluster is the topology of the handler's coordinator, one shard process a replica, and the
RPCs in flight. The remove handler is a thread that waits at each RPC; clients insert through this
coordinator or another one while it runs. Another coordinator has a topology of its own, which may
be older or newer: ring, primaries and epochs of such an insert are those. A process is named by
its shard id and replica id, which every topology understands in the same way.

An RPC is sent, executed by its process and answered in separate steps. A deadline can pass
at any time, also before or after the execution, and an RPC that was given up can still be
executed later. `ListLocalIds` and `GetVector` change nothing, so they are one step that is
delivered or not.

Parsing, HTTP statuses and counters are left out. `owed` only records what the removal must
not lose: the keys the leaving primary had at the start, and those acknowledged on the leaving
shard while the handler ran.
-/
import NanoDB.Lib.Trace
import NanoDB.QuorumWrite
import NanoDB.ShardLive

set_option autoImplicit false

namespace NanoDB.Coord

open Raft (Bytes)
open Shard
open Index (MAX_LAYERS)
open Beam (Ties)

/-! ## The handler -/

/-- A `string` of a response, as far as one fits a message. -/
def text (x : Bytes) : Option Text := if h : x.length < 2 ^ 32 then some ⟨x, h⟩ else none

/-- The handler's variables; `route` is that of `post_remove_ring`. -/
structure Removal where
  leaving_id : ℤ
  pool : List ShardClient
  leaving_replicas : List ShardClient
  leaving_primary : ShardClient
  route : Bytes → ℤ

/-- Where the handler stands. -/
inductive Phase
  | listing
  /-- At the head of the loop over the listed keys. -/
  | next (todo : List Text)
  | inserting (external_id : Text) (todo : List Text) (futures : List Future)
  | deleting (todo : List Text) (futures : List Future)
  /-- `propose` returned; the command may be committed later also if it returned false. -/
  | proposed (answered : Bool)
  | applied
deriving DecidableEq

/-- A `POST /vectors` handler that waits for its futures. -/
structure Client where
  external_id : Text
  shard_id : ℤ
  futures : List Future

structure Cluster (F : Type*) where
  coordinator : Coordinator
  procs : Node → ShardServiceImpl F
  calls : List (Call F) := []
  handler : Option (Removal × Phase) := none
  rebalancing : Bool := false
  clients : List Client := []
  owed : List Bytes := []

inductive Act (F : Type*)
  | start (leaving_id : ℤ)
  | list_local_ids (delivered : Bool)
  | get_vector (delivered : Bool)
  | resolve (i : ℕ) (delivered : Bool)
  | join
  | propose (answered : Bool)
  | apply (command_epoch : ℕ)
  /-- The coordinator applies another command. -/
  | command (command_epoch : ℕ) (cmd : Command)
  | execute (k : ℕ) (level : Fin MAX_LAYERS)
  /-- Through another coordinator with this topology, or through the handler's own. -/
  | client_insert (via : Option Coordinator) (external_id : Text) (vector : List F)
      (metadata : Text)
  | client_resolve (j i : ℕ) (delivered : Bool)
  | client_join (j : ℕ)

section Steps

variable {F D : Type*} [Zero F]

/-- The checks and first lines of the handler. -/
def remove_start (s : Cluster F) (leaving_id : ℤ) : Cluster F :=
  let pool := live_shards s.coordinator.g_shards
  match find_primary pool leaving_id with
  | none => s
  | some leaving_primary =>
      let all_shard_ids := active_ids s.coordinator.g_shards
      if all_shard_ids.length ≤ 1 then s
      else
        let remaining_ids := all_shard_ids.filter (fun sid => decide (sid ≠ leaving_id))
        let sh := s.procs leaving_primary.node
        { s with
          handler := some
            ({ leaving_id := leaving_id
               pool := pool
               leaving_replicas := replicas_for_shard pool leaving_id
               leaving_primary := leaving_primary
               route := (HashRing.build remaining_ids).route }, .listing)
          rebalancing := true
          owed := sh.id_map.reverse.filter sh.live }

/-- One round of the loop, up to the writes at the destination. -/
def migrate_one_key (s : Cluster F) (r : Removal) (x : Text) (todo : List Text)
    (delivered : Bool) : Cluster F :=
  let dest_replicas := replicas_for_shard r.pool (r.route x)
  let gres := (s.procs r.leaving_primary.node).get_vector x
  match (if dest_replicas = [] ∨ delivered = false ∨ gres.ok = false then none
    else text gres.metadata) with
  | none => { s with handler := some (r, .next todo) }
  | some metadata =>
      let q := fire s.calls .handler dest_replicas (fun e => .insert ⟨x, gres.vector, metadata, e⟩)
      { s with calls := q.1, handler := some (r, .inserting x todo q.2) }

/-- Is the handler of a removal of this shard in progress? -/
def Cluster.removing (s : Cluster F) (shard_id : ℤ) : Bool :=
  match s.handler with
  | none => false
  | some (_, .proposed false) => false
  | some (_, .applied) => false
  | some (r, _) => decide (r.leaving_id = shard_id)

/-- The process of call `k` is as the execution left it, and the call is answered. -/
def Cluster.answer (s : Cluster F) (k : ℕ) (c : Call F) (p : ShardServiceImpl F × WriteResponse) :
    Cluster F :=
  { s with
    procs := Function.update s.procs c.node p.1
    calls := s.calls.set k { c with response := some p.2 } }

variable [BEq F] [LinearOrder D] (ties : Ties D) (dist : Vec F → Vec F → D)

/-- The process executes a write. -/
def Cluster.execute (s : Cluster F) (c : Call F) (level : Fin MAX_LAYERS) :
    Option (ShardServiceImpl F × WriteResponse) :=
  match c.body with
  | .insert req => (s.procs c.node).insert ties dist req level
  | .delete req => some ((s.procs c.node).delete req)

/-- One step. `none`: nobody waits there. -/
def cluster_step (s : Cluster F) : Act F → Option (Cluster F)
  | .start leaving_id => if s.handler.isSome then none else some (remove_start s leaving_id)
  | .list_local_ids delivered =>
      match s.handler with
      | some (r, .listing) =>
          let lres := (s.procs r.leaving_primary.node).list_local_ids
          let todo := if delivered then lres.external_ids.filterMap text else []
          some { s with handler := some (r, .next todo) }
      | _ => none
  | .get_vector delivered =>
      match s.handler with
      | some (r, .next (x :: todo)) => some (migrate_one_key s r x todo delivered)
      | _ => none
  | .resolve i delivered =>
      match s.handler with
      | some (r, .inserting x todo futures) =>
          (resolve s.calls futures i delivered).map
            (fun futures => { s with handler := some (r, .inserting x todo futures) })
      | some (r, .deleting todo futures) =>
          (resolve s.calls futures i delivered).map
            (fun futures => { s with handler := some (r, .deleting todo futures) })
      | _ => none
  | .join =>
      match s.handler with
      | some (r, .inserting x todo futures) =>
          if joined futures = false then none
          else if (quorum_result futures).ok then
            let q := fire s.calls .handler r.leaving_replicas (fun e => .delete ⟨x, e⟩)
            some { s with calls := q.1, handler := some (r, .deleting todo q.2) }
          else some { s with handler := some (r, .next todo) }
      | some (r, .deleting todo futures) =>
          if joined futures then some { s with handler := some (r, .next todo) } else none
      | _ => none
  | .propose answered =>
      match s.handler with
      | some (r, .next []) =>
          some { s with handler := some (r, .proposed answered), rebalancing := answered }
      | _ => none
  | .apply command_epoch =>
      match s.handler with
      | some (r, .proposed _) =>
          some { s with
            coordinator := apply_command command_epoch s.coordinator (.remove_shard r.leaving_id)
            handler := some (r, .applied)
            rebalancing := false }
      | _ => none
  | .command command_epoch cmd =>
      some { s with coordinator := apply_command command_epoch s.coordinator cmd }
  | .execute k level =>
      match s.calls[k]? with
      | some c =>
          if c.response.isSome then none else (s.execute ties dist c level).map (s.answer k c)
      | none => none
  | .client_insert via x vector metadata =>
      -- the flag is a variable of the handler's process
      if via.isNone ∧ s.rebalancing = true then some s
      else
        let c := via.getD s.coordinator
        let shard_id := c.active_ring.route x.1
        let replicas := replicas_for_shard (live_shards c.g_shards) shard_id
        if replicas = [] then some s
        else
          let q := fire s.calls .client replicas (fun e => .insert ⟨x, vector, metadata, e⟩)
          some { s with calls := q.1, clients := s.clients ++ [⟨x, shard_id, q.2⟩] }
  | .client_resolve j i delivered =>
      match s.clients[j]? with
      | some ⟨x, shard_id, futures⟩ =>
          (resolve s.calls futures i delivered).map
            (fun futures => { s with clients := s.clients.set j ⟨x, shard_id, futures⟩ })
      | none => none
  | .client_join j =>
      match s.clients[j]? with
      | some ⟨x, shard_id, futures⟩ =>
          if joined futures = false then none
          else
            some { s with
              clients := s.clients.eraseIdx j
              owed := if (quorum_result futures).ok ∧ s.removing shard_id = true then x.1 :: s.owed
                else s.owed }
      | none => none

end Steps

end NanoDB.Coord
