/-
`cluster/coordinator_main.cpp`: `POST /admin/shards/add`, from the applied command on.

The handler goes through the other shards. It lists the keys of each primary, and those that the
new ring sends to the new shard are read there, inserted on all replicas of the new shard and,
if a quorum of these has answered, deleted on all replicas of their shard (`migrate_one_key`).

RPCs are as in `Rebalance.lean`: a write is sent, executed and answered in separate steps, a
deadline can pass at any time, and a write that was given up can still be executed later.
`ListLocalIds` and `GetVector` are one step that is delivered or not. Clients do not write in the
meantime, and the topology stays what the command made it.
-/
import NanoDB.Rebalance

set_option autoImplicit false

namespace NanoDB.Coord

open Raft (Bytes)
open Shard
open Index (MAX_LAYERS)
open Beam (Ties)

/-! ## The handler -/

/-- The handler's variables; `route` is that of `new_ring`. -/
structure Addition where
  new_id : ℤ
  pool : List ShardClient
  dest_replicas : List ShardClient
  route : Bytes → ℤ

/-- Those of one round of the outer loop. -/
structure Source where
  source_shard_id : ℤ
  source_replicas : List ShardClient
  source_primary : ShardClient
deriving DecidableEq

/-- Where the handler stands. -/
inductive AddPhase
  /-- At the head of the loop over the source shards. -/
  | sources (rest : List ℤ)
  /-- At the head of the loop over the listed keys. -/
  | next (src : Source) (todo : List Text) (rest : List ℤ)
  | inserting (src : Source) (external_id : Text) (todo : List Text) (rest : List ℤ)
      (futures : List Future)
  | deleting (src : Source) (external_id : Text) (todo : List Text) (rest : List ℤ)
      (futures : List Future)
  | returned (status : ℕ)
deriving DecidableEq

structure Adding (F : Type*) where
  procs : Node → ShardServiceImpl F
  calls : List (Call F) := []
  phase : AddPhase
  migrated : ℕ := 0
  failed : ℕ := 0

inductive AddAct
  | list_local_ids (delivered : Bool)
  | get_vector (delivered : Bool)
  | resolve (i : ℕ) (delivered : Bool)
  | join
  | next_source
  | finish
  | execute (k : ℕ) (level : Fin MAX_LAYERS)

/-- The coordinator `c` has applied the command. -/
def Addition.of (c : Coordinator) (new_id : ℤ) : Addition :=
  let pool := live_shards c.g_shards
  { new_id := new_id
    pool := pool
    dest_replicas := replicas_for_shard pool new_id
    route := c.active_ring.route }

def source_shard_ids (c : Coordinator) (new_id : ℤ) : List ℤ :=
  (active_ids c.g_shards).filter (fun sid => decide (sid ≠ new_id))

section Steps

variable {F D : Type*} [Zero F]

/-- The first lines after `apply_pending_raft_commands`. -/
def add_start (c : Coordinator) (new_id : ℤ) (procs : Node → ShardServiceImpl F) : Adding F :=
  { procs := procs
    phase := if (Addition.of c new_id).dest_replicas = [] then .returned 500
      else .sources (source_shard_ids c new_id) }

/-- `migrate_one_key`, up to the writes at the destination. -/
def Adding.migrate_one_key (s : Adding F) (a : Addition) (src : Source) (x : Text)
    (todo : List Text) (rest : List ℤ) (delivered : Bool) : Adding F :=
  let gres := (s.procs src.source_primary.node).get_vector x
  match (if delivered = false ∨ gres.ok = false then none else text gres.metadata) with
  | none => { s with phase := .next src todo rest, failed := s.failed + 1 }
  | some metadata =>
      let q := fire s.calls .handler a.dest_replicas
        (fun e => .insert ⟨x, gres.vector, metadata, e⟩)
      { s with calls := q.1, phase := .inserting src x todo rest q.2 }

/-- The process of call `k` is as the execution left it, and the call is answered. -/
def Adding.answer (s : Adding F) (k : ℕ) (c : Call F) (p : ShardServiceImpl F × WriteResponse) :
    Adding F :=
  { s with
    procs := Function.update s.procs c.node p.1
    calls := s.calls.set k { c with response := some p.2 } }

variable [BEq F] [LinearOrder D] (ties : Ties D) (dist : Vec F → Vec F → D)

/-- One step. `none`: nobody waits there. -/
def add_step (a : Addition) (s : Adding F) : AddAct → Option (Adding F)
  | .list_local_ids delivered =>
      match s.phase with
      | .sources (sid :: rest) =>
          match find_primary a.pool sid with
          | none => some { s with phase := .sources rest }
          | some source_primary =>
              if delivered then
                let lres := (s.procs source_primary.node).list_local_ids
                let src : Source := ⟨sid, replicas_for_shard a.pool sid, source_primary⟩
                some { s with phase := .next src (lres.external_ids.filterMap text) rest }
              else some { s with phase := .sources rest }
      | _ => none
  | .get_vector delivered =>
      match s.phase with
      | .next src (x :: todo) rest =>
          if a.route x ≠ a.new_id then some { s with phase := .next src todo rest }
          else some (s.migrate_one_key a src x todo rest delivered)
      | _ => none
  | .resolve i delivered =>
      match s.phase with
      | .inserting src x todo rest futures =>
          (resolve s.calls futures i delivered).map
            (fun futures => { s with phase := .inserting src x todo rest futures })
      | .deleting src x todo rest futures =>
          (resolve s.calls futures i delivered).map
            (fun futures => { s with phase := .deleting src x todo rest futures })
      | _ => none
  | .join =>
      match s.phase with
      | .inserting src x todo rest futures =>
          if joined futures = false then none
          else if (quorum_result futures).ok then
            let q := fire s.calls .handler src.source_replicas (fun e => .delete ⟨x, e⟩)
            some { s with calls := q.1, phase := .deleting src x todo rest q.2 }
          else some { s with phase := .next src todo rest, failed := s.failed + 1 }
      | .deleting src _ todo rest futures =>
          if joined futures then
            some { s with phase := .next src todo rest, migrated := s.migrated + 1 }
          else none
      | _ => none
  | .next_source =>
      match s.phase with
      | .next _ [] rest => some { s with phase := .sources rest }
      | _ => none
  | .finish =>
      match s.phase with
      | .sources [] => some { s with phase := .returned 200 }
      | _ => none
  | .execute k level =>
      match s.calls[k]? with
      | some c =>
          if c.response.isSome then none
          else (c.body.execute ties dist (s.procs c.node) level).map (s.answer k c)
      | none => none

/-! ## What a step does -/

/-- The steps, one by one. -/
inductive AddMove (a : Addition) (s : Adding F) : AddAct → Adding F → Prop
  | no_primary {delivered : Bool} {sid : ℤ} {rest : List ℤ}
      (hphase : s.phase = .sources (sid :: rest)) (hprimary : find_primary a.pool sid = none) :
      AddMove a s (.list_local_ids delivered) { s with phase := .sources rest }
  | unlisted {sid : ℤ} {rest : List ℤ} (hphase : s.phase = .sources (sid :: rest)) :
      AddMove a s (.list_local_ids false) { s with phase := .sources rest }
  | listed {sid : ℤ} {rest : List ℤ} {p : ShardClient}
      (hphase : s.phase = .sources (sid :: rest)) (hprimary : find_primary a.pool sid = some p) :
      AddMove a s (.list_local_ids true)
        { s with
          phase := .next ⟨sid, replicas_for_shard a.pool sid, p⟩
            ((s.procs p.node).list_local_ids.external_ids.filterMap text) rest }
  | elsewhere {delivered : Bool} {src : Source} {x : Text} {todo : List Text} {rest : List ℤ}
      (hphase : s.phase = .next src (x :: todo) rest) (hroute : a.route x ≠ a.new_id) :
      AddMove a s (.get_vector delivered) { s with phase := .next src todo rest }
  | unread {delivered : Bool} {src : Source} {x : Text} {todo : List Text} {rest : List ℤ}
      (hphase : s.phase = .next src (x :: todo) rest) (hroute : a.route x = a.new_id)
      (hread : delivered = true →
        ((s.procs src.source_primary.node).get_vector x).ok = false ∨
          text ((s.procs src.source_primary.node).get_vector x).metadata = none) :
      AddMove a s (.get_vector delivered)
        { s with phase := .next src todo rest, failed := s.failed + 1 }
  | insert {src : Source} {x : Text} {todo : List Text} {rest : List ℤ} {vector : List F}
      {metadata : Text} (hphase : s.phase = .next src (x :: todo) rest)
      (hroute : a.route x = a.new_id) (calls : List (Call F)) (futures : List Future)
      (hfire : fire s.calls .handler a.dest_replicas (fun e => .insert ⟨x, vector, metadata, e⟩)
        = (calls, futures)) :
      AddMove a s (.get_vector true)
        { s with calls := calls, phase := .inserting src x todo rest futures }
  | resolve_insert {src : Source} {x : Text} {todo : List Text} {rest : List ℤ}
      {futures futures' : List Future} {i : ℕ} {delivered : Bool}
      (hphase : s.phase = .inserting src x todo rest futures)
      (hresolve : resolve s.calls futures i delivered = some futures') :
      AddMove a s (.resolve i delivered) { s with phase := .inserting src x todo rest futures' }
  | resolve_delete {src : Source} {x : Text} {todo : List Text} {rest : List ℤ}
      {futures futures' : List Future} {i : ℕ} {delivered : Bool}
      (hphase : s.phase = .deleting src x todo rest futures)
      (hresolve : resolve s.calls futures i delivered = some futures') :
      AddMove a s (.resolve i delivered) { s with phase := .deleting src x todo rest futures' }
  | refused {src : Source} {x : Text} {todo : List Text} {rest : List ℤ} {futures : List Future}
      (hphase : s.phase = .inserting src x todo rest futures) (hjoined : joined futures = true)
      (hquorum : (quorum_result futures).ok = false) :
      AddMove a s .join { s with phase := .next src todo rest, failed := s.failed + 1 }
  | delete {src : Source} {x : Text} {todo : List Text} {rest : List ℤ} {futures : List Future}
      (hphase : s.phase = .inserting src x todo rest futures) (hjoined : joined futures = true)
      (hquorum : (quorum_result futures).ok = true) (calls : List (Call F))
      (futures' : List Future)
      (hfire : fire s.calls .handler src.source_replicas (fun e => .delete ⟨x, e⟩)
        = (calls, futures')) :
      AddMove a s .join { s with calls := calls, phase := .deleting src x todo rest futures' }
  | moved {src : Source} {x : Text} {todo : List Text} {rest : List ℤ} {futures : List Future}
      (hphase : s.phase = .deleting src x todo rest futures) (hjoined : joined futures = true) :
      AddMove a s .join { s with phase := .next src todo rest, migrated := s.migrated + 1 }
  | next_source {src : Source} {rest : List ℤ} (hphase : s.phase = .next src [] rest) :
      AddMove a s .next_source { s with phase := .sources rest }
  | finish (hphase : s.phase = .sources []) :
      AddMove a s .finish { s with phase := .returned 200 }
  | execute {k : ℕ} {level : Fin MAX_LAYERS} {c : Call F}
      {p : ShardServiceImpl F × WriteResponse} (hk : s.calls[k]? = some c)
      (hopen : c.response = none)
      (hexecute : c.body.execute ties dist (s.procs c.node) level = some p) :
      AddMove a s (.execute k level) (s.answer k c p)

/-- The key could not be read, or the inserts are sent. -/
theorem migrate_one_key_move {a : Addition} {s : Adding F} {src : Source} {x : Text}
    {todo : List Text} {rest : List ℤ} {delivered : Bool}
    (hphase : s.phase = .next src (x :: todo) rest) (hroute : a.route x = a.new_id) :
    AddMove ties dist a s (.get_vector delivered)
      (s.migrate_one_key a src x todo rest delivered) := by
  unfold Adding.migrate_one_key
  dsimp only
  split
  · rename_i hnone
    apply AddMove.unread hphase hroute
    rintro rfl
    by_cases hok : ((s.procs src.source_primary.node).get_vector x).ok = false
    · exact Or.inl hok
    · rw [if_neg (by simp [hok])] at hnone
      exact Or.inr hnone
  · rename_i metadata hsome
    split at hsome
    · simp at hsome
    · rename_i hread
      cases delivered with
      | false => simp at hread
      | true => exact .insert hphase hroute _ _ rfl

/-- **Every step is one of these moves.** -/
theorem add_move {a : Addition} {s s' : Adding F} {act : AddAct}
    (h : add_step ties dist a s act = some s') : AddMove ties dist a s act s' := by
  unfold add_step at h
  cases act with
  | list_local_ids delivered =>
      dsimp only at h
      split at h
      · rename_i sid rest hphase
        split at h
        · rename_i hprimary
          exact Option.some.inj h ▸ .no_primary hphase hprimary
        · rename_i p hprimary
          cases delivered with
          | false => exact Option.some.inj h ▸ .unlisted hphase
          | true => exact Option.some.inj h ▸ .listed hphase hprimary
      · simp at h
  | get_vector delivered =>
      dsimp only at h
      split at h
      · rename_i src x todo rest hphase
        split at h
        · rename_i hroute
          exact Option.some.inj h ▸ .elsewhere hphase hroute
        · rename_i hroute
          exact Option.some.inj h ▸ migrate_one_key_move ties dist hphase (not_not.mp hroute)
      · simp at h
  | resolve i delivered =>
      dsimp only at h
      split at h
      · rename_i src x todo rest futures hphase
        obtain ⟨futures', hresolve, rfl⟩ := Option.map_eq_some_iff.mp h
        exact .resolve_insert hphase hresolve
      · rename_i src x todo rest futures hphase
        obtain ⟨futures', hresolve, rfl⟩ := Option.map_eq_some_iff.mp h
        exact .resolve_delete hphase hresolve
      · simp at h
  | join =>
      dsimp only at h
      split at h
      · rename_i src x todo rest futures hphase
        split at h
        · simp at h
        · rename_i hjoined
          rw [Bool.not_eq_false] at hjoined
          split at h
          · rename_i hquorum
            exact Option.some.inj h ▸ .delete hphase hjoined hquorum _ _ rfl
          · rename_i hquorum
            exact Option.some.inj h ▸ .refused hphase hjoined (by simpa using hquorum)
      · rename_i src x todo rest futures hphase
        split at h
        · rename_i hjoined
          exact Option.some.inj h ▸ .moved hphase hjoined
        · simp at h
      · simp at h
  | next_source =>
      dsimp only at h
      split at h
      · rename_i src rest hphase
        exact Option.some.inj h ▸ .next_source hphase
      · simp at h
  | finish =>
      dsimp only at h
      split at h
      · rename_i hphase
        exact Option.some.inj h ▸ .finish hphase
      · simp at h
  | execute k level =>
      dsimp only at h
      split at h
      · rename_i c hk
        split at h
        · simp at h
        · rename_i hopen
          obtain ⟨p, hexecute, rfl⟩ := Option.map_eq_some_iff.mp h
          exact .execute hk (by simpa using hopen) hexecute
      · simp at h

end Steps

end NanoDB.Coord
