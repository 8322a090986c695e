/-
One shard process under concurrent requests and kills, call by call.

An `Insert` handler is a sequence of calls into the id map and the index, and the calls of
different handlers interleave freely; so do the two calls of a `Delete`. `Act` names the next
call. A kill drops every handler in progress and opens the files again.

Three fields only record what happened: every completed index write and deletion, when a key
was treated as live, and which inserts were answered `different_data`.
-/
import NanoDB.Lib.History
import NanoDB.Lib.Trace
import NanoDB.ShardService

set_option autoImplicit false

namespace NanoDB.Shard

open Raft (Bytes)
open Index
open Beam (Ties)

/-- Completed index writes and deletions, by external id. -/
abbrev Log (F : Type*) := List (History.Event Bytes (InsertRequest F))

/-- Where an `Insert` handler stands: the call it makes next, with what it holds. `since` is
the history at the duplicate check. -/
inductive Pc (F : Type*)
  | assign
  | is_deleted (local_id : ℕ)
  | get_vector_data (local_id : ℕ) (since : Log F)
  | get_metadata (local_id : ℕ) (since : Log F) (existing_vec : Option (Vec F))
  | insert (local_id : ℕ)

structure Handler (F : Type*) where
  req : InsertRequest F
  pc : Pc F

/-- A key was treated as live, with the history then. -/
structure Observation (F : Type*) where
  external_id : Bytes
  log : Log F
deriving DecidableEq

/-- An insert was answered `different_data`, with the history at its duplicate check and at
the answer. -/
structure Rejection (F : Type*) where
  req : InsertRequest F
  since : Log F
  log : Log F
deriving DecidableEq

structure Process (F : Type*) where
  shard : ShardServiceImpl F
  handlers : List (Handler F) := []
  /-- `Delete` handlers behind their `lookup`. -/
  deletes : List (Bytes × ℕ) := []
  log : Log F := []
  observed : List (Observation F) := []
  rejected : List (Rejection F) := []

/-- The next call; a handler is named by its position. -/
inductive Act (F : Type*)
  | call (req : InsertRequest F)
  | assign (k : ℕ)
  | is_deleted (k : ℕ)
  | get_vector_data (k : ℕ)
  | get_metadata (k : ℕ)
  | insert (k : ℕ) (level : Fin MAX_LAYERS)
  | call_delete (req : DeleteRequest)
  | delete_vector (k : ℕ)
  /-- One round of the loop of `ListLocalIds`. -/
  | list_key (x : Text)
  | get_vector (x : Text)
  | kill

section Steps

variable {F D : Type*}

/-- Handler `k` goes on. -/
def Process.goto (p : Process F) (k : ℕ) (req : InsertRequest F) (pc : Pc F) : Process F :=
  { p with handlers := p.handlers.set k ⟨req, pc⟩ }

/-- Handler `k` answers. -/
def Process.answer (p : Process F) (k : ℕ) : Process F :=
  { p with handlers := p.handlers.eraseIdx k }

/-- `x` is treated as live. -/
def Process.observe (p : Process F) (x : Bytes) : Process F :=
  { p with observed := ⟨x, p.log⟩ :: p.observed }

variable [Zero F] [BEq F] [LinearOrder D] (ties : Ties D) (dist : Vec F → Vec F → D)

/-- One call. `none`: no handler stands there. -/
def call_step (p : Process F) : Act F → Option (Process F)
  | .call req =>
      match p.shard.checks req with
      | .error _ => some p
      | .ok sh => some { p with shard := sh, handlers := p.handlers ++ [⟨req, .assign⟩] }
  | .assign k =>
      match p.handlers[k]? with
      | some ⟨req, .assign⟩ =>
          let r := p.shard.id_map.assign req.external_id
          let p := { p with shard := { p.shard with id_map := r.1 } }
          some (p.goto k req (if r.2.2 then .insert r.2.1 else .is_deleted r.2.1))
      | _ => none
  | .is_deleted k =>
      match p.handlers[k]? with
      | some ⟨req, .is_deleted local_id⟩ =>
          if p.shard.index.is_deleted local_id then some (p.goto k req (.insert local_id))
          else some ((p.observe req.external_id).goto k req (.get_vector_data local_id p.log))
      | _ => none
  | .get_vector_data k =>
      match p.handlers[k]? with
      | some ⟨req, .get_vector_data local_id since⟩ =>
          some (p.goto k req
            (.get_metadata local_id since (p.shard.index.get_vector_data local_id)))
      | _ => none
  | .get_metadata k =>
      match p.handlers[k]? with
      | some ⟨req, .get_metadata local_id since existing_vec⟩ =>
          if same existing_vec (p.shard.index.get_metadata local_id) req then some (p.answer k)
          else some { p.answer k with rejected := ⟨req, since, p.log⟩ :: p.rejected }
      | _ => none
  | .insert k level =>
      match p.handlers[k]? with
      | some ⟨req, .insert local_id⟩ =>
          (p.shard.index.insert ties dist (to_vec req.vector) local_id level req.metadata.1).map
            (fun index => { p.answer k with
              shard := { p.shard with index := index }
              log := .put req.external_id.1 req :: p.log })
      | _ => none
  | .call_delete req =>
      match p.shard.check_and_advance_epoch req.epoch with
      | .error _ => some p
      | .ok sh =>
          match sh.id_map.lookup req.external_id with
          | none => some { p with shard := sh }
          | some local_id =>
              some { p with shard := sh, deletes := p.deletes ++ [(req.external_id.1, local_id)] }
  | .delete_vector k =>
      match p.deletes[k]? with
      | some (x, local_id) =>
          some { p with
            shard := { p.shard with index := p.shard.index.delete_vector local_id }
            deletes := p.deletes.eraseIdx k
            log := .del x :: p.log }
      | none => none
  | .list_key x =>
      if x.1 ∈ p.shard.id_map.list_all_external_ids ∧ p.shard.listed x = true then
        some (p.observe x)
      else some p
  | .get_vector x => if (p.shard.get_vector x).ok then some (p.observe x) else some p
  | .kill =>
      some { shard := p.shard.reopen, log := p.log, observed := p.observed, rejected := p.rejected }

/-- A process whose only handler is at `pc`. -/
def Process.alone (p : Process F) (sh : ShardServiceImpl F) (req : InsertRequest F) (pc : Pc F) :
    Process F :=
  { p with shard := sh, handlers := [⟨req, pc⟩] }

section Alone

variable (p : Process F) (req : InsertRequest F) {s : ShardServiceImpl F} {local_id : ℕ}

/-- The first two calls of a handler. -/
theorem run_call_assign {p req} {sh : ShardServiceImpl F} (hp : p.handlers = [])
    (hchecks : p.shard.checks req = .ok sh) {pc : Pc F}
    (hpc : (if (sh.id_map.assign req.external_id).2.2
      then Pc.insert (sh.id_map.assign req.external_id).2.1
      else Pc.is_deleted (sh.id_map.assign req.external_id).2.1) = pc) (acts : List (Act F)) :
    Trace.run (call_step ties dist) p (.call req :: .assign 0 :: acts)
      = Trace.run (call_step ties dist)
          (p.alone { sh with id_map := (sh.id_map.assign req.external_id).1 } req pc) acts := by
  subst hpc
  have hcall : call_step ties dist p (.call req) = some (p.alone sh req .assign) := by
    rw [call_step, hchecks]
    dsimp only
    rw [hp]
    rfl
  rw [Trace.run_step hcall]
  rfl

/-- A deleted id is inserted again. -/
theorem run_is_deleted (hdeleted : s.index.is_deleted local_id = true) (acts : List (Act F)) :
    Trace.run (call_step ties dist) (p.alone s req (.is_deleted local_id)) (.is_deleted 0 :: acts)
      = Trace.run (call_step ties dist) (p.alone s req (.insert local_id)) acts := by
  have hstep : call_step ties dist (p.alone s req (.is_deleted local_id)) (.is_deleted 0)
      = some (p.alone s req (.insert local_id)) := if_pos hdeleted
  rw [Trace.run_step hstep]

/-- A live id is compared, and the shard stays as it is. -/
theorem run_compare (hlive : s.index.is_deleted local_id = false) :
    ∃ p', Trace.run (call_step ties dist) (p.alone s req (.is_deleted local_id))
        [.is_deleted 0, .get_vector_data 0, .get_metadata 0] = some p' ∧
      p'.shard = s ∧ p'.handlers = [] := by
  -- the observation is made before the data are read
  have hobserve : call_step ties dist (p.alone s req (.is_deleted local_id)) (.is_deleted 0)
      = some ((p.observe req.external_id).alone s req (.get_vector_data local_id p.log)) :=
    if_neg (by simp [Process.alone, hlive])
  have hread : call_step ties dist
      ((p.observe req.external_id).alone s req (.get_vector_data local_id p.log))
      (.get_vector_data 0) = some ((p.observe req.external_id).alone s req
        (.get_metadata local_id p.log (s.index.get_vector_data local_id))) := rfl
  rw [Trace.run_step hobserve, Trace.run_step hread]
  by_cases hsame : same (s.index.get_vector_data local_id) (s.index.get_metadata local_id) req
      = true
  · exact ⟨_, Trace.run_step (if_pos hsame) [], rfl, rfl⟩
  · exact ⟨_, Trace.run_step (if_neg hsame) [], rfl, rfl⟩

/-- The last call of a handler that inserts. -/
theorem run_insert {level : Fin MAX_LAYERS} {index : HNSW (Vec F)}
    (hindex : s.index.insert ties dist (to_vec req.vector) local_id level req.metadata.1
      = some index) :
    ∃ p', Trace.run (call_step ties dist) (p.alone s req (.insert local_id)) [.insert 0 level]
        = some p' ∧ p'.shard = { s with index := index } ∧ p'.handlers = [] :=
  ⟨_, Trace.run_step (congrArg (Option.map _) hindex) [], rfl, rfl⟩

end Alone

/-- **The calls of one handler, back to back, are `Insert`.** -/
theorem insert_calls (p : Process F) (hp : p.handlers = []) (req : InsertRequest F)
    (level : Fin MAX_LAYERS) {sh' : ShardServiceImpl F} {res : WriteResponse}
    (h : p.shard.insert ties dist req level = some (sh', res)) :
    ∃ acts p', Trace.run (call_step ties dist) p (.call req :: acts) = some p' ∧
      p'.shard = sh' ∧ p'.handlers = [] := by
  unfold ShardServiceImpl.insert at h
  cases hchecks : p.shard.checks req with
  | error e =>
      rw [hchecks] at h
      refine ⟨[], p, ?_, congrArg Prod.fst (Option.some.inj h), hp⟩
      rw [Trace.run_cons, call_step, hchecks]
      rfl
  | ok sh =>
      rw [hchecks] at h
      dsimp only at h
      -- which pauses the handler goes through depends on what it finds
      by_cases hlive : (sh.id_map.assign req.external_id).2.2 = false ∧
          sh.index.is_deleted (sh.id_map.assign req.external_id).2.1 = false
      · rw [if_pos hlive] at h
        have hsh : { sh with id_map := (sh.id_map.assign req.external_id).1 } = sh' := by
          split at h <;> exact congrArg Prod.fst (Option.some.inj h)
        obtain ⟨p', hrun, hshard, hdone⟩ := run_compare ties dist p req
          (s := { sh with id_map := (sh.id_map.assign req.external_id).1 }) hlive.2
        refine ⟨[.assign 0, .is_deleted 0, .get_vector_data 0, .get_metadata 0], p', ?_,
          hshard.trans hsh, hdone⟩
        rw [run_call_assign ties dist hp hchecks (if_neg (by simp [hlive.1]))]
        exact hrun
      · rw [if_neg hlive] at h
        obtain ⟨index, hindex, hres⟩ := Option.map_eq_some_iff.mp h
        have hsh := congrArg Prod.fst hres
        obtain ⟨p', hrun, hshard, hdone⟩ := run_insert ties dist p req
          (s := { sh with id_map := (sh.id_map.assign req.external_id).1 }) hindex
        by_cases hnew : (sh.id_map.assign req.external_id).2.2 = true
        · refine ⟨[.assign 0, .insert 0 level], p', ?_, hshard.trans hsh, hdone⟩
          rw [run_call_assign ties dist hp hchecks (if_pos hnew)]
          exact hrun
        · have hnew' : (sh.id_map.assign req.external_id).2.2 = false := by simpa using hnew
          have hdel : sh.index.is_deleted (sh.id_map.assign req.external_id).2.1 = true := by
            simpa [hnew'] using hlive
          refine ⟨[.assign 0, .is_deleted 0, .insert 0 level], p', ?_, hshard.trans hsh, hdone⟩
          rw [run_call_assign ties dist hp hchecks (if_neg hnew)]
          exact (run_is_deleted ties dist p req
            (s := { sh with id_map := (sh.id_map.assign req.external_id).1 }) hdel _).trans hrun

end Steps

/-- A process with empty files. -/
def Process.fresh {F : Type*} (storage_size : ℕ) : Process F :=
  { shard := ShardServiceImpl.fresh storage_size }

/-- The data two inserts carry are the same, as `Insert` compares them. -/
def same_data {F : Type*} [Zero F] [BEq F] (w req : InsertRequest F) : Bool :=
  same (some (to_vec w.vector)) w.metadata req

end NanoDB.Shard
