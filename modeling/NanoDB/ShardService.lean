/-
`cluster/shard_service_impl.hpp`: the write and read handlers of one shard.

A shard is an index, the map from external ids to local ids, and the fencing epoch. A
handler that calls `HNSW::insert` takes the level the index draws as an argument and returns
`none` if the index does not return.

A float is any type with a zero and `==`; the index holds vectors of `VECTOR_DIM` of them.

Local ids are natural numbers. The id map has them as `uint32_t` and the metadata as `int`, in a
vector that grows to the id and 1000 more. They count the keys that were ever inserted, so what is
proved here of shards is about processes with at most `2 ^ 31 - 1000` keys.
-/
import NanoDB.HnswTable
import NanoDB.IdMap

set_option autoImplicit false

namespace NanoDB.Shard

open Raft (Bytes)
open Index
open Beam (Ties)

def VECTOR_DIM : ℕ := 128

/-- A stored vector. -/
abbrev Vec (F : Type*) := Fin VECTOR_DIM → F

/-- A `string` of a request; a protobuf message is smaller than 2 GiB. -/
abbrev Text := { x : Bytes // x.length < 2 ^ 32 }

def one_byte (b : UInt8) : Text := ⟨[b], Nat.one_lt_two_pow (Nat.succ_ne_zero 31)⟩

/-! ## Messages -/

structure InsertRequest (F : Type*) where
  external_id : Text
  vector : List F
  metadata : Text
  epoch : ℕ
deriving DecidableEq

structure DeleteRequest where
  external_id : Text
  epoch : ℕ
deriving DecidableEq

/-- `InsertResponse` and `DeleteResponse`. -/
structure WriteResponse where
  ok : Bool
  error : String := ""
deriving DecidableEq, Repr

structure ListLocalIdsResponse where
  external_ids : List Bytes := []
  ok : Bool
  error : String := ""
deriving DecidableEq, Repr

structure SearchResult (D : Type*) where
  external_id : Bytes
  distance : D
  metadata : Bytes
deriving DecidableEq, Repr

structure SearchResponse (D : Type*) where
  results : List (SearchResult D) := []
  ok : Bool
  error : String := ""
deriving DecidableEq, Repr

structure GetVectorResponse (F : Type*) where
  ok : Bool
  vector : List F := []
  metadata : Bytes := []
  error : String := ""
deriving DecidableEq, Repr

/-! ## Handlers -/

structure ShardServiceImpl (F : Type*) where
  index : HNSW (Vec F)
  id_map : IdMapStore := {}
  current_epoch : ℕ := 0

def stale_epoch (request_epoch current : ℕ) : String :=
  "stale epoch " ++ toString request_epoch ++ ", this shard has already seen epoch " ++
    toString current

def dimension_mismatch : String := "vector dimension mismatch, expected " ++ toString VECTOR_DIM

def different_data : String := "external_id already exists with different data"

def not_found : String := "external_id not found on this shard"

def unavailable : String := "vector data unavailable (deleted or out of range)"

section Handlers

variable {F D : Type*}

/-- `check_and_advance_epoch`. -/
def ShardServiceImpl.check_and_advance_epoch (sh : ShardServiceImpl F) (request_epoch : ℕ) :
    Except String (ShardServiceImpl F) :=
  if request_epoch < sh.current_epoch then .error (stale_epoch request_epoch sh.current_epoch)
  else if request_epoch > sh.current_epoch then .ok { sh with current_epoch := request_epoch }
  else .ok sh

/-- The checks of `Insert` before anything is written. -/
def ShardServiceImpl.checks (sh : ShardServiceImpl F) (req : InsertRequest F) :
    Except String (ShardServiceImpl F) :=
  if req.vector.length ≠ VECTOR_DIM then .error dimension_mismatch
  else sh.check_and_advance_epoch req.epoch

theorem check_and_advance_epoch_ok {sh : ShardServiceImpl F} {e : ℕ} (h : sh.current_epoch ≤ e) :
    sh.check_and_advance_epoch e = .ok { sh with current_epoch := e } := by
  unfold ShardServiceImpl.check_and_advance_epoch
  rw [if_neg (not_lt.mpr h)]
  split
  · rfl
  · rw [show e = sh.current_epoch by omega]

/-- What an accepted epoch leaves. -/
theorem check_and_advance_epoch_spec {sh sh' : ShardServiceImpl F} {e : ℕ}
    (h : sh.check_and_advance_epoch e = .ok sh') :
    sh.current_epoch ≤ e ∧ sh' = { sh with current_epoch := e } := by
  have hle : sh.current_epoch ≤ e := by
    by_contra hlt
    rw [ShardServiceImpl.check_and_advance_epoch, if_pos (not_le.mp hlt)] at h
    simp at h
  rw [check_and_advance_epoch_ok hle] at h
  exact ⟨hle, (Except.ok.inj h).symm⟩

theorem check_and_advance_epoch_eq {sh sh' : ShardServiceImpl F} {e : ℕ}
    (h : sh.check_and_advance_epoch e = .ok sh') : ∃ e', sh' = { sh with current_epoch := e' } :=
  ⟨e, (check_and_advance_epoch_spec h).2⟩

theorem checks_spec {sh sh' : ShardServiceImpl F} {req : InsertRequest F}
    (h : sh.checks req = .ok sh') : req.vector.length = VECTOR_DIM ∧
      sh.current_epoch ≤ req.epoch ∧ sh' = { sh with current_epoch := req.epoch } := by
  unfold ShardServiceImpl.checks at h
  split at h
  · simp at h
  · rename_i hdim
    exact ⟨not_not.mp hdim, check_and_advance_epoch_spec h⟩

theorem checks_eq {sh sh' : ShardServiceImpl F} {req : InsertRequest F}
    (h : sh.checks req = .ok sh') :
    ∃ e, sh' = { sh with current_epoch := e } :=
  ⟨req.epoch, (checks_spec h).2.2⟩

variable [Zero F]

/-- The vector of a request of the right dimension. -/
def to_vec (vector : List F) : Vec F := fun i => vector.getD i 0

/-- A stored vector on the wire. -/
def of_vec (v : Vec F) : List F := List.ofFn v

/-- `std::equal`. -/
def equal [BEq F] (v w : Vec F) : Bool := (List.finRange VECTOR_DIM).all (fun i => v i == w i)

/-- Are the stored data those of the request? An empty `existing_vec` has another size. -/
def same [BEq F] (existing_vec : Option (Vec F)) (existing_meta : Bytes) (req : InsertRequest F) :
    Bool :=
  match existing_vec with
  | none => false
  | some v => equal v (to_vec req.vector) && decide (existing_meta = req.metadata.1)

/-- `Delete`. -/
def ShardServiceImpl.delete (sh : ShardServiceImpl F) (req : DeleteRequest) :
    ShardServiceImpl F × WriteResponse :=
  match sh.check_and_advance_epoch req.epoch with
  | .error e => (sh, ⟨false, e⟩)
  | .ok sh =>
      match sh.id_map.lookup req.external_id with
      | none => (sh, ⟨false, not_found⟩)
      | some local_id => ({ sh with index := sh.index.delete_vector local_id }, ⟨true, ""⟩)

/-- The condition in the loop of `ListLocalIds`. -/
def ShardServiceImpl.listed (sh : ShardServiceImpl F) (x : Bytes) : Bool :=
  match sh.id_map.lookup x with
  | none => false
  | some local_id => !sh.index.is_deleted local_id

/-- `ListLocalIds`. -/
def ShardServiceImpl.list_local_ids (sh : ShardServiceImpl F) : ListLocalIdsResponse :=
  { external_ids := sh.id_map.list_all_external_ids.filter sh.listed
    ok := true }

/-- `GetVector`. -/
def ShardServiceImpl.get_vector (sh : ShardServiceImpl F) (external_id : Text) :
    GetVectorResponse F :=
  match sh.id_map.lookup external_id with
  | none => { ok := false, error := not_found }
  | some local_id =>
      match sh.index.get_vector_data local_id with
      | none => { ok := false, error := unavailable }
      | some v => { ok := true, vector := of_vec v, metadata := sh.index.get_metadata local_id }

/-- A shard with empty files. -/
def ShardServiceImpl.fresh (storage_size : ℕ) : ShardServiceImpl F :=
  { index := HNSW.fresh storage_size }

/-- The process is killed between two calls and the files are opened again. The index file is
as the last call left it; the epoch was only in memory. -/
def ShardServiceImpl.reopen (sh : ShardServiceImpl F) : ShardServiceImpl F :=
  { index := sh.index.reopen
    id_map := IdMapStore.open_file sh.id_map.file }

/-- `Search`. -/
def ShardServiceImpl.search [LinearOrder D] (ties : Ties D) (dist : Vec F → Vec F → D)
    (sh : ShardServiceImpl F) (vector : List F) (k : ℕ) : Option (SearchResponse D) :=
  if vector.length ≠ VECTOR_DIM then some { ok := false, error := dimension_mismatch }
  else
    (sh.index.search ties dist (to_vec vector) k 0).map (fun results =>
      { results := results.map (fun r =>
          ⟨sh.id_map.reverse_lookup r.id, r.distance, r.metadata⟩)
        ok := true })

variable [BEq F] [LinearOrder D] (ties : Ties D) (dist : Vec F → Vec F → D)

/-- `Insert`. -/
def ShardServiceImpl.insert (sh : ShardServiceImpl F) (req : InsertRequest F)
    (level : Fin MAX_LAYERS) : Option (ShardServiceImpl F × WriteResponse) :=
  match sh.checks req with
  | .error e => some (sh, ⟨false, e⟩)
  | .ok sh =>
      let r := sh.id_map.assign req.external_id
      let local_id := r.2.1
      let is_new := r.2.2
      let sh := { sh with id_map := r.1 }
      if is_new = false ∧ sh.index.is_deleted local_id = false then
        if same (sh.index.get_vector_data local_id) (sh.index.get_metadata local_id) req then
          some (sh, ⟨true, ""⟩)
        else some (sh, ⟨false, different_data⟩)
      else
        (sh.index.insert ties dist (to_vec req.vector) local_id level req.metadata).map
          (fun index => ({ sh with index := index }, ⟨true, ""⟩))

end Handlers

end NanoDB.Shard
