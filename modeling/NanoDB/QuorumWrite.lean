/-
`cluster/coordinator_main.cpp`: `quorum_insert` and `quorum_delete`.

A quorum write sends one RPC to every replica and waits for all of them. It succeeds when the
primary and a majority of the replicas have answered ok. The RPCs are a list of calls that only
grows, each answered by its process at some later time; the caller holds one future a replica,
which resolves to the answer, or to false when the reply is lost or the deadline has passed.

Who issues a write and what else happens in between is left to the systems built on top of this.
-/
import NanoDB.Coordinator
import NanoDB.ShardService

set_option autoImplicit false

namespace NanoDB.Coord

open Raft (Bytes)
open Shard
open Index (MAX_LAYERS)
open Beam (Ties)

/-! ## Replicas -/

/-- A shard process: shard id and replica id. -/
abbrev Node := ℤ × ℤ

def ShardClient.node (sc : ShardClient) : Node := (sc.shard_id, sc.replica_id)

/-- `replicas_for_shard`, the primary first. -/
def replicas_for_shard (pool : List ShardClient) (shard_id : ℤ) : List ShardClient :=
  let out := pool.filter (fun sc => decide (sc.shard_id = shard_id))
  out.filter (fun sc => sc.is_primary) ++ out.filter (fun sc => !sc.is_primary)

def find_primary (pool : List ShardClient) (shard_id : ℤ) : Option ShardClient :=
  pool.find? (fun sc => decide (sc.shard_id = shard_id) && sc.is_primary)

/-! ## Quorum writes -/

inductive Write (F : Type*)
  | insert (req : InsertRequest F)
  | delete (req : DeleteRequest)

/-- The replica executes a write. -/
def Write.execute {F D : Type*} [Zero F] [BEq F] [LinearOrder D] (ties : Ties D)
    (dist : Vec F → Vec F → D) (body : Write F) (sh : ShardServiceImpl F)
    (level : Fin MAX_LAYERS) : Option (ShardServiceImpl F × WriteResponse) :=
  match body with
  | .insert req => sh.insert ties dist req level
  | .delete req => some (sh.delete req)

theorem execute_cases {F D : Type*} [Zero F] [BEq F] [LinearOrder D] {ties : Ties D}
    {dist : Vec F → Vec F → D} {body : Write F} {sh sh' : ShardServiceImpl F}
    {level : Fin MAX_LAYERS} {res : WriteResponse}
    (h : body.execute ties dist sh level = some (sh', res)) :
    (∃ req, body = .insert req ∧ sh.insert ties dist req level = some (sh', res)) ∨
      ∃ req, body = .delete req ∧ (sh.delete req).1 = sh' ∧ (sh.delete req).2 = res := by
  cases body with
  | insert req => exact Or.inl ⟨req, rfl, h⟩
  | delete req =>
      have hpair : sh.delete req = (sh', res) := Option.some.inj h
      exact Or.inr ⟨req, rfl, congrArg Prod.fst hpair, congrArg Prod.snd hpair⟩

inductive Owner
  | handler
  | client
deriving DecidableEq, Repr

/-- A write RPC, answered once it was executed. -/
structure Call (F : Type*) where
  node : Node
  owner : Owner
  body : Write F
  response : Option WriteResponse := none

/-- The caller's side of an RPC; `primary` marks the one at `primary_idx`. -/
structure Future where
  call : ℕ
  primary : Bool
  result : Option Bool := none
deriving DecidableEq, Repr

structure QuorumResult where
  ok : Bool
  acks : ℕ
  needed : ℕ
deriving DecidableEq, Repr

/-- The last replica that is marked primary. -/
def primary_idx (replicas : List ShardClient) : Option ℕ :=
  (replicas.zipIdx.filter (fun p => p.1.is_primary)).getLast?.map Prod.snd

/-- The first loop of `quorum_insert` and `quorum_delete`: a write to every replica, with the
epoch known for it. -/
def fire {F : Type*} (calls : List (Call F)) (owner : Owner) (replicas : List ShardClient)
    (body : ℕ → Write F) : List (Call F) × List Future :=
  (calls ++ replicas.map (fun sc => ⟨sc.node, owner, body sc.epoch, none⟩),
    replicas.zipIdx.map (fun p =>
      ⟨calls.length + p.2, decide (primary_idx replicas = some p.2), none⟩))

/-- What a future resolves to: `status.ok() && res.ok()`. -/
def outcome {F : Type*} (calls : List (Call F)) (call : ℕ) (delivered : Bool) : Bool :=
  delivered && match (calls[call]?).bind Call.response with
    | some res => res.ok
    | none => false

/-- Future `i` resolves. -/
def resolve {F : Type*} (calls : List (Call F)) (futures : List Future) (i : ℕ)
    (delivered : Bool) : Option (List Future) :=
  match futures[i]? with
  | some ⟨call, primary, none⟩ =>
      some (futures.set i ⟨call, primary, some (outcome calls call delivered)⟩)
  | _ => none

/-- The second loop: primary and majority. -/
def quorum_result (futures : List Future) : QuorumResult :=
  let acks := futures.countP (fun f => f.result = some true)
  let primary_ok := futures.any (fun f => f.primary && decide (f.result = some true))
  let needed := futures.length / 2 + 1
  ⟨primary_ok && decide (needed ≤ acks), acks, needed⟩

/-- All futures have been waited for. -/
def joined (futures : List Future) : Bool := futures.all (fun f => f.result.isSome)

/-! ## What a round of writes leaves -/

section Fire

variable {F : Type*}

theorem mem_replicas_for_shard {pool : List ShardClient} {shard_id : ℤ} {sc : ShardClient} :
    sc ∈ replicas_for_shard pool shard_id ↔ sc ∈ pool ∧ sc.shard_id = shard_id := by
  unfold replicas_for_shard
  cases h : sc.is_primary <;> simp [h]

theorem primary_idx_is_primary {replicas : List ShardClient} {sc : ShardClient} {i : ℕ}
    (hmem : (sc, i) ∈ replicas.zipIdx) (hi : primary_idx replicas = some i) :
    sc.is_primary = true := by
  unfold primary_idx at hi
  obtain ⟨p, hp, rfl⟩ := Option.map_eq_some_iff.mp hi
  obtain ⟨hp₁, hp₂⟩ := List.mem_filter.mp (List.mem_of_getLast? hp)
  have h₁ : replicas[p.2]? = some sc := List.mem_zipIdx_iff_getElem?.mp hmem
  have h₂ : replicas[p.2]? = some p.1 := List.mem_zipIdx_iff_getElem?.mp hp₁
  rw [Option.some.inj (h₁.symm.trans h₂)]
  exact hp₂

/-- The call to the replica at position `i`. -/
theorem fire_getElem? (calls : List (Call F)) (owner : Owner) {replicas : List ShardClient}
    (body : ℕ → Write F) {sc : ShardClient} {i : ℕ} (hi : replicas[i]? = some sc) :
    (fire calls owner replicas body).1[calls.length + i]?
      = some ⟨sc.node, owner, body sc.epoch, none⟩ := by
  unfold fire
  dsimp only
  rw [List.getElem?_append_right (Nat.le_add_right _ _), Nat.add_sub_cancel_left,
    List.getElem?_map, hi]
  rfl

/-- Every future of a round belongs to the call to one replica. -/
theorem fire_future {calls : List (Call F)} (owner : Owner) {replicas : List ShardClient}
    (body : ℕ → Write F) {f : Future} (hf : f ∈ (fire calls owner replicas body).2) :
    ∃ sc ∈ replicas, (fire calls owner replicas body).1[f.call]?
        = some ⟨sc.node, owner, body sc.epoch, none⟩ ∧
      (f.primary = true → sc.is_primary = true) ∧ f.result = none := by
  obtain ⟨⟨sc, i⟩, hp, rfl⟩ := List.mem_map.mp hf
  have hi : replicas[i]? = some sc := List.mem_zipIdx_iff_getElem?.mp hp
  refine ⟨sc, List.mem_of_getElem? hi, fire_getElem? calls owner body hi, fun h => ?_, rfl⟩
  exact primary_idx_is_primary hp (of_decide_eq_true h)

/-- Every replica gets its call. -/
theorem fire_call {calls : List (Call F)} (owner : Owner) {replicas : List ShardClient}
    (body : ℕ → Write F) {sc : ShardClient} (hsc : sc ∈ replicas) :
    ∃ f ∈ (fire calls owner replicas body).2, f.result = none ∧
      (fire calls owner replicas body).1[f.call]? = some ⟨sc.node, owner, body sc.epoch, none⟩ := by
  obtain ⟨i, hi⟩ := List.mem_iff_getElem?.mp hsc
  have hmem : (sc, i) ∈ replicas.zipIdx := List.mem_zipIdx_iff_getElem?.mpr hi
  exact ⟨_, List.mem_map.mpr ⟨(sc, i), hmem, rfl⟩, rfl, fire_getElem? calls owner body hi⟩

/-- Calls stay what they are; one that was answered stays answered. -/
def Grown (calls calls' : List (Call F)) : Prop :=
  ∀ (k : ℕ) (c : Call F), calls[k]? = some c →
    ∃ c' : Call F, calls'[k]? = some c' ∧ c'.node = c.node ∧
    c'.owner = c.owner ∧ c'.body = c.body ∧ ∀ res, c.response = some res → c'.response = some res

theorem grown_append (calls new : List (Call F)) : Grown calls (calls ++ new) := by
  intro k c hk
  have hlt := (List.getElem?_eq_some_iff.mp hk).1
  exact ⟨c, (List.getElem?_append_left hlt).trans hk, rfl, rfl, rfl, fun _ h => h⟩

theorem grown_answer {calls : List (Call F)} {k : ℕ} {c : Call F} (hk : calls[k]? = some c)
    (hopen : c.response = none) (res : WriteResponse) :
    Grown calls (calls.set k { c with response := some res }) := by
  intro j d hj
  by_cases hjk : k = j
  · subst hjk
    obtain rfl : c = d := Option.some.inj (hk.symm.trans hj)
    have hlt := (List.getElem?_eq_some_iff.mp hk).1
    exact ⟨{ c with response := some res }, List.getElem?_set_self hlt, rfl, rfl, rfl,
      fun _ h => absurd (hopen.symm.trans h) (by simp)⟩
  · exact ⟨d, (List.getElem?_set_ne hjk).trans hj, rfl, rfl, rfl, fun _ h => h⟩

/-- Resolving changes the result of one future, and only to what the call answered. -/
theorem resolve_spec {calls : List (Call F)} {futures futures' : List Future} {i : ℕ}
    {delivered : Bool} (h : resolve calls futures i delivered = some futures') :
    ∃ f : Future, futures[i]? = some f ∧
      futures' = futures.set i { f with result := some (outcome calls f.call delivered) } := by
  unfold resolve at h
  split at h
  · rename_i call primary hf
    exact ⟨_, hf, (Option.some.inj h).symm⟩
  · simp at h

theorem outcome_true {calls : List (Call F)} {call : ℕ} {delivered : Bool}
    (h : outcome calls call delivered = true) :
    ∃ (c : Call F) (res : WriteResponse),
      calls[call]? = some c ∧ c.response = some res ∧ res.ok = true := by
  unfold outcome at h
  rw [Bool.and_eq_true] at h
  have hres := h.2
  split at hres
  · rename_i res hc
    obtain ⟨c, hc, hres'⟩ := Option.bind_eq_some_iff.mp hc
    exact ⟨c, res, hc, hres', hres⟩
  · simp at hres

/-- A quorum has the primary's ack. -/
theorem quorum_primary {futures : List Future} (h : (quorum_result futures).ok = true) :
    ∃ f ∈ futures, f.primary = true ∧ f.result = some true := by
  unfold quorum_result at h
  dsimp only at h
  rw [Bool.and_eq_true] at h
  obtain ⟨f, hf, hf'⟩ := List.any_eq_true.mp h.1
  rw [Bool.and_eq_true, decide_eq_true_eq] at hf'
  exact ⟨f, hf, hf'⟩

end Fire

end NanoDB.Coord
