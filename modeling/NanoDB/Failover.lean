/-
`cluster/coordinator_main.cpp`: which replica the failover of `health_check_loop` promotes.

A replica is a shard process that executes writes and is restarted now and then. It answers
`Stats` with the number of its keys (`ShardCount.lean`), and the one with the most is promoted.

# The one awkward thing, named up front

The comment in the source says that a replica that missed a contiguous block of writes has a
strictly lower `element_count`. A block that deletes as much as it inserts does not lower it, and
one that deletes more raises it. What decides is whether skipping the block leaves fewer keys.
-/
import NanoDB.CoordAdmin
import NanoDB.ShardCount

set_option autoImplicit false

namespace NanoDB.Coord

open Raft (Bytes)
open Shard
open Index (MAX_LAYERS)
open Beam (Ties)

/-! ## The history of a replica -/

/-- What a client asks for. Every replica gets it with its own epoch. -/
inductive Change (F : Type*)
  | insert (external_id : Text) (vector : List F) (metadata : Text)
  | delete (external_id : Text)

def Change.body {F : Type*} : Change F → ℕ → Write F
  | .insert x vector metadata => fun epoch => .insert ⟨x, vector, metadata, epoch⟩
  | .delete x => fun epoch => .delete ⟨x, epoch⟩

/-- The keys of a shard after a change. -/
def Change.keys {F : Type*} (keys : Finset Bytes) : Change F → Finset Bytes
  | .insert x _ _ => Insert.insert x.1 keys
  | .delete x => keys.erase x.1

/-- The keys of a new shard after a history of changes. -/
def keys_after {F : Type*} (history : List (Change F)) : Finset Bytes :=
  history.foldl Change.keys ∅

inductive ReplicaAct (F : Type*)
  | write (change : Change F) (epoch : ℕ) (level : Fin MAX_LAYERS)
  | restart

/-- The changes that the replica was asked for. -/
def ReplicaAct.change {F : Type*} : ReplicaAct F → Option (Change F)
  | .write change _ _ => some change
  | .restart => none

/-- One change adds at most one key. -/
theorem card_keys_le {F : Type*} (keys : Finset Bytes) (change : Change F) :
    (change.keys keys).card ≤ keys.card + 1 := by
  cases change with
  | insert x vector metadata => exact Finset.card_insert_le x.1 keys
  | delete x => exact Nat.le_succ_of_le Finset.card_erase_le

theorem filterMap_change_cons {F : Type*} (a : ReplicaAct F) (as : List (ReplicaAct F)) :
    (a :: as).filterMap ReplicaAct.change
      = a.change.toList ++ as.filterMap ReplicaAct.change := by
  cases a <;> rfl

theorem card_foldl_keys_le {F : Type*} (changes : List (Change F)) :
    ∀ keys : Finset Bytes,
      (changes.foldl Change.keys keys).card ≤ keys.card + changes.length := by
  induction changes with
  | nil =>
      intro keys
      exact le_rfl
  | cons change changes ih =>
      intro keys
      have hone := card_keys_le keys change
      have hrest := ih (change.keys keys)
      rw [List.foldl_cons, List.length_cons]
      omega

section Replica

variable {F D : Type*} [Zero F]

/-- The write passes the checks of its handler. -/
def Applied (sh : ShardServiceImpl F) : ReplicaAct F → Prop
  | .write (.insert _ vector _) epoch _ => vector.length = VECTOR_DIM ∧ sh.current_epoch ≤ epoch
  | .write (.delete _) epoch _ => sh.current_epoch ≤ epoch
  | .restart => True

instance decidableApplied (sh : ShardServiceImpl F) (a : ReplicaAct F) :
    Decidable (Applied sh a) := by
  rcases a with ⟨⟨⟩, -, -⟩ | - <;> unfold Applied <;> infer_instance

variable [BEq F] [LinearOrder D] (ties : Ties D) (dist : Vec F → Vec F → D)

def replica_step (sh : ShardServiceImpl F) : ReplicaAct F → Option (ShardServiceImpl F)
  | .write change epoch level =>
      ((change.body epoch).execute ties dist sh level).map Prod.fst
  | .restart => some sh.reopen

/-- The write is answered ok. -/
def Acknowledged (sh : ShardServiceImpl F) : ReplicaAct F → Prop
  | .write change epoch level =>
      ((change.body epoch).execute ties dist sh level).any (fun p => p.2.ok) = true
  | .restart => True

instance decidableAcknowledged (sh : ShardServiceImpl F) (a : ReplicaAct F) :
    Decidable (Acknowledged ties dist sh a) := by
  rcases a <;> unfold Acknowledged <;> infer_instance

/-! ## What `Stats` answers -/

/-- **One step**: a write that is applied changes the keys as the client asked, a restart does
not change them. -/
theorem replica_step_counted {sh : ShardServiceImpl F} {keys : Finset Bytes}
    (h : Counted sh keys) {a : ReplicaAct F} (happlied : Applied sh a)
    (hfits : keys.card < 2 ^ 32) :
    ∃ sh', replica_step ties dist sh a = some sh' ∧
      Counted sh' (a.change.toList.foldl Change.keys keys) := by
  rcases a with ⟨⟨x, vector, metadata⟩ | ⟨x⟩, epoch, level⟩ | -
  · obtain ⟨hdim, hepoch⟩ := happlied
    obtain ⟨sh', res, hinsert, hcounted, -⟩ :=
      counted_insert ties dist h ⟨x, vector, metadata, epoch⟩ level hdim hepoch (by omega)
    refine ⟨sh', ?_, hcounted⟩
    rw [replica_step, Change.body, Write.execute, hinsert]
    rfl
  · exact ⟨_, rfl, (counted_delete h ⟨x, epoch⟩ happlied).1⟩
  · exact ⟨_, rfl, counted_reopen h hfits⟩

/-- **A whole history**: every replica gets through it, and has the keys the clients asked for. -/
theorem replica_run_counted (as : List (ReplicaAct F)) :
    ∀ {sh : ShardServiceImpl F} {keys : Finset Bytes}, Counted sh keys →
      Trace.Along (replica_step ties dist) Applied sh as →
      keys.card + (as.filterMap ReplicaAct.change).length < 2 ^ 32 →
      ∃ sh', Trace.run (replica_step ties dist) sh as = some sh' ∧
        Counted sh' ((as.filterMap ReplicaAct.change).foldl Change.keys keys) := by
  induction as with
  | nil =>
      intro sh keys h _ _
      exact ⟨sh, rfl, h⟩
  | cons a as ih =>
      rintro sh keys h ⟨happlied, halong⟩ hfits
      rw [filterMap_change_cons, List.length_append] at hfits
      obtain ⟨sh₁, hstep, hcounted⟩ := replica_step_counted ties dist h happlied (by omega)
      have hcard := card_foldl_keys_le a.change.toList keys
      obtain ⟨sh₂, hrun, hcounted⟩ := ih hcounted (halong sh₁ hstep) (by omega)
      rw [filterMap_change_cons, List.foldl_append, Trace.run_step hstep]
      exact ⟨sh₂, hrun, hcounted⟩

/-- A replica answers `Stats` with the number of keys that its writes leave. -/
theorem stats_of_run {storage_size : ℕ} {as : List (ReplicaAct F)} {sh : ShardServiceImpl F}
    {history : List (Change F)} (hchanges : as.filterMap ReplicaAct.change = history)
    (hfits : history.length < 2 ^ 32)
    (hrun : Trace.run (replica_step ties dist) (.fresh storage_size) as = some sh)
    (happlied : Trace.Along (replica_step ties dist) Applied (.fresh storage_size) as) :
    sh.stats = (keys_after history).card := by
  obtain ⟨sh', hrun', hcounted⟩ := replica_run_counted ties dist as (counted_fresh storage_size)
    happlied (by rw [hchanges, Finset.card_empty]; omega)
  obtain rfl : sh' = sh := Option.some.inj (hrun'.symm.trans hrun)
  rw [hcounted.count, hchanges, keys_after]

end Replica

/-! ## The promotion -/

/-- One replica more: the candidate stays and has at least its count, or the replica answered a
count that is at least the candidate's and takes its place. -/
theorem better_cases (candidate : Option (ShardClient × ℕ)) (r : ShardClient × Option ℕ) :
    (better candidate r = candidate ∧
      ∀ n, r.2 = some n → ∃ sc m, candidate = some (sc, m) ∧ n ≤ m) ∨
    ∃ n, r.2 = some n ∧ better candidate r = some (r.1, n) ∧
      ∀ sc m, candidate = some (sc, m) → m ≤ n := by
  obtain ⟨client, stats⟩ := r
  rcases stats with _ | n
  · exact Or.inl ⟨rfl, by simp⟩
  rcases candidate with _ | ⟨sc, m⟩
  · exact Or.inr ⟨n, rfl, rfl, by simp⟩
  by_cases hn : n > m
  · refine Or.inr ⟨n, rfl, if_pos hn, ?_⟩
    rintro sc' m' heq
    obtain ⟨-, rfl⟩ := Prod.mk.inj (Option.some.inj heq)
    exact hn.le
  · refine Or.inl ⟨if_neg hn, ?_⟩
    rintro n' heq
    obtain rfl := Option.some.inj heq
    exact ⟨sc, m, rfl, not_lt.mp hn⟩

/-- The candidate answered its count, and nobody answered more. -/
theorem foldl_better_spec (rs : List (ShardClient × Option ℕ)) :
    ∀ (candidate : Option (ShardClient × ℕ)) {best : ShardClient} {count : ℕ},
      rs.foldl better candidate = some (best, count) →
      (candidate = some (best, count) ∨ (best, some count) ∈ rs) ∧
      (∀ sc n, candidate = some (sc, n) → n ≤ count) ∧
      ∀ sc n, (sc, some n) ∈ rs → n ≤ count := by
  induction rs with
  | nil =>
      intro candidate best count h
      refine ⟨Or.inl h, ?_, by simp⟩
      rintro sc n rfl
      exact (Prod.mk.inj (Option.some.inj h)).2.le
  | cons r rs ih =>
      intro candidate best count h
      obtain ⟨hmem, hcandidate, hrest⟩ := ih (better candidate r) h
      rcases better_cases candidate r with ⟨hsame, hless⟩ | ⟨n, hn, hnew, hless⟩
      · rw [hsame] at hmem hcandidate
        refine ⟨hmem.imp_right (List.mem_cons_of_mem r), hcandidate, ?_⟩
        rintro sc m hm
        rcases List.mem_cons.mp hm with rfl | hm
        · obtain ⟨sc', m', heq, hle⟩ := hless m rfl
          exact hle.trans (hcandidate sc' m' heq)
        · exact hrest sc m hm
      · have hcount : n ≤ count := hcandidate r.1 n hnew
        refine ⟨Or.inr ?_, fun sc m heq => (hless sc m heq).trans hcount, ?_⟩
        · rcases hmem with heq | hmem
          · obtain ⟨rfl, rfl⟩ := Prod.mk.inj (Option.some.inj (hnew.symm.trans heq))
            exact List.mem_cons.mpr (Or.inl (Prod.ext rfl hn.symm))
          · exact List.mem_cons_of_mem r hmem
        · rintro sc m hm
          rcases List.mem_cons.mp hm with rfl | hm
          · obtain rfl := Option.some.inj hn
            exact hcount
          · exact hrest sc m hm

/-- **The promoted replica** has the highest count of all that answered. -/
theorem promotion_max {rs : List (ShardClient × Option ℕ)} {sc : ShardClient}
    (h : promotion rs = some sc) :
    ∃ count, (sc, some count) ∈ rs ∧ ∀ sc' n, (sc', some n) ∈ rs → n ≤ count := by
  obtain ⟨⟨best, count⟩, hbest, rfl⟩ := Option.map_eq_some_iff.mp h
  obtain ⟨hmem, -, hmax⟩ := foldl_better_spec rs none hbest
  exact ⟨count, hmem.resolve_left (by simp), hmax⟩

/-- With two replicas, the first one wins unless the second has more. -/
theorem promotion_pair (a b : ShardClient) {m n : ℕ} (h : n ≤ m) :
    promotion [(a, some m), (b, some n)] = some a := by
  have hbetter : better (some (a, m)) (b, some n) = some (a, m) := if_neg (not_lt.mpr h)
  change (better (some (a, m)) (b, some n)).map Prod.fst = some a
  rw [hbetter]
  rfl

/-! ## When the complete replica is preferred -/

/-- A replica of shard 0 that is not its primary. -/
def standby (replica_id : ℤ) : ShardClient := ⟨0, replica_id, "shard", 50051, true, false, 1⟩

section Prefer

variable {F D : Type*} [Zero F] [BEq F] [LinearOrder D] (ties : Ties D)
  (dist : Vec F → Vec F → D)

/-- **When a replica that missed a block is never promoted** over a reachable one that missed
nothing: if and only if the history without the block leaves fewer keys. -/
theorem complete_replica_preferred_iff {pre block post : List (Change F)}
    (hfits : (pre ++ block ++ post).length < 2 ^ 32) {size_a size_b : ℕ}
    {as bs : List (ReplicaAct F)} {A B : ShardServiceImpl F}
    (has : as.filterMap ReplicaAct.change = pre ++ block ++ post)
    (hA : Trace.run (replica_step ties dist) (.fresh size_a) as = some A)
    (hasA : Trace.Along (replica_step ties dist) Applied (.fresh size_a) as)
    (hbs : bs.filterMap ReplicaAct.change = pre ++ post)
    (hB : Trace.run (replica_step ties dist) (.fresh size_b) bs = some B)
    (hbsB : Trace.Along (replica_step ties dist) Applied (.fresh size_b) bs) :
    (∀ (a b : ShardClient) (replicas : List (ShardClient × Option ℕ)), a ≠ b →
      (replicas.map Prod.fst).Nodup → (a, some A.stats) ∈ replicas →
      (b, some B.stats) ∈ replicas → promotion replicas ≠ some b) ↔
    (keys_after (pre ++ post)).card < (keys_after (pre ++ block ++ post)).card := by
  have hshort : (pre ++ post).length < 2 ^ 32 := by
    rw [List.length_append, List.length_append] at hfits
    rw [List.length_append]
    omega
  rw [← stats_of_run ties dist has hfits hA hasA, ← stats_of_run ties dist hbs hshort hB hbsB]
  constructor
  · intro h
    by_contra hle
    -- the replica that missed the block is asked first
    apply h (standby 1) (standby 2) [(standby 2, some B.stats), (standby 1, some A.stats)]
      (by decide) (by simp [standby]) (by simp) List.mem_cons_self
    exact promotion_pair (standby 2) (standby 1) (not_lt.mp hle)
  · rintro hless a b replicas - hnodup ha hb hpromoted
    obtain ⟨count, hmem, hmax⟩ := promotion_max hpromoted
    have hcount : (b, some count) = (b, some B.stats) :=
      List.inj_on_of_nodup_map hnodup hmem hb rfl
    obtain rfl : count = B.stats := Option.some.inj (Prod.mk.inj hcount).2
    exact absurd (hmax a A.stats ha) (not_le.mpr hless)

end Prefer

/-- A vector of the right dimension. -/
def point (v : ℤ) : List ℤ := List.replicate VECTOR_DIM v

def put (key : UInt8) : ReplicaAct ℤ := .write (.insert (one_byte key) (point 0) (one_byte 0)) 1 0

def remove (key : UInt8) : ReplicaAct ℤ := .write (.delete (one_byte key)) 1 0

/-- The replica was down while the second of three keys was inserted. -/
theorem complete_replica_preferred_iff_one_insert_missed :
    ∃ A B, Trace.run (replica_step Ties.first (fun _ _ => (0 : ℤ))) (.fresh 4096)
        [put 1, put 2, put 3] = some A ∧
      Trace.run (replica_step Ties.first (fun _ _ => (0 : ℤ))) (.fresh 4096)
        [put 1, .restart, put 3] = some B ∧
      ∀ (a b : ShardClient) (replicas : List (ShardClient × Option ℕ)), a ≠ b →
        (replicas.map Prod.fst).Nodup → (a, some A.stats) ∈ replicas →
        (b, some B.stats) ∈ replicas → promotion replicas ≠ some b := by
  obtain ⟨A, hA⟩ := Option.isSome_iff_exists.mp
    (show (Trace.run (replica_step Ties.first (fun _ _ => (0 : ℤ))) (.fresh 4096)
      [put 1, put 2, put 3]).isSome = true by decide +kernel)
  obtain ⟨B, hB⟩ := Option.isSome_iff_exists.mp
    (show (Trace.run (replica_step Ties.first (fun _ _ => (0 : ℤ))) (.fresh 4096)
      [put 1, .restart, put 3]).isSome = true by decide +kernel)
  refine ⟨A, B, hA, hB, ?_⟩
  apply (@complete_replica_preferred_iff ℤ ℤ _ _ _ Ties.first (fun _ _ => 0)
    [.insert (one_byte 1) (point 0) (one_byte 0)] [.insert (one_byte 2) (point 0) (one_byte 0)]
    [.insert (one_byte 3) (point 0) (one_byte 0)] (by decide) 4096 4096 _ _ A B rfl hA
    (by decide +kernel) rfl hB (by decide +kernel)).mpr
  decide

/-- Keys 1 and 2 are inserted. While replica 2 is down, key 3 is inserted and keys 1 and 2 are
deleted; replica 1 acknowledges everything. It has one key, replica 2 has two and is promoted,
and key 3 is not there. -/
theorem promoted_replica_misses_insert :
    Trace.Along (replica_step Ties.first (fun _ _ => (0 : ℤ)))
      (Acknowledged Ties.first (fun _ _ => (0 : ℤ))) (.fresh 4096)
      [put 1, put 2, put 3, remove 1, remove 2] ∧
    ((Trace.run (replica_step Ties.first (fun _ _ => (0 : ℤ))) (.fresh 4096)
        [put 1, put 2, put 3, remove 1, remove 2]).bind (fun A =>
      (Trace.run (replica_step Ties.first (fun _ _ => (0 : ℤ))) (.fresh 4096)
        [put 1, put 2]).map (fun B =>
      (A.live [3], B.live [3],
        promotion [(standby 1, some A.stats), (standby 2, some B.stats)]))))
      = some (true, false, some (standby 2)) := by
  decide +kernel

end NanoDB.Coord
