/-
`POST /search` of `cluster/coordinator_main.cpp`, from the replicas to the answers of the shards.

`select_read_targets` picks one replica of each shard, the handler asks each of them, and
`SearchGather.lean` merges what they send and lists the shards that did not answer.

# The one awkward thing, named up front

A shard for which no replica is picked is not asked, so it cannot fail to answer, and it is not
listed. The comment of `select_read_targets` says that a strong read reports such a shard as
unavailable. An eventual read always finds a replica.
-/
import NanoDB.Lib.Grouping
import NanoDB.QuorumWrite
import NanoDB.SearchGather

set_option autoImplicit false

namespace NanoDB.Coord

open Shard
open Grouping (group)

/-! ## Which replicas are asked -/

/-- `by_shard`: the replicas of each shard id, in the order of the `std::map`. -/
def by_shard (pool : List ShardClient) : List (ℤ × List ShardClient) :=
  Grouping.groups ShardClient.shard_id pool

/-- The replica of one shard that is read: the last primary for `"strong"`, and otherwise the
first replica that is no primary, or the first of all. -/
def chosen (consistency : String) (replicas : List ShardClient) : Option ShardClient :=
  if consistency = "strong" then
    replicas.foldl (fun chosen r => if r.is_primary then some r else chosen) none
  else
    match replicas.find? (fun r => !r.is_primary) with
    | some r => some r
    | none => replicas.head?

def select_read_targets (pool : List ShardClient) (consistency : String) : List ShardClient :=
  (by_shard pool).filterMap (fun p => chosen consistency p.2)

/-- The last primary of a list is one of it, and there is none only if no replica is one. -/
theorem foldl_primary (replicas : List ShardClient) :
    ∀ start : Option ShardClient,
      (∀ r, replicas.foldl (fun chosen r => if r.is_primary then some r else chosen) start
          = some r → start = some r ∨ r ∈ replicas ∧ r.is_primary = true) ∧
      (replicas.foldl (fun chosen r => if r.is_primary then some r else chosen) start = none ↔
        start = none ∧ ∀ r ∈ replicas, r.is_primary = false) := by
  induction replicas with
  | nil => simp
  | cons r replicas ih =>
      intro start
      rw [List.foldl_cons]
      obtain ⟨hsome, hnone⟩ := ih (if r.is_primary then some r else start)
      constructor
      · intro r' hr'
        rcases hsome r' hr' with hstart | ⟨hmem, hprimary⟩
        · by_cases hr : r.is_primary = true
          · rw [if_pos hr] at hstart
            obtain rfl := Option.some.inj hstart
            exact Or.inr ⟨List.mem_cons_self, hr⟩
          · rw [if_neg hr] at hstart
            exact Or.inl hstart
        · exact Or.inr ⟨List.mem_cons_of_mem r hmem, hprimary⟩
      · rw [hnone, List.forall_mem_cons]
        cases hr : r.is_primary <;> simp

/-- What is chosen is one of the replicas. -/
theorem chosen_mem {consistency : String} {replicas : List ShardClient} {sc : ShardClient}
    (h : chosen consistency replicas = some sc) : sc ∈ replicas := by
  unfold chosen at h
  split at h
  · rcases (foldl_primary replicas none).1 sc h with hstart | hmem
    · simp at hstart
    · exact hmem.1
  · split at h
    · rename_i r hfind
      obtain rfl := Option.some.inj h
      exact List.mem_of_find?_eq_some hfind
    · exact List.mem_of_head? h

/-- A replica is read if it is chosen among those of its shard. -/
theorem mem_select_read_targets {pool : List ShardClient} {consistency : String}
    {sc : ShardClient} :
    sc ∈ select_read_targets pool consistency ↔
      chosen consistency (group ShardClient.shard_id pool sc.shard_id) = some sc := by
  rw [select_read_targets, List.mem_filterMap]
  constructor
  · rintro ⟨⟨sid, replicas⟩, hg, hchosen⟩
    obtain rfl : replicas = group ShardClient.shard_id pool sid :=
      (Grouping.mem_groups.mp hg).2
    rwa [(Grouping.mem_group.mp (chosen_mem hchosen)).2]
  · intro hchosen
    have hmem := (Grouping.mem_group.mp (chosen_mem hchosen)).1
    exact ⟨(sc.shard_id, _), Grouping.mem_groups.mpr ⟨⟨sc, hmem, rfl⟩, rfl⟩, hchosen⟩

/-- **When none is chosen**: only for a strong read, if no replica is a primary. -/
theorem chosen_eq_none {consistency : String} {replicas : List ShardClient}
    (hne : replicas ≠ []) :
    chosen consistency replicas = none ↔
      consistency = "strong" ∧ ∀ r ∈ replicas, r.is_primary = false := by
  unfold chosen
  split
  · rename_i hstrong
    rw [(foldl_primary replicas none).2]
    simp [hstrong]
  · rename_i hstrong
    cases hfind : replicas.find? (fun r => !r.is_primary) with
    | none => simp [hne, hstrong]
    | some r => simp [hstrong]

/-- A shard with a replica in the pool has a replica that is read, unless the read is strong and
it has no primary there. -/
theorem exists_target {pool : List ShardClient} {consistency : String} {sid : ℤ} :
    (∃ sc ∈ select_read_targets pool consistency, sc.shard_id = sid) ↔
      (∃ sc ∈ pool, sc.shard_id = sid) ∧
        (consistency = "strong" → ∃ sc ∈ pool, sc.shard_id = sid ∧ sc.is_primary = true) := by
  have hmem : ∀ sc, sc ∈ group ShardClient.shard_id pool sid ↔ sc ∈ pool ∧ sc.shard_id = sid :=
    fun sc => Grouping.mem_group
  have hnone := @chosen_eq_none consistency (group ShardClient.shard_id pool sid)
  constructor
  · rintro ⟨sc, hsc, rfl⟩
    have hchosen := mem_select_read_targets.mp hsc
    have hsc' := chosen_mem hchosen
    refine ⟨⟨sc, (hmem sc).mp hsc'⟩, fun hstrong => ?_⟩
    by_contra hno
    rw [(hnone (List.ne_nil_of_mem hsc')).mpr ⟨hstrong, fun r hr => ?_⟩] at hchosen
    · simp at hchosen
    · have hr := (hmem r).mp hr
      by_contra hprimary
      exact hno ⟨r, hr.1, hr.2, by simpa using hprimary⟩
  · rintro ⟨⟨sc, hsc⟩, hstrong⟩
    cases hchosen : chosen consistency (group ShardClient.shard_id pool sid) with
    | none =>
        obtain ⟨hcons, hall⟩ := (hnone (List.ne_nil_of_mem ((hmem sc).mpr hsc))).mp hchosen
        obtain ⟨p, hp, hsid, hprimary⟩ := hstrong hcons
        rw [hall p ((hmem p).mpr ⟨hp, hsid⟩)] at hprimary
        simp at hprimary
    | some r =>
        have hr := (hmem r).mp (chosen_mem hchosen)
        refine ⟨r, mem_select_read_targets.mpr ?_, hr.2⟩
        rw [hr.2]
        exact hchosen

/-! ## The handler -/

section Handler

variable {D : Type*}

/-- What `fut.get()` yields of a status and a response. -/
def search_result (rpc : Bool × SearchResponse D) : SearchResponse D :=
  if rpc.1 then rpc.2 else { rpc.2 with ok := false }

/-- One future for each replica that is asked. -/
def ask (rpc : ShardClient → Bool × SearchResponse D) (targets : List ShardClient) :
    List (ℤ × SearchResponse D) :=
  targets.map (fun sc => (sc.shard_id, search_result (rpc sc)))

/-- `POST /search`, after the body is parsed. `rpc` has the outcome of each `Search`. -/
def post_search [LinearOrder D] (queue : Queue D) (g_shards : List ShardClient)
    (rpc : ShardClient → Bool × SearchResponse D) (k : ℕ) (consistency : String) :
    Option (SearchReply D) :=
  gather queue (ask rpc (select_read_targets (live_shards g_shards) consistency)) k consistency

/-- What the shard sent is part of what is merged. -/
def Contributed (futures : List (ℤ × SearchResponse D)) (sid : ℤ) : Prop :=
  ∃ res, (sid, res) ∈ futures ∧ res.ok = true ∧ res.results ∈ answered futures

/-- The answer names the shard as unavailable. -/
def SearchReply.Reports (reply : SearchReply D) (sid : ℤ) : Prop :=
  sid ∈ reply.unavailable_shards ∧ reply.degraded = true

/-- A future contributes or fails. -/
theorem contributed_or_failed {futures : List (ℤ × SearchResponse D)} {sid : ℤ} :
    (∃ res, (sid, res) ∈ futures) ↔ Contributed futures sid ∨
      sid ∈ (futures.filter (fun f => !f.2.ok)).map Prod.fst := by
  constructor
  · rintro ⟨res, hres⟩
    cases hok : res.ok with
    | true =>
        refine Or.inl ⟨res, hres, hok, List.mem_map.mpr ⟨(sid, res), ?_, rfl⟩⟩
        exact List.mem_filter.mpr ⟨hres, hok⟩
    | false =>
        refine Or.inr (List.mem_map.mpr ⟨(sid, res), ?_, rfl⟩)
        exact List.mem_filter.mpr ⟨hres, by simp [hok]⟩
  · rintro (⟨res, hres, -⟩ | hfailed)
    · exact ⟨res, hres⟩
    · obtain ⟨⟨sid', res⟩, hmem, rfl⟩ := List.mem_map.mp hfailed
      exact ⟨res, (List.mem_filter.mp hmem).1⟩

variable [LinearOrder D]

/-- The answer is a merge of what came, and reports what did not come. -/
theorem gather_reports (queue : Queue D) (futures : List (ℤ × SearchResponse D)) (k : ℕ)
    (consistency : String) :
    ∃ reply, gather queue futures k consistency = some reply ∧
      (∃ out, out.Perm (answered futures).flatten ∧ reply.results = reference out k) ∧
      ∀ sid, reply.Reports sid ↔ sid ∈ (futures.filter (fun f => !f.2.ok)).map Prod.fst := by
  obtain ⟨out, hperm, -, hgather⟩ := gather_spec queue futures k consistency
  refine ⟨_, hgather, ⟨out, hperm, rfl⟩, fun sid => and_iff_left_of_imp fun hmem => ?_⟩
  have hne := List.ne_nil_of_mem hmem
  simpa using hne

/-- **When no shard is missing from an answer.** The search returns, with the merge of what the
shards that answered sent. Every shard with an active replica contributed to it or is reported,
and a strong read reports those without an active primary, if and only if the read is not strong
or every such shard has an active primary. -/
theorem no_shard_missing_iff (queue : Queue D) (g_shards : List ShardClient)
    (rpc : ShardClient → Bool × SearchResponse D) (k : ℕ) (consistency : String) :
    ∃ reply futures, post_search queue g_shards rpc k consistency = some reply ∧
      futures = ask rpc (select_read_targets (live_shards g_shards) consistency) ∧
      (∃ out, out.Perm (answered futures).flatten ∧ reply.results = reference out k) ∧
      ((∀ sid, (∃ sc ∈ live_shards g_shards, sc.shard_id = sid) →
          (Contributed futures sid ∨ reply.Reports sid) ∧
          (consistency = "strong" →
            (¬ ∃ sc ∈ live_shards g_shards, sc.shard_id = sid ∧ sc.is_primary = true) →
            reply.Reports sid)) ↔
        (consistency = "strong" → ∀ sc ∈ live_shards g_shards,
          ∃ p ∈ live_shards g_shards, p.shard_id = sc.shard_id ∧ p.is_primary = true)) := by
  obtain ⟨reply, hgather, hout, hreports⟩ := gather_reports queue
    (ask rpc (select_read_targets (live_shards g_shards) consistency)) k consistency
  refine ⟨reply, _, hgather, rfl, hout, ?_⟩
  -- who contributed or is reported was asked, and who was asked had a replica to be chosen
  have hasked : ∀ sid, Contributed (ask rpc (select_read_targets (live_shards g_shards)
      consistency)) sid ∨ reply.Reports sid ↔ (∃ sc ∈ live_shards g_shards, sc.shard_id = sid) ∧
      (consistency = "strong" →
        ∃ sc ∈ live_shards g_shards, sc.shard_id = sid ∧ sc.is_primary = true) := by
    intro sid
    rw [hreports, ← contributed_or_failed, ← exists_target]
    simp [ask]
  constructor
  · intro h hstrong sc hsc
    exact ((hasked _).mp (h sc.shard_id ⟨sc, hsc, rfl⟩).1).2 hstrong
  · rintro h sid ⟨sc, hsc, rfl⟩
    refine ⟨(hasked _).mpr ⟨⟨sc, hsc, rfl⟩, fun hstrong => h hstrong sc hsc⟩, ?_⟩
    intro hstrong hno
    exact absurd (h hstrong sc hsc) hno

end Handler

/-- Shard 0 has its primary; the primary of shard 1 was removed, its other replica is active. -/
def headless : List ShardClient :=
  [⟨0, 0, "a", 50051, true, true, 1⟩, ⟨1, 0, "b", 50052, false, true, 1⟩,
    ⟨1, 1, "c", 50053, true, false, 1⟩]

/-- Every replica answers with one result. -/
def one_result : SearchResponse ℤ := ⟨[⟨[7], 3, []⟩], true, ""⟩

/-- A strong search answers with the results of shard 0 and does not mention shard 1. -/
theorem strong_read_skips_shard :
    (∃ sc ∈ live_shards headless, sc.shard_id = 1) ∧
    ∃ reply, post_search Queue.first headless (fun _ => (true, one_result)) 10 "strong"
        = some reply ∧
      ¬ Contributed (ask (fun _ => (true, one_result))
        (select_read_targets (live_shards headless) "strong")) 1 ∧
      ¬ reply.Reports 1 := by
  have hask : ask (fun _ => (true, one_result))
      (select_read_targets (live_shards headless) "strong") = [(0, one_result)] := by
    decide +kernel
  refine ⟨by decide, ⟨[⟨[7], 3, []⟩], "strong", false, []⟩, by decide +kernel, ?_, ?_⟩
  · rw [hask]
    rintro ⟨res, hres, -⟩
    simp at hres
  · rintro ⟨hmem, -⟩
    simp at hmem

end NanoDB.Coord
