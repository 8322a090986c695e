/-
`POST /search` of `cluster/coordinator_main.cpp`, from the answers of the shards on.

Every shard answers with its own nearest results, sorted. A heap of cursors, one into each list,
yields the results in ascending order; a result whose id was seen before is dropped, and the loop
stops when it has `k`. While a key is migrated it can be on two shards.

Which of several equal distances the heap yields is a parameter (`Queue`), and so is what the
shards hold. The loop carries fuel, and one unit more than the number of results is enough.
-/
import NanoDB.Lib.Heap
import NanoDB.Lib.Ranking
import NanoDB.ShardService

set_option autoImplicit false

namespace NanoDB.Coord

open Raft (Bytes)
open Shard
open Index (HNSW Result)
open Beam (Ties)
open Ranking (Sorted firsts)

/-- The JSON of the answer. -/
structure SearchReply (D : Type*) where
  results : List (SearchResult D)
  consistency : String
  degraded : Bool
  unavailable_shards : List ℤ
deriving DecidableEq, Repr

/-! ## The shard's answer -/

section Search

variable {F D : Type*} [Zero F] [LinearOrder D] (ties : Ties D) (dist : Vec F → Vec F → D)

/-- The index returns its results nearest first. -/
theorem index_search_sorted {s : HNSW (Vec F)} {q : Vec F} {k ef : ℕ} {results : List (Result D)}
    (h : s.search ties dist q k ef = some results) :
    results.Pairwise (fun a b => a.distance ≤ b.distance) := by
  unfold HNSW.search at h
  split at h
  · obtain rfl := Option.some.inj h
    exact List.Pairwise.nil
  · obtain ⟨b, -, hb⟩ := Option.bind_eq_some_iff.mp h
    obtain ⟨found, -, rfl⟩ := Option.map_eq_some_iff.mp hb
    apply List.pairwise_map.mpr
    exact ((Beam.nearest_first_sorted ties found).filter _).take

/-- **What a shard sends** is sorted. -/
theorem search_sorted {sh : ShardServiceImpl F} {vector : List F} {k : ℕ} {res : SearchResponse D}
    (h : sh.search ties dist vector k = some res) :
    Sorted SearchResult.distance res.results := by
  unfold ShardServiceImpl.search at h
  split at h
  · obtain rfl := Option.some.inj h
    exact List.Pairwise.nil
  · obtain ⟨results, hresults, rfl⟩ := Option.map_eq_some_iff.mp h
    exact List.pairwise_map.mpr (index_search_sorted ties dist hresults)

end Search

/-! ## The merge -/

/-- A position in one shard's sorted list. -/
structure Cursor (D : Type*) where
  distance : D
  shard : ℕ
  idx : ℕ
deriving DecidableEq, Repr

/-- The heap, with a cursor of the least distance on top. -/
abbrev Queue (D : Type*) [LinearOrder D] : Type _ :=
  Heap (Cursor D) (fun a b => a.distance ≤ b.distance)

/-- A heap that yields the first of equals. -/
def Queue.first {D : Type*} [LinearOrder D] : Queue D :=
  Heap.first (fun _ _ => le_total _ _) (fun _ _ _ => le_trans)

section Merge

variable {D : Type*} [LinearOrder D]

/-- `per_shard[shard][idx]`. -/
def hit (per_shard : List (List (SearchResult D))) (shard idx : ℕ) : Option (SearchResult D) :=
  (per_shard[shard]?).bind (fun l => l[idx]?)

/-- The cursors of the first loop. -/
def first_cursors (per_shard : List (List (SearchResult D))) : List (Cursor D) :=
  per_shard.zipIdx.filterMap (fun p => p.1.head?.map (fun r => ⟨r.distance, p.2, 0⟩))

/-- The cursor moves on, if there is more in its list. -/
def push_next (queue : Queue D) (per_shard : List (List (SearchResult D))) (c : Cursor D)
    (pq : List (Cursor D)) : List (Cursor D) :=
  match hit per_shard c.shard (c.idx + 1) with
  | some r => queue.push ⟨r.distance, c.shard, c.idx + 1⟩ pq
  | none => pq

/-- The loop. A cursor that points behind its list would be undefined behaviour. -/
def merge (queue : Queue D) (per_shard : List (List (SearchResult D))) (k : ℕ) :
    ℕ → List (Cursor D) → List Bytes → List (SearchResult D) → Option (List (SearchResult D))
  | 0, _, _, _ => none
  | fuel + 1, pq, seen, deduped =>
      if k ≤ deduped.length then some deduped
      else
        match queue.top pq with
        | none => some deduped
        | some c =>
            match hit per_shard c.shard c.idx with
            | none => none
            | some r =>
                let pq := push_next queue per_shard c (queue.pop pq)
                if seen.contains r.external_id then merge queue per_shard k fuel pq seen deduped
                else merge queue per_shard k fuel pq (r.external_id :: seen) (deduped ++ [r])

/-- What the shards that answered sent. -/
def answered (futures : List (ℤ × SearchResponse D)) : List (List (SearchResult D)) :=
  (futures.filter (fun f => f.2.ok)).map (fun f => f.2.results)

/-- The handler from the answers on. -/
def gather (queue : Queue D) (futures : List (ℤ × SearchResponse D)) (k : ℕ)
    (consistency : String) : Option (SearchReply D) :=
  let unavailable := (futures.filter (fun f => !f.2.ok)).map Prod.fst
  let per_shard := (answered futures).filter (fun l => !l.isEmpty)
  let pq := queue.push_all (first_cursors per_shard)
  (merge queue per_shard k (per_shard.flatten.length + 1) pq [] []).map
    (fun deduped =>
      { results := deduped
        consistency := consistency
        degraded := !unavailable.isEmpty
        unavailable_shards := unavailable })

/-- So the lists are sorted, whichever shards the query went to. -/
theorem answered_sorted {F : Type*} [Zero F] (ties : Ties D) (dist : Vec F → Vec F → D)
    {futures : List (ℤ × SearchResponse D)} {vector : List F} {k : ℕ}
    (hfutures : ∀ f ∈ futures, f.2.ok = false ∨
      ∃ sh : ShardServiceImpl F, sh.search ties dist vector k = some f.2) :
    ∀ l ∈ answered futures, Sorted SearchResult.distance l := by
  intro l hl
  obtain ⟨f, hf, rfl⟩ := List.mem_map.mp hl
  obtain ⟨hmem, hok⟩ := List.mem_filter.mp hf
  rcases hfutures f hmem with hfailed | ⟨sh, hsearch⟩
  · rw [hok] at hfailed
    exact absurd hfailed (by simp)
  · exact search_sorted ties dist hsearch

/-! ## The loop -/

/-- What a cursor has still in front of it. -/
def ahead (per_shard : List (List (SearchResult D))) (c : Cursor D) : List (SearchResult D) :=
  (per_shard.getD c.shard []).drop c.idx

/-- All that is still to come. -/
def remaining (per_shard : List (List (SearchResult D))) (pq : List (Cursor D)) :
    List (SearchResult D) :=
  pq.flatMap (ahead per_shard)

/-- The cursor points into its list and has the distance found there. -/
def Cursor.Valid (per_shard : List (List (SearchResult D))) (c : Cursor D) : Prop :=
  ∃ r, hit per_shard c.shard c.idx = some r ∧ r.distance = c.distance

section Cursors

variable {D : Type*} {per_shard : List (List (SearchResult D))}

theorem hit_iff {shard idx : ℕ} {r : SearchResult D} :
    hit per_shard shard idx = some r ↔ (per_shard.getD shard [])[idx]? = some r := by
  unfold hit
  rw [List.getD_eq_getElem?_getD]
  cases per_shard[shard]? <;> simp

theorem ahead_cons {c : Cursor D} {r : SearchResult D}
    (h : hit per_shard c.shard c.idx = some r) :
    ahead per_shard c = r :: ahead per_shard { c with idx := c.idx + 1 } := by
  obtain ⟨hlt, rfl⟩ := List.getElem?_eq_some_iff.mp (hit_iff.mp h)
  exact List.drop_eq_getElem_cons hlt

theorem ahead_nil {c : Cursor D} (h : hit per_shard c.shard c.idx = none) :
    ahead per_shard c = [] := by
  apply List.drop_eq_nil_of_le
  by_contra hlt
  have hsome := hit_iff.mpr (List.getElem?_eq_getElem (not_le.mp hlt))
  rw [h] at hsome
  simp at hsome

end Cursors

section Loop

variable {queue : Queue D} {per_shard : List (List (SearchResult D))}

theorem push_next_remaining (c : Cursor D) (pq : List (Cursor D)) :
    (remaining per_shard (push_next queue per_shard c pq)).Perm
      (ahead per_shard { c with idx := c.idx + 1 } ++ remaining per_shard pq) := by
  unfold push_next
  cases hhit : hit per_shard c.shard (c.idx + 1) with
  | none =>
      rw [ahead_nil (c := { c with idx := c.idx + 1 }) hhit]
      exact List.Perm.refl _
  | some r => exact (queue.push_perm _ pq).flatMap_right _

theorem push_next_valid {c : Cursor D} {pq : List (Cursor D)} (h : ∀ c ∈ pq, c.Valid per_shard) :
    ∀ c' ∈ push_next queue per_shard c pq, c'.Valid per_shard := by
  unfold push_next
  cases hhit : hit per_shard c.shard (c.idx + 1) with
  | none => exact h
  | some r =>
      intro c' hc'
      rcases (Heap.mem_push _).mp hc' with rfl | hc'
      · exact ⟨r, hhit, rfl⟩
      · exact h c' hc'

/-- A turn takes one result away. -/
theorem remaining_turn {pq : List (Cursor D)} {c : Cursor D} (hc : queue.top pq = some c)
    {r : SearchResult D} (hhit : hit per_shard c.shard c.idx = some r) :
    (remaining per_shard pq).Perm
      (r :: remaining per_shard (push_next queue per_shard c (queue.pop pq))) := by
  calc (remaining per_shard pq).Perm (remaining per_shard (c :: queue.pop pq)) :=
        (queue.pop_perm pq c hc).symm.flatMap_right _
    _ = r :: (ahead per_shard { c with idx := c.idx + 1 }
          ++ remaining per_shard (queue.pop pq)) := by
        rw [remaining, List.flatMap_cons, ahead_cons hhit]
        rfl
    List.Perm _ (r :: remaining per_shard (push_next queue per_shard c (queue.pop pq))) :=
        (push_next_remaining c (queue.pop pq)).symm.cons r

theorem ahead_sorted (hsorted : ∀ l ∈ per_shard, Sorted SearchResult.distance l) (c : Cursor D) :
    Sorted SearchResult.distance (ahead per_shard c) := by
  apply List.Pairwise.drop
  rw [List.getD_eq_getElem?_getD]
  cases hl : per_shard[c.shard]? with
  | none => exact List.Pairwise.nil
  | some l => exact hsorted l (List.mem_of_getElem? hl)

/-- Nothing in front of a cursor is nearer than the cursor. -/
theorem Cursor.Valid.le_ahead (hsorted : ∀ l ∈ per_shard, Sorted SearchResult.distance l)
    {c : Cursor D} (hc : c.Valid per_shard) {r : SearchResult D} (hr : r ∈ ahead per_shard c) :
    c.distance ≤ r.distance := by
  obtain ⟨r₀, hhit, hdist⟩ := hc
  have hs := ahead_sorted hsorted c
  rw [ahead_cons hhit] at hr hs
  rw [← hdist]
  rcases List.mem_cons.mp hr with rfl | hr
  · exact le_rfl
  · exact (List.pairwise_cons.mp hs).1 r hr

/-- The cursor on top of the heap has nothing nearer behind it. -/
theorem top_le_remaining (hsorted : ∀ l ∈ per_shard, Sorted SearchResult.distance l)
    {pq : List (Cursor D)} (hvalid : ∀ c ∈ pq, c.Valid per_shard) {c : Cursor D}
    (hmin : ∀ x ∈ pq, c.distance ≤ x.distance) {r : SearchResult D}
    (hr : r ∈ remaining per_shard pq) : c.distance ≤ r.distance := by
  obtain ⟨x, hx, hrx⟩ := List.mem_flatMap.mp hr
  exact (hmin x hx).trans ((hvalid x hx).le_ahead hsorted hrx)

/-- **The loop** yields the first of each id in some order of what is to come, up to `k`; the
order is sorted if the lists are. -/
theorem merge_spec (queue : Queue D) (k fuel : ℕ) :
    ∀ (pq : List (Cursor D)) (seen : List Bytes) (deduped : List (SearchResult D)),
      (∀ c ∈ pq, c.Valid per_shard) → (remaining per_shard pq).length < fuel →
      deduped.length ≤ k →
      ∃ out, out.Perm (remaining per_shard pq) ∧
        ((∀ l ∈ per_shard, Sorted SearchResult.distance l) → Sorted SearchResult.distance out) ∧
        merge queue per_shard k fuel pq seen deduped
          = some ((deduped ++ firsts SearchResult.external_id seen out).take k) := by
  induction fuel with
  | zero =>
      intro pq seen deduped _ hfuel _
      exact absurd hfuel (Nat.not_lt_zero _)
  | succ fuel ih =>
      intro pq seen deduped hvalid hfuel hlen
      rw [merge]
      by_cases hk : k ≤ deduped.length
      · -- there are `k` already, whatever comes
        obtain ⟨out, hperm, hout⟩ :=
          Ranking.exists_sorted_perm SearchResult.distance (remaining per_shard pq)
        refine ⟨out, hperm, fun _ => hout, ?_⟩
        rw [if_pos hk, List.take_left' (le_antisymm hlen hk)]
      rw [if_neg hk]
      cases htop : queue.top pq with
      | none =>
          rw [queue.top_none pq htop]
          refine ⟨[], List.Perm.refl _, fun _ => List.Pairwise.nil, ?_⟩
          rw [firsts, List.append_nil, List.take_of_length_le hlen]
      | some c =>
          obtain ⟨hc, hmin⟩ := queue.top_mem pq c htop
          obtain ⟨r, hhit, hdist⟩ := hvalid c hc
          have hturn := remaining_turn htop hhit
          generalize hnext : push_next queue per_shard c (queue.pop pq) = next at hturn
          have hfuel' : (remaining per_shard next).length < fuel := by
            rw [hturn.length_eq, List.length_cons] at hfuel
            omega
          have hvalid' : ∀ x ∈ next, x.Valid per_shard := by
            rw [← hnext]
            exact push_next_valid (fun x hx => hvalid x ((Heap.mem_of_top htop).mpr (Or.inr hx)))
          -- `r` comes first, and then what the rest of the loop yields
          have hcons : ∀ out, out.Perm (remaining per_shard next) →
              ((∀ l ∈ per_shard, Sorted SearchResult.distance l) →
                Sorted SearchResult.distance out) →
              (r :: out).Perm (remaining per_shard pq) ∧
                ((∀ l ∈ per_shard, Sorted SearchResult.distance l) →
                  Sorted SearchResult.distance (r :: out)) := by
            intro out hperm hout
            refine ⟨(hperm.cons r).trans hturn.symm, fun hsorted =>
              List.pairwise_cons.mpr ⟨fun b hb => ?_, hout hsorted⟩⟩
            rw [hdist]
            apply top_le_remaining hsorted hvalid hmin
            exact hturn.mem_iff.mpr (List.mem_cons_of_mem r (hperm.mem_iff.mp hb))
          dsimp only
          rw [hhit]
          dsimp only
          rw [hnext]
          by_cases hseen : r.external_id ∈ seen
          · obtain ⟨out, hperm, hout, hmerge⟩ := ih _ seen deduped hvalid' hfuel' hlen
            obtain ⟨hperm', hout'⟩ := hcons out hperm hout
            refine ⟨r :: out, hperm', hout', ?_⟩
            rw [if_pos (List.contains_iff_mem.mpr hseen), hmerge, firsts, if_pos hseen]
          · have hlen' : (deduped ++ [r]).length ≤ k := by
              rw [List.length_append, List.length_singleton]
              omega
            obtain ⟨out, hperm, hout, hmerge⟩ :=
              ih _ (r.external_id :: seen) (deduped ++ [r]) hvalid' hfuel' hlen'
            obtain ⟨hperm', hout'⟩ := hcons out hperm hout
            refine ⟨r :: out, hperm', hout', ?_⟩
            rw [if_neg (mt List.contains_iff_mem.mp hseen), hmerge, firsts, if_neg hseen,
              List.append_assoc, List.singleton_append]

end Loop

/-! ## The whole merge -/

/-- The first cursors of some of the lists, given with their numbers. -/
theorem cursors_spec {D : Type*} (per_shard : List (List (SearchResult D))) :
    ∀ zs : List (List (SearchResult D) × ℕ), (∀ p ∈ zs, per_shard[p.2]? = some p.1) →
      (∀ c ∈ zs.filterMap (fun p => p.1.head?.map (fun r => (⟨r.distance, p.2, 0⟩ : Cursor D))),
        c.Valid per_shard) ∧
      remaining per_shard (zs.filterMap (fun p => p.1.head?.map (fun r => ⟨r.distance, p.2, 0⟩)))
        = (zs.map Prod.fst).flatten := by
  intro zs
  induction zs with
  | nil =>
      intro _
      exact ⟨by simp, rfl⟩
  | cons p zs ih =>
      intro hzs
      obtain ⟨hvalid, hremaining⟩ := ih (fun q hq => hzs q (List.mem_cons_of_mem p hq))
      have hp : per_shard[p.2]? = some p.1 := hzs p List.mem_cons_self
      obtain ⟨l, s⟩ := p
      cases l with
      | nil =>
          exact ⟨hvalid, hremaining⟩
      | cons r l =>
          have hhit : hit per_shard s 0 = some r := by
            rw [hit, hp]
            rfl
          have hahead : ahead per_shard ⟨r.distance, s, 0⟩ = r :: l := by
            rw [ahead, List.getD_eq_getElem?_getD, hp]
            rfl
          refine ⟨fun c hc => ?_, ?_⟩
          · rcases List.mem_cons.mp hc with rfl | hc
            · exact ⟨r, hhit, rfl⟩
            · exact hvalid c hc
          · change ahead per_shard ⟨r.distance, s, 0⟩ ++ remaining per_shard _ = _
            rw [hahead, hremaining]
            rfl

theorem first_cursors_spec {D : Type*} (per_shard : List (List (SearchResult D))) :
    (∀ c ∈ first_cursors per_shard, c.Valid per_shard) ∧
      remaining per_shard (first_cursors per_shard) = per_shard.flatten := by
  have h := cursors_spec per_shard per_shard.zipIdx
    (fun p hp => List.mem_zipIdx_iff_getElem?.mp hp)
  rwa [List.zipIdx_map_fst] at h

/-- The reference: the results in some sorted order, the first of each id, the first `k`. -/
def reference (sorted : List (SearchResult D)) (k : ℕ) : List (SearchResult D) :=
  (firsts SearchResult.external_id [] sorted).take k

/-- **The handler** answers with the reference for some order of all that the shards sent, sorted
if their lists are, and names those that did not answer. -/
theorem gather_spec (queue : Queue D) (futures : List (ℤ × SearchResponse D)) (k : ℕ)
    (consistency : String) :
    ∃ out, out.Perm (answered futures).flatten ∧
      ((∀ l ∈ answered futures, Sorted SearchResult.distance l) →
        Sorted SearchResult.distance out) ∧
      gather queue futures k consistency = some
        { results := reference out k
          consistency := consistency
          degraded := !((futures.filter (fun f => !f.2.ok)).map Prod.fst).isEmpty
          unavailable_shards := (futures.filter (fun f => !f.2.ok)).map Prod.fst } := by
  obtain ⟨hvalid, hremaining⟩ :=
    first_cursors_spec ((answered futures).filter (fun l => !l.isEmpty))
  -- the heap holds the first cursors, in its own order
  have hfirst := queue.push_all_perm
    (first_cursors ((answered futures).filter (fun l => !l.isEmpty)))
  have hall := hfirst.flatMap_right (ahead ((answered futures).filter (fun l => !l.isEmpty)))
  obtain ⟨out, hperm, hout, hmerge⟩ := merge_spec queue k _ _ [] []
    (fun c hc => hvalid c (hfirst.mem_iff.mp hc))
    (lt_of_eq_of_lt (hall.length_eq.trans (congrArg List.length hremaining)) (Nat.lt_succ_self _))
    (Nat.zero_le k)
  have hperm := hperm.trans hall
  unfold remaining at hremaining
  rw [hremaining, List.flatten_filter_not_isEmpty] at hperm
  refine ⟨out, hperm, fun hsorted => hout fun l hl => hsorted l (List.mem_of_mem_filter hl), ?_⟩
  rw [gather, hmerge]
  rfl

/-- **The merge is exact.** For sorted lists it returns the distances of the reference, whatever
that sort and the heap do with equal distances; no id is repeated, and each has its least
distance. If every list is the top `k` of its shard, the answer is the top `k` of all shards. -/
theorem scatter_gather_exact (queue : Queue D) (futures : List (ℤ × SearchResponse D)) (k : ℕ)
    (consistency : String)
    (hsorted : ∀ l ∈ answered futures, Sorted SearchResult.distance l) :
    ∃ reply, gather queue futures k consistency = some reply ∧
      (∀ all, all.Perm (answered futures).flatten → Sorted SearchResult.distance all →
        reply.results.map SearchResult.distance = (reference all k).map SearchResult.distance) ∧
      (reply.results.map SearchResult.external_id).Nodup ∧
      (∀ r ∈ reply.results, r ∈ (answered futures).flatten ∧
        ∀ h ∈ (answered futures).flatten, h.external_id = r.external_id →
          r.distance ≤ h.distance) ∧
      ∀ content : ℕ → Set (SearchResult D),
        (∀ s l, (answered futures)[s]? = some l →
          Ranking.Top SearchResult.distance SearchResult.external_id k (content s) l) →
        Ranking.Top SearchResult.distance SearchResult.external_id k
          { h | ∃ s < (answered futures).length, h ∈ content s } reply.results := by
  obtain ⟨out, hperm, hordered, hgather⟩ := gather_spec queue futures k consistency
  have hout := hordered hsorted
  -- every sorted order of the results has the same elements, so the same ranking
  have hranks : ∀ all, all.Perm (answered futures).flatten → Sorted SearchResult.distance all →
      Ranking.Ranks SearchResult.distance SearchResult.external_id
        { h | ∃ l ∈ answered futures, h ∈ l } (firsts SearchResult.external_id [] all) := by
    intro all hall hsorted
    have hset : { h | ∃ l ∈ answered futures, h ∈ l } = { h | h ∈ all } := by
      ext h
      exact List.mem_flatten.symm.trans hall.mem_iff.symm
    rw [hset]
    exact Ranking.firsts_ranks hsorted
  have htop := (hranks out hperm hout).top k
  refine ⟨_, hgather, fun all hall hs => ?_, htop.nodup, fun r hr => ⟨?_, fun h hh hid => ?_⟩,
    fun content hcontent => Ranking.top_of_tops hcontent (hranks out hperm hout)⟩
  · dsimp only
    rw [reference, reference, List.map_take, List.map_take,
      (hranks out hperm hout).keys_eq (hranks all hall hs)]
  · exact List.mem_flatten.mpr (htop.mem r hr)
  · exact htop.least r hr h (List.mem_flatten.mp hh) hid

end Merge

/-- Key 1 is on two shards, and a third one does not answer. -/
theorem scatter_gather_exact_migrating_key :
    ∃ reply, gather Queue.first
        [(0, ⟨[⟨[1], 2, []⟩, ⟨[2], 5, []⟩], true, ""⟩),
          (1, ⟨[⟨[3], 1, []⟩, ⟨[1], 3, []⟩], true, ""⟩),
          (2, ⟨[], false, ""⟩)] 2 "eventual" = some reply ∧
      reply.results.map SearchResult.distance = [(1 : ℤ), 2] := by
  obtain ⟨reply, hgather, hdist, -⟩ := scatter_gather_exact (D := ℤ) Queue.first
    [(0, ⟨[⟨[1], 2, []⟩, ⟨[2], 5, []⟩], true, ""⟩), (1, ⟨[⟨[3], 1, []⟩, ⟨[1], 3, []⟩], true, ""⟩),
      (2, ⟨[], false, ""⟩)] 2 "eventual" (by simp [answered, Sorted])
  refine ⟨reply, hgather, ?_⟩
  rw [hdist [⟨[3], 1, []⟩, ⟨[1], 2, []⟩, ⟨[1], 3, []⟩, ⟨[2], 5, []⟩] (by decide)
    (by simp [Sorted])]
  decide

end NanoDB.Coord
