/-
Adding a shard loses no key.

A key is deleted from its shard only after the primary of the new shard has answered that it has
it, and nothing is ever deleted from the new shard. So whatever happens to the RPCs, a key that
is gone from where it was is `Taken` over.
-/
import NanoDB.RebalanceAdd

set_option autoImplicit false

namespace NanoDB.Coord

open Raft (Bytes)
open Shard
open Index (MAX_LAYERS)
open Beam (Ties)

section Safe

variable {F D : Type*} [Zero F]

/-! ## The invariant -/

/-- The key is on a primary of the new shard. -/
def Taken (a : Addition) (procs : Node → ShardServiceImpl F) (x : Bytes) : Prop :=
  ∃ sc ∈ a.dest_replicas, sc.is_primary = true ∧ (procs sc.node).live x = true

/-- What is known of the processes and the writes: inserts go to the new shard, deletes to another
one and only for keys that are taken over, and what was lost anywhere is taken over. -/
structure Guarded (a : Addition) (procs₀ procs : Node → ShardServiceImpl F)
    (calls : List (Call F)) : Prop where
  sane : ∀ n, Sane (procs n)
  inserts : ∀ c ∈ calls, ∀ req, c.body = .insert req → c.node.1 = a.new_id
  deletes : ∀ c ∈ calls, ∀ req, c.body = .delete req →
    c.node.1 ≠ a.new_id ∧ Taken a procs req.external_id
  stored : ∀ c ∈ calls, ∀ req res, c.body = .insert req → c.response = some res →
    res.ok = true → (procs c.node).live req.external_id = true
  kept : ∀ n x, (procs₀ n).live x = true → (procs n).live x = true ∨ Taken a procs x

/-- The futures are those of an insert of `x` at the new shard. -/
def Asked (a : Addition) (calls : List (Call F)) (x : Text) (futures : List Future) : Prop :=
  ∀ f ∈ futures, ∃ (c : Call F) (req : InsertRequest F), calls[f.call]? = some c ∧
    c.body = .insert req ∧ req.external_id = x ∧
    (f.primary = true → ∃ sc ∈ a.dest_replicas, sc.is_primary = true ∧ sc.node = c.node) ∧
    (f.result = some true → ∃ res, c.response = some res ∧ res.ok = true)

/-- The variables of the round are those of a shard other than the new one. -/
structure Source.Of (src : Source) (a : Addition) : Prop where
  other : src.source_shard_id ≠ a.new_id
  replicas : src.source_replicas = replicas_for_shard a.pool src.source_shard_id
  primary : find_primary a.pool src.source_shard_id = some src.source_primary

/-- What is true in each phase. -/
def AddPhase.Sound (a : Addition) (calls : List (Call F)) : AddPhase → Prop
  | .sources rest => ∀ sid ∈ rest, sid ≠ a.new_id
  | .next src _ rest => src.Of a ∧ ∀ sid ∈ rest, sid ≠ a.new_id
  | .inserting src x _ rest futures =>
      src.Of a ∧ (∀ sid ∈ rest, sid ≠ a.new_id) ∧ Asked a calls x futures
  | .deleting src _ _ rest _ => src.Of a ∧ ∀ sid ∈ rest, sid ≠ a.new_id
  | .returned _ => True

structure AddSafe (a : Addition) (procs₀ : Node → ShardServiceImpl F) (s : Adding F) : Prop where
  guarded : Guarded a procs₀ s.procs s.calls
  phase : s.phase.Sound a s.calls

/-! ## Sending -/

omit [Zero F] in
theorem Asked.grown {a : Addition} {calls calls' : List (Call F)} (hgrown : Grown calls calls')
    {x : Text} {futures : List Future} (h : Asked a calls x futures) :
    Asked a calls' x futures := by
  intro f hf
  obtain ⟨c, req, hc, hbody, hx, hprimary, hresult⟩ := h f hf
  obtain ⟨c', hc', hnode, -, hbody', hresponse⟩ := hgrown f.call c hc
  refine ⟨c', req, hc', hbody'.trans hbody, hx, fun hp => ?_, fun ht => ?_⟩
  · rw [hnode]
    exact hprimary hp
  · obtain ⟨res, hres, hok⟩ := hresult ht
    exact ⟨res, hresponse res hres, hok⟩

omit [Zero F] in
theorem AddPhase.Sound.grown {a : Addition} {calls calls' : List (Call F)}
    (hgrown : Grown calls calls') {phase : AddPhase} (h : phase.Sound a calls) :
    phase.Sound a calls' := by
  cases phase with
  | inserting src x todo rest futures => exact ⟨h.1, h.2.1, h.2.2.grown hgrown⟩
  | sources rest => exact h
  | next src todo rest => exact h
  | deleting src x todo rest futures => exact h
  | returned status => trivial

/-- Writes that were sent are not answered yet. -/
theorem Guarded.send {a : Addition} {procs₀ procs : Node → ShardServiceImpl F}
    {calls calls' : List (Call F)} (h : Guarded a procs₀ procs calls) {owner : Owner}
    {replicas : List ShardClient} {body : ℕ → Write F} {futures : List Future}
    (hfire : fire calls owner replicas body = (calls', futures))
    (hinsert : ∀ sc ∈ replicas, ∀ req, body sc.epoch = .insert req → sc.shard_id = a.new_id)
    (hdelete : ∀ sc ∈ replicas, ∀ req, body sc.epoch = .delete req →
      sc.shard_id ≠ a.new_id ∧ Taken a procs req.external_id) :
    Guarded a procs₀ procs calls' := by
  obtain ⟨rfl, -⟩ := Prod.mk.inj hfire
  have hnew : ∀ c ∈ calls ++ replicas.map (fun sc => ⟨sc.node, owner, body sc.epoch, none⟩),
      c ∈ calls ∨ ∃ sc ∈ replicas, c = ⟨sc.node, owner, body sc.epoch, none⟩ := by
    intro c hc
    rcases List.mem_append.mp hc with hc | hc
    · exact Or.inl hc
    · obtain ⟨sc, hsc, rfl⟩ := List.mem_map.mp hc
      exact Or.inr ⟨sc, hsc, rfl⟩
  refine ⟨h.sane, fun c hc req hbody => ?_, fun c hc req hbody => ?_,
    fun c hc req res hbody hres hok => ?_, h.kept⟩
  · rcases hnew c hc with hc | ⟨sc, hsc, rfl⟩
    · exact h.inserts c hc req hbody
    · exact hinsert sc hsc req hbody
  · rcases hnew c hc with hc | ⟨sc, hsc, rfl⟩
    · exact h.deletes c hc req hbody
    · exact hdelete sc hsc req hbody
  · rcases hnew c hc with hc | ⟨sc, hsc, rfl⟩
    · exact h.stored c hc req res hbody hres hok
    · simp at hres

omit [Zero F] in
/-- A new round of inserts. -/
theorem asked_fire {a : Addition} {calls calls' : List (Call F)} {x : Text} {vector : List F}
    {metadata : Text} {futures : List Future}
    (hfire : fire calls .handler a.dest_replicas (fun e => .insert ⟨x, vector, metadata, e⟩)
      = (calls', futures)) : Asked a calls' x futures := by
  intro f hf
  have hfuture := @fire_future F calls .handler a.dest_replicas
    (fun e => .insert ⟨x, vector, metadata, e⟩) f
  rw [hfire] at hfuture
  obtain ⟨sc, hsc, hcall, hprimary, hresult⟩ := hfuture hf
  exact ⟨_, _, hcall, rfl, rfl, fun hp => ⟨sc, hsc, hprimary hp, rfl⟩,
    fun ht => absurd (hresult.symm.trans ht) (by simp)⟩

omit [Zero F] in
/-- An ack is an answer. -/
theorem Asked.resolve {a : Addition} {calls : List (Call F)} {x : Text}
    {futures futures' : List Future} (h : Asked a calls x futures) {i : ℕ} {delivered : Bool}
    (hresolve : Coord.resolve calls futures i delivered = some futures') :
    Asked a calls x futures' := by
  obtain ⟨f, hf, rfl⟩ := resolve_spec hresolve
  intro g hg
  rcases List.mem_or_eq_of_mem_set hg with hg | rfl
  · exact h g hg
  · obtain ⟨c, req, hc, hbody, hx, hprimary, -⟩ := h f (List.mem_of_getElem? hf)
    refine ⟨c, req, hc, hbody, hx, hprimary, fun ht => ?_⟩
    obtain ⟨c', res, hc', hres, hok⟩ := outcome_true (Option.some.inj ht)
    obtain rfl : c = c' := Option.some.inj (hc.symm.trans hc')
    exact ⟨res, hres, hok⟩

/-- **A quorum takes the key over.** -/
theorem taken_of_quorum {a : Addition} {procs₀ procs : Node → ShardServiceImpl F}
    {calls : List (Call F)} (h : Guarded a procs₀ procs calls) {x : Text} {futures : List Future}
    (hasked : Asked a calls x futures) (hquorum : (quorum_result futures).ok = true) :
    Taken a procs x := by
  obtain ⟨f, hf, hprimary, hresult⟩ := quorum_primary hquorum
  obtain ⟨c, req, hc, hbody, rfl, hsc, hres⟩ := hasked f hf
  obtain ⟨sc, hmem, hprim, hnode⟩ := hsc hprimary
  obtain ⟨res, hresponse, hok⟩ := hres hresult
  refine ⟨sc, hmem, hprim, ?_⟩
  rw [hnode]
  exact h.stored c (List.mem_of_getElem? hc) req res hbody hresponse hok

/-! ## Executing -/

theorem live_update {procs : Node → ShardServiceImpl F} {n₀ n : Node} {sh : ShardServiceImpl F}
    {y : Bytes} (h : n = n₀ → (procs n₀).live y = true → sh.live y = true)
    (hlive : (procs n).live y = true) : (Function.update procs n₀ sh n).live y = true := by
  by_cases hn : n = n₀
  · subst hn
    rw [Function.update_self]
    exact h rfl hlive
  · rwa [Function.update_of_ne hn]

theorem Taken.update {a : Addition} {procs : Node → ShardServiceImpl F} {n₀ : Node}
    {sh : ShardServiceImpl F} {y : Bytes}
    (h : ∀ sc ∈ a.dest_replicas, sc.node = n₀ → (procs n₀).live y = true → sh.live y = true)
    (htaken : Taken a procs y) : Taken a (Function.update procs n₀ sh) y := by
  obtain ⟨sc, hsc, hprimary, hlive⟩ := htaken
  exact ⟨sc, hsc, hprimary, live_update (h sc hsc) hlive⟩

variable {a : Addition} {procs₀ procs : Node → ShardServiceImpl F} {calls : List (Call F)}
  {k : ℕ} {c : Call F} {sh : ShardServiceImpl F} {res : WriteResponse}

/-- A write was executed. What the process lost is taken over, and was not inserted there. -/
theorem Guarded.answer (h : Guarded a procs₀ procs calls) (hk : calls[k]? = some c)
    (hsane : Sane sh)
    (htaken : ∀ y, Taken a procs y → Taken a (Function.update procs c.node sh) y)
    (hok : ∀ req, c.body = .insert req → res.ok = true → sh.live req.external_id = true)
    (hstored : ∀ d ∈ calls, ∀ req, d.body = .insert req → d.node = c.node →
      (procs c.node).live req.external_id = true → sh.live req.external_id = true)
    (hkept : ∀ y, (procs c.node).live y = true → sh.live y = true ∨ Taken a procs y) :
    Guarded a procs₀ (Function.update procs c.node sh)
      (calls.set k { c with response := some res }) := by
  have hmem := List.mem_of_getElem? hk
  refine ⟨(Function.forall_update_iff procs (fun _ sh => Sane sh)).mpr ⟨hsane, fun n _ => h.sane n⟩,
    fun d hd req hbody => ?_, fun d hd req hbody => ?_, fun d hd req res' hbody hres hok' => ?_,
    fun n y hy => ?_⟩
  · rcases List.mem_or_eq_of_mem_set hd with hd | rfl
    · exact h.inserts d hd req hbody
    · exact h.inserts c hmem req hbody
  · rcases List.mem_or_eq_of_mem_set hd with hd | rfl
    · exact (h.deletes d hd req hbody).imp_right (htaken _)
    · exact (h.deletes c hmem req hbody).imp_right (htaken _)
  · rcases List.mem_or_eq_of_mem_set hd with hd | rfl
    · exact live_update (hstored d hd req hbody) (h.stored d hd req res' hbody hres hok')
    · -- the call that was executed
      obtain rfl : res = res' := Option.some.inj hres
      dsimp only
      rw [Function.update_self]
      exact hok req hbody hok'
  · rcases h.kept n y hy with hlive | hover
    · by_cases hn : n = c.node
      · subst hn
        rw [Function.update_self]
        exact (hkept y hlive).imp_right (htaken y)
      · rw [Function.update_of_ne hn]
        exact Or.inl hlive
    · exact Or.inr (htaken y hover)

/-- An insert takes nothing away. -/
theorem Guarded.insert (h : Guarded a procs₀ procs calls) (hk : calls[k]? = some c)
    {req : InsertRequest F} (hbody : c.body = .insert req) (hsane : Sane sh)
    (hkept : ∀ y, (procs c.node).live y = true → sh.live y = true)
    (hok : res.ok = true → sh.live req.external_id = true) :
    Guarded a procs₀ (Function.update procs c.node sh)
      (calls.set k { c with response := some res }) := by
  apply h.answer hk hsane
  · exact fun y => Taken.update (fun _ _ _ => hkept y)
  · intro req' hbody'
    obtain rfl : req = req' := Write.insert.inj (hbody.symm.trans hbody')
    exact hok
  · exact fun _ _ _ _ _ => hkept _
  · exact fun y hy => Or.inl (hkept y hy)

/-- The key of a delete is taken over, and not by the process it is deleted from. -/
theorem Guarded.delete (h : Guarded a procs₀ procs calls)
    (hdest : ∀ sc ∈ a.dest_replicas, sc.shard_id = a.new_id) (hk : calls[k]? = some c)
    {req : DeleteRequest} (hbody : c.body = .delete req) (hsane : Sane sh)
    (hkept : ∀ y, y ≠ req.external_id.1 → (procs c.node).live y = true → sh.live y = true) :
    Guarded a procs₀ (Function.update procs c.node sh)
      (calls.set k { c with response := some res }) := by
  obtain ⟨hnode, hx⟩ := h.deletes c (List.mem_of_getElem? hk) req hbody
  apply h.answer hk hsane
  · intro y
    apply Taken.update
    intro sc hsc heq
    exact absurd (heq ▸ hdest sc hsc : c.node.1 = a.new_id) hnode
  · intro req' hbody'
    rw [hbody] at hbody'
    simp at hbody'
  · intro d hd req' hbody' heq
    exact absurd (heq ▸ h.inserts d hd req' hbody') hnode
  · intro y hy
    by_cases hyx : y = req.external_id.1
    · rw [hyx]
      exact Or.inr hx
    · exact Or.inl (hkept y hyx hy)

/-! ## Whole runs -/

variable [BEq F] [LinearOrder D] (ties : Ties D) (dist : Vec F → Vec F → D)

theorem Guarded.execute (h : Guarded a procs₀ procs calls)
    (hdest : ∀ sc ∈ a.dest_replicas, sc.shard_id = a.new_id) (hk : calls[k]? = some c)
    {level : Fin MAX_LAYERS}
    (hexecute : c.body.execute ties dist (procs c.node) level = some (sh, res)) :
    Guarded a procs₀ (Function.update procs c.node sh)
      (calls.set k { c with response := some res }) := by
  rcases execute_cases hexecute with ⟨req, hbody, hinsert⟩ | ⟨req, hbody, rfl, rfl⟩
  · obtain ⟨sh', res', hinsert', hsane, hkept, hok, -⟩ :=
      insert_sane ties dist (h.sane c.node) req level
    obtain ⟨rfl, rfl⟩ := Prod.mk.inj (Option.some.inj (hinsert'.symm.trans hinsert))
    exact h.insert hk hbody hsane hkept hok
  · obtain ⟨hsane, hkept⟩ := delete_sane (h.sane c.node) req
    exact h.delete hdest hk hbody hsane hkept

/-- **One step.** -/
theorem addSafe_step (hdest : a.dest_replicas = replicas_for_shard a.pool a.new_id)
    {s s' : Adding F} {act : AddAct} (hs : AddSafe a procs₀ s)
    (hstep : add_step ties dist a s act = some s') : AddSafe a procs₀ s' := by
  obtain ⟨hguarded, hphase'⟩ := hs
  have hmem : ∀ sc ∈ a.dest_replicas, sc.shard_id = a.new_id := by
    intro sc hsc
    rw [hdest] at hsc
    exact (mem_replicas_for_shard.mp hsc).2
  cases add_move ties dist hstep with
  | no_primary hphase hprimary =>
      rw [hphase] at hphase'
      exact ⟨hguarded, fun sid hsid => hphase' sid (List.mem_cons_of_mem _ hsid)⟩
  | unlisted hphase =>
      rw [hphase] at hphase'
      exact ⟨hguarded, fun sid hsid => hphase' sid (List.mem_cons_of_mem _ hsid)⟩
  | listed hphase hprimary =>
      rw [hphase] at hphase'
      exact ⟨hguarded, ⟨hphase' _ List.mem_cons_self, rfl, hprimary⟩,
        fun sid hsid => hphase' sid (List.mem_cons_of_mem _ hsid)⟩
  | elsewhere hphase hroute =>
      rw [hphase] at hphase'
      exact ⟨hguarded, hphase'⟩
  | unread hphase hroute hread =>
      rw [hphase] at hphase'
      exact ⟨hguarded, hphase'⟩
  | insert hphase hroute calls futures hfire =>
      rw [hphase] at hphase'
      exact ⟨hguarded.send hfire (fun sc hsc _ _ => hmem sc hsc) (fun _ _ _ h => by simp at h),
        hphase'.1, hphase'.2, asked_fire hfire⟩
  | resolve_insert hphase hresolve =>
      rw [hphase] at hphase'
      exact ⟨hguarded, hphase'.1, hphase'.2.1, hphase'.2.2.resolve hresolve⟩
  | resolve_delete hphase hresolve =>
      rw [hphase] at hphase'
      exact ⟨hguarded, hphase'⟩
  | refused hphase hjoined hquorum =>
      rw [hphase] at hphase'
      exact ⟨hguarded, hphase'.1, hphase'.2.1⟩
  | delete hphase hjoined hquorum calls futures hfire =>
      rw [hphase] at hphase'
      obtain ⟨hsrc, hrest, hasked⟩ := hphase'
      have htaken := taken_of_quorum hguarded hasked hquorum
      refine ⟨hguarded.send hfire (fun _ _ _ h => by simp at h) (fun sc hsc req hreq => ?_),
        hsrc, hrest⟩
      obtain rfl := Write.delete.inj hreq
      rw [hsrc.replicas] at hsc
      exact ⟨(mem_replicas_for_shard.mp hsc).2 ▸ hsrc.other, htaken⟩
  | moved hphase hjoined =>
      rw [hphase] at hphase'
      exact ⟨hguarded, hphase'⟩
  | next_source hphase =>
      rw [hphase] at hphase'
      exact ⟨hguarded, hphase'.2⟩
  | finish hphase => exact ⟨hguarded, trivial⟩
  | execute hk hopen hexecute =>
      exact ⟨hguarded.execute ties dist hmem hk hexecute,
        hphase'.grown (grown_answer hk hopen _)⟩

end Safe

end NanoDB.Coord
