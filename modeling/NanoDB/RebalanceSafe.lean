/-
When the removal of a shard loses no key.

# The one awkward thing, named up front

The handler proposes the removal whatever happened before: a listing that failed, keys that
could not be read or written are only counted. And nothing keeps another coordinator from
inserting on the leaving shard after the listing. `Careful` asks for what the handler takes
for granted: the reads are delivered, the write to a destination primary is executed before
it is given up, is not fenced and does not meet a key that was assigned and never written,
no client's insert is executed on the leaving primary once it was listed, and the primary that
acknowledges an insert to a client of another coordinator is the one that is listed.

The proof follows one key. It is on the leaving primary and still to be migrated, or it is
`Kept`: live on the primary of a shard that stays. Deletions only go to the leaving shard, and
only for keys that are kept.
-/
import NanoDB.Rebalance

set_option autoImplicit false

namespace NanoDB.Coord

open Raft (Bytes)
open Shard
open Index (MAX_LAYERS forward_iff)
open Beam (Ties)

/-! ## Where a key is -/

section Safe

variable {F D : Type*} [Zero F]

/-- A replica marked primary runs at this node. -/
def IsPrimary (s : Cluster F) (n : Node) : Prop :=
  ∃ sc ∈ live_shards s.coordinator.g_shards, sc.is_primary = true ∧ sc.node = n

/-- The key is on the primary of a shard that stays. -/
def Kept (s : Cluster F) (r : Removal) (x : Bytes) : Prop :=
  ∃ sc ∈ live_shards s.coordinator.g_shards, sc.is_primary = true ∧ sc.shard_id ≠ r.leaving_id ∧
    (s.procs sc.node).live x = true

/-- The key is on the leaving primary. -/
def Home (s : Cluster F) (r : Removal) (x : Bytes) : Prop :=
  (s.procs r.leaving_primary.node).live x = true

/-- The call is an insert of `x` that was answered ok. -/
def Call.stored (c : Call F) (x : Text) : Prop :=
  ∃ req res, c.body = .insert req ∧ req.external_id = x ∧ c.response = some res ∧ res.ok = true

/-- Until the listing: only clients have called, and what they stored is there. -/
structure Early (s : Cluster F) : Prop where
  inserts : ∀ c ∈ s.calls, c.owner = .client ∧ ∀ req, c.body ≠ .delete req
  landed : ∀ c ∈ s.calls, ∀ x, c.stored x → (s.procs c.node).live x = true

/-- From the listing on: what the handler's calls have to do with the keys. -/
structure Late (s : Cluster F) (r : Removal) : Prop where
  deletes : ∀ c ∈ s.calls, ∀ req, c.body = .delete req →
    c.node.1 = r.leaving_id ∧ Kept s r req.external_id
  away : ∀ c ∈ s.calls, c.owner = .handler → ∀ req, c.body = .insert req →
    c.node.1 ≠ r.leaving_id ∧ req.vector.length = VECTOR_DIM
  landed : ∀ c ∈ s.calls, c.owner = .handler → ∀ req, c.body = .insert req →
    IsPrimary s c.node → c.response ≠ none → (s.procs c.node).live req.external_id = true

/-- The keys of the listing are kept or still to be migrated, and nothing is owed beyond
them. -/
def Moving (s : Cluster F) (r : Removal) (todo : List Text) : Prop :=
  ∃ listed : List Bytes,
    (∀ x ∈ listed, Kept s r x ∨ (x ∈ todo.map Subtype.val ∧ Home s r x)) ∧
    (∀ x ∈ s.owed, x ∈ listed) ∧
    ∀ c ∈ s.calls, c.owner = .client → c.node = r.leaving_primary.node →
      ∀ x, c.stored x → x.1 ∈ listed

/-- The futures of a client belong to its calls, and those that are true were answered so. -/
def Waits (s : Cluster F) (cl : Client) : Prop :=
  ∀ f ∈ cl.futures, ∃ (c : Call F) (req : InsertRequest F), s.calls[f.call]? = some c ∧
    c.owner = .client ∧ c.body = .insert req ∧ req.external_id = cl.external_id ∧
    c.node.1 = cl.shard_id ∧
    (f.result = some true → ∃ res, c.response = some res ∧ res.ok = true)

/-- The handler has called every replica of the destination, and has given up no primary
before it executed the call. -/
def Sent (s : Cluster F) (r : Removal) (x : Text) (futures : List Future) : Prop :=
  ∀ sc ∈ replicas_for_shard r.pool (r.route x), ∃ f ∈ futures, ∃ (c : Call F)
    (req : InsertRequest F), s.calls[f.call]? = some c ∧ c.node = sc.node ∧ c.owner = .handler ∧
      c.body = .insert req ∧ req.external_id = x ∧
      (f.result ≠ none → IsPrimary s c.node → c.response ≠ none)

/-- What the first lines of the handler established. -/
structure Setup (s : Cluster F) (r : Removal) : Prop where
  pool : r.pool = live_shards s.coordinator.g_shards
  primary : r.leaving_primary ∈ r.pool ∧ r.leaving_primary.shard_id = r.leaving_id
  replicas : ∀ sc ∈ r.leaving_replicas, sc.shard_id = r.leaving_id
  route : ∀ x, r.route x ≠ r.leaving_id ∧
    ∃ sc ∈ r.pool, sc.is_primary = true ∧ sc.shard_id = r.route x

/-- Before the listing. -/
structure Listing (s : Cluster F) (r : Removal) : Prop where
  setup : Setup s r
  early : Early s
  waits : ∀ cl ∈ s.clients, Waits s cl
  owed : ∀ x ∈ s.owed, Home s r x

/-- From the listing to the answer. -/
structure Migrating (s : Cluster F) (r : Removal) (todo : List Text) : Prop where
  setup : Setup s r
  late : Late s r
  waits : ∀ cl ∈ s.clients, Waits s cl
  moving : Moving s r todo

/-- Nothing more is owed. -/
structure Settled (s : Cluster F) (r : Removal) : Prop where
  late : Late s r
  owed : ∀ x ∈ s.owed, Kept s r x

/-- What is true in each phase. -/
def Stage (s : Cluster F) (r : Removal) : Phase → Prop
  | .listing => Listing s r
  | .next todo => Migrating s r todo
  | .inserting x todo futures => Migrating s r (x :: todo) ∧ Sent s r x futures
  | .deleting todo _ => Migrating s r todo
  | .proposed true => Migrating s r []
  | .proposed false => Settled s r
  | .applied => Settled s r

/-- What every careful run keeps. -/
structure Safe (s : Cluster F) : Prop where
  sane : ∀ n, Sane (s.procs n)
  stage : match s.handler with
    | none => Early s ∧ ∀ cl ∈ s.clients, Waits s cl
    | some (r, phase) => Stage s r phase

/-! ## The conditions -/

/-- Between the listing and the answer. -/
def Phase.moving : Phase → Bool
  | .listing => false
  | .proposed answered => answered
  | .applied => false
  | _ => true

/-- The removal that is in that window. -/
def Cluster.window (s : Cluster F) : Option Removal :=
  match s.handler with
  | none => none
  | some (r, phase) => if phase.moving then some r else none

/-- The conditions on a step, in the state before it. -/
def Careful (s : Cluster F) : Act F → Prop
  | .start leaving_id =>
      -- every other shard has a primary
      ∀ a ∈ live_shards s.coordinator.g_shards, a.shard_id ≠ leaving_id →
        ∃ b ∈ live_shards s.coordinator.g_shards, b.shard_id = a.shard_id ∧ b.is_primary = true
  | .list_local_ids delivered => delivered = true
  | .get_vector delivered => delivered = true
  | .resolve i _ =>
      match s.handler with
      | some (_, .inserting _ _ futures) =>
          ∀ f ∈ futures[i]?, ∀ c ∈ s.calls[f.call]?, IsPrimary s c.node → c.response ≠ none
      | _ => True
  | .execute k _ =>
      ∀ c ∈ s.calls[k]?,
        match c.body, c.owner with
        | .insert req, .handler =>
            IsPrimary s c.node → (s.procs c.node).current_epoch ≤ req.epoch ∧
              ∀ i ∈ (s.procs c.node).id_map.lookup req.external_id,
                i ∈ (s.procs c.node).index.nodes.keys
        | .insert _, .client => ∀ r ∈ s.window, c.node ≠ r.leaving_primary.node
        | .delete _, _ => True
  | .command _ _ => s.handler = none
  | .client_join j =>
      -- the replica that its coordinator took for the primary is the one that is listed
      ∀ cl ∈ s.clients[j]?, (quorum_result cl.futures).ok = true → s.removing cl.shard_id = true →
        ∀ h ∈ s.handler, ∀ f ∈ cl.futures, f.primary = true →
          ∀ c ∈ s.calls[f.call]?, c.node = h.1.leaving_primary.node
  | _ => True

/-! ## What does not change -/

omit [Zero F] in
theorem IsPrimary.congr {s s' : Cluster F} (hc : s'.coordinator = s.coordinator) {n : Node}
    (h : IsPrimary s' n) : IsPrimary s n := by
  unfold IsPrimary at *
  rw [← hc]
  exact h

omit [Zero F] in
theorem Setup.congr {s s' : Cluster F} (hc : s'.coordinator = s.coordinator) {r : Removal}
    (h : Setup s r) : Setup s' r :=
  ⟨hc.symm ▸ h.pool, h.primary, h.replicas, h.route⟩

omit [Zero F] in
theorem Waits.mono {s s' : Cluster F} (hg : Grown s.calls s'.calls) {cl : Client}
    (h : Waits s cl) : Waits s' cl := by
  intro f hf
  obtain ⟨c, req, hcall, howner, hbody, hx, hshard, hres⟩ := h f hf
  obtain ⟨c', hcall', hnode, howner', hbody', hres'⟩ := hg f.call c hcall
  refine ⟨c', req, hcall', howner'.trans howner, hbody'.trans hbody, hx, hnode ▸ hshard,
    fun ht => ?_⟩
  obtain ⟨res, h₁, h₂⟩ := hres ht
  exact ⟨res, hres' res h₁, h₂⟩

omit [Zero F] in
theorem Sent.mono {s s' : Cluster F} (hc : s'.coordinator = s.coordinator)
    (hg : Grown s.calls s'.calls) {r : Removal} {x : Text} {futures : List Future}
    (h : Sent s r x futures) : Sent s' r x futures := by
  intro sc hsc
  obtain ⟨f, hf, c, req, hcall, hnode, howner, hbody, hx, hexec⟩ := h sc hsc
  obtain ⟨c', hcall', hnode', howner', hbody', hres'⟩ := hg f.call c hcall
  refine ⟨f, hf, c', req, hcall', hnode'.trans hnode, howner'.trans howner, hbody'.trans hbody, hx,
    fun hf hp => ?_⟩
  obtain ⟨res, hres⟩ := Option.ne_none_iff_exists'.mp (hexec hf (hnode' ▸ hp.congr hc))
  exact Option.ne_none_iff_exists'.mpr ⟨res, hres' res hres⟩

theorem Kept.mono {s s' : Cluster F} (hc : s'.coordinator = s.coordinator) {r : Removal}
    (hlive : ∀ n y, n.1 ≠ r.leaving_id → (s.procs n).live y = true → (s'.procs n).live y = true)
    {x : Bytes} (h : Kept s r x) : Kept s' r x := by
  obtain ⟨sc, hmem, hprim, hne, hx⟩ := h
  exact ⟨sc, hc.symm ▸ hmem, hprim, hne, hlive _ _ hne hx⟩

/-! ## Sending -/

section Send

variable {s s' : Cluster F} {new : List (Call F)} (hcoord : s'.coordinator = s.coordinator)
  (hprocs : s'.procs = s.procs) (hcalls : s'.calls = s.calls ++ new)
  (hopen : ∀ c ∈ new, c.response = none)

omit [Zero F] in
include hcalls hopen in
theorem stored_of_send {c : Call F} (hc : c ∈ s'.calls) {x : Text} (hx : c.stored x) :
    c ∈ s.calls := by
  rw [hcalls] at hc
  rcases List.mem_append.mp hc with hc | hc
  · exact hc
  · obtain ⟨_, res, _, _, hres, _⟩ := hx
    exact absurd ((hopen c hc).symm.trans hres) (by simp)

include hprocs hcalls hopen in
theorem Early.send (h : Early s)
    (hnew : ∀ c ∈ new, c.owner = .client ∧ ∀ req, c.body ≠ .delete req) : Early s' := by
  refine ⟨fun c hc => ?_, fun c hc x hx => ?_⟩
  · rw [hcalls] at hc
    exact (List.mem_append.mp hc).elim (h.inserts c) (hnew c)
  · rw [hprocs]
    exact h.landed c (stored_of_send hcalls hopen hc hx) x hx

include hcoord hprocs in
theorem Kept.send {r : Removal} {x : Bytes} (h : Kept s r x) : Kept s' r x :=
  h.mono hcoord (fun _ _ _ hlive => hprocs.symm ▸ hlive)

include hcoord hprocs hcalls hopen in
theorem Late.send {r : Removal} (h : Late s r)
    (hdel : ∀ c ∈ new, ∀ req, c.body = .delete req →
      c.node.1 = r.leaving_id ∧ Kept s r req.external_id)
    (haway : ∀ c ∈ new, c.owner = .handler → ∀ req, c.body = .insert req →
      c.node.1 ≠ r.leaving_id ∧ req.vector.length = VECTOR_DIM) : Late s' r := by
  refine ⟨fun c hc req hbody => ?_, fun c hc howner req hbody => ?_,
    fun c hc howner req hbody hprim hres => ?_⟩
  · rw [hcalls] at hc
    obtain ⟨h₁, h₂⟩ := (List.mem_append.mp hc).elim (fun hc => h.deletes c hc req hbody)
      (fun hc => hdel c hc req hbody)
    exact ⟨h₁, h₂.send hcoord hprocs⟩
  · rw [hcalls] at hc
    exact (List.mem_append.mp hc).elim (fun hc => h.away c hc howner req hbody)
      (fun hc => haway c hc howner req hbody)
  · rw [hcalls] at hc
    rw [hprocs]
    rcases List.mem_append.mp hc with hc | hc
    · exact h.landed c hc howner req hbody (hprim.congr hcoord) hres
    · exact absurd (hopen c hc) hres

include hcoord hprocs hcalls hopen in
/-- Keys that were stored on the leaving primary can become owed. -/
theorem Moving.send {r : Removal} {todo : List Text}
    (howed : ∀ x ∈ s'.owed, x ∈ s.owed ∨ ∃ c ∈ s.calls, c.owner = .client ∧
      c.node = r.leaving_primary.node ∧ ∃ t : Text, t.1 = x ∧ c.stored t)
    (h : Moving s r todo) : Moving s' r todo := by
  obtain ⟨listed, h₁, h₂, h₃⟩ := h
  refine ⟨listed, fun x hx => ?_, fun x hx => ?_, fun c hc howner hnode x hx => ?_⟩
  · refine (h₁ x hx).imp (fun h => h.send hcoord hprocs) (fun h => ⟨h.1, ?_⟩)
    unfold Home
    rw [hprocs]
    exact h.2
  · rcases howed x hx with hx | ⟨c, hc, howner, hnode, t, rfl, ht⟩
    · exact h₂ x hx
    · exact h₃ c hc howner hnode t ht
  · exact h₃ c (stored_of_send hcalls hopen hc hx) howner hnode x hx

end Send

/-! ## Executing -/

section Execute

variable {s : Cluster F} {k : ℕ} {c : Call F} {p : ShardServiceImpl F × WriteResponse}

omit [Zero F] in
theorem mem_answer {d : Call F} (hd : d ∈ (s.answer k c p).calls) :
    d ∈ s.calls ∨ d = { c with response := some p.2 } :=
  List.mem_or_eq_of_mem_set hd

omit [Zero F] in
theorem answer_procs_ne {n : Node} (hn : n ≠ c.node) : (s.answer k c p).procs n = s.procs n :=
  Function.update_of_ne hn _ _

omit [Zero F] in
theorem answer_procs_self : (s.answer k c p).procs c.node = p.1 := Function.update_self _ _ _

/-- A key survives if it survives at the process that executed. -/
theorem answer_live {y : Bytes} (h : (s.procs c.node).live y = true → p.1.live y = true) {n : Node}
    (hn : (s.procs n).live y = true) : ((s.answer k c p).procs n).live y = true := by
  by_cases hnc : n = c.node
  · subst hnc
    rw [answer_procs_self]
    exact h hn
  · rw [answer_procs_ne hnc]
    exact hn

section Insert

variable {req : InsertRequest F} (hc : c ∈ s.calls) (hbody : c.body = .insert req)
  (hkept : ∀ y, (s.procs c.node).live y = true → p.1.live y = true)

include hbody in
omit [Zero F] in
theorem stored_answer {d : Call F} (hd : d ∈ (s.answer k c p).calls) {x : Text}
    (hx : d.stored x) :
    d ∈ s.calls ∨
      (d.node = c.node ∧ d.owner = c.owner ∧ req.external_id = x ∧ p.2.ok = true) := by
  rcases mem_answer hd with hd | rfl
  · exact Or.inl hd
  · obtain ⟨req', res, hbody', rfl, hres, hok⟩ := hx
    obtain rfl : req = req' := Write.insert.inj (hbody.symm.trans hbody')
    exact Or.inr ⟨rfl, rfl, rfl, Option.some.inj hres ▸ hok⟩

include hc hbody hkept in
theorem Early.execute (h : Early s)
    (hok : p.2.ok = true → p.1.live req.external_id = true) : Early (s.answer k c p) := by
  refine ⟨fun d hd => ?_, fun d hd x hx => ?_⟩
  · rcases mem_answer hd with hd | rfl
    · exact h.inserts d hd
    · exact h.inserts c hc
  · rcases stored_answer hbody hd hx with hd' | ⟨hnode, -, rfl, hres⟩
    · exact answer_live (hkept x.1) (h.landed d hd' x hx)
    · rw [hnode, answer_procs_self]
      exact hok hres

include hkept in
theorem Kept.execute {r : Removal} {x : Bytes} (h : Kept s r x) : Kept (s.answer k c p) r x := by
  have hcoord : (s.answer k c p).coordinator = s.coordinator := rfl
  exact h.mono hcoord (fun _ y _ hlive => answer_live (hkept y) hlive)

include hc hbody hkept in
theorem Late.execute {r : Removal} (h : Late s r)
    (hland : c.owner = .handler → IsPrimary s c.node → p.1.live req.external_id = true) :
    Late (s.answer k c p) r := by
  refine ⟨fun d hd req' hbody' => ?_, fun d hd howner req' hbody' => ?_,
    fun d hd howner req' hbody' hprim hres => ?_⟩
  · rcases mem_answer hd with hd | rfl
    · obtain ⟨h₁, h₂⟩ := h.deletes d hd req' hbody'
      exact ⟨h₁, h₂.execute hkept⟩
    · exact absurd (hbody.symm.trans hbody') (by simp)
  · rcases mem_answer hd with hd | rfl
    · exact h.away d hd howner req' hbody'
    · exact h.away c hc howner req' hbody'
  · rcases mem_answer hd with hd | rfl
    · exact answer_live (hkept _) (h.landed d hd howner req' hbody' hprim hres)
    · obtain rfl : req = req' := Write.insert.inj (hbody.symm.trans hbody')
      exact (congrArg (fun sh => ShardServiceImpl.live sh req.external_id) answer_procs_self).trans
        (hland howner hprim)

include hbody hkept in
theorem Moving.execute {r : Removal} {todo : List Text} (h : Moving s r todo)
    (hwindow : c.owner = .client → c.node ≠ r.leaving_primary.node) :
    Moving (s.answer k c p) r todo := by
  obtain ⟨listed, h₁, h₂, h₃⟩ := h
  refine ⟨listed, fun x hx => ?_, h₂, fun d hd howner hnode x hx => ?_⟩
  · exact (h₁ x hx).imp (fun h => h.execute hkept) (fun h => ⟨h.1, answer_live (hkept x) h.2⟩)
  · rcases stored_answer hbody hd hx with hd' | ⟨hnode', howner', -, -⟩
    · exact h₃ d hd' howner hnode x hx
    · exact absurd (hnode'.symm.trans hnode) (hwindow (howner'.symm.trans howner))

end Insert

section Delete

variable {req : DeleteRequest} {r : Removal} (hc : c ∈ s.calls) (hbody : c.body = .delete req)
  (hkept : ∀ y, y ≠ req.external_id.1 → (s.procs c.node).live y = true → p.1.live y = true)
  (hlate : Late s r)

include hc hbody hlate in
/-- A deletion is executed on the leaving shard. -/
theorem Kept.execute_delete {x : Bytes} (h : Kept s r x) : Kept (s.answer k c p) r x := by
  have hcoord : (s.answer k c p).coordinator = s.coordinator := rfl
  refine h.mono hcoord (fun n y hn hlive => ?_)
  have hne : n ≠ c.node := fun h' => hn (h' ▸ (hlate.deletes c hc req hbody).1)
  rw [answer_procs_ne hne]
  exact hlive

include hc hbody hlate in
theorem Late.execute_delete : Late (s.answer k c p) r := by
  refine ⟨fun d hd req' hbody' => ?_, fun d hd howner req' hbody' => ?_,
    fun d hd howner req' hbody' hprim hres => ?_⟩
  · rcases mem_answer hd with hd | rfl
    · obtain ⟨h₁, h₂⟩ := hlate.deletes d hd req' hbody'
      exact ⟨h₁, h₂.execute_delete hc hbody hlate⟩
    · obtain ⟨h₁, h₂⟩ := hlate.deletes c hc req' hbody'
      exact ⟨h₁, h₂.execute_delete hc hbody hlate⟩
  · rcases mem_answer hd with hd | rfl
    · exact hlate.away d hd howner req' hbody'
    · exact absurd (hbody.symm.trans hbody') (by simp)
  · rcases mem_answer hd with hd | rfl
    · have hne : d.node ≠ c.node := fun h' =>
        (hlate.away d hd howner req' hbody').1 (h' ▸ (hlate.deletes c hc req hbody).1)
      rw [answer_procs_ne hne]
      exact hlate.landed d hd howner req' hbody' hprim hres
    · exact absurd (hbody.symm.trans hbody') (by simp)

include hc hbody hkept hlate in
theorem Moving.execute_delete {todo : List Text} (h : Moving s r todo) :
    Moving (s.answer k c p) r todo := by
  obtain ⟨listed, h₁, h₂, h₃⟩ := h
  refine ⟨listed, fun x hx => ?_, h₂, fun d hd howner hnode x hx => ?_⟩
  · rcases h₁ x hx with h | ⟨htodo, hhome⟩
    · exact Or.inl (h.execute_delete hc hbody hlate)
    by_cases hxr : x = req.external_id.1
    · -- only keys that are kept are deleted
      rw [hxr]
      exact Or.inl ((hlate.deletes c hc req hbody).2.execute_delete hc hbody hlate)
    · exact Or.inr ⟨htodo, answer_live (hkept x hxr) hhome⟩
  · rcases mem_answer hd with hd | rfl
    · exact h₃ d hd howner hnode x hx
    · obtain ⟨req', _, hbody', _⟩ := hx
      exact absurd (hbody.symm.trans hbody') (by simp)

end Delete

end Execute

/-! ## Steps of the environment -/

/-- A step that no phase minds. -/
theorem Stage.map {s s' : Cluster F} {r : Removal} {phase : Phase} (h : Stage s r phase)
    (hlisting : phase = .listing → Listing s r → Listing s' r)
    (hmoving : ∀ todo, phase.moving = true → Migrating s r todo → Migrating s' r todo)
    (hsettled : phase = .proposed false ∨ phase = .applied → Settled s r → Settled s' r)
    (hsent : ∀ x futures, Sent s r x futures → Sent s' r x futures) : Stage s' r phase := by
  cases phase with
  | listing => exact hlisting rfl h
  | next todo => exact hmoving _ rfl h
  | inserting x todo futures => exact ⟨hmoving _ rfl h.1, hsent _ _ h.2⟩
  | deleting todo futures => exact hmoving _ rfl h
  | proposed answered =>
      cases answered with
      | true => exact hmoving _ rfl h
      | false => exact hsettled (Or.inl rfl) h
  | applied => exact hsettled (Or.inr rfl) h

/-- A client's step: it may send inserts, wait for them, and make a key owed that was stored on
the leaving primary. -/
theorem Safe.client {s s' : Cluster F} (hs : Safe s) {new : List (Call F)}
    (hcoord : s'.coordinator = s.coordinator) (hprocs : s'.procs = s.procs)
    (hhandler : s'.handler = s.handler) (hcalls : s'.calls = s.calls ++ new)
    (hnew : ∀ c ∈ new, c.response = none ∧ c.owner = .client ∧ ∀ req, c.body ≠ .delete req)
    (hwaits : (∀ cl ∈ s.clients, Waits s cl) → ∀ cl ∈ s'.clients, Waits s' cl)
    (howed : ∀ r phase, s.handler = some (r, phase) → (∀ cl ∈ s.clients, Waits s cl) →
      ∀ x ∈ s'.owed, x ∈ s.owed ∨ ∃ c ∈ s.calls, c.owner = .client ∧
        c.node = r.leaving_primary.node ∧ ∃ t : Text, t.1 = x ∧ c.stored t)
    (hsettled : ∀ r phase, s.handler = some (r, phase) →
      phase = .proposed false ∨ phase = .applied → s'.owed = s.owed) : Safe s' := by
  have hopen : ∀ c ∈ new, c.response = none := fun c hc => (hnew c hc).1
  -- new unanswered inserts of a client disturb no phase
  have hearly : Early s → Early s' :=
    fun h => h.send hprocs hcalls hopen (fun c hc => (hnew c hc).2)
  have hlate : ∀ r, Late s r → Late s' r := by
    intro r h
    refine h.send hcoord hprocs hcalls hopen (fun c hc req hbody => ?_) (fun c hc howner => ?_)
    · exact absurd hbody ((hnew c hc).2.2 req)
    · exact absurd ((hnew c hc).2.1.symm.trans howner) (by simp)
  have hstage := hs.stage
  refine ⟨fun n => hprocs.symm ▸ hs.sane n, ?_⟩
  rw [hhandler]
  cases hh : s.handler with
  | none =>
      rw [hh] at hstage
      exact ⟨hearly hstage.1, hwaits hstage.2⟩
  | some rp =>
      obtain ⟨r, phase⟩ := rp
      rw [hh] at hstage
      refine hstage.map (fun _ h => ?_) (fun todo _ h => ?_) (fun hphase h => ?_)
        (fun x futures h => h.mono hcoord (hcalls ▸ grown_append s.calls new))
      · refine ⟨h.setup.congr hcoord, hearly h.early, hwaits h.waits, fun x hx => ?_⟩
        unfold Home
        rw [hprocs]
        rcases howed r phase hh h.waits x hx with hx | ⟨c, hc, -, hnode, t, rfl, ht⟩
        · exact h.owed x hx
        · exact hnode ▸ h.early.landed c hc t ht
      · exact ⟨h.setup.congr hcoord, hlate r h.late, hwaits h.waits,
          h.moving.send hcoord hprocs hcalls hopen (howed r phase hh h.waits)⟩
      · exact ⟨hlate r h.late,
          fun x hx => (h.owed x (hsettled r phase hh hphase ▸ hx)).send hcoord hprocs⟩

theorem safe_client_insert {s : Cluster F} (hs : Safe s) (x : Text) (vector : List F)
    (metadata : Text) (pool : List ShardClient) (shard_id : ℤ) :
    Safe { s with
      calls := (fire s.calls .client (replicas_for_shard pool shard_id)
        (fun e => .insert ⟨x, vector, metadata, e⟩)).1
      clients := s.clients ++ [⟨x, shard_id, (fire s.calls .client
        (replicas_for_shard pool shard_id) (fun e => .insert ⟨x, vector, metadata, e⟩)).2⟩] } := by
  refine hs.client rfl rfl rfl rfl (fun c hc => ?_) (fun h cl hcl => ?_)
    (fun _ _ _ _ x hx => Or.inl hx) (fun _ _ _ _ => rfl)
  · obtain ⟨sc, -, rfl⟩ := List.mem_map.mp hc
    exact ⟨rfl, rfl, fun req h => by simp at h⟩
  · -- the clients that were waiting, and the new one whose futures are all open
    rcases List.mem_append.mp hcl with hcl | hcl
    · exact Waits.mono (grown_append _ _) (h cl hcl)
    · rw [List.mem_singleton.mp hcl]
      intro f hf
      obtain ⟨sc, hsc, hcall, -, hnone⟩ :=
        fire_future .client (fun e => .insert ⟨x, vector, metadata, e⟩) hf
      exact ⟨⟨sc.node, .client, .insert ⟨x, vector, metadata, sc.epoch⟩, none⟩,
        ⟨x, vector, metadata, sc.epoch⟩, hcall, rfl, rfl, rfl, (mem_replicas_for_shard.mp hsc).2,
        fun ht => absurd (hnone.symm.trans ht) (by simp)⟩

theorem safe_client_resolve {s : Cluster F} (hs : Safe s) {j i : ℕ} {cl : Client}
    {delivered : Bool} (hj : s.clients[j]? = some cl) {futures : List Future}
    (hres : resolve s.calls cl.futures i delivered = some futures) :
    Safe { s with clients := s.clients.set j { cl with futures := futures } } := by
  refine hs.client rfl rfl rfl (List.append_nil _).symm (by simp) (fun h cl' hcl' => ?_)
    (fun _ _ _ _ x hx => Or.inl hx) (fun _ _ _ _ => rfl)
  rcases List.mem_or_eq_of_mem_set hcl' with hcl' | rfl
  · exact h cl' hcl'
  have hwait := h cl (List.mem_of_getElem? hj)
  obtain ⟨f, hf, rfl⟩ := resolve_spec hres
  intro f' hf'
  rcases List.mem_or_eq_of_mem_set hf' with hf' | rfl
  · exact hwait f' hf'
  · obtain ⟨c, req, hcall, howner, hbody, hx, hshard, -⟩ := hwait f (List.mem_of_getElem? hf)
    refine ⟨c, req, hcall, howner, hbody, hx, hshard, fun ht => ?_⟩
    obtain ⟨c', res, hcall', hres', hok⟩ := outcome_true (Option.some.inj ht)
    obtain rfl : c = c' := Option.some.inj (hcall.symm.trans hcall')
    exact ⟨res, hres', hok⟩

omit [Zero F] in
/-- A client that has its quorum has the ack of the replica that counts as the primary. -/
theorem acked_stored {s : Cluster F} {r : Removal} {cl : Client} (hwait : Waits s cl)
    (hok : (quorum_result cl.futures).ok = true)
    (hprimary : ∀ f ∈ cl.futures, f.primary = true →
      ∀ c ∈ s.calls[f.call]?, c.node = r.leaving_primary.node) :
    ∃ c ∈ s.calls, c.owner = .client ∧ c.node = r.leaving_primary.node ∧
      ∃ t : Text, t.1 = cl.external_id.1 ∧ c.stored t := by
  obtain ⟨f, hf, hmark, htrue⟩ := quorum_primary hok
  obtain ⟨c, req, hcall, howner, hbody, hx, -, hres⟩ := hwait f hf
  obtain ⟨res, hres, hresok⟩ := hres htrue
  exact ⟨c, List.mem_of_getElem? hcall, howner, hprimary f hf hmark c hcall, cl.external_id, rfl,
    req, res, hbody, hx, hres, hresok⟩

theorem safe_client_join {s : Cluster F} (hs : Safe s) {j : ℕ} {cl : Client}
    (hj : s.clients[j]? = some cl) (hcareful : Careful s (.client_join j)) :
    Safe { s with
      clients := s.clients.eraseIdx j
      owed := if (quorum_result cl.futures).ok ∧ s.removing cl.shard_id = true
        then cl.external_id.1 :: s.owed else s.owed } := by
  refine hs.client rfl rfl rfl (List.append_nil _).symm (by simp)
    (fun h cl' hcl' => h cl' (List.mem_of_mem_eraseIdx hcl'))
    (fun r phase hh hwaits x hx => ?_)
    (fun r phase hh hphase => if_neg fun h => ?_)
  · dsimp only at hx
    split at hx
    · rename_i hok
      rcases List.mem_cons.mp hx with rfl | hx
      · exact Or.inr (acked_stored (hwaits cl (List.mem_of_getElem? hj)) hok.1
          (hcareful cl hj hok.1 hok.2 (r, phase) hh))
      · exact Or.inl hx
    · exact Or.inl hx
  · have hremoving := h.2
    rw [Cluster.removing, hh] at hremoving
    rcases hphase with rfl | rfl <;> simp at hremoving

/-! ## Steps of the handler -/

omit [Zero F] in
/-- Of two shards one stays. -/
theorem remaining_ne_nil {g_shards : List ShardClient} (h : ¬ (active_ids g_shards).length ≤ 1)
    (leaving_id : ℤ) :
    (active_ids g_shards).filter (fun sid => decide (sid ≠ leaving_id)) ≠ [] := by
  have hnodup : (active_ids g_shards).Nodup :=
    (List.mergeSort_perm _ _).nodup_iff.mpr (List.nodup_dedup _)
  generalize active_ids g_shards = ids at *
  rcases ids with _ | ⟨a, _ | ⟨b, ids⟩⟩
  · simp at h
  · simp at h
  · intro hnil
    rw [List.filter_eq_nil_iff] at hnil
    have ha : a = leaving_id := by simpa using hnil a (by simp)
    have hb : b = leaving_id := by simpa using hnil b (by simp)
    rw [ha, hb] at hnodup
    simp at hnodup

/-- The handler goes on, perhaps with new calls. -/
theorem Migrating.send {s s' : Cluster F} {r : Removal} {todo : List Text}
    (h : Migrating s r todo) {new : List (Call F)} (hcoord : s'.coordinator = s.coordinator)
    (hprocs : s'.procs = s.procs) (hclients : s'.clients = s.clients) (howed : s'.owed = s.owed)
    (hcalls : s'.calls = s.calls ++ new) (hopen : ∀ c ∈ new, c.response = none)
    (hdel : ∀ c ∈ new, ∀ req, c.body = .delete req →
      c.node.1 = r.leaving_id ∧ Kept s r req.external_id)
    (haway : ∀ c ∈ new, c.owner = .handler → ∀ req, c.body = .insert req →
      c.node.1 ≠ r.leaving_id ∧ req.vector.length = VECTOR_DIM) : Migrating s' r todo := by
  refine ⟨h.setup.congr hcoord, h.late.send hcoord hprocs hcalls hopen hdel haway,
    fun cl hcl => ?_, h.moving.send hcoord hprocs hcalls hopen (fun x hx => Or.inl (howed ▸ hx))⟩
  rw [hclients] at hcl
  exact (h.waits cl hcl).mono (hcalls ▸ grown_append s.calls new)

/-- The handler goes on without new calls. -/
theorem Migrating.turn {s : Cluster F} {r : Removal} {todo : List Text} (h : Migrating s r todo)
    (handler : Option (Removal × Phase)) (rebalancing : Bool) :
    Migrating { s with handler := handler, rebalancing := rebalancing } r todo := by
  refine Migrating.send h ?_ ?_ ?_ ?_ (List.append_nil _).symm (by simp) (by simp) (by simp) <;> rfl

/-- The handler's first lines. -/
theorem safe_start {s : Cluster F} (hs : Safe s) (hnone : s.handler = none) {leaving_id : ℤ}
    (hcareful : Careful s (.start leaving_id)) : Safe (remove_start s leaving_id) := by
  have hstage := hs.stage
  rw [hnone] at hstage
  unfold remove_start
  dsimp only
  split
  · exact hs
  rename_i primary hfind
  split
  · exact hs
  rename_i hlen
  have hmem := List.mem_of_find?_eq_some hfind
  have hprop := List.find?_some hfind
  rw [Bool.and_eq_true, decide_eq_true_eq] at hprop
  refine ⟨hs.sane, ⟨rfl, ⟨hmem, hprop.1⟩, ?_, fun x => ?_⟩, ⟨hstage.1.inserts, hstage.1.landed⟩,
    hstage.2, fun x hx => ?_⟩
  · intro sc hsc
    exact (mem_replicas_for_shard.mp hsc).2
  · -- every remaining shard the ring can choose has a primary
    obtain ⟨hids, hne⟩ := List.mem_filter.mp (route_mem (remaining_ne_nil hlen leaving_id) x)
    rw [decide_eq_true_eq] at hne
    obtain ⟨a, ha, hroute⟩ := mem_active_ids.mp hids
    obtain ⟨b, hb, hshard, hprim⟩ := hcareful a ha (hroute ▸ hne)
    exact ⟨hne, b, hb, hprim, hshard.trans hroute⟩
  · exact (List.mem_filter.mp hx).2

/-- **The listing.** It has every key of the leaving primary. -/
theorem safe_list {s : Cluster F} (hs : Safe s) {r : Removal}
    (hh : s.handler = some (r, .listing)) :
    Safe { s with handler := some (r, .next
      ((s.procs r.leaving_primary.node).list_local_ids.external_ids.filterMap text)) } := by
  have hstage := hs.stage
  rw [hh] at hstage
  obtain ⟨hsetup, hearly, hwaits, howed⟩ := hstage
  have hsane := hs.sane r.leaving_primary.node
  -- what lives on the leaving primary is in its id map, so it is listed
  have hmem : ∀ x, Home s r x → x ∈ (s.procs r.leaving_primary.node).id_map.reverse := by
    intro x hx
    obtain ⟨i, v, hi, -⟩ := live_iff.mp hx
    exact List.mem_of_getElem? ((forward_iff hsane.ids x i).mp hi)
  refine ⟨hs.sane, ?_⟩
  refine Migrating.turn (s := s) ⟨hsetup, ⟨fun c hc req hbody => ?_, fun c hc howner => ?_,
    fun c hc howner => ?_⟩, hwaits, ?_⟩ _ s.rebalancing
  · exact absurd hbody ((hearly.inserts c hc).2 req)
  · exact absurd ((hearly.inserts c hc).1.symm.trans howner) (by simp)
  · exact absurd ((hearly.inserts c hc).1.symm.trans howner) (by simp)
  · -- from here on the keys to move are those live at the listing
    refine ⟨(s.procs r.leaving_primary.node).id_map.reverse.filter
      (s.procs r.leaving_primary.node).live, fun x hx => ?_, fun x hx => ?_,
      fun c hc _ hnode x hx => ?_⟩
    · obtain ⟨hrev, hlive⟩ := List.mem_filter.mp hx
      refine Or.inr ⟨List.mem_map.mpr ⟨⟨x, hsane.ids.short x hrev⟩, ?_, rfl⟩, hlive⟩
      exact List.mem_filterMap.mpr ⟨x, live_listed hsane hlive, dif_pos (hsane.ids.short x hrev)⟩
    · exact List.mem_filter.mpr ⟨hmem x (howed x hx), howed x hx⟩
    · have hlive := hearly.landed c hc x hx
      rw [hnode] at hlive
      exact List.mem_filter.mpr ⟨hmem x hlive, hlive⟩

/-- A key that is not there need not be migrated. -/
theorem Moving.skip {s : Cluster F} {r : Removal} {x : Text} {todo : List Text}
    (h : Moving s r (x :: todo)) (hx : Home s r x → Kept s r x) : Moving s r todo := by
  obtain ⟨listed, h₁, h₂, h₃⟩ := h
  refine ⟨listed, fun y hy => ?_, h₂, h₃⟩
  rcases h₁ y hy with h | ⟨htodo, hhome⟩
  · exact Or.inl h
  · rw [List.map_cons, List.mem_cons] at htodo
    rcases htodo with rfl | htodo
    · exact Or.inl (hx hhome)
    · exact Or.inr ⟨htodo, hhome⟩

/-- **The read of a key.** A key of the leaving primary is read, and written to every replica
of its destination. -/
theorem safe_get {s : Cluster F} (hs : Safe s) {r : Removal} {x : Text} {todo : List Text}
    (hh : s.handler = some (r, .next (x :: todo))) : Safe (migrate_one_key s r x todo true) := by
  have hstage := hs.stage
  rw [hh] at hstage
  obtain ⟨hne, sc, hsc, hprim, hshard⟩ := hstage.setup.route x
  -- the key has a destination: its new shard has a primary
  have hdest : replicas_for_shard r.pool (r.route x) ≠ [] := by
    intro hnil
    have hmem := mem_replicas_for_shard.mpr ⟨hsc, hshard⟩
    rw [hnil] at hmem
    simp at hmem
  unfold migrate_one_key
  dsimp only
  split
  · -- the read failed, so the key is not there
    rename_i hfail
    have hmoving : Moving s r todo := by
      refine hstage.moving.skip (fun hhome => ?_)
      obtain ⟨hok, hshort⟩ := live_get_vector (hs.sane r.leaving_primary.node) hhome
      rw [if_neg (by simp [hdest, hok]), text, dif_pos hshort] at hfail
      simp at hfail
    have hnext : Migrating s r todo := ⟨hstage.setup, hstage.late, hstage.waits, hmoving⟩
    exact ⟨hs.sane, hnext.turn _ s.rebalancing⟩
  · rename_i metadata hread
    have hok : ((s.procs r.leaving_primary.node).get_vector x).ok = true := by
      by_contra hok
      rw [if_pos (by simp [hok])] at hread
      simp at hread
    have hdim : ((s.procs r.leaving_primary.node).get_vector x).vector.length = VECTOR_DIM :=
      get_vector_length hok
    have hopen : ∀ c ∈ (replicas_for_shard r.pool (r.route x)).map (fun sc =>
        (⟨sc.node, .handler, .insert ⟨x, ((s.procs r.leaving_primary.node).get_vector x).vector,
          metadata, sc.epoch⟩, none⟩ : Call F)), c.response = none := by
      intro c hc
      obtain ⟨sc, -, rfl⟩ := List.mem_map.mp hc
      rfl
    refine ⟨hs.sane, Migrating.send hstage ?_ ?_ ?_ ?_ ?_ hopen ?_ ?_, fun sc hsc => ?_⟩
    · rfl
    · rfl
    · rfl
    · rfl
    · rfl
    · intro c hc req hbody
      obtain ⟨sc, -, rfl⟩ := List.mem_map.mp hc
      simp at hbody
    · intro c hc _ req hbody
      obtain ⟨sc, hsc, rfl⟩ := List.mem_map.mp hc
      rw [← Write.insert.inj hbody]
      exact ⟨fun h => hne ((mem_replicas_for_shard.mp hsc).2.symm.trans h), hdim⟩
    · obtain ⟨f, hf, hnone, hcall⟩ := fire_call .handler (fun e => .insert
        ⟨x, ((s.procs r.leaving_primary.node).get_vector x).vector, metadata, e⟩) hsc
      exact ⟨f, hf, _, _, hcall, rfl, rfl, rfl, rfl, fun h => absurd hnone h⟩

/-- A future of the destination round resolves; a primary has executed its call by then. -/
theorem safe_resolve {s : Cluster F} (hs : Safe s) {r : Removal} {x : Text} {todo : List Text}
    {futures futures' : List Future} {i : ℕ} {delivered : Bool}
    (hh : s.handler = some (r, .inserting x todo futures))
    (hcareful : Careful s (.resolve i delivered))
    (hres : resolve s.calls futures i delivered = some futures') :
    Safe { s with handler := some (r, .inserting x todo futures') } := by
  have hstage := hs.stage
  rw [hh] at hstage
  obtain ⟨hmig, hsent⟩ := hstage
  rw [Careful, hh] at hcareful
  obtain ⟨f, hf, rfl⟩ := resolve_spec hres
  refine ⟨hs.sane, hmig.turn _ s.rebalancing, fun sc hsc => ?_⟩
  obtain ⟨g, hg, c, req, hcall, hnode, howner, hbody, hx, hexec⟩ := hsent sc hsc
  obtain ⟨j, hj⟩ := List.mem_iff_getElem?.mp hg
  by_cases hij : i = j
  · subst hij
    obtain rfl : f = g := Option.some.inj (hf.symm.trans hj)
    have hlt := (List.getElem?_eq_some_iff.mp hj).1
    refine ⟨_, List.mem_of_getElem? (List.getElem?_set_self hlt), c, req, hcall, hnode, howner,
      hbody, hx, fun _ hprim => ?_⟩
    exact hcareful f hf c hcall hprim
  · exact ⟨g, List.mem_of_getElem? ((List.getElem?_set_ne hij).trans hj), c, req, hcall, hnode,
      howner, hbody, hx, hexec⟩

/-- **The destination round is over**: the key is kept. -/
theorem sent_kept {s : Cluster F} {r : Removal} {x : Text} {todo : List Text}
    {futures : List Future} (hmig : Migrating s r (x :: todo)) (hsent : Sent s r x futures)
    (hjoined : joined futures = true) : Kept s r x := by
  obtain ⟨hne, sc, hsc, hprim, hshard⟩ := hmig.setup.route x
  obtain ⟨f, hf, c, req, hcall, hnode, howner, hbody, rfl, hexec⟩ :=
    hsent sc (mem_replicas_for_shard.mpr ⟨hsc, hshard⟩)
  have hmem : sc ∈ live_shards s.coordinator.g_shards := hmig.setup.pool ▸ hsc
  have hprimary : IsPrimary s c.node := ⟨sc, hmem, hprim, hnode.symm⟩
  have hresolved : f.result ≠ none := by
    have hsome := List.all_eq_true.mp hjoined f hf
    intro hnone
    rw [hnone] at hsome
    simp at hsome
  have hlive := hmig.late.landed c (List.mem_of_getElem? hcall) howner req hbody hprimary
    (hexec hresolved hprimary)
  rw [hnode] at hlive
  exact ⟨sc, hmem, hprim, hshard.trans_ne hne, hlive⟩

/-- The destination round is over: the key is deleted at the source, or not. -/
theorem safe_join {s : Cluster F} (hs : Safe s) {r : Removal} {x : Text} {todo : List Text}
    {futures : List Future} (hh : s.handler = some (r, .inserting x todo futures))
    (hjoined : joined futures = true) :
    Safe { s with handler := some (r, .next todo) } ∧
    Safe { s with
      calls := (fire s.calls .handler r.leaving_replicas (fun e => .delete ⟨x, e⟩)).1
      handler := some (r, .deleting todo
        (fire s.calls .handler r.leaving_replicas (fun e => .delete ⟨x, e⟩)).2) } := by
  have hstage := hs.stage
  rw [hh] at hstage
  obtain ⟨hmig, hsent⟩ := hstage
  -- the destination's primary answered, so the key is kept there before any delete
  have hkept := sent_kept hmig hsent hjoined
  have hnext : Migrating s r todo :=
    ⟨hmig.setup, hmig.late, hmig.waits, hmig.moving.skip (fun _ => hkept)⟩
  have hopen : ∀ c ∈ r.leaving_replicas.map (fun sc =>
      (⟨sc.node, .handler, .delete ⟨x, sc.epoch⟩, none⟩ : Call F)), c.response = none := by
    intro c hc
    obtain ⟨sc, -, rfl⟩ := List.mem_map.mp hc
    rfl
  refine ⟨⟨hs.sane, hnext.turn _ s.rebalancing⟩, hs.sane,
    Migrating.send hnext ?_ ?_ ?_ ?_ ?_ hopen ?_ ?_⟩
  · rfl
  · rfl
  · rfl
  · rfl
  · rfl
  · intro c hc req hbody
    obtain ⟨sc, hsc, rfl⟩ := List.mem_map.mp hc
    rw [← Write.delete.inj hbody]
    exact ⟨hmig.setup.replicas sc hsc, hkept⟩
  · intro c hc _ req hbody
    obtain ⟨sc, -, rfl⟩ := List.mem_map.mp hc
    simp at hbody

/-- All keys are through: nothing is owed that is not kept. -/
theorem Migrating.settled {s : Cluster F} {r : Removal} (h : Migrating s r []) : Settled s r := by
  obtain ⟨listed, h₁, h₂, -⟩ := h.moving
  refine ⟨h.late, fun x hx => ?_⟩
  rcases h₁ x (h₂ x hx) with h | ⟨htodo, -⟩
  · exact h
  · simp at htodo

omit [Zero F] in
/-- The removal leaves the other shards' replicas. -/
theorem mem_live_remove (c : Coordinator) (e : ℕ) (leaving_id : ℤ) (sc : ShardClient) :
    sc ∈ live_shards (apply_command e c (.remove_shard leaving_id)).g_shards ↔
      sc ∈ live_shards c.g_shards ∧ sc.shard_id ≠ leaving_id := by
  unfold apply_command Coordinator.rebuild live_shards
  simp only [List.mem_filter, List.mem_map]
  constructor
  · rintro ⟨⟨sc', hmem, rfl⟩, hactive⟩
    by_cases hid : sc'.shard_id = leaving_id
    · simp [hid] at hactive
    · rw [if_neg hid] at hactive ⊢
      exact ⟨⟨hmem, hactive⟩, hid⟩
  · rintro ⟨⟨hmem, hactive⟩, hid⟩
    exact ⟨⟨sc, hmem, if_neg hid⟩, hactive⟩

/-- **The removal is applied.** -/
theorem safe_apply {s : Cluster F} (hs : Safe s) {r : Removal} {answered : Bool}
    (hh : s.handler = some (r, .proposed answered)) (e : ℕ) :
    Safe { s with
      coordinator := apply_command e s.coordinator (.remove_shard r.leaving_id)
      handler := some (r, .applied)
      rebalancing := false } := by
  have hstage := hs.stage
  rw [hh] at hstage
  have hsettled : Settled s r := by
    cases answered with
    | true => exact Migrating.settled hstage
    | false => exact hstage
  obtain ⟨hlate, howed⟩ := hsettled
  -- the command takes the leaving shard away and no other client
  have hkept : ∀ x, Kept s r x → Kept { s with
      coordinator := apply_command e s.coordinator (.remove_shard r.leaving_id)
      handler := some (r, .applied)
      rebalancing := false } r x := by
    rintro x ⟨sc, hmem, hprim, hne, hlive⟩
    exact ⟨sc, (mem_live_remove s.coordinator e r.leaving_id sc).mpr ⟨hmem, hne⟩, hprim, hne, hlive⟩
  refine ⟨hs.sane, ⟨fun c hc req hbody => ?_, hlate.away, fun c hc howner req hbody hprim => ?_⟩,
    fun x hx => hkept x (howed x hx)⟩
  · exact ⟨(hlate.deletes c hc req hbody).1, hkept _ (hlate.deletes c hc req hbody).2⟩
  · obtain ⟨sc, hmem, hprimary, hnode⟩ := hprim
    exact hlate.landed c hc howner req hbody
      ⟨sc, ((mem_live_remove s.coordinator e r.leaving_id sc).mp hmem).1, hprimary, hnode⟩

variable [BEq F] [LinearOrder D] (ties : Ties D) (dist : Vec F → Vec F → D)

/-- **The execution of a call.** -/
theorem safe_execute {s : Cluster F} (hs : Safe s) {k : ℕ} {level : Fin MAX_LAYERS}
    (hcareful : Careful s (.execute k level)) {c : Call F} (hk : s.calls[k]? = some c)
    (hopen : c.response = none) {p : ShardServiceImpl F × WriteResponse}
    (hp : s.execute ties dist c level = some p) : Safe (s.answer k c p) := by
  have hc := List.mem_of_getElem? hk
  have hguard := hcareful c hk
  have hgrown : Grown s.calls (s.answer k c p).calls := grown_answer hk hopen p.2
  have hcoord : (s.answer k c p).coordinator = s.coordinator := rfl
  have hwaits : ∀ cl, Waits s cl → Waits (s.answer k c p) cl := fun cl h => h.mono hgrown
  have hsane : Sane p.1 → ∀ n, Sane ((s.answer k c p).procs n) := by
    intro h n
    by_cases hn : n = c.node
    · rw [hn, answer_procs_self]
      exact h
    · rw [answer_procs_ne hn]
      exact hs.sane n
  have hstage := hs.stage
  unfold Cluster.execute at hp
  cases hbody : c.body with
  | insert req =>
      rw [hbody] at hp hguard
      obtain ⟨sh, res, hins, hsane', hkept, hok, hadmitted⟩ :=
        insert_sane ties dist (hs.sane c.node) req level
      obtain rfl : (sh, res) = p := Option.some.inj (hins.symm.trans hp)
      refine ⟨hsane hsane', ?_⟩
      cases hh : s.handler with
      | none =>
          rw [hh] at hstage
          have hh' : (s.answer k c (sh, res)).handler = none := hh
          rw [hh']
          exact ⟨hstage.1.execute hc hbody hkept hok, fun cl hcl => hwaits cl (hstage.2 cl hcl)⟩
      | some rp =>
          obtain ⟨r, phase⟩ := rp
          rw [hh] at hstage
          have hh' : (s.answer k c (sh, res)).handler = some (r, phase) := hh
          rw [hh']
          -- a migrated key lands at its new primary: nothing there rejects it
          have hland : Late s r → c.owner = .handler → IsPrimary s c.node →
              sh.live req.external_id = true := by
            intro hlate howner hprim
            rw [howner] at hguard
            obtain ⟨hepoch, hkeys⟩ := hguard hprim
            exact hadmitted (hlate.away c hc howner req hbody).2 hepoch hkeys
          -- no client write reaches the leaving primary while keys are on the move
          have hwindow : phase.moving = true → c.owner = .client →
              c.node ≠ r.leaving_primary.node := by
            intro hmoving howner
            rw [howner] at hguard
            refine hguard r ?_
            rw [Cluster.window, hh]
            exact if_pos hmoving
          refine hstage.map (fun _ h => ?_) (fun todo hm h => ?_) (fun _ h => ?_)
            (fun x futures h => h.mono hcoord hgrown)
          · exact ⟨h.setup.congr hcoord, h.early.execute hc hbody hkept hok,
              fun cl hcl => hwaits cl (h.waits cl hcl),
              fun x hx => answer_live (hkept x) (h.owed x hx)⟩
          · exact ⟨h.setup.congr hcoord, h.late.execute hc hbody hkept (hland h.late),
              fun cl hcl => hwaits cl (h.waits cl hcl),
              h.moving.execute hbody hkept (hwindow hm)⟩
          · exact ⟨h.late.execute hc hbody hkept (hland h.late),
              fun x hx => (h.owed x hx).execute hkept⟩
  | delete req =>
      rw [hbody] at hp
      obtain ⟨hsane', hkept⟩ := delete_sane (hs.sane c.node) req
      obtain rfl : (s.procs c.node).delete req = p := Option.some.inj hp
      refine ⟨hsane hsane', ?_⟩
      cases hh : s.handler with
      | none =>
          rw [hh] at hstage
          exact absurd hbody ((hstage.1.inserts c hc).2 req)
      | some rp =>
          obtain ⟨r, phase⟩ := rp
          rw [hh] at hstage
          have hh' : (s.answer k c ((s.procs c.node).delete req)).handler = some (r, phase) := hh
          rw [hh']
          refine hstage.map (fun _ h => ?_) (fun todo _ h => ?_) (fun _ h => ?_)
            (fun x futures h => h.mono hcoord hgrown)
          · exact absurd hbody ((h.early.inserts c hc).2 req)
          · exact ⟨h.setup.congr hcoord, h.late.execute_delete hc hbody,
              fun cl hcl => hwaits cl (h.waits cl hcl),
              h.moving.execute_delete hc hbody hkept h.late⟩
          · exact ⟨h.late.execute_delete hc hbody,
              fun x hx => (h.owed x hx).execute_delete hc hbody h.late⟩

/-- **A careful step keeps what was said.** -/
theorem safe_step {s s' : Cluster F} {a : Act F} (hs : Safe s) (hcareful : Careful s a)
    (hstep : cluster_step ties dist s a = some s') : Safe s' := by
  -- one lemma per act; here the phase the act is taken in is read off the step
  cases a with
  | start leaving_id =>
      simp only [cluster_step] at hstep
      split at hstep
      · simp at hstep
      · rename_i hnone
        exact Option.some.inj hstep ▸ safe_start hs (by simpa using hnone) hcareful
  | list_local_ids delivered =>
      simp only [cluster_step] at hstep
      split at hstep
      · rename_i r hh
        obtain rfl : delivered = true := hcareful
        exact Option.some.inj hstep ▸ safe_list hs hh
      · simp at hstep
  | get_vector delivered =>
      simp only [cluster_step] at hstep
      split at hstep
      · rename_i r x todo hh
        obtain rfl : delivered = true := hcareful
        exact Option.some.inj hstep ▸ safe_get hs hh
      · simp at hstep
  | resolve i delivered =>
      simp only [cluster_step] at hstep
      split at hstep
      · rename_i r x todo futures hh
        obtain ⟨futures', hres, rfl⟩ := Option.map_eq_some_iff.mp hstep
        exact safe_resolve hs hh hcareful hres
      · rename_i r todo futures hh
        obtain ⟨futures', hres, rfl⟩ := Option.map_eq_some_iff.mp hstep
        have hstage := hs.stage
        rw [hh] at hstage
        exact ⟨hs.sane, Migrating.turn hstage _ s.rebalancing⟩
      · simp at hstep
  | join =>
      simp only [cluster_step] at hstep
      split at hstep
      · rename_i r x todo futures hh
        split at hstep
        · simp at hstep
        rename_i hjoined
        have h := safe_join hs hh (by simpa using hjoined)
        split at hstep
        · exact Option.some.inj hstep ▸ h.2
        · exact Option.some.inj hstep ▸ h.1
      · rename_i r todo futures hh
        have hstage := hs.stage
        rw [hh] at hstage
        split at hstep
        · rw [← Option.some.inj hstep]
          exact ⟨hs.sane, Migrating.turn hstage _ s.rebalancing⟩
        · simp at hstep
      · simp at hstep
  | propose answered =>
      simp only [cluster_step] at hstep
      split at hstep
      · rename_i r hh
        have hstage := hs.stage
        rw [hh] at hstage
        have hturn := Migrating.turn hstage (some (r, .proposed answered)) answered
        rw [← Option.some.inj hstep]
        cases answered with
        | true => exact ⟨hs.sane, hturn⟩
        | false => exact ⟨hs.sane, hturn.settled⟩
      · simp at hstep
  | apply command_epoch =>
      simp only [cluster_step] at hstep
      split at hstep
      · rename_i r answered hh
        exact Option.some.inj hstep ▸ safe_apply hs hh command_epoch
      · simp at hstep
  | command command_epoch cmd =>
      -- without a handler nothing that is kept looks at the topology
      have hstage := hs.stage
      rw [show s.handler = none from hcareful] at hstage
      rw [← Option.some.inj hstep]
      refine ⟨hs.sane, ?_⟩
      dsimp only
      rw [show s.handler = none from hcareful]
      exact ⟨⟨hstage.1.inserts, hstage.1.landed⟩, hstage.2⟩
  | execute k level =>
      simp only [cluster_step] at hstep
      split at hstep
      · rename_i c hk
        split at hstep
        · simp at hstep
        rename_i hopen
        obtain ⟨p, hp, rfl⟩ := Option.map_eq_some_iff.mp hstep
        exact safe_execute ties dist hs hcareful hk (by simpa using hopen) hp
      · simp at hstep
  | client_insert via x vector metadata =>
      simp only [cluster_step] at hstep
      split at hstep
      · exact Option.some.inj hstep ▸ hs
      split at hstep
      · exact Option.some.inj hstep ▸ hs
      · exact Option.some.inj hstep ▸ safe_client_insert hs x vector metadata _ _
  | client_resolve j i delivered =>
      simp only [cluster_step] at hstep
      split at hstep
      · rename_i x shard_id futures hj
        obtain ⟨futures', hres, rfl⟩ := Option.map_eq_some_iff.mp hstep
        exact safe_client_resolve hs hj hres
      · simp at hstep
  | client_join j =>
      simp only [cluster_step] at hstep
      split at hstep
      · rename_i x shard_id futures hj
        split at hstep
        · simp at hstep
        · exact Option.some.inj hstep ▸ safe_client_join hs hj hcareful
      · simp at hstep

instance decidableIsPrimary (s : Cluster F) (n : Node) : Decidable (IsPrimary s n) := by
  unfold IsPrimary
  infer_instance

instance decidableCareful (s : Cluster F) : (a : Act F) → Decidable (Careful s a)
  | .start _ => by unfold Careful; infer_instance
  | .resolve i _ => by
      unfold Careful
      dsimp only
      split <;> infer_instance
  | .execute k _ => by
      unfold Careful
      dsimp only
      have hbody (c : Call F) : Decidable (match c.body, c.owner with
          | .insert req, .handler =>
              IsPrimary s c.node → (s.procs c.node).current_epoch ≤ req.epoch ∧
                ∀ i ∈ (s.procs c.node).id_map.lookup req.external_id,
                  i ∈ (s.procs c.node).index.nodes.keys
          | .insert _, .client => ∀ r ∈ s.window, c.node ≠ r.leaving_primary.node
          | .delete _, _ => True) := by
        split <;> infer_instance
      infer_instance
  | .list_local_ids _ => by unfold Careful; infer_instance
  | .get_vector _ => by unfold Careful; infer_instance
  | .command .. => by
      unfold Careful
      exact decidable_of_iff (s.handler.isNone = true) Option.isNone_iff_eq_none
  | .client_join _ => by unfold Careful; infer_instance
  | .join | .propose _ | .apply _ | .client_insert .. | .client_resolve .. => isTrue trivial

end Safe

/-! ## A cluster of two shards -/

/-- Shards 0 and 1, one replica each. -/
def two_shards : List ShardClient :=
  [⟨0, 0, "a", 9090, true, true, 0⟩, ⟨1, 0, "b", 9090, true, true, 0⟩]

/-- A shard with one key. -/
def one_key : ShardServiceImpl ℤ :=
  (((ShardServiceImpl.fresh 4096).insert Ties.first (fun _ _ => (0 : ℤ))
    ⟨one_byte 1, List.replicate VECTOR_DIM 1, one_byte 97, 0⟩ 0).map Prod.fst).getD
    (ShardServiceImpl.fresh 4096)

/-- Shard 0 has the key, shard 1 is empty. -/
def two_shard_cluster : Cluster ℤ :=
  { coordinator := { g_shards := two_shards, active_ring := HashRing.build [0, 1] }
    procs := fun n => if n = (0, 0) then one_key else ShardServiceImpl.fresh 4096 }

/-- The handler that removes shard 0; everything is routed to shard 1. -/
def removing_shard_0 : Cluster ℤ :=
  { two_shard_cluster with
    handler := some
      (⟨0, two_shards, [⟨0, 0, "a", 9090, true, true, 0⟩], ⟨0, 0, "a", 9090, true, true, 0⟩,
        fun _ => 1⟩, .listing)
    rebalancing := true
    owed := [[1]] }

theorem remove_start_two_shards : remove_start two_shard_cluster 0 = removing_shard_0 := by
  -- one shard remains, so the ring has nowhere else to send a key
  have hroute : (HashRing.build ((active_ids two_shards).filter
      (fun sid => decide (sid ≠ 0)))).route = fun _ => 1 := by
    funext x
    have hne : (active_ids two_shards).filter (fun sid => decide (sid ≠ 0)) ≠ [] :=
      List.ne_nil_of_mem (List.mem_filter.mpr ⟨mem_active_ids.mpr
        ⟨⟨1, 0, "b", 9090, true, true, 0⟩, by decide, rfl⟩, by decide⟩)
    obtain ⟨hids, h0⟩ := List.mem_filter.mp (route_mem hne x)
    obtain ⟨sc, hsc, hid⟩ := mem_active_ids.mp hids
    rw [← hid] at h0 ⊢
    have hall : ∀ sc ∈ live_shards two_shards, decide (sc.shard_id ≠ 0) = true →
        sc.shard_id = 1 := by decide
    exact hall sc hsc h0
  have hlen : ¬ (active_ids two_shards).length ≤ 1 := by
    rw [active_ids, List.length_mergeSort]
    decide
  have howed : one_key.id_map.reverse.filter one_key.live = [[1]] := by decide +kernel
  unfold remove_start
  dsimp only
  rw [show find_primary (live_shards two_shard_cluster.coordinator.g_shards) 0
    = some ⟨0, 0, "a", 9090, true, true, 0⟩ from by decide]
  dsimp only
  rw [show two_shard_cluster.coordinator.g_shards = two_shards from rfl, if_neg hlen, hroute,
    show two_shard_cluster.procs (ShardClient.node ⟨0, 0, "a", 9090, true, true, 0⟩) = one_key
      from by simp [two_shard_cluster, ShardClient.node], howed]
  rfl

/-- Another coordinator, which has not heard of shard 1 yet. -/
def other_coordinator : Coordinator :=
  { g_shards := [⟨0, 0, "a", 9090, true, true, 0⟩], active_ring := HashRing.build [0] }

/-- A client inserts a second key through it. -/
def other_insert : Act ℤ :=
  .client_insert (some other_coordinator) (one_byte 2) (List.replicate VECTOR_DIM 2) (one_byte 98)

def inserting_key_2 : Cluster ℤ :=
  { removing_shard_0 with
    calls := [⟨(0, 0), .client,
      .insert ⟨one_byte 2, List.replicate VECTOR_DIM 2, one_byte 98, 0⟩, none⟩]
    clients := [⟨one_byte 2, 0, [⟨0, true, none⟩]⟩] }

theorem other_insert_step :
    cluster_step Ties.first (fun _ _ => (0 : ℤ)) removing_shard_0 other_insert
      = some inserting_key_2 := by
  have hroute : other_coordinator.active_ring.route (one_byte 2).1 = 0 :=
    List.mem_singleton.mp (route_mem (List.cons_ne_nil 0 []) _)
  rw [other_insert, cluster_step]
  dsimp only [Option.getD_some, Option.isNone_some]
  rw [hroute]
  rfl

/-- The client is acknowledged. Both keys are listed, fetched, inserted on shard 1 and deleted
from shard 0; then the command is committed. -/
def whole_removal : List (Act ℤ) :=
  [.execute 0 0, .client_resolve 0 0 true, .client_join 0, .list_local_ids true,
   .get_vector true, .execute 1 0, .resolve 0 true, .join, .execute 2 0, .resolve 0 true, .join,
   .get_vector true, .execute 3 0, .resolve 0 true, .join, .execute 4 0, .resolve 0 true, .join,
   .propose true, .apply 1]

theorem sane_two_shards (n : Node) : Sane (two_shard_cluster.procs n) := by
  have hfresh : Sane (ShardServiceImpl.fresh 4096 : ShardServiceImpl ℤ) :=
    ⟨Index.fresh_sound 4096, Index.wf_empty, fun _ => Or.inr rfl, fun _ => Nat.two_pow_pos 32⟩
  unfold two_shard_cluster one_key
  dsimp only
  split
  · obtain ⟨sh, res, hsh, hsane, -⟩ := insert_sane Ties.first (fun _ _ => (0 : ℤ)) hfresh
      ⟨one_byte 1, List.replicate VECTOR_DIM 1, one_byte 97, 0⟩ 0
    rw [hsh]
    exact hsane
  · exact hfresh

theorem start_two_shards (acts : List (Act ℤ)) :
    Trace.run (cluster_step Ties.first (fun _ _ => (0 : ℤ))) two_shard_cluster (.start 0 :: acts)
      = Trace.run (cluster_step Ties.first (fun _ _ => (0 : ℤ))) removing_shard_0 acts := by
  rw [Trace.run_cons]
  change (some (remove_start two_shard_cluster 0)).bind _ = _
  rw [remove_start_two_shards]
  rfl

end NanoDB.Coord
