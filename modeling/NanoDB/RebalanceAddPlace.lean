/-
Where the keys are after a shard was added.

If every RPC succeeds, the handler moves the keys that the new ring sends to the new shard and no
others. By the consistent hashing (`route_of_subset`) a key that is not sent there stays on the
shard it was on, so in the end every key is where the new ring looks for it.

The proof follows the loops. A key that is still `Waiting` for its turn is where the old ring had
put it, any other one is where the new ring looks, and the key that is being moved is on the way.
-/
import NanoDB.HashRingMoves
import NanoDB.RebalanceAddEnds
import NanoDB.RebalanceSafe
import NanoDB.ShardCount
import NanoDB.Topology

set_option autoImplicit false

namespace NanoDB.Coord

open Raft (Bytes)
open Shard
open Index (MAX_LAYERS)
open Beam (Ties)

/-! ## A round of writes that all succeed -/

section Underway

variable {F : Type*}

/-- Every replica was sent a write, none has failed, and what resolved was answered. -/
structure Underway (calls : List (Call F)) (replicas : List ShardClient) (IsBody : Write F → Prop)
    (futures : List Future) : Prop where
  unfailed : ∀ f ∈ futures, f.result ≠ some false
  acked : ∀ f ∈ futures, f.result = some true →
    ∃ (c : Call F) (res : WriteResponse), calls[f.call]? = some c ∧ c.response = some res ∧
      res.ok = true
  sent : ∀ sc ∈ replicas, ∃ f ∈ futures, ∃ c : Call F, calls[f.call]? = some c ∧
    c.node = sc.node ∧ IsBody c.body

variable {calls calls' : List (Call F)} {replicas : List ShardClient} {IsBody : Write F → Prop}
  {futures futures' : List Future}

theorem underway_fire {owner : Owner} {body : ℕ → Write F} (hbody : ∀ e, IsBody (body e))
    (hfire : fire calls owner replicas body = (calls', futures)) :
    Underway calls' replicas IsBody futures := by
  have hnone : ∀ f ∈ futures, f.result = none := by
    intro f hf
    have hfuture := @fire_future F calls owner replicas body f
    rw [hfire] at hfuture
    obtain ⟨-, -, -, -, hnone⟩ := hfuture hf
    exact hnone
  refine ⟨fun f hf => ?_, fun f hf ht => ?_, fun sc hsc => ?_⟩
  · rw [hnone f hf]
    simp
  · rw [hnone f hf] at ht
    simp at ht
  · have hcall := @fire_call F calls owner replicas body sc hsc
    rw [hfire] at hcall
    obtain ⟨f, hf, -, hc⟩ := hcall
    exact ⟨f, hf, _, hc, rfl, hbody _⟩

/-- A call is an old one, or one of the round, and then it has a future. -/
theorem fire_covers {owner : Owner} {body : ℕ → Write F}
    (hfire : fire calls owner replicas body = (calls', futures)) {k : ℕ} {c : Call F}
    (hk : calls'[k]? = some c) : calls[k]? = some c ∨
      ((∃ sc ∈ replicas, c = ⟨sc.node, owner, body sc.epoch, none⟩) ∧
        ∃ f ∈ futures, f.call = k) := by
  obtain ⟨rfl, rfl⟩ := Prod.mk.inj hfire
  rcases Nat.lt_or_ge k calls.length with hlt | hge
  · rw [List.getElem?_append_left hlt] at hk
    exact Or.inl hk
  · rw [List.getElem?_append_right hge, List.getElem?_map, Option.map_eq_some_iff] at hk
    obtain ⟨sc, hsc, rfl⟩ := hk
    refine Or.inr ⟨⟨sc, List.mem_of_getElem? hsc, rfl⟩, _,
      List.mem_map.mpr ⟨(sc, k - calls.length), List.mem_zipIdx_iff_getElem?.mpr hsc, rfl⟩, ?_⟩
    dsimp only
    omega

theorem Underway.grown (h : Underway calls replicas IsBody futures) (hgrown : Grown calls calls') :
    Underway calls' replicas IsBody futures := by
  refine ⟨h.unfailed, fun f hf ht => ?_, fun sc hsc => ?_⟩
  · obtain ⟨c, res, hc, hres, hok⟩ := h.acked f hf ht
    obtain ⟨c', hc', -, -, -, hresponse⟩ := hgrown f.call c hc
    exact ⟨c', res, hc', hresponse res hres, hok⟩
  · obtain ⟨f, hf, c, hc, hnode, hbody⟩ := h.sent sc hsc
    obtain ⟨c', hc', hnode', -, hbody', -⟩ := hgrown f.call c hc
    exact ⟨f, hf, c', hc', hnode'.trans hnode, hbody' ▸ hbody⟩

/-- A future keeps its call and its mark when another one, or itself, resolves. -/
theorem resolve_future {i : ℕ} {delivered : Bool}
    (hresolve : Coord.resolve calls futures i delivered = some futures') {g : Future}
    (hg : g ∈ futures) : ∃ g' ∈ futures', g'.call = g.call ∧ g'.primary = g.primary := by
  obtain ⟨f, hf, rfl⟩ := resolve_spec hresolve
  obtain ⟨j, hj⟩ := List.mem_iff_getElem?.mp hg
  by_cases hij : i = j
  · subst hij
    obtain rfl : f = g := Option.some.inj (hf.symm.trans hj)
    have hlt := (List.getElem?_eq_some_iff.mp hf).1
    exact ⟨_, List.mem_set hlt _, rfl, rfl⟩
  · exact ⟨g, List.mem_of_getElem? ((List.getElem?_set_ne hij).trans hj), rfl, rfl⟩

theorem covered_resolve {i : ℕ} {delivered : Bool}
    (hresolve : Coord.resolve calls futures i delivered = some futures') {k : ℕ}
    (h : ∃ f ∈ futures, f.call = k) : ∃ f ∈ futures', f.call = k := by
  obtain ⟨f, hf, rfl⟩ := h
  obtain ⟨f', hf', hcall, -⟩ := resolve_future hresolve hf
  exact ⟨f', hf', hcall⟩

theorem Underway.resolve (h : Underway calls replicas IsBody futures) {i : ℕ} {delivered : Bool}
    (hresolve : Coord.resolve calls futures i delivered = some futures')
    (hok : ∀ f, futures[i]? = some f → outcome calls f.call delivered = true) :
    Underway calls replicas IsBody futures' := by
  refine ⟨?_, ?_, fun sc hsc => ?_⟩
  · obtain ⟨f, hf, rfl⟩ := resolve_spec hresolve
    intro g hg
    rcases List.mem_or_eq_of_mem_set hg with hg | rfl
    · exact h.unfailed g hg
    · rw [hok f hf]
      simp
  · obtain ⟨f, hf, rfl⟩ := resolve_spec hresolve
    intro g hg ht
    rcases List.mem_or_eq_of_mem_set hg with hg | rfl
    · exact h.acked g hg ht
    · exact outcome_true (hok f hf)
  · obtain ⟨g, hg, c, hc, hnode, hbody⟩ := h.sent sc hsc
    obtain ⟨g', hg', hcall, -⟩ := resolve_future hresolve hg
    exact ⟨g', hg', c, hcall ▸ hc, hnode, hbody⟩

theorem results_true (hunfailed : ∀ f ∈ futures, f.result ≠ some false)
    (hjoined : Coord.joined futures = true) : ∀ f ∈ futures, f.result = some true := by
  intro f hf
  have hsome := List.all_eq_true.mp hjoined f hf
  rcases hr : f.result with _ | _ | _
  · rw [hr] at hsome
    simp at hsome
  · exact absurd hr (hunfailed f hf)
  · rfl

/-- In the end every replica has answered ok. -/
theorem Underway.joined (h : Underway calls replicas IsBody futures)
    (hjoined : Coord.joined futures = true) {sc : ShardClient} (hsc : sc ∈ replicas) :
    ∃ c ∈ calls, c.node = sc.node ∧ IsBody c.body ∧
      ∃ res, c.response = some res ∧ res.ok = true := by
  obtain ⟨f, hf, c, hc, hnode, hbody⟩ := h.sent sc hsc
  obtain ⟨c', res, hc', hres, hok⟩ := h.acked f hf (results_true h.unfailed hjoined f hf)
  obtain rfl : c = c' := Option.some.inj (hc.symm.trans hc')
  exact ⟨c, List.mem_of_getElem? hc, hnode, hbody, res, hres, hok⟩

/-- Then none of its calls is in flight. -/
theorem Underway.none_open (h : Underway calls replicas IsBody futures)
    (hjoined : Coord.joined futures = true) {f : Future} (hf : f ∈ futures) {c : Call F}
    (hc : calls[f.call]? = some c) : c.response ≠ none := by
  obtain ⟨c', res, hc', hres, -⟩ := h.acked f hf (results_true h.unfailed hjoined f hf)
  obtain rfl : c = c' := Option.some.inj (hc.symm.trans hc')
  rw [hres]
  simp

/-- A round without failures has a quorum, if there is a primary. -/
theorem quorum_of_unfailed (hunfailed : ∀ f ∈ futures, f.result ≠ some false)
    (hjoined : Coord.joined futures = true) (hprimary : ∃ f ∈ futures, f.primary = true) :
    (quorum_result futures).ok = true := by
  have htrue := results_true hunfailed hjoined
  obtain ⟨f, hf, hp⟩ := hprimary
  have hcount : futures.countP (fun f => f.result = some true) = futures.length :=
    List.countP_eq_length.mpr (fun g hg => by simp [htrue g hg])
  have hlen : 0 < futures.length := List.length_pos_of_mem hf
  unfold quorum_result
  dsimp only
  rw [hcount, Bool.and_eq_true, decide_eq_true_eq]
  exact ⟨List.any_eq_true.mpr ⟨f, hf, by simp [hp, htrue f hf]⟩, by omega⟩

/-- The primary gets a future that is marked. -/
theorem fire_primary {owner : Owner} {body : ℕ → Write F} {p : ShardClient} (hp : p ∈ replicas)
    (hprimary : p.is_primary = true)
    (hfire : fire calls owner replicas body = (calls', futures)) :
    ∃ f ∈ futures, f.primary = true := by
  obtain ⟨-, rfl⟩ := Prod.mk.inj hfire
  obtain ⟨i, hi⟩ := List.mem_iff_getElem?.mp hp
  have hmem : (p, i) ∈ replicas.zipIdx.filter (fun q => q.1.is_primary) :=
    List.mem_filter.mpr ⟨List.mem_zipIdx_iff_getElem?.mpr hi, hprimary⟩
  cases hlast : (replicas.zipIdx.filter (fun q => q.1.is_primary)).getLast? with
  | none =>
      rw [List.getLast?_eq_none_iff.mp hlast] at hmem
      simp at hmem
  | some q =>
      have hq := List.mem_of_mem_filter (List.mem_of_getLast? hlast)
      refine ⟨_, List.mem_map.mpr ⟨q, hq, rfl⟩, ?_⟩
      rw [decide_eq_true_eq, primary_idx, hlast]
      rfl

end Underway

/-! ## Where the keys are -/

section Place

variable {F D : Type*} [Zero F]

/-- The process belongs to a replica of the shard. -/
def On (pool : List ShardClient) (shard_id : ℤ) (n : Node) : Prop :=
  ∃ sc ∈ replicas_for_shard pool shard_id, sc.node = n

omit [Zero F] in
theorem On.shard {pool : List ShardClient} {shard_id : ℤ} {n : Node} (h : On pool shard_id n) :
    n.1 = shard_id := by
  obtain ⟨sc, hsc, rfl⟩ := h
  exact (mem_replicas_for_shard.mp hsc).2

/-- The key is live exactly on the replicas of the shard. -/
def Held (pool : List ShardClient) (procs : Node → ShardServiceImpl F) (x : Bytes)
    (shard_id : ℤ) : Prop :=
  ∀ n, (procs n).live x = true ↔ On pool shard_id n

/-- Some process has the key. -/
def Known (procs : Node → ShardServiceImpl F) (x : Bytes) : Prop :=
  ∃ n, (procs n).live x = true

/-- The key that is being moved. -/
def AddPhase.key : AddPhase → Option Bytes
  | .inserting _ x _ _ _ => some x.1
  | .deleting _ x _ _ _ => some x.1
  | _ => none

/-- The key's turn is still to come; `old` is the route before. -/
def AddPhase.Waiting (old : Bytes → ℤ) (y : Bytes) : AddPhase → Prop
  | .sources rest => old y ∈ rest
  | .next src todo rest =>
      old y ∈ rest ∨ (old y = src.source_shard_id ∧ y ∈ todo.map Subtype.val)
  | .inserting src _ todo rest _ =>
      old y ∈ rest ∨ (old y = src.source_shard_id ∧ y ∈ todo.map Subtype.val)
  | .deleting src _ todo rest _ =>
      old y ∈ rest ∨ (old y = src.source_shard_id ∧ y ∈ todo.map Subtype.val)
  | .returned _ => False

/-- The writes in flight are those of the key that is being moved. -/
def AddPhase.Sends (a : Addition) (c : Call F) : AddPhase → Prop
  | .inserting _ x _ _ _ =>
      On a.pool a.new_id c.node ∧ ∃ req, c.body = .insert req ∧ req.external_id = x
  | .deleting _ x _ _ _ => ∃ req, c.body = .delete req ∧ req.external_id = x
  | _ => False

/-- The loops go through every shard and every key once. -/
structure Loops (a : Addition) (old : Bytes → ℤ) (procs₀ : Node → ShardServiceImpl F)
    (src : Source) (todo : List Text) (rest : List ℤ) : Prop where
  once : (src.source_shard_id :: rest).Nodup
  pool : ∀ sid ∈ rest, ∃ sc ∈ a.pool, sc.shard_id = sid
  keys_once : todo.Nodup
  keys : ∀ x ∈ todo, Known procs₀ x.1 ∧ old x = src.source_shard_id

/-- A key on its way. -/
def Between (a : Addition) (procs : Node → ShardServiceImpl F) (src : Source) (x : Text) : Prop :=
  ∀ n, (procs n).live x = true → On a.pool src.source_shard_id n ∨ On a.pool a.new_id n

def AddPhase.Stage (a : Addition) (old : Bytes → ℤ) (procs₀ procs : Node → ShardServiceImpl F)
    (calls : List (Call F)) : AddPhase → Prop
  | .sources rest => rest.Nodup ∧ ∀ sid ∈ rest, ∃ sc ∈ a.pool, sc.shard_id = sid
  | .next src todo rest => Loops a old procs₀ src todo rest
  | .inserting src x todo rest futures =>
      Loops a old procs₀ src (x :: todo) rest ∧ a.route x = a.new_id ∧
        (∀ n, On a.pool src.source_shard_id n → (procs n).live x = true) ∧
        Between a procs src x ∧ (∃ f ∈ futures, f.primary = true) ∧
        Underway calls a.dest_replicas
          (fun body => ∃ req, body = .insert req ∧ req.external_id = x) futures
  | .deleting src x todo rest futures =>
      Loops a old procs₀ src (x :: todo) rest ∧ a.route x = a.new_id ∧
        (∀ n, On a.pool a.new_id n → (procs n).live x = true) ∧ Between a procs src x ∧
        Underway calls src.source_replicas
          (fun body => ∃ req, body = .delete req ∧ req.external_id = x) futures
  | .returned _ => True

/-- What every run without failures keeps. -/
structure Placing (a : Addition) (old : Bytes → ℤ) (procs₀ : Node → ShardServiceImpl F)
    (s : Adding F) : Prop where
  safe : AddSafe a procs₀ s
  ranged : ∀ n, Ranged (s.procs n)
  known : ∀ y, Known s.procs y → Known procs₀ y
  gone : ∀ c ∈ s.calls, ∀ req res, c.body = .delete req → c.response = some res →
    res.ok = true → (s.procs c.node).live req.external_id = false
  pending : ∀ (k : ℕ) (c : Call F), s.calls[k]? = some c → c.response = none →
    s.phase.Sends a c ∧ ∃ f ∈ s.phase.futures, f.call = k
  waiting : ∀ y, Known procs₀ y → s.phase.key ≠ some y → s.phase.Waiting old y →
    Held a.pool s.procs y (old y)
  settled : ∀ y, Known procs₀ y → s.phase.key ≠ some y → ¬ s.phase.Waiting old y →
    Held a.pool s.procs y (a.route y)
  stage : s.phase.Stage a old procs₀ s.procs s.calls

/-! ## The steps of the handler -/

theorem find_primary_some {pool : List ShardClient} {shard_id : ℤ} {p : ShardClient}
    (h : find_primary pool shard_id = some p) :
    p ∈ pool ∧ p.shard_id = shard_id ∧ p.is_primary = true := by
  have hp := List.find?_some h
  rw [Bool.and_eq_true, decide_eq_true_eq] at hp
  exact ⟨List.mem_of_find?_eq_some h, hp.1, hp.2⟩

theorem on_primary {pool : List ShardClient} {shard_id : ℤ} {p : ShardClient}
    (h : find_primary pool shard_id = some p) : On pool shard_id p.node := by
  obtain ⟨hmem, hid, -⟩ := find_primary_some h
  exact ⟨p, mem_replicas_for_shard.mpr ⟨hmem, hid⟩, rfl⟩

theorem mem_map_text {x : Text} {todo : List Text} : x.1 ∈ todo.map Subtype.val ↔ x ∈ todo := by
  constructor
  · intro h
    obtain ⟨y, hy, hyx⟩ := List.mem_map.mp h
    rwa [← Subtype.ext hyx]
  · exact fun h => List.mem_map_of_mem h

theorem text_iff {y : Bytes} {x : Text} : text y = some x ↔ x.1 = y := by
  unfold text
  constructor
  · intro h
    split at h
    · exact congrArg Subtype.val (Option.some.inj h).symm
    · simp at h
  · rintro rfl
    rw [dif_pos x.2]

/-- The keys of a listing, each once. -/
theorem text_listing {sh : ShardServiceImpl F} (h : Sane sh) :
    (sh.list_local_ids.external_ids.filterMap text).Nodup ∧
      ∀ y, y ∈ (sh.list_local_ids.external_ids.filterMap text).map Subtype.val ↔
        y ∈ sh.list_local_ids.external_ids := by
  have hnodup : sh.list_local_ids.external_ids.Nodup := h.ids.nodup.filter _
  refine ⟨hnodup.filterMap ?_, fun y => ?_⟩
  · intro y z x hy hz
    exact (text_iff.mp hy).symm.trans (text_iff.mp hz)
  · constructor
    · intro hy
      obtain ⟨x, hx, rfl⟩ := List.mem_map.mp hy
      obtain ⟨z, hz, hzx⟩ := List.mem_filterMap.mp hx
      rwa [text_iff.mp hzx]
    · intro hy
      have hshort : y.length < 2 ^ 32 := h.ids.short y (List.mem_of_mem_filter hy)
      exact List.mem_map.mpr ⟨⟨y, hshort⟩, List.mem_filterMap.mpr ⟨y, hy, text_iff.mpr rfl⟩, rfl⟩

section Moves

variable {a : Addition} {old : Bytes → ℤ} {procs₀ : Node → ShardServiceImpl F} {s : Adding F}
  (hroute : ∀ x, Known procs₀ x → a.route x = old x ∨ a.route x = a.new_id)

include hroute

/-- **The listing** of a shard has its keys. -/
theorem Placing.listed (h : Placing a old procs₀ s) {sid : ℤ} {rest : List ℤ} {p : ShardClient}
    (hphase : s.phase = .sources (sid :: rest)) (hprimary : find_primary a.pool sid = some p)
    (hsafe : AddSafe a procs₀ { s with
      phase := .next ⟨sid, replicas_for_shard a.pool sid, p⟩
        ((s.procs p.node).list_local_ids.external_ids.filterMap text) rest }) :
    Placing a old procs₀ { s with
      phase := .next ⟨sid, replicas_for_shard a.pool sid, p⟩
        ((s.procs p.node).list_local_ids.external_ids.filterMap text) rest } := by
  have hsound := h.safe.phase
  have hstage := h.stage
  have hwaiting := h.waiting
  have hsettled := h.settled
  have hpending := h.pending
  rw [hphase] at hsound hstage hwaiting hsettled hpending
  obtain ⟨hnodup, hpool⟩ := hstage
  have hsane := h.safe.guarded.sane p.node
  obtain ⟨honce, hmem⟩ := text_listing hsane
  have hnew : sid ≠ a.new_id := hsound sid List.mem_cons_self
  -- what is listed is there, so it belongs there
  have hhome : ∀ y, y ∈ (s.procs p.node).list_local_ids.external_ids →
      Known procs₀ y ∧ old y = sid := by
    intro y hy
    have hlive := (ranged_iff hsane).mp (h.ranged p.node) y hy
    have hknown := h.known y ⟨p.node, hlive⟩
    have hnode : p.node.1 = sid := (find_primary_some hprimary).2.1
    refine ⟨hknown, ?_⟩
    by_cases hw : old y ∈ sid :: rest
    · exact ((hwaiting y hknown (by simp [AddPhase.key]) hw p.node).mp hlive).shard.symm.trans hnode
    · have hr := ((hsettled y hknown (by simp [AddPhase.key]) hw p.node).mp hlive).shard
      rcases hroute y hknown with heq | heq
      · exact heq.symm.trans (hr.symm.trans hnode)
      · exact absurd (hnode.symm.trans (hr.trans heq)) hnew
  refine ⟨hsafe, h.ranged, h.known, h.gone,
    fun k c hk hopen => absurd (hpending k c hk hopen).1 id,
    fun y hy _ hw => ?_, fun y hy _ hw => ?_, ?_⟩
  · apply hwaiting y hy (by simp [AddPhase.key])
    rcases hw with hw | ⟨hw, -⟩
    · exact List.mem_cons_of_mem _ hw
    · exact List.mem_cons.mpr (Or.inl hw)
  · apply hsettled y hy (by simp [AddPhase.key])
    intro hw'
    apply hw
    rcases List.mem_cons.mp hw' with heq | hrest
    · -- a key of this shard is live on its primary
      right
      refine ⟨heq, (hmem y).mpr (live_listed hsane ?_)⟩
      rw [hwaiting y hy (by simp [AddPhase.key]) hw' p.node, heq]
      exact on_primary hprimary
    · exact Or.inl hrest
  · refine ⟨hnodup, fun sid' hsid' => hpool sid' (List.mem_cons_of_mem _ hsid'), honce,
      fun x hx => ?_⟩
    exact hhome x.1 ((hmem x.1).mp (mem_map_text.mpr hx))

/-- **A key that stays.** -/
theorem Placing.elsewhere (h : Placing a old procs₀ s) {src : Source} {x : Text}
    {todo : List Text} {rest : List ℤ} (hphase : s.phase = .next src (x :: todo) rest)
    (hx : a.route x ≠ a.new_id)
    (hsafe : AddSafe a procs₀ { s with phase := .next src todo rest }) :
    Placing a old procs₀ { s with phase := .next src todo rest } := by
  have hstage := h.stage
  have hwaiting := h.waiting
  have hsettled := h.settled
  have hpending := h.pending
  rw [hphase] at hstage hwaiting hsettled hpending
  refine ⟨hsafe, h.ranged, h.known, h.gone,
    fun k c hk hopen => absurd (hpending k c hk hopen).1 id,
    fun y hy _ hw => ?_, fun y hy _ hw => ?_, hstage.once, hstage.pool,
    (List.nodup_cons.mp hstage.keys_once).2,
    fun z hz => hstage.keys z (List.mem_cons_of_mem _ hz)⟩
  · exact hwaiting y hy (by simp [AddPhase.key])
      (hw.imp_right (And.imp_right (List.mem_cons_of_mem _)))
  · by_cases hw' : AddPhase.Waiting old y (.next src (x :: todo) rest)
    · have hyx : y = x.1 := by
        rcases hw' with hrest | ⟨hold, hmem⟩
        · exact absurd (Or.inl hrest) hw
        · rw [List.map_cons, List.mem_cons] at hmem
          exact hmem.resolve_right (fun hmem => hw (Or.inr ⟨hold, hmem⟩))
      have hheld := hwaiting y hy (by simp [AddPhase.key]) hw'
      rw [hyx] at hy hheld ⊢
      rwa [(hroute x.1 hy).resolve_right hx]
    · exact hsettled y hy (by simp [AddPhase.key]) hw'

omit hroute in
/-- A key whose turn it is can be read. -/
theorem Placing.readable (h : Placing a old procs₀ s) {src : Source} {x : Text}
    {todo : List Text} {rest : List ℤ} (hphase : s.phase = .next src (x :: todo) rest) :
    Held a.pool s.procs x src.source_shard_id ∧
      ((s.procs src.source_primary.node).get_vector x).ok = true ∧
      text ((s.procs src.source_primary.node).get_vector x).metadata ≠ none := by
  have hsound := h.safe.phase
  have hstage := h.stage
  have hwaiting := h.waiting
  rw [hphase] at hsound hstage hwaiting
  obtain ⟨hknown, hold⟩ := hstage.keys x List.mem_cons_self
  have hheld : Held a.pool s.procs x src.source_shard_id := by
    rw [← hold]
    exact hwaiting x.1 hknown (by simp [AddPhase.key]) (Or.inr ⟨hold, List.mem_cons_self⟩)
  have hlive : (s.procs src.source_primary.node).live x.1 = true :=
    (hheld src.source_primary.node).mpr (on_primary hsound.1.primary)
  obtain ⟨hok, hshort⟩ := live_get_vector (h.safe.guarded.sane _) hlive
  refine ⟨hheld, hok, ?_⟩
  rw [text_iff.mpr (rfl : (⟨_, hshort⟩ : Text).1 = _)]
  simp

omit hroute in
/-- Sending more writes answers none. -/
theorem Placing.gone_fire (h : Placing a old procs₀ s) {owner : Owner}
    {replicas : List ShardClient} {body : ℕ → Write F} {calls : List (Call F)}
    {futures : List Future} (hfire : fire s.calls owner replicas body = (calls, futures)) :
    ∀ c ∈ calls, ∀ req res, c.body = .delete req → c.response = some res → res.ok = true →
      (s.procs c.node).live req.external_id = false := by
  intro c hc req res hbody hres hok
  obtain ⟨k, hk⟩ := List.mem_iff_getElem?.mp hc
  rcases fire_covers hfire hk with hold | ⟨⟨sc, -, rfl⟩, -⟩
  · exact h.gone c (List.mem_of_getElem? hold) req res hbody hres hok
  · simp at hres

omit hroute in
/-- **The inserts are sent.** -/
theorem Placing.insert (h : Placing a old procs₀ s) {src : Source} {x : Text}
    {todo : List Text} {rest : List ℤ} (hphase : s.phase = .next src (x :: todo) rest)
    (hx : a.route x = a.new_id) (hdest : a.dest_replicas = replicas_for_shard a.pool a.new_id)
    {p : ShardClient} (hp : p ∈ a.dest_replicas) (hprimary : p.is_primary = true)
    {vector : List F} {metadata : Text} {calls : List (Call F)} {futures : List Future}
    (hfire : fire s.calls .handler a.dest_replicas (fun e => .insert ⟨x, vector, metadata, e⟩)
      = (calls, futures))
    (hsafe : AddSafe a procs₀
      { s with calls := calls, phase := .inserting src x todo rest futures }) :
    Placing a old procs₀
      { s with calls := calls, phase := .inserting src x todo rest futures } := by
  obtain ⟨hheld, -, -⟩ := h.readable hphase
  have hstage := h.stage
  have hwaiting := h.waiting
  have hsettled := h.settled
  have hpending := h.pending
  rw [hphase] at hstage hwaiting hsettled hpending
  refine ⟨hsafe, h.ranged, h.known, h.gone_fire hfire, fun k c hk hopen => ?_,
    fun y hy hne hw => ?_, fun y hy hne hw => ?_, hstage, hx,
    fun n hn => (hheld n).mpr hn, fun n hn => Or.inl ((hheld n).mp hn),
    fire_primary hp hprimary hfire, underway_fire (fun e => ⟨_, rfl, rfl⟩) hfire⟩
  · rcases fire_covers hfire hk with hold | ⟨⟨sc, hsc, rfl⟩, hf⟩
    · exact absurd (hpending k c hold hopen).1 id
    · exact ⟨⟨⟨sc, hdest ▸ hsc, rfl⟩, _, rfl, rfl⟩, hf⟩
  · exact hwaiting y hy (by simp [AddPhase.key])
      (hw.imp_right (And.imp_right (List.mem_cons_of_mem _)))
  · apply hsettled y hy (by simp [AddPhase.key])
    intro hw'
    apply hw
    refine hw'.imp_right (And.imp_right (fun hmem => ?_))
    rw [List.map_cons, List.mem_cons] at hmem
    exact hmem.resolve_left (fun heq => hne (by rw [AddPhase.key, heq]))

omit hroute in
/-- **The inserts are done**, and the deletes are sent. -/
theorem Placing.delete (h : Placing a old procs₀ s) {src : Source} {x : Text}
    {todo : List Text} {rest : List ℤ} {futures futures' : List Future}
    (hphase : s.phase = .inserting src x todo rest futures) (hjoined : joined futures = true)
    (hdest : a.dest_replicas = replicas_for_shard a.pool a.new_id) {calls : List (Call F)}
    (hfire : fire s.calls .handler src.source_replicas (fun e => .delete ⟨x, e⟩)
      = (calls, futures'))
    (hsafe : AddSafe a procs₀
      { s with calls := calls, phase := .deleting src x todo rest futures' }) :
    Placing a old procs₀
      { s with calls := calls, phase := .deleting src x todo rest futures' } := by
  have hstage := h.stage
  have hwaiting := h.waiting
  have hsettled := h.settled
  have hpending := h.pending
  rw [hphase] at hstage hwaiting hsettled hpending
  obtain ⟨hloops, hx, -, hbetween, -, hunderway⟩ := hstage
  refine ⟨hsafe, h.ranged, h.known, h.gone_fire hfire, fun k c hk hopen => ?_, hwaiting,
    hsettled, hloops, hx, fun n hn => ?_, hbetween,
    underway_fire (fun e => ⟨_, rfl, rfl⟩) hfire⟩
  · rcases fire_covers hfire hk with hold | ⟨⟨sc, hsc, rfl⟩, hf⟩
    · -- the inserts have been answered
      obtain ⟨-, f, hf, rfl⟩ := hpending k c hold hopen
      exact absurd hopen (hunderway.none_open hjoined hf hold)
    · exact ⟨⟨_, rfl, rfl⟩, hf⟩
  · obtain ⟨sc, hsc, rfl⟩ := hn
    obtain ⟨c, hc, hnode, ⟨req, hbody, rfl⟩, res, hres, hok⟩ :=
      hunderway.joined hjoined (hdest ▸ hsc : sc ∈ a.dest_replicas)
    rw [← hnode]
    exact h.safe.guarded.stored c hc req res hbody hres hok

omit hroute in
/-- **The key has moved.** -/
theorem Placing.moved (h : Placing a old procs₀ s) {src : Source} {x : Text}
    {todo : List Text} {rest : List ℤ} {futures : List Future}
    (hphase : s.phase = .deleting src x todo rest futures) (hjoined : joined futures = true)
    {s' : Adding F} (hs' : s' = { s with phase := .next src todo rest, migrated := s.migrated + 1 })
    (hsafe : AddSafe a procs₀ s') : Placing a old procs₀ s' := by
  subst hs'
  have hsound := h.safe.phase
  have hstage := h.stage
  have hwaiting := h.waiting
  have hsettled := h.settled
  have hpending := h.pending
  rw [hphase] at hsound hstage hwaiting hsettled hpending
  obtain ⟨hloops, hx, hthere, hbetween, hunderway⟩ := hstage
  obtain ⟨hxtodo, htodo⟩ := List.nodup_cons.mp hloops.keys_once
  obtain ⟨-, hold⟩ := hloops.keys x List.mem_cons_self
  -- its turn is over
  have hdone : ¬ AddPhase.Waiting old x.1 (.next src todo rest) := by
    rintro (hrest | ⟨-, hmem⟩)
    · rw [hold] at hrest
      exact (List.nodup_cons.mp hloops.once).1 hrest
    · exact hxtodo (mem_map_text.mp hmem)
  have hheld : Held a.pool s.procs x (a.route x) := by
    rw [hx]
    refine fun n => ⟨fun hlive => ?_, hthere n⟩
    refine (hbetween n hlive).resolve_left ?_
    rintro ⟨sc, hsc, rfl⟩
    rw [← hsound.1.replicas] at hsc
    obtain ⟨c, hc, hnode, ⟨req, hbody, rfl⟩, res, hres, hok⟩ := hunderway.joined hjoined hsc
    have hdead := h.gone c hc req res hbody hres hok
    rw [hnode, hlive] at hdead
    simp at hdead
  refine ⟨hsafe, h.ranged, h.known, h.gone, fun k c hk hopen => ?_, fun y hy _ hw => ?_,
    fun y hy _ hw => ?_, hloops.once, hloops.pool, htodo,
    fun z hz => hloops.keys z (List.mem_cons_of_mem _ hz)⟩
  · obtain ⟨-, f, hf, rfl⟩ := hpending k c hk hopen
    exact absurd hopen (hunderway.none_open hjoined hf hk)
  · have hne : x.1 ≠ y := by
      rintro rfl
      exact hdone hw
    exact hwaiting y hy (by simpa [AddPhase.key] using hne) hw
  · by_cases hyx : x.1 = y
    · rw [← hyx]
      exact hheld
    · exact hsettled y hy (by simpa [AddPhase.key] using hyx) hw

end Moves

/-! ## Executing -/

section Execute

theorem live_update_eq {procs : Node → ShardServiceImpl F} {n₀ : Node} {sh : ShardServiceImpl F}
    {y : Bytes} (h : sh.live y = (procs n₀).live y) (n : Node) :
    (Function.update procs n₀ sh n).live y = (procs n).live y := by
  by_cases hn : n = n₀
  · subst hn
    rwa [Function.update_self]
  · rw [Function.update_of_ne hn]

variable {a : Addition} {old : Bytes → ℤ} {procs₀ : Node → ShardServiceImpl F} {s : Adding F}
  {k : ℕ} {c : Call F} {sh : ShardServiceImpl F} {res : WriteResponse}

/-- What is still in flight after an answer was in flight before. -/
theorem pending_answer (h : Placing a old procs₀ s) {j : ℕ} {d : Call F}
    (hj : (s.calls.set k { c with response := some res })[j]? = some d)
    (hopen : d.response = none) :
    s.phase.Sends a d ∧ ∃ f ∈ s.phase.futures, f.call = j := by
  rw [List.getElem?_set] at hj
  split at hj
  · split at hj
    · rw [← Option.some.inj hj] at hopen
      simp at hopen
    · simp at hj
  · exact h.pending j d hj hopen

/-- The other keys stay where they are. -/
theorem held_update {x : Bytes} {n₀ : Node}
    (hother : ∀ y, y ≠ x → sh.live y = (s.procs n₀).live y) {y : Bytes} (hy : y ≠ x) {sid : ℤ}
    (h : Held a.pool s.procs y sid) : Held a.pool (Function.update s.procs n₀ sh) y sid := by
  intro n
  rw [live_update_eq (hother y hy) n]
  exact h n

omit [Zero F] in
/-- An insert in flight belongs to the phase that inserts its key. -/
theorem AddPhase.Sends.insert {phase : AddPhase} (h : phase.Sends a c) {req : InsertRequest F}
    (hbody : c.body = .insert req) :
    On a.pool a.new_id c.node ∧ ∃ src todo rest futures,
      phase = .inserting src req.external_id todo rest futures := by
  cases phase with
  | sources rest => exact h.elim
  | next src todo rest => exact h.elim
  | returned status => exact h.elim
  | deleting src x todo rest futures =>
      obtain ⟨req', hbody', -⟩ := h
      rw [hbody] at hbody'
      simp at hbody'
  | inserting src x todo rest futures =>
      obtain ⟨hon, req', hbody', rfl⟩ := h
      obtain rfl : req = req' := Write.insert.inj (hbody.symm.trans hbody')
      exact ⟨hon, src, todo, rest, futures, rfl⟩

omit [Zero F] in
/-- A delete in flight belongs to the phase that deletes its key. -/
theorem AddPhase.Sends.delete {phase : AddPhase} (h : phase.Sends a c) {req : DeleteRequest}
    (hbody : c.body = .delete req) :
    ∃ src todo rest futures, phase = .deleting src req.external_id todo rest futures := by
  cases phase with
  | sources rest => exact h.elim
  | next src todo rest => exact h.elim
  | returned status => exact h.elim
  | inserting src x todo rest futures =>
      obtain ⟨-, req', hbody', -⟩ := h
      rw [hbody] at hbody'
      simp at hbody'
  | deleting src x todo rest futures =>
      obtain ⟨req', hbody', rfl⟩ := h
      obtain rfl : req = req' := Write.delete.inj (hbody.symm.trans hbody')
      exact ⟨src, todo, rest, futures, rfl⟩

/-- **An answer** leaves the keys alone that are not being moved. -/
theorem Placing.answer (h : Placing a old procs₀ s) {x : Bytes} (hkey : s.phase.key = some x)
    (hx : Known procs₀ x) (hranged : Ranged sh)
    (hother : ∀ y, y ≠ x → sh.live y = (s.procs c.node).live y)
    (hgone : ∀ d ∈ (s.answer k c (sh, res)).calls, ∀ req res', d.body = .delete req →
      d.response = some res' → res'.ok = true →
      ((s.answer k c (sh, res)).procs d.node).live req.external_id = false)
    (hstage : s.phase.Stage a old procs₀ (s.answer k c (sh, res)).procs
      (s.answer k c (sh, res)).calls)
    (hsafe : AddSafe a procs₀ (s.answer k c (sh, res))) :
    Placing a old procs₀ (s.answer k c (sh, res)) := by
  have hne : ∀ y, s.phase.key ≠ some y → y ≠ x := by
    rintro y hy rfl
    exact hy hkey
  refine ⟨hsafe, (Function.forall_update_iff s.procs (fun _ sh => Ranged sh)).mpr
    ⟨hranged, fun n _ => h.ranged n⟩, ?_, hgone, fun j d hj hd => pending_answer h hj hd,
    fun y hy hy' hw => held_update hother (hne y hy') (h.waiting y hy hy' hw),
    fun y hy hy' hw => held_update hother (hne y hy') (h.settled y hy hy' hw), hstage⟩
  rintro y ⟨n, hn⟩
  by_cases hyx : y = x
  · rw [hyx]
    exact hx
  · exact h.known y ⟨n, (live_update_eq (hother y hyx) n).symm.trans hn⟩

/-- **An insert** puts its key on one more replica of the new shard. -/
theorem Placing.execute_insert (h : Placing a old procs₀ s) (hk : s.calls[k]? = some c)
    (hopen : c.response = none) {req : InsertRequest F} (hbody : c.body = .insert req)
    (hranged : Ranged sh)
    (hother : ∀ y, y ≠ req.external_id.1 → sh.live y = (s.procs c.node).live y)
    (hkept : ∀ y, (s.procs c.node).live y = true → sh.live y = true)
    (hsafe : AddSafe a procs₀ (s.answer k c (sh, res))) :
    Placing a old procs₀ (s.answer k c (sh, res)) := by
  have hnew := h.safe.guarded.inserts c (List.mem_of_getElem? hk) req hbody
  obtain ⟨hon, src, todo, rest, futures, hphase⟩ := (h.pending k c hk hopen).1.insert hbody
  have hstage := h.stage
  rw [hphase] at hstage
  obtain ⟨hloops, hx, hhere, hbetween, hprimary, hunderway⟩ := hstage
  refine h.answer (congrArg AddPhase.key hphase) (hloops.keys _ List.mem_cons_self).1 hranged
    hother (fun d hd req' res' hbody' hres' hok' => ?_) ?_ hsafe
  · -- deletes go to other shards
    rcases List.mem_or_eq_of_mem_set hd with hd | rfl
    · have hnode : d.node ≠ c.node := fun heq =>
        (h.safe.guarded.deletes d hd req' hbody').1 (heq ▸ hnew)
      change (Function.update s.procs c.node sh d.node).live _ = false
      rw [Function.update_of_ne hnode]
      exact h.gone d hd req' res' hbody' hres' hok'
    · rw [hbody] at hbody'
      simp at hbody'
  · rw [hphase]
    refine ⟨hloops, hx, fun n hn => live_update (fun _ => hkept _) (hhere n hn), fun n hn => ?_,
      hprimary, hunderway.grown (grown_answer hk hopen _)⟩
    by_cases hnode : n = c.node
    · rw [hnode]
      exact Or.inr hon
    · apply hbetween n
      change (Function.update s.procs c.node sh n).live _ = true at hn
      rwa [Function.update_of_ne hnode] at hn

/-- **A delete** takes its key from one replica of its shard. -/
theorem Placing.execute_delete (h : Placing a old procs₀ s) (hk : s.calls[k]? = some c)
    (hopen : c.response = none) {req : DeleteRequest} (hbody : c.body = .delete req)
    (hranged : Ranged sh)
    (hother : ∀ y, y ≠ req.external_id.1 → sh.live y = (s.procs c.node).live y)
    (hless : ∀ y, sh.live y = true → (s.procs c.node).live y = true)
    (hok : res.ok = true → sh.live req.external_id = false)
    (hsafe : AddSafe a procs₀ (s.answer k c (sh, res))) :
    Placing a old procs₀ (s.answer k c (sh, res)) := by
  have hnew := (h.safe.guarded.deletes c (List.mem_of_getElem? hk) req hbody).1
  -- nothing appears anywhere
  have hback : ∀ n y, (Function.update s.procs c.node sh n).live y = true →
      (s.procs n).live y = true := by
    intro n y hn
    by_cases hnode : n = c.node
    · subst hnode
      rw [Function.update_self] at hn
      exact hless y hn
    · rwa [Function.update_of_ne hnode] at hn
  obtain ⟨src, todo, rest, futures, hphase⟩ := (h.pending k c hk hopen).1.delete hbody
  have hstage := h.stage
  rw [hphase] at hstage
  obtain ⟨hloops, hx, hthere, hbetween, hunderway⟩ := hstage
  refine h.answer (congrArg AddPhase.key hphase) (hloops.keys _ List.mem_cons_self).1 hranged
    hother (fun d hd req' res' hbody' hres' hok' => ?_) ?_ hsafe
  · rcases List.mem_or_eq_of_mem_set hd with hd | rfl
    · rw [← Bool.not_eq_true]
      intro hlive
      have hdead := h.gone d hd req' res' hbody' hres' hok'
      rw [hback d.node _ hlive] at hdead
      simp at hdead
    · obtain rfl : res = res' := Option.some.inj hres'
      obtain rfl : req = req' := Write.delete.inj (hbody.symm.trans hbody')
      change (Function.update s.procs c.node sh c.node).live _ = false
      rw [Function.update_self]
      exact hok hok'
  · rw [hphase]
    refine ⟨hloops, hx, fun n hn => ?_, fun n hn => hbetween n (hback n _ hn),
      hunderway.grown (grown_answer hk hopen _)⟩
    have hnode : n ≠ c.node := fun heq => hnew (heq ▸ hn.shard)
    change (Function.update s.procs c.node sh n).live _ = true
    rw [Function.update_of_ne hnode]
    exact hthere n hn

end Execute

/-! ## Whole runs -/

section Run

variable {a : Addition} {old : Bytes → ℤ} {procs₀ : Node → ShardServiceImpl F}
  [BEq F] [LinearOrder D] (ties : Ties D) (dist : Vec F → Vec F → D)

theorem Placing.execute {s : Adding F} (h : Placing a old procs₀ s) {k : ℕ} {c : Call F}
    (hk : s.calls[k]? = some c) (hopen : c.response = none) {level : Fin MAX_LAYERS}
    {sh : ShardServiceImpl F} {res : WriteResponse}
    (hexecute : c.body.execute ties dist (s.procs c.node) level = some (sh, res))
    (hsafe : AddSafe a procs₀ (s.answer k c (sh, res))) :
    Placing a old procs₀ (s.answer k c (sh, res)) := by
  have hsane := h.safe.guarded.sane c.node
  have hr := h.ranged c.node
  rcases execute_cases hexecute with ⟨req, hbody, hinsert⟩ | ⟨req, hbody, rfl, rfl⟩
  · obtain ⟨sh₁, res₁, hinsert₁, hranged, -, hother⟩ := insert_ranged ties dist hsane hr req level
    obtain ⟨rfl, rfl⟩ := Prod.mk.inj (Option.some.inj (hinsert₁.symm.trans hinsert))
    obtain ⟨sh₂, res₂, hinsert₂, -, hkept, -⟩ := insert_sane ties dist hsane req level
    obtain ⟨rfl, rfl⟩ := Prod.mk.inj (Option.some.inj (hinsert₂.symm.trans hinsert))
    exact h.execute_insert hk hopen hbody hranged hother hkept hsafe
  · obtain ⟨hranged, -, hother, hself⟩ := delete_ranged hsane hr req
    exact h.execute_delete hk hopen hbody hranged hother
      (fun y hy => delete_live_le hsane hr req hy) (fun hok => hself (delete_ok_admitted hok)) hsafe

/-- **One step.** -/
theorem placing_step (hdest : a.dest_replicas = replicas_for_shard a.pool a.new_id)
    (hroute : ∀ x, Known procs₀ x → a.route x = old x ∨ a.route x = a.new_id)
    (hprimaries : ∀ sc ∈ a.pool, ∃ p, find_primary a.pool sc.shard_id = some p)
    (hnew : ∀ x, Known procs₀ x → a.route x = a.new_id →
      ∃ p ∈ a.dest_replicas, p.is_primary = true)
    {s s' : Adding F} {act : AddAct} (hs : Placing a old procs₀ s) (hsucceeds : Succeeds s act)
    (hstep : add_step ties dist a s act = some s') : Placing a old procs₀ s' := by
  have hsafe := addSafe_step ties dist hdest hs.safe hstep
  have hstage := hs.stage
  have hwaiting := hs.waiting
  have hsettled := hs.settled
  have hpending := hs.pending
  cases add_move ties dist hstep with
  | no_primary hphase hprimary =>
      rw [hphase] at hstage
      obtain ⟨sc, hsc, hid⟩ := hstage.2 _ List.mem_cons_self
      obtain ⟨p, hp⟩ := hprimaries sc hsc
      rw [hid, hprimary] at hp
      simp at hp
  | unlisted hphase => simp [Succeeds] at hsucceeds
  | listed hphase hprimary => exact hs.listed hroute hphase hprimary hsafe
  | elsewhere hphase hx => exact hs.elsewhere hroute hphase hx hsafe
  | unread hphase hx hread =>
      obtain ⟨-, hok, htext⟩ := hs.readable hphase
      rcases hread hsucceeds with hfailed | hnone
      · rw [hok] at hfailed
        simp at hfailed
      · exact absurd hnone htext
  | insert hphase hx calls futures hfire =>
      rw [hphase] at hstage
      obtain ⟨p, hp, hprimary⟩ := hnew _ (hstage.keys _ List.mem_cons_self).1 hx
      exact hs.insert hphase hx hdest hp hprimary hfire hsafe
  | resolve_insert hphase hresolve =>
      rw [hphase] at hstage hwaiting hsettled hpending
      rw [Succeeds, hphase] at hsucceeds
      obtain ⟨hloops, hx, hhere, hbetween, ⟨f, hf, hp⟩, hunderway⟩ := hstage
      obtain ⟨f', hf', -, hp'⟩ := resolve_future hresolve hf
      exact ⟨hsafe, hs.ranged, hs.known, hs.gone,
        fun k c hk hopen => (hpending k c hk hopen).imp_right (covered_resolve hresolve),
        hwaiting, hsettled, hloops, hx, hhere, hbetween, ⟨f', hf', hp'.trans hp⟩,
        hunderway.resolve hresolve hsucceeds⟩
  | resolve_delete hphase hresolve =>
      rw [hphase] at hstage hwaiting hsettled hpending
      rw [Succeeds, hphase] at hsucceeds
      obtain ⟨hloops, hx, hthere, hbetween, hunderway⟩ := hstage
      exact ⟨hsafe, hs.ranged, hs.known, hs.gone,
        fun k c hk hopen => (hpending k c hk hopen).imp_right (covered_resolve hresolve),
        hwaiting, hsettled, hloops, hx, hthere, hbetween, hunderway.resolve hresolve hsucceeds⟩
  | refused hphase hjoined hquorum =>
      rw [hphase] at hstage
      obtain ⟨-, -, -, -, hprimary, hunderway⟩ := hstage
      rw [quorum_of_unfailed hunderway.unfailed hjoined hprimary] at hquorum
      simp at hquorum
  | delete hphase hjoined hquorum calls futures hfire =>
      exact hs.delete hphase hjoined hdest hfire hsafe
  | moved hphase hjoined => exact hs.moved hphase hjoined rfl hsafe
  | next_source hphase =>
      rw [hphase] at hstage hwaiting hsettled hpending
      refine ⟨hsafe, hs.ranged, hs.known, hs.gone, fun k c hk hopen =>
        absurd (hpending k c hk hopen).1 id, fun y hy hkey hw => hwaiting y hy hkey (Or.inl hw),
        fun y hy hkey hw => hsettled y hy hkey ?_, (List.nodup_cons.mp hstage.once).2, hstage.pool⟩
      rintro (hrest | ⟨-, hnil⟩)
      · exact hw hrest
      · simp at hnil
  | finish hphase =>
      rw [hphase] at hstage hwaiting hsettled hpending
      exact ⟨hsafe, hs.ranged, hs.known, hs.gone, fun k c hk hopen =>
        absurd (hpending k c hk hopen).1 id, fun y _ _ hw => hw.elim,
        fun y hy hkey _ => hsettled y hy hkey (by simp [AddPhase.Waiting]), trivial⟩
  | execute hk hopen hexecute => exact hs.execute ties dist hk hopen hexecute hsafe

end Run

end Place

/-! ## The command -/

section Command

variable {c c' : Coordinator} {command_epoch : ℕ} {new_id : ℤ} {replicas : List ReplicaSpec}

/-- The command appends the new shard, unless the id is in use; then it does nothing. -/
theorem add_shard_cases (hc' : c' = apply_command command_epoch c (.add_shard new_id replicas)) :
    c' = c ∨ ((∀ sc ∈ c.g_shards, sc.shard_id ≠ new_id) ∧
      ∃ new : List ShardClient, (∀ sc ∈ new, sc.shard_id = new_id) ∧
        live_shards c'.g_shards = live_shards c.g_shards ++ new) := by
  rw [hc', apply_command]
  split
  · exact Or.inl rfl
  · rename_i hfree
    refine Or.inr ⟨fun sc hsc heq => hfree ⟨sc, hsc, heq⟩, _, ?_, live_shards_append _ _⟩
    intro sc hsc
    exact (mem_new_clients (mem_live_shards.mp hsc).1).1

theorem mem_live_add (hc' : c' = apply_command command_epoch c (.add_shard new_id replicas))
    {sc : ShardClient} :
    (sc ∈ live_shards c.g_shards → sc ∈ live_shards c'.g_shards) ∧
      (sc ∈ live_shards c'.g_shards → sc ∈ live_shards c.g_shards ∨ sc.shard_id = new_id) := by
  rcases add_shard_cases hc' with rfl | ⟨-, new, hnew, hlive⟩
  · exact ⟨fun h => h, Or.inl⟩
  · rw [hlive]
    exact ⟨List.mem_append_left _, fun h => (List.mem_append.mp h).imp_right (hnew sc)⟩

/-- The replicas of a shard that was there are what they were. -/
theorem on_add (hc' : c' = apply_command command_epoch c (.add_shard new_id replicas)) {sid : ℤ}
    (hsid : ∃ sc ∈ live_shards c.g_shards, sc.shard_id = sid) {n : Node} :
    On (live_shards c.g_shards) sid n ↔ On (live_shards c'.g_shards) sid n := by
  rcases add_shard_cases hc' with rfl | ⟨hfree, new, hnew, hlive⟩
  · exact Iff.rfl
  · obtain ⟨sc₀, hsc₀, hid⟩ := hsid
    have hne : sid ≠ new_id := hid ▸ hfree sc₀ (mem_live_shards.mp hsc₀).1
    constructor
    · rintro ⟨sc, hsc, rfl⟩
      obtain ⟨hmem, hshard⟩ := mem_replicas_for_shard.mp hsc
      exact ⟨sc, mem_replicas_for_shard.mpr ⟨(mem_live_add hc').1 hmem, hshard⟩, rfl⟩
    · rintro ⟨sc, hsc, rfl⟩
      obtain ⟨hmem, hshard⟩ := mem_replicas_for_shard.mp hsc
      have hmem' := ((mem_live_add hc').2 hmem).resolve_right (fun h => hne (hshard.symm.trans h))
      exact ⟨sc, mem_replicas_for_shard.mpr ⟨hmem', hshard⟩, rfl⟩

/-- **The new ring** sends a key where the old one did, or to the new shard. -/
theorem route_add (hbuilt : c.Built)
    (hc' : c' = apply_command command_epoch c (.add_shard new_id replicas))
    (hids : active_ids c.g_shards ≠ []) (x : Bytes) :
    c'.active_ring.route x = c.active_ring.route x ∨ c'.active_ring.route x = new_id := by
  have hbuilt' : c'.Built := hc' ▸ built_apply_command command_epoch hbuilt _
  have hsub : ∀ sid ∈ active_ids c.g_shards, sid ∈ active_ids c'.g_shards := by
    intro sid hsid
    obtain ⟨sc, hsc, hid⟩ := mem_active_ids.mp hsid
    exact mem_active_ids.mpr ⟨sc, (mem_live_add hc').1 hsc, hid⟩
  have hids' : active_ids c'.g_shards ≠ [] := by
    obtain ⟨sid, hsid⟩ := List.exists_mem_of_ne_nil _ hids
    exact List.ne_nil_of_mem (hsub sid hsid)
  rw [hbuilt, hbuilt']
  rcases route_of_subset hids hsub x with heq | hnot
  · exact Or.inl heq
  · right
    obtain ⟨sc, hsc, hid⟩ := mem_active_ids.mp (route_mem hids' x)
    rcases (mem_live_add hc').2 hsc with hold | hnew
    · exact absurd (mem_active_ids.mpr ⟨sc, hold, hid⟩) hnot
    · exact hid.symm.trans hnew

/-- One primary is found. -/
theorem find_primary_of_one {pool : List ShardClient} {sid : ℤ}
    (hone : (pool.filter (fun sc => decide (sc.shard_id = sid) && sc.is_primary)).length = 1) :
    ∃ p, find_primary pool sid = some p ∧
      ∀ sc ∈ pool, sc.shard_id = sid → sc.is_primary = true → sc = p := by
  obtain ⟨p, hp⟩ := List.length_eq_one_iff.mp hone
  refine ⟨p, ?_, fun sc hsc hid hprimary => ?_⟩
  · rw [find_primary, ← List.head?_filter, hp]
    rfl
  · have hmem : sc ∈ pool.filter (fun sc => decide (sc.shard_id = sid) && sc.is_primary) :=
      List.mem_filter.mpr ⟨hsc, by simp [hid, hprimary]⟩
    rw [hp] at hmem
    exact List.mem_singleton.mp hmem

/-- The shard that a ring sends a key to has its primary. -/
theorem primary_of_route (hbuilt : c.Built) (hids : active_ids c.g_shards ≠ []) {x : Bytes}
    (hone : ∀ k, (∃ sc ∈ live_shards c.g_shards, sc.shard_id = k) →
      ((live_shards c.g_shards).filter
        (fun sc => decide (sc.shard_id = k) && sc.is_primary)).length = 1) :
    ∃ p ∈ replicas_for_shard (live_shards c.g_shards) (c.active_ring.route x),
      p.is_primary = true := by
  have hmem := route_mem hids x
  rw [← hbuilt] at hmem
  obtain ⟨p, hp, -⟩ := find_primary_of_one (hone _ (mem_active_ids.mp hmem))
  obtain ⟨hpool, hid, hprimary⟩ := find_primary_some hp
  exact ⟨p, mem_replicas_for_shard.mpr ⟨hpool, hid⟩, hprimary⟩

end Command

/-! ## Adding a shard -/

section Add

variable {F D : Type*} [Zero F]

theorem addSafe_start (c : Coordinator) (new_id : ℤ) {procs : Node → ShardServiceImpl F}
    (hsane : ∀ n, Sane (procs n)) :
    AddSafe (.of c new_id) procs (add_start c new_id procs) := by
  refine ⟨⟨hsane, by simp [add_start], by simp [add_start], by simp [add_start],
    fun _ _ hx => Or.inl hx⟩, ?_⟩
  unfold add_start
  dsimp only
  split
  · trivial
  · intro sid hsid
    exact of_decide_eq_true (List.mem_filter.mp hsid).2

/-- At the start every key is where the old ring has put it. -/
theorem placing_start {c : Coordinator} {new_id : ℤ} {procs : Node → ShardServiceImpl F}
    (hsane : ∀ n, Sane (procs n)) (hranged : ∀ n, Ranged (procs n)) {old : Bytes → ℤ}
    (hstored : ∀ x, Known procs x → Held (live_shards c.g_shards) procs x (old x))
    (hroute : ∀ x, Known procs x →
      c.active_ring.route x = old x ∨ c.active_ring.route x = new_id)
    (hnew : ∀ x, Known procs x → c.active_ring.route x = new_id →
      (Addition.of c new_id).dest_replicas ≠ []) :
    Placing (.of c new_id) old procs (add_start c new_id procs) := by
  have hsafe := addSafe_start c new_id hsane
  unfold add_start at hsafe ⊢
  by_cases hdest : (Addition.of c new_id).dest_replicas = []
  · rw [if_pos hdest] at hsafe ⊢
    refine ⟨hsafe, hranged, fun _ h => h, by simp, by simp, fun _ _ _ h => h.elim,
      fun y hy _ _ => ?_, trivial⟩
    have heq : c.active_ring.route y = old y :=
      (hroute y hy).resolve_right (fun h => hnew y hy h hdest)
    change Held _ procs y (c.active_ring.route y)
    rw [heq]
    exact hstored y hy
  · rw [if_neg hdest] at hsafe ⊢
    refine ⟨hsafe, hranged, fun _ h => h, by simp, by simp, fun y hy _ _ => hstored y hy,
      fun y hy _ hw => ?_, ?_, fun sid hsid => ?_⟩
    · -- the key is on the new shard already
      have hold : old y = new_id := by
        by_contra hne
        obtain ⟨n, hn⟩ := hy
        obtain ⟨sc, hsc, -⟩ := (hstored y ⟨n, hn⟩ n).mp hn
        obtain ⟨hmem, hid⟩ := mem_replicas_for_shard.mp hsc
        apply hw
        exact List.mem_filter.mpr ⟨mem_active_ids.mpr ⟨sc, hmem, hid⟩, by simpa using hne⟩
      have heq : c.active_ring.route y = old y := (hroute y hy).elim id (fun h => h.trans hold.symm)
      change Held _ procs y (c.active_ring.route y)
      rw [heq]
      exact hstored y hy
    · exact ((List.mergeSort_perm _ _).nodup_iff.mpr (List.nodup_dedup _)).filter _
    · exact mem_active_ids.mp (List.mem_filter.mp hsid).1

theorem counting_start (c : Coordinator) (new_id : ℤ) {procs : Node → ShardServiceImpl F}
    (hsane : ∀ n, Sane (procs n)) :
    Counting (.of c new_id) procs (add_start c new_id procs) := by
  refine ⟨addSafe_start c new_id hsane, fun _ _ => rfl, ?_⟩
  unfold add_start
  split
  · simp [AddPhase.futures]
  · simp [AddPhase.futures]

/-- The topology and the keys before the command: every key that a process lists can be read there,
and it is on the replicas of the shard that the ring routes it to, and nowhere else. -/
def Placed (c : Coordinator) (procs : Node → ShardServiceImpl F) : Prop :=
  ∀ n x, x ∈ (procs n).list_local_ids.external_ids →
    (procs n).live x = true ∧ Held (live_shards c.g_shards) procs x (c.active_ring.route x)

variable [BEq F] [LinearOrder D] (ties : Ties D) (dist : Vec F → Vec F → D)

/-- **Adding a shard loses no key.** Each shard has exactly one primary. Whatever happens to the
RPCs, at every point of the handler a key that a primary of another shard had is still there or on
the primary of the new shard. If no RPC fails and every key was stored where the old ring routes it,
then the handler returns: no run is longer than `bound`, and until it has returned, as long as no
process has refused a write, there is a step in which no RPC fails. When it has returned, every key
is exactly on the replicas of the shard that the new ring routes it to. -/
theorem add_shard_loses_nothing {c c' : Coordinator} (hbuilt : c.Built) {command_epoch : ℕ}
    {new_id : ℤ} {replicas : List ReplicaSpec}
    (hc' : c' = apply_command command_epoch c (.add_shard new_id replicas))
    (hone : ∀ k, (∃ sc ∈ live_shards c'.g_shards, sc.shard_id = k) →
      ((live_shards c'.g_shards).filter
        (fun sc => decide (sc.shard_id = k) && sc.is_primary)).length = 1)
    {procs : Node → ShardServiceImpl F} (hsane : ∀ n, Sane (procs n)) :
    (∀ acts s, Trace.run (add_step ties dist (.of c' new_id)) (add_start c' new_id procs) acts
        = some s →
      ∀ source p x, source ≠ new_id → find_primary (live_shards c'.g_shards) source = some p →
        (procs p.node).live x = true →
        (s.procs p.node).live x = true ∨
          ∃ d, find_primary (live_shards c'.g_shards) new_id = some d ∧
            (s.procs d.node).live x = true) ∧
    (Placed c procs →
      ∃ bound, ∀ acts s,
        Trace.Along (add_step ties dist (.of c' new_id)) Succeeds (add_start c' new_id procs) acts →
        Trace.run (add_step ties dist (.of c' new_id)) (add_start c' new_id procs) acts = some s →
        acts.length ≤ bound ∧
        ((∀ call ∈ s.calls, ∀ res, call.response = some res → res.ok = true) →
          (∃ status, s.phase = .returned status) ∨
            ∃ act s', add_step ties dist (.of c' new_id) s act = some s' ∧ Succeeds s act) ∧
        ∀ status, s.phase = .returned status → ∀ x, Known procs x →
          Held (live_shards c'.g_shards) s.procs x (c'.active_ring.route x)) := by
  constructor
  · intro acts s hrun source p x _ hp hx
    have hs : AddSafe (.of c' new_id) procs s := Trace.run_invariant
      (fun t act t' ht hstep => addSafe_step ties dist rfl ht hstep)
      (addSafe_start c' new_id hsane) hrun
    refine (hs.guarded.kept p.node x hx).imp_right ?_
    rintro ⟨sc, hsc, hprimary, hlive⟩
    obtain ⟨hmem, hid⟩ := mem_replicas_for_shard.mp hsc
    obtain ⟨d, hd, hunique⟩ := find_primary_of_one (hone new_id ⟨sc, hmem, hid⟩)
    exact ⟨d, hd, hunique sc hmem hid hprimary ▸ hlive⟩
  · intro hplaced
    have hranged : ∀ n, Ranged (procs n) := fun n =>
      (ranged_iff (hsane n)).mpr (fun x hx => (hplaced n x hx).1)
    have hstored : ∀ x, Known procs x →
        Held (live_shards c.g_shards) procs x (c.active_ring.route x) := by
      rintro x ⟨n, hn⟩
      exact (hplaced n x (live_listed (hsane n) hn)).2
    have hbuilt' : c'.Built := hc' ▸ built_apply_command command_epoch hbuilt _
    have hshard : ∀ y, Known procs y →
        ∃ sc ∈ live_shards c.g_shards, sc.shard_id = c.active_ring.route y := by
      rintro y ⟨n, hn⟩
      obtain ⟨sc, hsc, -⟩ := (hstored y ⟨n, hn⟩ n).mp hn
      exact ⟨sc, mem_replicas_for_shard.mp hsc⟩
    have hroute : ∀ y, Known procs y → c'.active_ring.route y = c.active_ring.route y ∨
        c'.active_ring.route y = new_id := fun y hy =>
      route_add hbuilt hc' (List.ne_nil_of_mem (mem_active_ids.mpr (hshard y hy))) y
    have hnew : ∀ y, Known procs y → c'.active_ring.route y = new_id →
        ∃ p ∈ (Addition.of c' new_id).dest_replicas, p.is_primary = true := by
      intro y hy hroute
      obtain ⟨sc, hsc, -⟩ := hshard y hy
      have hids : active_ids c'.g_shards ≠ [] :=
        List.ne_nil_of_mem (mem_active_ids.mpr ⟨sc, (mem_live_add hc').1 hsc, rfl⟩)
      have hprimary := primary_of_route (x := y) hbuilt' hids hone
      rwa [hroute] at hprimary
    have hstart :
        Placing (.of c' new_id) c.active_ring.route procs (add_start c' new_id procs) := by
      apply placing_start hsane hranged ?_ hroute
      · intro y hy h hnil
        obtain ⟨p, hp, -⟩ := hnew y hy h
        rw [hnil] at hp
        simp at hp
      · exact fun y hy n => (hstored y hy n).trans (on_add hc' (hshard y hy))
    have hprimaries : ∀ sc ∈ live_shards c'.g_shards,
        ∃ p, find_primary (live_shards c'.g_shards) sc.shard_id = some p := by
      intro sc hsc
      obtain ⟨p, hp, -⟩ := find_primary_of_one (hone sc.shard_id ⟨sc, hsc, rfl⟩)
      exact ⟨p, hp⟩
    refine ⟨(add_start c' new_id procs).steps_left (.of c' new_id) procs,
      fun acts s halong hrun => ?_⟩
    obtain ⟨hcounting, hbound⟩ :=
      add_run_bounded ties dist rfl (counting_start c' new_id hsane) hrun
    refine ⟨hbound, add_goes_on ties dist hcounting, fun status hphase x hx => ?_⟩
    have hs := Trace.run_invariant_along (fun t act t' ht hok hstep =>
      placing_step ties dist rfl hroute hprimaries hnew ht hok hstep) hstart halong hrun
    have hsettled := hs.settled
    rw [hphase] at hsettled
    exact hsettled x hx (by simp [AddPhase.key]) id

end Add

/-! ## A second shard -/

def shard_a : ShardClient := ⟨0, 0, "a", 9090, true, true, 0⟩

def shard_b : ShardClient := ⟨1, 0, "b", 9090, true, true, 1⟩

/-- Shard 0, with one replica. -/
def single_shard : Coordinator :=
  { g_shards := [shard_a], active_ring := HashRing.build (active_ids [shard_a]) }

/-- Shard 1 has joined. -/
def after_join : Coordinator :=
  apply_command 1 single_shard (.add_shard 1 [⟨0, "b", 9090, true⟩])

theorem live_after_join : live_shards after_join.g_shards = [shard_a, shard_b] := by
  decide

theorem route_single_shard (x : Bytes) : single_shard.active_ring.route x = 0 := by
  have hids : active_ids single_shard.g_shards ≠ [] :=
    List.ne_nil_of_mem (mem_active_ids.mpr ⟨_, List.mem_cons_self, rfl⟩)
  obtain ⟨sc, hsc, hid⟩ := mem_active_ids.mp (route_mem hids x)
  rw [List.mem_singleton.mp hsc] at hid
  exact hid.symm

/-- The new shard takes the key "1" over. -/
theorem route_after_join : after_join.active_ring.route [49] = 1 := by
  have hbuilt : after_join.Built := built_apply_command 1 (rfl : single_shard.Built) _
  have hmem : ∀ sid, sid ∈ active_ids after_join.g_shards ↔ sid = 0 ∨ sid = 1 := by
    intro sid
    rw [mem_active_ids, live_after_join]
    simp [shard_a, shard_b, eq_comm]
  rw [hbuilt]
  apply route_of_skips (v := 0) ((hmem 1).mpr (Or.inr rfl)) (by decide) (by decide +kernel)
  intro other hother hne
  rw [((hmem other).mp hother).resolve_right hne]
  exact shard_0_skips

/-- The key "1" is on shard 0. -/
def single_key (n : Node) : ShardServiceImpl ℤ :=
  if n = (0, 0) then
    (((ShardServiceImpl.fresh 4096).insert Ties.first (fun _ _ => (0 : ℤ))
      ⟨one_byte 49, List.replicate VECTOR_DIM 1, one_byte 97, 0⟩ 0).map Prod.fst).getD
      (ShardServiceImpl.fresh 4096)
  else ShardServiceImpl.fresh 4096

theorem counted_single_key (n : Node) :
    Counted (single_key n) (if n = (0, 0) then {[49]} else ∅) := by
  unfold single_key
  split
  · obtain ⟨sh, res, hinsert, hcounted, -⟩ := counted_insert Ties.first (fun _ _ => (0 : ℤ))
      (counted_fresh (F := ℤ) 4096) ⟨one_byte 49, List.replicate VECTOR_DIM 1, one_byte 97, 0⟩ 0
      List.length_replicate le_rfl (by decide)
    rw [hinsert]
    exact hcounted
  · exact counted_fresh 4096

theorem placed_single_key : Placed single_shard single_key := by
  have hlive : ∀ n y, (single_key n).live y = true ↔ n = (0, 0) ∧ y = [49] := by
    intro n y
    rw [← (counted_single_key n).live]
    split <;> simp [*]
  intro n x hx
  have hn := (ranged_iff (counted_single_key n).sane).mp
    ((counted_single_key n).written.ranged (counted_single_key n).sane) x hx
  refine ⟨hn, fun m => ?_⟩
  obtain ⟨-, rfl⟩ := (hlive n x).mp hn
  rw [hlive, route_single_shard]
  constructor
  · rintro ⟨rfl, -⟩
    exact ⟨shard_a, by decide, rfl⟩
  · rintro ⟨sc, hsc, rfl⟩
    obtain rfl := List.mem_singleton.mp (mem_replicas_for_shard.mp hsc).1
    exact ⟨rfl, rfl⟩

/-- The handler, if its ring is this one. -/
def adding_second (route : Bytes → ℤ) : Addition :=
  { new_id := 1, pool := [shard_a, shard_b], dest_replicas := [shard_b], route := route }

def second_step (route : Bytes → ℤ) : Adding ℤ → AddAct → Option (Adding ℤ) :=
  add_step Ties.first (fun _ _ => (0 : ℤ)) (adding_second route)

def second_start : Adding ℤ := { procs := single_key, phase := .sources [0] }

theorem add_start_second :
    Addition.of after_join 1 = adding_second after_join.active_ring.route ∧
      add_start after_join 1 single_key = second_start := by
  have hof : Addition.of after_join 1 = adding_second after_join.active_ring.route := by
    unfold Addition.of adding_second
    rw [live_after_join]
    rfl
  refine ⟨hof, ?_⟩
  have hids : source_shard_ids after_join 1 = [0] := by
    have hperm := (List.mergeSort_perm
      ((live_shards after_join.g_shards).map ShardClient.shard_id).dedup
      (fun a b => decide (a ≤ b))).filter (fun sid => decide (sid ≠ 1))
    rw [live_after_join] at hperm
    rw [source_shard_ids, active_ids, live_after_join]
    exact List.perm_singleton.mp hperm
  rw [add_start, hof, hids]
  rfl

/-- The key is read, written to shard 1 and deleted on shard 0. -/
def second_acts : List AddAct :=
  [.list_local_ids true, .get_vector true, .execute 0 0, .resolve 0 true, .join, .execute 1 0,
    .resolve 0 true, .join, .next_source, .finish]

/-- A key that is read now is "1". -/
def ReadsOne (s : Adding ℤ) : AddAct → Prop
  | .get_vector _ => (match s.phase with | .next _ (x :: _) _ => x.1 == [49] | _ => true) = true
  | _ => True

instance decidableReadsOne (s : Adding ℤ) : ∀ act : AddAct, Decidable (ReadsOne s act)
  | .get_vector _ => instDecidableEqBool _ _
  | .list_local_ids _ => isTrue trivial
  | .resolve _ _ => isTrue trivial
  | .join => isTrue trivial
  | .next_source => isTrue trivial
  | .finish => isTrue trivial
  | .execute _ _ => isTrue trivial

/-- The handler looks at the ring for the keys it reads only. -/
theorem second_step_congr {route : Bytes → ℤ} (hroute : route [49] = 1) (s : Adding ℤ)
    (act : AddAct) (h : ReadsOne s act) :
    second_step route s act = second_step (fun _ => 1) s act := by
  cases act with
  | get_vector delivered =>
      unfold ReadsOne at h
      unfold second_step add_step
      dsimp only
      split
      · rename_i src x todo rest hphase
        rw [hphase, beq_iff_eq] at h
        rw [show (adding_second route).route x = 1 from h.symm ▸ hroute]
        rfl
      · rfl
  | _ => rfl

/-- One key on shard 0, and shard 1 joins: the key is on shard 1 in the end, and there only. -/
theorem add_shard_loses_nothing_second_shard :
    single_shard.active_ring.route [49] = 0 ∧ after_join.active_ring.route [49] = 1 ∧
    ∃ s, Trace.run (add_step Ties.first (fun _ _ => (0 : ℤ)) (.of after_join 1))
        (add_start after_join 1 single_key) second_acts = some s ∧ s.phase = .returned 200 ∧
      (s.procs (1, 0)).live [49] = true ∧ (s.procs (0, 0)).live [49] = false := by
  refine ⟨route_single_shard [49], route_after_join, ?_⟩
  obtain ⟨hof, hstart⟩ := add_start_second
  -- the run, with a ring that is a constant
  obtain ⟨hsame, halong⟩ := @Trace.run_congr _ _ _ Succeeds _ _
    (second_step_congr route_after_join) second_acts second_start (by decide +kernel)
  obtain ⟨s, hs, hphase⟩ : ∃ s, Trace.run (second_step (fun _ => 1)) second_start second_acts
      = some s ∧ s.phase = .returned 200 := Trace.exists_run (by decide +kernel)
  have hrun := hsame.trans hs
  have halong := halong.mpr (by decide +kernel)
  unfold second_step at hrun halong
  rw [← hof, ← hstart] at hrun halong
  have hone : ∀ k, (∃ sc ∈ live_shards after_join.g_shards, sc.shard_id = k) →
      ((live_shards after_join.g_shards).filter
        (fun sc => decide (sc.shard_id = k) && sc.is_primary)).length = 1 := by
    rw [live_after_join]
    rintro k ⟨sc, hsc, rfl⟩
    revert sc
    decide
  obtain ⟨bound, hbound⟩ := (add_shard_loses_nothing Ties.first (fun _ _ => (0 : ℤ))
    (rfl : single_shard.Built) (rfl : after_join = _) hone
    (fun n => (counted_single_key n).sane)).2 placed_single_key
  have hheld := (hbound second_acts s halong hrun).2.2 200 hphase [49]
    ⟨(0, 0), ((counted_single_key (0, 0)).live [49]).mp (by simp)⟩
  rw [route_after_join, live_after_join] at hheld
  refine ⟨s, hrun, hphase, (hheld (1, 0)).mpr ⟨shard_b, by decide, rfl⟩, ?_⟩
  rw [← Bool.not_eq_true, hheld (0, 0)]
  exact fun hon => absurd hon.shard (by decide)

end NanoDB.Coord
