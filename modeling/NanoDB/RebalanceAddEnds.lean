/-
The handler of `POST /admin/shards/add` returns.

Each of its steps uses something up: a shard to be listed, a key to be read, a future to be waited
for, a write to be executed. `steps_left` adds up what is left, so no run is longer than what there
is at the start (`add_run_bounded`), whatever happens to the RPCs. And there is always a next step
(`add_goes_on`): one in which no RPC fails, unless a process has refused a write.
-/
import NanoDB.Lib.Progress
import NanoDB.Lib.Slots
import NanoDB.RebalanceAddSafe

set_option autoImplicit false

namespace NanoDB.Coord

open Raft (Bytes)
open Shard
open Index (MAX_LAYERS)
open Beam (Ties)

section Ends

variable {F D : Type*} [Zero F]

/-! ## What is left -/

/-- The futures the handler waits for. -/
def AddPhase.futures : AddPhase → List Future
  | .inserting _ _ _ _ futures => futures
  | .deleting _ _ _ _ futures => futures
  | _ => []

/-- Every RPC succeeds: the reads are delivered, and a write resolves to true. -/
def Succeeds (s : Adding F) : AddAct → Prop
  | .list_local_ids delivered => delivered = true
  | .get_vector delivered => delivered = true
  | .resolve i delivered =>
      ∀ f ∈ s.phase.futures[i]?, outcome s.calls f.call delivered = true
  | _ => True

instance decidableSucceeds (s : Adding F) (act : AddAct) : Decidable (Succeeds s act) := by
  cases act <;> unfold Succeeds <;> infer_instance

def unanswered (calls : List (Call F)) : ℕ := calls.countP (fun c => c.response.isNone)

def unresolved (futures : List Future) : ℕ := futures.countP (fun f => f.result.isNone)

/-- The most that one key takes: it is read, two rounds of writes end, and each write is executed
and answered. -/
def key_steps (a : Addition) : ℕ := 2 * a.dest_replicas.length + 2 * a.pool.length + 3

/-- The most keys that a shard can list. -/
def listable (a : Addition) (procs₀ : Node → ShardServiceImpl F) (sid : ℤ) : ℕ :=
  match find_primary a.pool sid with
  | none => 0
  | some p => (procs₀ p.node).id_map.reverse.length

section Left

variable (a : Addition) (procs₀ : Node → ShardServiceImpl F)

def sources_left (rest : List ℤ) : ℕ :=
  (rest.map (fun sid => key_steps a * listable a procs₀ sid + 2)).sum + 1

def keys_left (todo : List Text) (rest : List ℤ) : ℕ :=
  key_steps a * todo.length + 1 + sources_left a procs₀ rest

def AddPhase.left : AddPhase → ℕ
  | .sources rest => sources_left a procs₀ rest
  | .next _ todo rest => keys_left a procs₀ todo rest
  | .inserting _ _ todo rest futures =>
      unresolved futures + 2 * a.pool.length + 2 + keys_left a procs₀ todo rest
  | .deleting _ _ todo rest futures => unresolved futures + 1 + keys_left a procs₀ todo rest
  | .returned _ => 0

/-- An upper bound on the steps to come. -/
def Adding.steps_left (s : Adding F) : ℕ := unanswered s.calls + s.phase.left a procs₀

end Left

/-! ## One round of writes -/

section Round

omit [Zero F]

variable {calls calls' : List (Call F)} {futures futures' : List Future}

/-- A round adds two steps for each replica. -/
theorem fire_counts {owner : Owner} {replicas : List ShardClient} {body : ℕ → Write F}
    (hfire : fire calls owner replicas body = (calls', futures)) :
    unanswered calls' = unanswered calls + replicas.length ∧
      unresolved futures = replicas.length := by
  obtain ⟨rfl, rfl⟩ := Prod.mk.inj hfire
  unfold unanswered unresolved
  constructor
  · rw [List.countP_append, List.countP_map]
    congr 1
    exact List.countP_eq_length.mpr (by simp)
  · rw [List.countP_map, List.countP_eq_length.mpr (by simp), List.length_zipIdx]

theorem resolve_counts {i : ℕ} {delivered : Bool}
    (hresolve : resolve calls futures i delivered = some futures') :
    unresolved futures' + 1 = unresolved futures := by
  unfold resolve at hresolve
  split at hresolve
  · rename_i call primary hi
    have hcount := Slots.countP_set (fun f : Future => f.result.isNone)
      ⟨call, primary, some (outcome calls call delivered)⟩ hi
    rw [← Option.some.inj hresolve]
    simpa [unresolved] using hcount
  · simp at hresolve

theorem answer_counts {k : ℕ} {c : Call F} (hk : calls[k]? = some c) (hopen : c.response = none)
    (res : WriteResponse) :
    unanswered (calls.set k { c with response := some res }) + 1 = unanswered calls := by
  have hcount := Slots.countP_set (fun c : Call F => c.response.isNone)
    { c with response := some res } hk
  rw [hopen] at hcount
  simpa [unanswered] using hcount

end Round

/-! ## Every step uses something up -/

/-- What the count relies on: a shard that is a source lists no key that it did not know at the
start, and every future belongs to a call. -/
structure Counting (a : Addition) (procs₀ : Node → ShardServiceImpl F) (s : Adding F) : Prop where
  safe : AddSafe a procs₀ s
  ids : ∀ n : Node, n.1 ≠ a.new_id → (s.procs n).id_map = (procs₀ n).id_map
  aimed : ∀ f ∈ s.phase.futures, f.call < s.calls.length

variable [BEq F] [LinearOrder D] (ties : Ties D) (dist : Vec F → Vec F → D)

variable {a : Addition} {procs₀ : Node → ShardServiceImpl F}

omit [BEq F] in
theorem list_length_le (sh : ShardServiceImpl F) :
    (sh.list_local_ids.external_ids.filterMap text).length ≤ sh.id_map.reverse.length :=
  le_trans (List.length_filterMap_le _ _) (List.length_filter_le _ _)

omit [Zero F] [BEq F] in
theorem aimed_fire {calls calls' : List (Call F)} {owner : Owner} {replicas : List ShardClient}
    {body : ℕ → Write F} {futures : List Future}
    (hfire : fire calls owner replicas body = (calls', futures)) :
    ∀ f ∈ futures, f.call < calls'.length := by
  obtain ⟨rfl, rfl⟩ := Prod.mk.inj hfire
  intro f hf
  obtain ⟨sc, -, hcall, -, -⟩ := fire_future owner body hf
  exact (List.getElem?_eq_some_iff.mp hcall).1

omit [Zero F] [BEq F] in
theorem aimed_resolve {calls : List (Call F)} {futures futures' : List Future} {i n : ℕ}
    {delivered : Bool} (hresolve : resolve calls futures i delivered = some futures')
    (h : ∀ f ∈ futures, f.call < n) : ∀ f ∈ futures', f.call < n := by
  obtain ⟨f, hf, rfl⟩ := resolve_spec hresolve
  intro g hg
  rcases List.mem_or_eq_of_mem_set hg with hg | rfl
  · exact h g hg
  · exact h f (List.mem_of_getElem? hf)

/-- An execution leaves the ids of the other shards alone. -/
theorem execute_ids {s : Adding F} (h : Counting a procs₀ s) {k : ℕ} {c : Call F}
    (hk : s.calls[k]? = some c) {level : Fin MAX_LAYERS} {p : ShardServiceImpl F × WriteResponse}
    (hexecute : c.body.execute ties dist (s.procs c.node) level = some p) (n : Node)
    (hn : n.1 ≠ a.new_id) : ((s.answer k c p).procs n).id_map = (procs₀ n).id_map := by
  change (Function.update s.procs c.node p.1 n).id_map = _
  by_cases hnode : n = c.node
  · subst hnode
    rw [Function.update_self, ← h.ids c.node hn]
    rcases execute_cases hexecute with ⟨req, hbody, -⟩ | ⟨req, -, hdelete, -⟩
    · exact absurd (h.safe.guarded.inserts c (List.mem_of_getElem? hk) req hbody) hn
    · rw [← hdelete]
      unfold ShardServiceImpl.delete
      split
      · rfl
      rename_i hepoch
      obtain ⟨e, rfl⟩ := check_and_advance_epoch_eq hepoch
      dsimp only
      split
      · rfl
      · rfl
  · rw [Function.update_of_ne hnode]
    exact h.ids n hn

/-- **One step.** -/
theorem counting_step (hdest : a.dest_replicas = replicas_for_shard a.pool a.new_id)
    {s s' : Adding F} {act : AddAct} (h : Counting a procs₀ s)
    (hstep : add_step ties dist a s act = some s') :
    Counting a procs₀ s' ∧ s'.steps_left a procs₀ < s.steps_left a procs₀ := by
  have hsafe := addSafe_step ties dist hdest h.safe hstep
  have hphase' := h.safe.phase
  have haimed := h.aimed
  unfold Adding.steps_left
  cases add_move ties dist hstep with
  | no_primary hphase hprimary | unlisted hphase =>
      refine ⟨⟨hsafe, h.ids, by simp [AddPhase.futures]⟩, ?_⟩
      simp only [hphase, AddPhase.left, sources_left, List.map_cons, List.sum_cons]
      omega
  | @listed sid rest p hphase hprimary =>
      refine ⟨⟨hsafe, h.ids, by simp [AddPhase.futures]⟩, ?_⟩
      rw [hphase] at hphase'
      have hnode : p.node.1 ≠ a.new_id := by
        have hp := List.find?_some hprimary
        rw [Bool.and_eq_true, decide_eq_true_eq] at hp
        exact fun heq => hphase' sid List.mem_cons_self (hp.1.symm.trans heq)
      have hlist :
          key_steps a * ((s.procs p.node).list_local_ids.external_ids.filterMap text).length
            ≤ key_steps a * listable a procs₀ sid := by
        apply Nat.mul_le_mul_left
        rw [listable, hprimary]
        dsimp only
        rw [← h.ids p.node hnode]
        exact list_length_le _
      simp only [hphase, AddPhase.left, keys_left, sources_left, List.map_cons, List.sum_cons]
      omega
  | elsewhere hphase hroute | unread hphase hroute hread =>
      refine ⟨⟨hsafe, h.ids, by simp [AddPhase.futures]⟩, ?_⟩
      simp only [hphase, AddPhase.left, keys_left, List.length_cons, Nat.mul_succ]
      have hpos : 3 ≤ key_steps a := Nat.le_add_left 3 _
      omega
  | insert hphase hroute calls futures hfire =>
      refine ⟨⟨hsafe, h.ids, aimed_fire hfire⟩, ?_⟩
      obtain ⟨hcalls, hfutures⟩ := fire_counts hfire
      simp only [hphase, AddPhase.left, keys_left, List.length_cons, Nat.mul_succ, hcalls, hfutures]
      have hkey : key_steps a = 2 * a.dest_replicas.length + 2 * a.pool.length + 3 := rfl
      omega
  | resolve_insert hphase hresolve | resolve_delete hphase hresolve =>
      rw [hphase] at haimed
      refine ⟨⟨hsafe, h.ids, aimed_resolve hresolve haimed⟩, ?_⟩
      have hcount := resolve_counts hresolve
      simp only [hphase, AddPhase.left]
      omega
  | refused hphase hjoined hquorum | moved hphase hjoined =>
      refine ⟨⟨hsafe, h.ids, by simp [AddPhase.futures]⟩, ?_⟩
      simp only [hphase, AddPhase.left]
      omega
  | @delete src x todo rest futures hphase hjoined hquorum calls futures' hfire =>
      rw [hphase] at hphase'
      refine ⟨⟨hsafe, h.ids, aimed_fire hfire⟩, ?_⟩
      obtain ⟨hcalls, hfutures⟩ := fire_counts hfire
      have hlen : src.source_replicas.length ≤ a.pool.length := by
        rw [hphase'.1.replicas, replicas_for_shard, List.length_append,
          ← List.countP_eq_length_filter, ← List.countP_eq_length_filter]
        have hsplit := List.length_eq_countP_add_countP (fun sc : ShardClient => sc.is_primary)
          (l := a.pool.filter (fun sc => decide (sc.shard_id = src.source_shard_id)))
        have hle := List.length_filter_le
          (fun sc : ShardClient => decide (sc.shard_id = src.source_shard_id)) a.pool
        simp only [Bool.not_eq_true, Bool.decide_eq_false] at hsplit
        omega
      simp only [hphase, AddPhase.left, hcalls, hfutures]
      omega
  | next_source hphase | finish hphase =>
      refine ⟨⟨hsafe, h.ids, by simp [AddPhase.futures]⟩, ?_⟩
      simp only [hphase, AddPhase.left, keys_left, sources_left]
      omega
  | @execute k level c p hk hopen hexecute =>
      refine ⟨⟨hsafe, execute_ids ties dist h hk hexecute, fun f hf => ?_⟩, ?_⟩
      · change f.call < (s.calls.set k _).length
        rw [List.length_set]
        exact haimed f hf
      · have hcount := answer_counts hk hopen p.2
        change unanswered (s.calls.set k _) + s.phase.left a procs₀ < _
        omega

/-! ## There is always a step -/

/-- A round that is not joined goes on: a write is executed, or one that was is waited for. -/
theorem round_goes_on {s : Adding F} (h : Counting a procs₀ s)
    (hok : ∀ c ∈ s.calls, ∀ res, c.response = some res → res.ok = true)
    (hjoined : joined s.phase.futures = false)
    (hresolve : ∀ i futures, resolve s.calls s.phase.futures i true = some futures →
      ∃ s', add_step ties dist a s (.resolve i true) = some s') :
    ∃ act s', add_step ties dist a s act = some s' ∧ Succeeds s act := by
  obtain ⟨f, hf, hnone⟩ := List.all_eq_false.mp hjoined
  obtain ⟨i, hi⟩ := List.mem_iff_getElem?.mp hf
  obtain ⟨c, hc⟩ : ∃ c, s.calls[f.call]? = some c := ⟨_, List.getElem?_eq_getElem (h.aimed f hf)⟩
  cases hres : c.response with
  | none =>
      have hexecute : ∃ p, c.body.execute ties dist (s.procs c.node) 0 = some p := by
        cases c.body with
        | insert req =>
            obtain ⟨sh, res, hinsert, -⟩ :=
              insert_sane ties dist (h.safe.guarded.sane c.node) req 0
            exact ⟨_, hinsert⟩
        | delete req => exact ⟨_, rfl⟩
      obtain ⟨p, hp⟩ := hexecute
      refine ⟨.execute f.call 0, s.answer f.call c p, ?_, trivial⟩
      simp only [add_step, hc, hres, hp]
      rfl
  | some res =>
      have htrue : outcome s.calls f.call true = true := by
        simp [outcome, hc, hres, hok c (List.mem_of_getElem? hc) res hres]
      obtain ⟨call, primary, result⟩ := f
      obtain rfl : result = none := by simpa using hnone
      obtain ⟨s', hs'⟩ := hresolve i _ (by rw [resolve, hi])
      refine ⟨.resolve i true, s', hs', fun g hg => ?_⟩
      rw [← Option.some.inj (hi.symm.trans hg)]
      exact htrue

/-- **The handler goes on until it returns**, and no RPC fails if no process has refused a
write. -/
theorem add_goes_on {s : Adding F} (h : Counting a procs₀ s)
    (hok : ∀ c ∈ s.calls, ∀ res, c.response = some res → res.ok = true) :
    (∃ status, s.phase = .returned status) ∨
      ∃ act s', add_step ties dist a s act = some s' ∧ Succeeds s act := by
  have hround := round_goes_on ties dist h hok
  cases hphase : s.phase with
  | returned status => exact Or.inl ⟨status, rfl⟩
  | sources rest =>
      right
      cases rest with
      | nil =>
          refine ⟨.finish, ?_⟩
          simp only [add_step, hphase]
          exact ⟨_, rfl, trivial⟩
      | cons sid rest =>
          refine ⟨.list_local_ids true, ?_⟩
          simp only [add_step, hphase]
          cases find_primary a.pool sid <;> exact ⟨_, rfl, rfl⟩
  | next src todo rest =>
      right
      cases todo with
      | nil =>
          refine ⟨.next_source, ?_⟩
          simp only [add_step, hphase]
          exact ⟨_, rfl, trivial⟩
      | cons x todo =>
          refine ⟨.get_vector true, ?_⟩
          simp only [add_step, hphase]
          split <;> exact ⟨_, rfl, rfl⟩
  | inserting src x todo rest futures =>
      right
      rw [hphase] at hround
      by_cases hjoined : joined futures = false
      · refine hround hjoined (fun i futures' hi => ?_)
        simp only [AddPhase.futures] at hi
        simp only [add_step, hphase, hi]
        exact ⟨_, rfl⟩
      · refine ⟨.join, ?_⟩
        simp only [add_step, hphase, if_neg hjoined]
        split <;> exact ⟨_, rfl, trivial⟩
  | deleting src x todo rest futures =>
      right
      rw [hphase] at hround
      by_cases hjoined : joined futures = false
      · refine hround hjoined (fun i futures' hi => ?_)
        simp only [AddPhase.futures] at hi
        simp only [add_step, hphase, hi]
        exact ⟨_, rfl⟩
      · refine ⟨.join, ?_⟩
        simp only [add_step, hphase, Bool.eq_true_of_not_eq_false hjoined, if_true]
        exact ⟨_, rfl, trivial⟩

/-- **No run is longer than what there is to do.** -/
theorem add_run_bounded (hdest : a.dest_replicas = replicas_for_shard a.pool a.new_id)
    {s s' : Adding F} {acts : List AddAct} (h : Counting a procs₀ s)
    (hrun : Trace.run (add_step ties dist a) s acts = some s') :
    Counting a procs₀ s' ∧ acts.length ≤ s.steps_left a procs₀ := by
  have hstep : ∀ t act t', Counting a procs₀ t → True → add_step ties dist a t act = some t' →
      Counting a procs₀ t' ∧ t'.steps_left a procs₀ < t.steps_left a procs₀ :=
    fun t act t' ht _ => counting_step ties dist hdest ht
  obtain ⟨h', hle⟩ := Progress.length_le hstep h (fun _ _ => trivial) hrun
  exact ⟨h', by omega⟩

end Ends

end NanoDB.Coord
