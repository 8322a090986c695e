/-
Elections and the leader's side refine the replicated-log machine.

`shadow` gives for each act the moves of the abstract machine it amounts to, and the lemmas
here show it for every act but the follower's, which are in `RaftAccept`. Messages may arrive
in any order. What a reordered `AppendEntries` can do is left open on purpose: the abstract
`accept` may shorten a log, and `RaftInv` says when it must not.

# The one awkward thing, named up front

A node believes its snapshot without a check, a task reads the log after the lock scope that
looked at the snapshot, and a snapshot shorter than the log keeps the entries behind it
unseen. Without compaction none of this can happen. With it, an act refines the machine
only if it is `Allowed`: `RaftInv` shows which part of that follows from committed
prefixes, and which part is a condition on the run.
-/
import NanoDB.RaftMatching

set_option autoImplicit false

namespace NanoDB.Raft

open Ballot Quorum Replog

variable {P : List ℤ} {s s' : Cluster} {r r' : Logs}

/-! ## The moves an act amounts to -/

/-- The acts of a run without compaction. -/
def Act.Plain : Act → Prop
  | .compact _ _ _ | .deliver_install_snapshot _ _ | .snapshot_reply _ _ _ => False
  | _ => True

/-- Where a log ends that has stored the entries of `req`: what the snapshot covers stays. -/
def stored_end (l : RaftLog) (req : AppendEntriesRequest) : ℕ :=
  max (req.prev_log_index + req.entries.length) l.snapshot_last_index

/-- The snapshot of `req` reaches past the log and replaces it. -/
def replaces (l : RaftLog) (req : InstallSnapshotRequest) : Prop :=
  l.snapshot_last_index < req.last_included_index ∧ l.last_index ≤ req.last_included_index

instance (l : RaftLog) (req : InstallSnapshotRequest) : Decidable (replaces l req) := by
  unfold replaces
  infer_instance

/-- The abstract state after an act from `s` to `s'`. -/
def shadow (s s' : Cluster) (r : Logs) : Act → Logs
  | .start_election i => r.campaign i
  | .deliver_request_vote i req =>
      if (handle_request_vote (s.node i) req).2.vote_granted then
        (r.enter i req.term).grant i req.candidate_id
      else r.enter i (s'.node i).state.current_term
  | .finish_election i =>
      if (s.node i).role = .Candidate ∧ (s'.node i).role = .Leader then r.elect i (r.term i) else r
  | .propose i command => r.append i ⟨r.term i, command⟩
  | .deliver_append_entries i req =>
      if (handle_append_entries (s.node i) req).2.1.success then
        if req.entries = [] then (r.enter i req.term).ack i req.prev_log_index
        else (r.enter i req.term).accept i (stored_end (s.node i).log req)
      else r.enter i (s'.node i).state.current_term
  | .deliver_install_snapshot i req =>
      if (s.node i).state.current_term ≤ req.term then
        if replaces (s.node i).log req then
          (r.enter i req.term).accept i req.last_included_index
        else (r.enter i req.term).ack i req.last_included_index
      else r.enter i (s'.node i).state.current_term
  | a => r.enter a.actor (s'.node a.actor).state.current_term

/-- The shadow of an accepted `AppendEntries`. -/
theorem shadow_accepted {s : Cluster} (s' : Cluster) (r : Logs) {i : ℤ} {req : AppendEntriesRequest}
    (hyes : (handle_append_entries (s.node i) req).2.1.success = true) :
    shadow s s' r (.deliver_append_entries i req)
      = if req.entries = [] then (r.enter i req.term).ack i req.prev_log_index
        else (r.enter i req.term).accept i (stored_end (s.node i).log req) := by
  rw [shadow, hyes]
  rfl

/-- An act from `s` to `s'` is the moves to its shadow, and the relation holds again. -/
def Refines (P : List ℤ) (guard : List PersistedEntry → List PersistedEntry → Prop)
    (s s' : Cluster) (r : Logs) (a : Act) : Prop :=
  Relation.ReflTransGen (Replog.Step PersistedEntry.term (IsMajority P) guard) r (shadow s s' r a) ∧
    LogRel P s' (shadow s s' r a)

/-- What the snapshot of node `i` covers is in the leader log of term `t`. -/
def Covered (s : Cluster) (r : Logs) (i : ℤ) (t : ℕ) : Prop :=
  (r.log i).take (s.node i).log.snapshot_last_index
    = (r.llog t).take (s.node i).log.snapshot_last_index

variable {guard : List PersistedEntry → List PersistedEntry → Prop}

variable (guard) in
/-- What the acts that meet a snapshot have to respect, and the guard for those that replace
a log. -/
def Allowed (s : Cluster) (r : Logs) : Act → Prop
  | .send_build task =>
      (s.node task.leader).role = .Leader → (s.node task.leader).state.current_term = task.term →
        (s.node task.leader).log.snapshot_last_index ≤ task.next_idx - 1
  | .deliver_append_entries i req =>
      r.term i ≤ req.term → prev_ok (s.node i).log req = true →
        Covered s r i req.term ∧
          (req.entries ≠ [] →
            guard (r.log i) ((r.llog req.term).take (stored_end (s.node i).log req)))
  | .deliver_install_snapshot i req =>
      r.term i ≤ req.term →
        Covered s r i req.term ∧
          (if replaces (s.node i).log req then
            guard (r.log i) ((r.llog req.term).take req.last_included_index)
          else (s.node i).log.snapshot_last_index < req.last_included_index →
            (s.node i).log.term_at req.last_included_index = req.last_included_term)
  | .compact i _ _ => (s.node i).last_applied ≤ (r.log i).length
  | _ => True

theorem inter (P : List ℤ) : ∀ A B, IsMajority P A → IsMajority P B → ∃ v, v ∈ A ∧ v ∈ B :=
  fun _ _ => majority_inter

theorem elsewhere_campaign (hr : Replog.Wf PersistedEntry.term (IsMajority P) r) (i : ℤ) :
    Elsewhere r (r.campaign i) i := by
  refine ⟨fun _ _ => rfl, fun _ _ => rfl, fun _ _ _ => rfl, fun t c L hL => ?_, fun c hc => ?_⟩
  · by_cases hnew : t = r.term i + 1 ∧ c = i
    · obtain ⟨rfl, rfl⟩ := hnew
      rw [hr.cand_future _ c (Nat.lt_succ_self _)] at hL
      simp at hL
    · rw [campaign_cand_ne r i hnew]
      exact hL
  · rw [campaign_cand_ne r i (by omega)]
    exact hc

theorem refines_start_election (hr : Replog.Wf PersistedEntry.term (IsMajority P) r)
    (h : LogRel P s r) {i : ℤ} (hs : step s (.start_election i) = some s') :
    Refines P guard s s' r (.start_election i) := by
  have hvotes := voteRel_start_election hr.votes h.votes hs
  have hmove : Replog.Step PersistedEntry.term (IsMajority P) guard r (r.campaign i) :=
    .campaign r i
  change Relation.ReflTransGen _ r (r.campaign i) ∧ LogRel P s' (r.campaign i)
  refine ⟨.single hmove, ?_⟩
  have hspec := step_spec hs
  -- the request carries the next term and the candidate's own log
  have hreq : (election_request (start_election (s.node i))).term = r.term i + 1 := by
    rw [← h.votes.term i]
    rfl
  refine h.act hr (hmove.le (inter P) hr) (elsewhere_campaign hr i) hvotes hspec.node (h.shows i)
    (fun hl => by simp [Act.result, start_election] at hl) ?_ ?_ ?_
  · intro e he _ _
    rw [hspec.election] at he
    obtain rfl := Option.some.inj ((Function.update_self i _ _).symm.trans he)
    rw [hreq]
    exact campaign_cand_self r i
  · intro j hj e he
    exact ⟨e, (hspec.election_ne hj).symm.trans he, rfl⟩
  · refine hspec.wire (fun m hm => ?_) (fun _ ht => Or.inl ht)
    obtain ⟨p, -, rfl⟩ := List.mem_map.mp hm
    refine ⟨r.log i, ?_, h.last_index i, h.last_term i⟩
    have hcand : (election_request (start_election (s.node i))).candidate_id = i :=
      h.votes.node_id i
    rw [hcand, hreq]
    exact campaign_cand_self r i

theorem refines_request_vote (hsent : -1 ∉ P)
    (hr : Replog.Wf PersistedEntry.term (IsMajority P) r) (h : LogRel P s r) {i : ℤ}
    {req : RequestVoteRequest} (hs : step s (.deliver_request_vote i req) = some s') :
    Refines P guard s s' r (.deliver_request_vote i req) := by
  have hspec := step_spec hs
  -- nothing is claimed of a vote reply on the wire
  have hwire : ∀ r', Wire s' r' s := by
    intro r'
    refine hspec.wire (fun m hm => ?_) (fun _ ht => Or.inl ht)
    rw [List.mem_singleton.mp hm]
    trivial
  rw [step] at hs
  split_ifs at hs with hg
  obtain rfl := Option.some.inj hs
  have hquiet := quiet_observe_term (s.node i) req.term
  have htame := tame_observe_term (s.node i) req.term
  have hterm : r.term i ≤ (observe_term (s.node i) req.term).state.current_term :=
    h.votes.term i ▸ hquiet.term_le
  rcases handle_request_vote_cases (s.node i) req with ⟨resp, heq, hno⟩ | ⟨ht, hfree, hup, heq⟩
  · have hmove : Replog.Step PersistedEntry.term (IsMajority P) guard r
        (r.enter i (observe_term (s.node i) req.term).state.current_term) := .enter r i _ hterm
    have hsh : shadow s ((s.set i (handle_request_vote (s.node i) req).1).send
        [.request_vote_reply i req (handle_request_vote (s.node i) req).2]) r
        (.deliver_request_vote i req)
        = r.enter i (observe_term (s.node i) req.term).state.current_term := by
      simp [shadow, heq, hno, Cluster.send]
    rw [heq] at hwire
    rw [Refines, hsh, heq]
    exact ⟨.single hmove, h.tame hr (hmove.le (inter P) hr) ⟨rfl, rfl, rfl, rfl⟩
      (h.votes.refuse_vote hr.votes i req hno) htame rfl (fun _ e he => ⟨e, he, rfl⟩) (hwire _)⟩
  · obtain ⟨hfree', hvotes⟩ := h.votes.grant_vote hsent hr.votes
      (handle_request_vote (s.node i) req).2 hg.2 ht hfree
    rw [ht] at hterm
    have henter : Replog.Step PersistedEntry.term (IsMajority P) guard r (r.enter i req.term) :=
      .enter r i _ hterm
    have hself : (r.enter i req.term).term i = req.term := enter_term_self _ _ _
    -- the request describes the log its candidate stood with, so the check is `UpToDate`
    obtain ⟨L, hL, hlen, hlast⟩ : RequestOk r req := h.msgs _ hg.2
    have hgrant : Replog.Step PersistedEntry.term (IsMajority P) guard (r.enter i req.term)
        ((r.enter i req.term).grant i req.candidate_id) := by
      refine .grant _ i req.candidate_id L (hself.symm ▸ hfree') (hself.symm ▸ hL) ?_
      rw [UpToDate, ← hlen, ← hlast]
      change lastTerm PersistedEntry.term (r.log i) < _ ∨
        lastTerm PersistedEntry.term (r.log i) = _ ∧ (r.log i).length ≤ _
      rw [← h.last_term i, ← h.last_index i]
      exact hup.imp id (fun hle => ⟨hle.1.symm, hle.2⟩)
    have hsteps := (Relation.ReflTransGen.single henter).tail hgrant
    have hsh : shadow s ((s.set i (handle_request_vote (s.node i) req).1).send
        [.request_vote_reply i req (handle_request_vote (s.node i) req).2]) r
        (.deliver_request_vote i req) = (r.enter i req.term).grant i req.candidate_id := by
      simp [shadow, heq]
    rw [Refines, hsh]
    refine ⟨hsteps, h.tame hr (steps_wf (inter P) hsteps hr).2 ⟨rfl, rfl, rfl, rfl⟩ ?_
      (n := (handle_request_vote (s.node i) req).1) ?_ rfl (fun _ e he => ⟨e, he, rfl⟩) (hwire _)⟩
    · rw [heq] at hvotes ⊢
      exact hvotes
    · rw [heq]
      exact ⟨htame.log, htame.peers, htame.node_id, htame.kept⟩

/-- A term is won once: nobody wins the term of an election in progress but its
candidate, who has not yet. -/
theorem winner_none_of_election (hr : Replog.Wf PersistedEntry.term (IsMajority P) r)
    {i : ℤ} {e : Election} (he : ElectionOk P r.toVotes i e) {Q : Finset ℤ}
    (hQ : IsMajority P Q) (hvotes : ∀ v ∈ Q, r.vote v e.req.term = some i) :
    r.winner e.req.term = none := by
  cases hw : r.winner e.req.term with
  | none => rfl
  | some c =>
      have hci := elect_unique (inter P) hr.votes hw hQ hvotes
      rw [hci] at hw
      exact absurd hw he.fresh

theorem elsewhere_elect {i : ℤ} {t : ℕ} (hfresh : r.winner t = none) :
    Elsewhere r (r.elect i t) i where
  log _ _ := rfl
  acked _ _ := rfl
  llog j _ hwon := by
    have hne : r.term j ≠ t := by
      intro heq
      rw [heq, hfresh] at hwon
      simp at hwon
    exact elect_llog_ne r _ hne
  cand _ _ _ hL := hL
  cand_pos _ hc := hc

/-- The winner's log becomes the leader log of its term; nothing in it is of that term. -/
theorem leaderOk_elect (hr : Replog.Wf PersistedEntry.term (IsMajority P) r) (h : LogRel P s r)
    {i : ℤ} (hcand : r.cand (r.term i) i = some (r.log i)) :
    LeaderOk (r.elect i (r.term i)) (s.node i).elected i := by
  have hllog : (r.elect i (r.term i)).llog (r.term i) = r.log i := elect_llog_self r i _
  refine ⟨hllog.symm, fun e he ht => ?_, fun _ => Nat.zero_le _, fun p => ?_, fun p hp => ?_⟩
  · change e ∈ (r.elect i (r.term i)).llog (r.term i) at he
    rw [hllog] at he
    exact absurd ht (Nat.ne_of_lt (hr.cand_lt _ _ _ hcand e he))
  · change (if p ∈ (s.node i).stubs then (s.node i).log.last_index + 1 else 0)
      ≤ ((r.elect i (r.term i)).llog (r.term i)).length + 1
    rw [hllog, h.last_index]
    split <;> omega
  · change 1 ≤ (if p ∈ (s.node i).stubs then (s.node i).log.last_index + 1 else 0)
    rw [if_pos (show p ∈ (s.node i).stubs from hp)]
    omega

theorem refines_finish_election (hr : Replog.Wf PersistedEntry.term (IsMajority P) r)
    (h : LogRel P s r) {i : ℤ} (hs : step s (.finish_election i) = some s') :
    Refines P guard s s' r (.finish_election i) := by
  have hwire : ∀ r', Wire s' r' s := fun r' => (step_spec hs).wire_silent rfl (fun _ ht => ht)
  obtain ⟨e, n, he, rfl, hcases⟩ := voteRel_finish_election hr.votes h.votes hs
  -- the pending election is gone, the others are untouched
  have hdropped : ((s.set i n).set_election i none).election i = none := by
    simp [Cluster.set_election]
  have helection : ∀ j e, ((s.set i n).set_election i none).election j = some e →
      ∃ e₀, s.election j = some e₀ ∧ e₀.req = e.req := by
    intro j e he
    by_cases hj : j = i
    · rw [hj, hdropped] at he
      simp at he
    · exact ⟨e, by simpa [Cluster.set_election, Cluster.set, hj] using he, rfl⟩
  have hnode : ((s.set i n).set_election i none).node i = n := set_node_self s i n
  rcases hcases with ⟨rfl, hvotes⟩ | ⟨rfl, hterm, hcandidate, Q, hQ, hmaj, hvotes⟩
  · have hsh : shadow s ((s.set i (s.node i)).set_election i none) r (.finish_election i) = r := by
      rw [shadow, hnode, if_neg]
      rintro ⟨hc, hl⟩
      rw [hc] at hl
      simp at hl
    rw [Refines, hsh]
    exact ⟨.refl, h.tame hr (Replog.Le.refl r) ⟨rfl, rfl, rfl, rfl⟩ hvotes (Tame.refl _) rfl
      helection (hwire r)⟩
  · -- a majority was counted: the candidate wins its term with its log
    have hcand := h.candidate i e he hcandidate (by rw [h.votes.term i, hterm])
    have hfresh := winner_none_of_election hr (h.votes.election i e he) hQ (hterm.symm ▸ hmaj)
    rw [hterm] at hcand hfresh
    have hmove : Replog.Step PersistedEntry.term (IsMajority P) guard r
        (r.elect i (r.term i)) := .elect r i _ Q hQ hmaj hcand hfresh
    have hsh : shadow s ((s.set i (s.node i).elected).set_election i none) r (.finish_election i)
        = r.elect i (r.term i) := by
      rw [shadow, hnode, if_pos ⟨hcandidate, rfl⟩]
    rw [Refines, hsh]
    exact ⟨.single hmove, h.act hr (hmove.le (inter P) hr) (elsewhere_elect hfresh) hvotes rfl
      (h.shows i) (fun _ => leaderOk_elect hr h hcand)
      (fun e he => by rw [hdropped] at he; simp at he) (fun j _ => helection j) (hwire _)⟩

theorem elsewhere_append {i : ℤ} (e : PersistedEntry) (hwon : r.winner (r.term i) = some i) :
    Elsewhere r (r.append i e) i where
  log j hj := append_log_ne r e hj
  acked j hj := funext fun _ => append_acked_ne r e (fun h => hj h.1)
  llog j hj hwonj := by
    have hne : r.term j ≠ r.term i := by
      intro heq
      rw [heq, hwon] at hwonj
      exact hj (Option.some.inj hwonj).symm
    exact append_llog_ne r e hne
  cand _ _ _ hL := hL
  cand_pos _ hc := hc

theorem refines_propose (hr : Replog.Wf PersistedEntry.term (IsMajority P) r) (h : LogRel P s r)
    {i : ℤ} {command : Bytes} (hs : step s (.propose i command) = some s') :
    Refines P guard s s' r (.propose i command) := by
  have hvotes := (voteRel_enter_act hr.votes h.votes (a := .propose i command) (fun hf => hf) hs).2
  have hspec := step_spec hs
  obtain ⟨-, hl⟩ := hspec.enabled
  have hok := h.leader i hl
  have hwon := h.votes.leader i hl
  have hmove : Replog.Step PersistedEntry.term (IsMajority P) guard r
      (r.append i ⟨r.term i, command⟩) := .append r i _ hwon hok.log rfl
  have hle := hmove.le (inter P) hr
  have hllog : (r.append i ⟨r.term i, command⟩).llog (r.term i)
      = r.llog (r.term i) ++ [⟨r.term i, command⟩] := append_llog_self r i _
  have hlog : (r.append i ⟨r.term i, command⟩).log i = r.log i ++ [⟨r.term i, command⟩] :=
    append_log_self r i _
  -- the node has one entry more and may have committed it
  obtain ⟨c, a, cmds, hresult⟩ : ∃ c a cmds, (Act.propose i command).result s
      = { s.node i with
        log := (s.node i).log.append (s.node i).state.current_term command
        commit_index := c, last_applied := a, applied_commands := cmds } := by
    rw [Act.result, propose, if_pos hl, Option.elim_some]
    exact advance_commit_fst _
  have hnode := hspec.node
  rw [hresult] at hnode
  have hterm : (s'.node i).state.current_term = r.term i := by
    rw [hnode, Act.actor, set_node_self]
    exact h.votes.term i
  rw [Act.actor, hterm, enter_self] at hvotes
  change Relation.ReflTransGen _ r (r.append i _) ∧ LogRel P _ (r.append i _)
  refine ⟨.single hmove, h.act hr hle (elsewhere_append _ hwon) hvotes hnode ?_ (fun _ => ?_)
    (fun e _ hc => absurd (hl.symm.trans hc) (by simp))
    (fun j hj e he => ⟨e, (hspec.election_ne hj).symm.trans he, rfl⟩)
    (hspec.wire_silent rfl (fun _ ht => ht))⟩
  · rw [hlog, ← h.votes.term i]
    exact (h.shows i).append _ _
  · refine ⟨?_, fun e _ _ => ?_, fun p => ?_, fun p => ?_, hok.next_pos⟩
    · rw [hlog, hok.log]
      exact hllog.symm
    · change (r.append i _).acked i (r.term i) = ((r.append i _).llog (r.term i)).length
      rw [hllog, append_acked_self, List.length_append, List.length_singleton]
    · exact le_trans (hok.match_le p) (hle.acked p _)
    · change (s.node i).next_index p ≤ ((r.append i _).llog (r.term i)).length + 1
      rw [hllog, List.length_append]
      exact le_trans (hok.next_le p) (by simp)

/-- The acts that change neither a log nor the bookkeeping of a leader. -/
theorem refines_tame (hr : Replog.Wf PersistedEntry.term (IsMajority P) r) (h : LogRel P s r)
    {a : Act} (ha : ¬ a.Electoral) (hs : step s a = some s')
    (hsh : shadow s s' r a = r.enter a.actor (s'.node a.actor).state.current_term)
    (ht : Tame (s.node a.actor) (a.result s))
    (hwire : Wire s' (r.enter a.actor (s'.node a.actor).state.current_term) s) :
    Refines P guard s s' r a := by
  obtain ⟨hterm, hvotes⟩ := voteRel_enter_act hr.votes h.votes ha hs
  have hmove : Replog.Step PersistedEntry.term (IsMajority P) guard r
      (r.enter a.actor (s'.node a.actor).state.current_term) := .enter r _ _ hterm
  rw [Refines, hsh]
  exact ⟨.single hmove, h.tame hr (hmove.le (inter P) hr) ⟨rfl, rfl, rfl, rfl⟩ hvotes ht
    (step_spec hs).node (step_election_req ha hs) hwire⟩

/-- A positive reply keeps a leader in order: what it now counts was acknowledged. -/
theorem LeaderOk.matched (hr : Replog.Wf PersistedEntry.term (IsMajority P) r) {n : RaftNode}
    {i peer : ℤ} (h : LeaderOk r n i) {m : ℕ} (hm : m ≤ r.acked peer (r.term i)) :
    LeaderOk r (n.matched peer m) i where
  log := h.log
  acked := h.acked
  match_le p := by
    by_cases hnew : m > n.match_index peer
    · by_cases hp : p = peer
      · subst hp
        simpa [RaftNode.matched, hnew] using hm
      · simpa [RaftNode.matched, hnew, hp] using h.match_le p
    · simpa [RaftNode.matched, hnew] using h.match_le p
  next_le p := by
    by_cases hp : p = peer
    · subst hp
      simpa [RaftNode.matched] using le_trans hm (hr.acked_le p _)
    · simpa [RaftNode.matched, hp] using h.next_le p
  next_pos p hp := by
    by_cases hpp : p = peer
    · subst hpp
      simp [RaftNode.matched]
    · simpa [RaftNode.matched, hpp] using h.next_pos p hp

/-- A negative reply steps `next_index` back, never below `1`. -/
theorem LeaderOk.next_back {n : RaftNode} {i peer : ℤ} (h : LeaderOk r n i)
    (hnext : 1 < n.next_index peer) :
    LeaderOk r { n with
      next_index := Function.update n.next_index peer (n.next_index peer - 1) } i where
  log := h.log
  acked := h.acked
  match_le := h.match_le
  next_le p := by
    by_cases hp : p = peer
    · subst hp
      have := h.next_le p
      simp only [Function.update_self]
      omega
    · simpa [hp] using h.next_le p
  next_pos p hp := by
    by_cases hpp : p = peer
    · subst hpp
      simp only [Function.update_self]
      omega
    · simpa [hpp] using h.next_pos p hp

/-- An act that keeps role, term and vote, with new bookkeeping or a compacted log. -/
theorem refines_stays (hr : Replog.Wf PersistedEntry.term (IsMajority P) r)
    (h : LogRel P s r) {a : Act} (ha : ¬ a.Electoral) (hs : step s a = some s')
    (hsh : shadow s s' r a = r.enter a.actor (s'.node a.actor).state.current_term)
    {n : RaftNode} (hn : a.result s = n) (hshows : Shows n.log (r.log a.actor))
    (hstate : n.state = (s.node a.actor).state) (hrole : n.role = (s.node a.actor).role)
    (hok : n.role = .Leader → LeaderOk r n a.actor) (hwire : Wire s' r s) :
    Refines P guard s s' r a := by
  have hvotes := (voteRel_enter_act hr.votes h.votes ha hs).2
  have hnode := (step_spec hs).node
  rw [hn] at hnode
  have hterm : (s'.node a.actor).state.current_term = r.term a.actor := by
    rw [hnode, set_node_self, hstate, h.votes.term]
  have hself : r.enter a.actor (r.term a.actor) = r := by rw [State.enter, enter_self]
  rw [hterm, enter_self] at hvotes
  rw [hterm, hself] at hsh
  rw [Refines, hsh]
  refine ⟨.refl, h.act hr (Replog.Le.refl r) (SameLogs.elsewhere ⟨rfl, rfl, rfl, rfl⟩ _) hvotes
    hnode hshows hok (fun e he hc ht => ?_) (fun j _ => step_election_req ha hs j) hwire⟩
  obtain ⟨e₀, he₀, hreq⟩ := step_election_req ha hs _ e he
  rw [← hreq]
  exact h.candidate _ e₀ he₀ (hrole ▸ hc) (by rw [hreq, ← hstate]; exact ht)

theorem refines_append_reply (hr : Replog.Wf PersistedEntry.term (IsMajority P) r)
    (h : LogRel P s r) {p : ℤ} {req : AppendEntriesRequest} {resp : AppendEntriesResponse}
    (hs : step s (.append_reply p req resp) = some s') :
    Refines P guard s s' r (.append_reply p req resp) := by
  have hspec := step_spec hs
  have hwire : ∀ r', Wire s' r' s := fun r' => hspec.wire_silent rfl (fun _ ht => ht)
  rcases on_append_reply_cases (s.node req.leader_id) p req resp with
    ⟨-, heq⟩ | heq | ⟨hl, hterm, hsucc, heq⟩ | ⟨hl, hnext, heq⟩
  · exact refines_tame hr h (fun hf => hf) hs rfl
      (by rw [Act.result, heq]; exact ⟨rfl, rfl, rfl, Or.inl rfl⟩) (hwire _)
  · exact refines_tame hr h (fun hf => hf) hs rfl (by rw [Act.result, heq]; exact Tame.refl _)
      (hwire _)
  · obtain ⟨c, a, cmds, hadv⟩ := advance_commit_fst
      ((s.node req.leader_id).matched p (req.prev_log_index + req.entries.length))
    have hm : req.prev_log_index + req.entries.length ≤ r.acked p req.term :=
      h.msgs _ hspec.enabled hsucc
    rw [← hterm, h.votes.term] at hm
    have hok := (h.leader _ hl).matched hr hm
    exact refines_stays hr h (fun hf => hf) hs rfl ((congrArg Prod.fst heq).trans hadv)
      (h.shows _) rfl rfl
      (fun _ => ⟨hok.log, hok.acked, hok.match_le, hok.next_le, hok.next_pos⟩) (hwire r)
  · exact refines_stays hr h (fun hf => hf) hs rfl (congrArg Prod.fst heq) (h.shows _) rfl rfl
      (fun _ => (h.leader _ hl).next_back hnext) (hwire r)

theorem refines_snapshot_reply (hr : Replog.Wf PersistedEntry.term (IsMajority P) r)
    (h : LogRel P s r) {p : ℤ} {req : InstallSnapshotRequest} {resp : InstallSnapshotResponse}
    (hs : step s (.snapshot_reply p req resp) = some s') :
    Refines P guard s s' r (.snapshot_reply p req resp) := by
  have hspec := step_spec hs
  have hwire : ∀ r', Wire s' r' s := fun r' => hspec.wire_silent rfl (fun _ ht => ht)
  rcases on_snapshot_reply_cases (s.node req.leader_id) p req resp with
    ⟨-, heq⟩ | heq | ⟨hl, hterm, hle, heq⟩
  · exact refines_tame hr h (fun hf => hf) hs rfl
      (by rw [Act.result, heq]; exact ⟨rfl, rfl, rfl, Or.inl rfl⟩) (hwire _)
  · exact refines_tame hr h (fun hf => hf) hs rfl (by rw [Act.result, heq]; exact Tame.refl _)
      (hwire _)
  · have hm : req.last_included_index ≤ r.acked p req.term := h.msgs _ hspec.enabled hle
    rw [← hterm, h.votes.term] at hm
    exact refines_stays hr h (fun hf => hf) hs rfl heq (h.shows _) rfl rfl
      (fun _ => (h.leader _ hl).matched hr hm) (hwire r)

theorem refines_replicate (hr : Replog.Wf PersistedEntry.term (IsMajority P) r)
    (h : LogRel P s r) {i : ℤ} (hs : step s (.replicate i) = some s') :
    Refines P guard s s' r (.replicate i) := by
  have hspec := step_spec hs
  obtain ⟨-, hl⟩ := hspec.enabled
  refine refines_tame hr h (fun hf => hf) hs rfl (Tame.refl _)
    (hspec.wire (fun m hm => by simp [Act.sent] at hm) (fun t ht => ?_))
  rcases List.mem_append.mp ht with ht | ht
  · obtain ⟨p, hp, rfl⟩ := List.mem_map.mp ht
    have hok := h.leader i hl
    have hwon := h.votes.leader i hl
    refine Or.inr ⟨?_, hok.next_pos p hp, ?_⟩
    · change r.winner (s.node i).state.current_term ≠ none
      rw [h.votes.term i, hwon]
      simp
    · change (s.node i).next_index p ≤ (r.llog (s.node i).state.current_term).length + 1
      rw [h.votes.term i]
      exact hok.next_le p
  · exact Or.inl ht

/-- The snapshot a leader offers is a prefix of its term's leader log. -/
theorem installOk_check (h : LogRel P s r) {i : ℤ} {term next_idx : ℕ}
    {req : InstallSnapshotRequest} (hreq : send_check (s.node i) term next_idx = .snapshot req) :
    InstallOk r req := by
  rw [send_check] at hreq
  split_ifs at hreq with hg hsnap
  rw [not_or, not_not, not_not] at hg
  obtain rfl := SendCheck.snapshot.inj hreq
  obtain ⟨hl, rfl⟩ := hg
  have hlog : r.log i = r.llog (s.node i).state.current_term := by
    rw [h.votes.term]
    exact (h.leader i hl).log
  have hshows := h.shows i
  rw [hlog] at hshows
  refine ⟨?_, hshows.covered, hshows.term⟩
  change r.winner (s.node i).state.current_term ≠ none
  rw [h.votes.term, h.votes.leader i hl]
  simp

theorem refines_send_check (hr : Replog.Wf PersistedEntry.term (IsMajority P) r)
    (h : LogRel P s r) {task : SendTask} (hs : step s (.send_check task) = some s') :
    Refines P guard s s' r (.send_check task) := by
  have hspec := step_spec hs
  refine refines_tame hr h (fun hf => hf) hs rfl (Tame.refl _)
    (hspec.wire (fun m hm => ?_) (fun t ht => ?_))
  · simp only [Act.sent] at hm
    split at hm
    · rename_i req hreq
      rw [List.mem_singleton.mp hm]
      have hok := installOk_check h hreq
      exact ⟨hok.won, hok.len, hok.term⟩
    · simp at hm
  · simp only [Act.tasks] at ht
    split at ht
    · rcases List.mem_cons.mp ht with rfl | ht
      · -- the same call, past its first lock scope
        have hok := h.task task hspec.enabled.1
        exact Or.inr ⟨hok.won, hok.pos, hok.le⟩
      · exact Or.inl (List.mem_of_mem_erase ht)
    · exact Or.inl (List.mem_of_mem_erase ht)

/-- The request a leader builds is a slice of its term's leader log, up to its end. -/
theorem appendOk_build (h : LogRel P s r) {task : SendTask} (htask : TaskOk r task)
    (hsnap : (s.node task.leader).role = .Leader →
      (s.node task.leader).state.current_term = task.term →
      (s.node task.leader).log.snapshot_last_index ≤ task.next_idx - 1)
    {req : AppendEntriesRequest}
    (hreq : build_append_entries (s.node task.leader) task.term task.next_idx = some req) :
    AppendOk r req ∧ (s.node task.leader).role = .Leader ∧ req.term = r.term task.leader ∧
      req.leader_commit = (s.node task.leader).commit_index ∧
      req.prev_log_index + req.entries.length = (r.llog req.term).length := by
  rw [build_append_entries] at hreq
  split_ifs at hreq with hg
  rw [not_or, not_not, not_not] at hg
  obtain rfl := Option.some.inj hreq
  have hterm : r.term task.leader = task.term := by
    rw [← h.votes.term]
    exact hg.2
  have hshows := h.shows task.leader
  rw [(h.leader _ hg.1).log, hterm] at hshows
  -- the snapshot ends below the first entry sent, so the entries are all there
  have hsnap := hsnap hg.1 hg.2
  obtain ⟨k, hk⟩ : ∃ k, task.next_idx = k + 1 := ⟨task.next_idx - 1, by have := htask.pos; omega⟩
  have hkle : k ≤ (r.llog task.term).length := by
    have := htask.le
    omega
  have hents : entries_from (s.node task.leader).log (k + 1) = (r.llog task.term).drop k := by
    rw [hk, Nat.add_sub_cancel] at hsnap
    exact hshows.entries_from hsnap
  have hend : k + ((r.llog task.term).drop k).length = (r.llog task.term).length := by
    rw [List.length_drop]
    omega
  refine ⟨⟨htask.won, ?_, ?_, fun m hm => ?_⟩, hg.1, hterm.symm, rfl, ?_⟩
  · simp only [hents, hk, Nat.add_sub_cancel]
    exact le_of_eq hend
  · simp only [hents, hk, Nat.add_sub_cancel, List.length_drop]
    rw [Nat.add_sub_cancel' hkle, List.take_length, List.take_append_drop]
  · simp only [hk, Nat.add_sub_cancel] at hm ⊢
    subst hm
    have hget : (r.llog task.term)[m]? = some (r.llog task.term)[m] := List.getElem?_eq_getElem _
    exact ⟨_, hget, (hshows.term_at (by omega) hget).symm⟩
  · simp only [hents, hk, Nat.add_sub_cancel]
    exact hend

theorem refines_send_build (hr : Replog.Wf PersistedEntry.term (IsMajority P) r)
    (h : LogRel P s r) {task : SendTask} (hall : Allowed guard s r (.send_build task))
    (hs : step s (.send_build task) = some s') :
    Refines P guard s s' r (.send_build task) := by
  have hspec := step_spec hs
  refine refines_tame hr h (fun hf => hf) hs rfl (Tame.refl _)
    (hspec.wire (fun m hm => ?_) (fun _ ht => Or.inl (List.mem_of_mem_erase ht)))
  simp only [Act.sent] at hm
  split at hm
  · rename_i req hb
    have hok := (appendOk_build h (h.task task hspec.enabled.1) hall hb).1
    rw [List.mem_singleton.mp hm]
    exact ⟨hok.won, hok.len, hok.entries, hok.prev⟩
  · simp at hm

theorem refines_vote_reply (hr : Replog.Wf PersistedEntry.term (IsMajority P) r)
    (h : LogRel P s r) {i p : ℤ} {resp : RequestVoteResponse}
    (hs : step s (.vote_reply i p resp) = some s') :
    Refines P guard s s' r (.vote_reply i p resp) := by
  have hspec := step_spec hs
  obtain ⟨e, he, -⟩ := hspec.enabled
  exact refines_tame hr h (fun hf => hf) hs rfl
    (by rw [Act.result, he]; exact tame_on_vote_reply _ e.req.term resp)
    (hspec.wire_silent rfl (fun _ ht => ht))

theorem refines_vote_failed (hr : Replog.Wf PersistedEntry.term (IsMajority P) r)
    (h : LogRel P s r) {i p : ℤ} (hs : step s (.vote_failed i p) = some s') :
    Refines P guard s s' r (.vote_failed i p) :=
  refines_tame hr h (fun hf => hf) hs rfl (Tame.refl _)
    ((step_spec hs).wire_silent rfl (fun _ ht => ht))

theorem refines_restart (hr : Replog.Wf PersistedEntry.term (IsMajority P) r)
    (h : LogRel P s r) {i : ℤ} (hs : step s (.restart i) = some s') :
    Refines P guard s s' r (.restart i) :=
  refines_tame hr h (fun hf => hf) hs rfl (tame_restart _)
    ((step_spec hs).wire_silent rfl (fun _ ht => List.mem_of_mem_filter ht))

end NanoDB.Raft
