/-
The relation between a cluster and the replicated-log machine.

`VoteRel` says what the votes are; `LogRel` adds the logs. Every node's log shows its
abstract log, a leader's is the leader log of its term, a candidate still has the log it
campaigned with, every vote request describes such a log, every `AppendEntries` carries a
slice of its term's leader log together with the term of the entry before it, every
`InstallSnapshot` names a prefix of it, and every positive reply stands for an acknowledged
prefix. `LogRel.act` reduces keeping all this to what one act did to one node and what it
sent.
-/
import NanoDB.RaftShows
import NanoDB.RaftElection

set_option autoImplicit false

namespace NanoDB.Raft

open Ballot Quorum Replog

/-- The abstract state the cluster is compared with. -/
abbrev Logs := Replog.State ℤ PersistedEntry

/-! ## What is known of the messages and of a leader -/

/-- A vote request describes the log its candidate campaigned with. -/
def RequestOk (r : Logs) (req : RequestVoteRequest) : Prop :=
  ∃ L, r.cand req.term req.candidate_id = some L ∧ req.last_log_index = L.length ∧
    req.last_log_term = lastTerm PersistedEntry.term L

/-- An `AppendEntries` carries the entries of its term's leader log that follow
`prev_log_index`, and the term of the entry there. -/
structure AppendOk (r : Logs) (req : AppendEntriesRequest) : Prop where
  won : r.winner req.term ≠ none
  len : req.prev_log_index + req.entries.length ≤ (r.llog req.term).length
  entries : (r.llog req.term).take (req.prev_log_index + req.entries.length)
    = (r.llog req.term).take req.prev_log_index ++ req.entries
  prev : ∀ k, req.prev_log_index = k + 1 →
    ∃ e, (r.llog req.term)[k]? = some e ∧ e.term = req.prev_log_term

/-- An `InstallSnapshot` names a prefix of its term's leader log and the term of the last
entry in it. -/
structure InstallOk (r : Logs) (req : InstallSnapshotRequest) : Prop where
  won : r.winner req.term ≠ none
  len : req.last_included_index ≤ (r.llog req.term).length
  term : req.last_included_term
    = lastTerm PersistedEntry.term ((r.llog req.term).take req.last_included_index)

/-- What is known of a message on the wire. A positive reply stands for an acknowledged
prefix, and so does every `InstallSnapshot` reply that does not come from a later term. -/
def MsgOk (r : Logs) : Message → Prop
  | .request_vote _ req => RequestOk r req
  | .request_vote_reply _ _ _ => True
  | .append_entries _ req => AppendOk r req
  | .append_entries_reply p req resp =>
      resp.success = true → req.prev_log_index + req.entries.length ≤ r.acked p req.term
  | .install_snapshot _ req => InstallOk r req
  | .install_snapshot_reply p req resp =>
      resp.term ≤ req.term → req.last_included_index ≤ r.acked p req.term

/-- A `send_append_entries_to_peer` in progress starts within its term's leader log. -/
structure TaskOk (r : Logs) (task : SendTask) : Prop where
  won : r.winner task.term ≠ none
  pos : 1 ≤ task.next_idx
  le : task.next_idx ≤ (r.llog task.term).length + 1

/-- Node `i` as the leader of its term. Its own acknowledgement is complete once the
log has an entry of the term. -/
structure LeaderOk (r : Logs) (n : RaftNode) (i : ℤ) : Prop where
  log : r.log i = r.llog (r.term i)
  acked : ∀ e ∈ r.llog (r.term i), e.term = r.term i →
    r.acked i (r.term i) = (r.llog (r.term i)).length
  match_le : ∀ p, n.match_index p ≤ r.acked p (r.term i)
  next_le : ∀ p, n.next_index p ≤ (r.llog (r.term i)).length + 1
  next_pos : ∀ p ∈ n.stubs, 1 ≤ n.next_index p

/-- The cluster `s` of the nodes `P` shows the votes and logs `r`. -/
structure LogRel (P : List ℤ) (s : Cluster) (r : Logs) : Prop where
  votes : VoteRel P s r.toVotes
  shows : ∀ i, Shows (s.node i).log (r.log i)
  leader : ∀ i, (s.node i).role = .Leader → LeaderOk r (s.node i) i
  candidate : ∀ i e, s.election i = some e → (s.node i).role = .Candidate →
    (s.node i).state.current_term = e.req.term → r.cand e.req.term i = some (r.log i)
  cand_pos : ∀ c, r.cand 0 c = none
  msgs : ∀ m ∈ s.msgs, MsgOk r m
  task : ∀ t ∈ s.tasks, TaskOk r t

variable {P : List ℤ} {s s' : Cluster} {r r' : Logs}

theorem logRel_init (P : List ℤ) : LogRel P (Cluster.init P) State.init where
  votes := voteRel_init P
  shows _ := shows_empty
  leader _ h := by simp [Cluster.init, RaftNode.open_files] at h
  candidate _ _ h := by simp [Cluster.init] at h
  cand_pos _ := rfl
  msgs _ h := by simp [Cluster.init] at h
  task _ h := by simp [Cluster.init] at h

theorem LogRel.append (h : LogRel P s r) {d : ℤ} {req : AppendEntriesRequest}
    (hm : Message.append_entries d req ∈ s.msgs) : AppendOk r req := h.msgs _ hm

theorem LogRel.install (h : LogRel P s r) {d : ℤ} {req : InstallSnapshotRequest}
    (hm : Message.install_snapshot d req ∈ s.msgs) : InstallOk r req := h.msgs _ hm

/-- The term of the last entry, read by the vote check. -/
theorem LogRel.last_term (h : LogRel P s r) (i : ℤ) :
    (s.node i).log.last_term = lastTerm PersistedEntry.term (r.log i) :=
  (h.shows i).last_term

theorem LogRel.last_index (h : LogRel P s r) (i : ℤ) :
    (s.node i).log.last_index = (r.log i).length :=
  (h.shows i).last_index

/-! ## Growth

What messages and tasks promise refers to leader logs and acknowledgements, so it
survives everything. -/

theorem winner_ne_none_mono (hle : Replog.Le PersistedEntry.term r r') {t : ℕ}
    (h : r.winner t ≠ none) : r'.winner t ≠ none := by
  obtain ⟨c, hc⟩ := Option.ne_none_iff_exists'.mp h
  rw [hle.votes.winner t c hc]
  simp

theorem llog_length_mono (hr : Replog.Wf PersistedEntry.term (IsMajority P) r)
    (hle : Replog.Le PersistedEntry.term r r') (t : ℕ) :
    (r.llog t).length ≤ (r'.llog t).length := by
  have h := congrArg List.length (take_llog_of_le hr hle (le_refl (r.llog t).length))
  rw [List.length_take, List.length_take] at h
  omega

theorem getElem_llog_mono (hr : Replog.Wf PersistedEntry.term (IsMajority P) r)
    (hle : Replog.Le PersistedEntry.term r r') {t k : ℕ} {e : PersistedEntry}
    (h : (r.llog t)[k]? = some e) : (r'.llog t)[k]? = some e := by
  have hk : k < (r.llog t).length := (List.getElem?_eq_some_iff.mp h).1
  rw [← List.getElem?_take_of_lt (Nat.lt_succ_self k), take_llog_of_le hr hle hk,
    List.getElem?_take_of_lt (Nat.lt_succ_self k), h]

theorem AppendOk.mono (hr : Replog.Wf PersistedEntry.term (IsMajority P) r)
    (hle : Replog.Le PersistedEntry.term r r') {req : AppendEntriesRequest}
    (h : AppendOk r req) : AppendOk r' req where
  won := winner_ne_none_mono hle h.won
  len := le_trans h.len (llog_length_mono hr hle _)
  entries := by
    have hlen := h.len
    rw [take_llog_of_le hr hle h.len, take_llog_of_le hr hle (by omega), h.entries]
  prev k hk := by
    obtain ⟨e, he, het⟩ := h.prev k hk
    exact ⟨e, getElem_llog_mono hr hle he, het⟩

theorem InstallOk.mono (hr : Replog.Wf PersistedEntry.term (IsMajority P) r)
    (hle : Replog.Le PersistedEntry.term r r') {req : InstallSnapshotRequest}
    (h : InstallOk r req) : InstallOk r' req where
  won := winner_ne_none_mono hle h.won
  len := le_trans h.len (llog_length_mono hr hle _)
  term := by rw [take_llog_of_le hr hle h.len, h.term]

theorem MsgOk.mono (hr : Replog.Wf PersistedEntry.term (IsMajority P) r)
    (hle : Replog.Le PersistedEntry.term r r')
    (hcand : ∀ t c L, r.cand t c = some L → r'.cand t c = some L) {m : Message}
    (h : MsgOk r m) : MsgOk r' m := by
  cases m with
  | request_vote d req =>
      obtain ⟨L, hL, hlen, hterm⟩ := h
      exact ⟨L, hcand _ _ L hL, hlen, hterm⟩
  | request_vote_reply p req resp => trivial
  | append_entries d req => exact AppendOk.mono hr hle h
  | append_entries_reply p req resp => exact fun hok => le_trans (h hok) (hle.acked _ _)
  | install_snapshot d req => exact InstallOk.mono hr hle h
  | install_snapshot_reply p req resp => exact fun hterm => le_trans (h hterm) (hle.acked _ _)

theorem TaskOk.mono (hr : Replog.Wf PersistedEntry.term (IsMajority P) r)
    (hle : Replog.Le PersistedEntry.term r r') {task : SendTask} (h : TaskOk r task) :
    TaskOk r' task :=
  ⟨winner_ne_none_mono hle h.won, h.pos,
    le_trans h.le (Nat.succ_le_succ (llog_length_mono hr hle _))⟩

/-- The part of the relation that only ever grows, for a state that adds messages and
tasks to `s`. -/
structure Wire (s' : Cluster) (r' : Logs) (s : Cluster) : Prop where
  msgs : ∀ m ∈ s'.msgs, m ∈ s.msgs ∨ MsgOk r' m
  task : ∀ t ∈ s'.tasks, t ∈ s.tasks ∨ TaskOk r' t

theorem Stepped.wire {a : Act} (h : Stepped s a s') (hsent : ∀ m ∈ a.sent s, MsgOk r' m)
    (htask : ∀ t ∈ a.tasks s, t ∈ s.tasks ∨ TaskOk r' t) : Wire s' r' s where
  msgs m hm := by
    rw [h.msgs] at hm
    exact (List.mem_append.mp hm).symm.imp_right (hsent m)
  task t ht := htask t (h.tasks ▸ ht)

/-- An act that sends nothing and starts no call. -/
theorem Stepped.wire_silent {a : Act} (h : Stepped s a s') (hsent : a.sent s = [])
    (htask : ∀ t ∈ a.tasks s, t ∈ s.tasks) : Wire s' r' s :=
  h.wire (fun m hm => by rw [hsent] at hm; simp at hm) (fun t ht => Or.inl (htask t ht))

/-- Between `r` and `r'` only node `i` may have changed its log or acknowledgements, and
no other leader's log moved. -/
structure Elsewhere (r r' : Logs) (i : ℤ) : Prop where
  log : ∀ j, j ≠ i → r'.log j = r.log j
  acked : ∀ j, j ≠ i → r'.acked j = r.acked j
  llog : ∀ j, j ≠ i → r.winner (r.term j) = some j → r'.llog (r.term j) = r.llog (r.term j)
  cand : ∀ t c L, r.cand t c = some L → r'.cand t c = some L
  cand_pos : ∀ c, r.cand 0 c = none → r'.cand 0 c = none

/-- **The relation after an act of node `i`**, from what the act did to that node and
what it sent. -/
theorem LogRel.act (hr : Replog.Wf PersistedEntry.term (IsMajority P) r) (h : LogRel P s r)
    (hle : Replog.Le PersistedEntry.term r r') {i : ℤ} (hels : Elsewhere r r' i)
    (hvotes : VoteRel P s' r'.toVotes) {n : RaftNode} (hnode : s'.node = (s.set i n).node)
    (hshows : Shows n.log (r'.log i))
    (hleader : n.role = .Leader → LeaderOk r' n i)
    (hcandidate : ∀ e, s'.election i = some e → n.role = .Candidate →
      n.state.current_term = e.req.term → r'.cand e.req.term i = some (r'.log i))
    (helection : ∀ j, j ≠ i → ∀ e, s'.election j = some e →
      ∃ e₀, s.election j = some e₀ ∧ e₀.req = e.req)
    (hwire : Wire s' r' s) : LogRel P s' r' where
  votes := hvotes
  shows := by
    rw [hnode]
    exact forall_node_set (Q := fun j n => Shows n.log (r'.log j)) hshows
      (fun j hj => by rw [hels.log j hj]; exact h.shows j)
  -- the other leaders are of other terms: their leader logs did not move
  leader := by
    rw [hnode]
    refine forall_node_set (Q := fun j n => n.role = .Leader → LeaderOk r' n j) hleader
      (fun j hj hl => ?_)
    have hok := h.leader j hl
    have hterm : r'.term j = r.term j := by
      rw [← hvotes.term j, hnode, set_node_ne s n hj, h.votes.term j]
    have hllog := hels.llog j hj (h.votes.leader j hl)
    refine ⟨?_, ?_, fun p => ?_, ?_, hok.next_pos⟩
    · rw [hterm, hels.log j hj, hllog]
      exact hok.log
    · rw [hterm, hllog, hels.acked j hj]
      exact hok.acked
    · rw [hterm]
      exact le_trans (hok.match_le p) (hle.acked p _)
    · rw [hterm, hllog]
      exact hok.next_le
  candidate := by
    intro j e he hc ht
    by_cases hj : j = i
    · subst hj
      rw [hnode, set_node_self] at hc ht
      exact hcandidate e he hc ht
    · rw [hnode, set_node_ne s n hj] at hc ht
      obtain ⟨e₀, he₀, hreq⟩ := helection j hj e he
      rw [hels.log j hj, ← hreq]
      exact hels.cand _ _ _ (h.candidate j e₀ he₀ hc (hreq ▸ ht))
  cand_pos c := hels.cand_pos c (h.cand_pos c)
  msgs m hm := (hwire.msgs m hm).elim (fun hm => (h.msgs m hm).mono hr hle hels.cand) id
  task t ht := (hwire.task t ht).elim (fun ht => (h.task t ht).mono hr hle) id

/-! ## Acts that leave the logs alone -/

/-- Between `n` and `n'` the log is the same, and the node is a follower or has kept
role, term and bookkeeping. -/
structure Tame (n n' : RaftNode) : Prop where
  log : n'.log = n.log
  peers : n'.peers = n.peers
  node_id : n'.node_id = n.node_id
  kept : n'.role = .Follower ∨
    (n'.role = n.role ∧ n'.state.current_term = n.state.current_term ∧
      n'.match_index = n.match_index ∧ n'.next_index = n.next_index)

theorem Tame.refl (n : RaftNode) : Tame n n := ⟨rfl, rfl, rfl, Or.inr ⟨rfl, rfl, rfl, rfl⟩⟩

theorem tame_observe_term (n : RaftNode) (t : ℕ) : Tame n (observe_term n t) := by
  rw [observe_term]
  split
  · exact ⟨rfl, rfl, rfl, Or.inl rfl⟩
  · exact Tame.refl n

theorem tame_on_vote_reply (n : RaftNode) (t : ℕ) (resp : RequestVoteResponse) :
    Tame n (on_vote_reply n t resp).1 := by
  rw [on_vote_reply]
  split
  · exact tame_observe_term n resp.term
  · exact Tame.refl n

theorem tame_restart (n : RaftNode) : Tame n n.restart := ⟨rfl, rfl, rfl, Or.inl rfl⟩

theorem Tame.stubs {n n' : RaftNode} (h : Tame n n') : n'.stubs = n.stubs := by
  rw [RaftNode.stubs, RaftNode.stubs, h.peers, h.node_id]

/-- The moves that keep logs, leader logs, acknowledgements and campaigns. -/
structure SameLogs (r r' : Logs) : Prop where
  log : r'.log = r.log
  llog : r'.llog = r.llog
  acked : r'.acked = r.acked
  cand : r'.cand = r.cand

theorem SameLogs.elsewhere (h : SameLogs r r') (i : ℤ) : Elsewhere r r' i where
  log _ _ := by rw [h.log]
  acked _ _ := by rw [h.acked]
  llog _ _ _ := by rw [h.llog]
  cand _ _ _ hL := by rw [h.cand]; exact hL
  cand_pos _ hc := by rw [h.cand]; exact hc

/-- An act that changes one node tamely, for any abstract state with the same logs. -/
theorem LogRel.tame (hr : Replog.Wf PersistedEntry.term (IsMajority P) r) (h : LogRel P s r)
    (hle : Replog.Le PersistedEntry.term r r') (hsame : SameLogs r r')
    (hvotes : VoteRel P s' r'.toVotes) {i : ℤ} {n : RaftNode} (ht : Tame (s.node i) n)
    (hnode : s'.node = (s.set i n).node)
    (helection : ∀ j e, s'.election j = some e → ∃ e₀, s.election j = some e₀ ∧ e₀.req = e.req)
    (hwire : Wire s' r' s) : LogRel P s' r' := by
  refine h.act hr hle (hsame.elsewhere i) hvotes hnode
    (by rw [ht.log, hsame.log]; exact h.shows i) ?_ ?_ (fun j _ => helection j) hwire
  · intro hl
    -- still a leader: role, term and bookkeeping are the old ones
    rcases ht.kept with hfol | ⟨hrole, hkept, hmatch, hnext⟩
    · rw [hfol] at hl
      simp at hl
    · have hok := h.leader i (hrole ▸ hl)
      have hterm : r'.term i = r.term i := by
        rw [← hvotes.term i, hnode, set_node_self, hkept, h.votes.term i]
      refine ⟨?_, ?_, ?_, ?_, ?_⟩
      · rw [hterm, hsame.log, hsame.llog]
        exact hok.log
      · rw [hterm, hsame.llog, hsame.acked]
        exact hok.acked
      · rw [hterm, hsame.acked, hmatch]
        exact hok.match_le
      · rw [hterm, hsame.llog, hnext]
        exact hok.next_le
      · rw [ht.stubs, hnext]
        exact hok.next_pos
  · intro e he hc hct
    obtain ⟨e₀, he₀, hreq⟩ := helection i e he
    rcases ht.kept with hfol | ⟨hrole, hkept, -, -⟩
    · rw [hfol] at hc
      simp at hc
    · rw [hsame.cand, hsame.log, ← hreq]
      exact h.candidate i e₀ he₀ (hrole ▸ hc) (by rw [← hkept, hct, hreq])

end NanoDB.Raft
