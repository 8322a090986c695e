/-
Election safety: in any run of a cluster a term has one leader.

The cluster refines the vote machine of `Ballot` through `VoteRel`, which relates
the persisted `(current_term, voted_for)` pairs, the vote messages on the wire and the
elections in progress to the votes cast. Most critical sections do to the votes at
most one thing, enter a later term with no vote: that is `Quiet`, proved once for each
handler and used for every act that runs it. What remains are the three acts that vote
or win.

The difficulty is that the candidate counts its votes outside the lock. It is met by
`ElectionOk`: whatever happens in between, the granted replies collected so far are
votes *in the term of the request*, and votes are never taken back.
-/
import NanoDB.Lib.Ballot
import NanoDB.Lib.Quorum
import NanoDB.RaftCluster

set_option autoImplicit false

namespace NanoDB.Raft

open Ballot Quorum

/-! ## The refinement relation -/

/-- A vote as `voted_for` stores it. -/
def vote_code : Option ℤ → ℤ
  | none => -1
  | some c => c

/-- An election in progress at `i`: its own vote is cast, no peer is asked twice, and
the granted replies are votes in the term of the request. -/
structure ElectionOk (P : List ℤ) (b : Votes ℤ) (i : ℤ) (e : Election) : Prop where
  mem : i ∈ P
  cand : e.req.candidate_id = i
  term_le : e.req.term ≤ b.term i
  own : b.vote i e.req.term = some i
  nodup : (e.granted ++ e.pending).Nodup
  asked : ∀ p ∈ e.granted ++ e.pending, p ∈ P ∧ p ≠ i
  granted : ∀ p ∈ e.granted, b.vote p e.req.term = some i
  fresh : b.winner e.req.term ≠ some i

/-- The cluster `s` of the nodes `P` shows the votes `b`. -/
structure VoteRel (P : List ℤ) (s : Cluster) (b : Votes ℤ) : Prop where
  peers : s.peers = P
  node_id : ∀ i, (s.node i).node_id = i
  node_peers : ∀ i, (s.node i).peers = P
  term : ∀ i, (s.node i).state.current_term = b.term i
  voted_for : ∀ i, (s.node i).state.voted_for = vote_code (b.vote i (b.term i))
  vote_mem : ∀ v t c, b.vote v t = some c → c ∈ P
  vote_term : ∀ v t c, b.vote v t = some c → t ≤ b.term c
  leader : ∀ i, (s.node i).role = .Leader → b.winner (b.term i) = some i
  election : ∀ i e, s.election i = some e → ElectionOk P b i e
  request : ∀ d req, Message.request_vote d req ∈ s.msgs →
    req.candidate_id ∈ P ∧ req.term ≤ b.term req.candidate_id
  reply : ∀ p req resp, Message.request_vote_reply p req resp ∈ s.msgs →
    resp.vote_granted = true → b.vote p req.term = some req.candidate_id

variable {P : List ℤ} {s s' : Cluster} {b : Votes ℤ}

theorem voteRel_init (P : List ℤ) : VoteRel P (Cluster.init P) Votes.init where
  peers := rfl
  node_id _ := rfl
  node_peers _ := rfl
  term _ := rfl
  voted_for _ := rfl
  vote_mem _ _ _ h := by simp [Votes.init] at h
  vote_term _ _ _ h := by simp [Votes.init] at h
  leader _ h := by simp [Cluster.init, RaftNode.open_files] at h
  election _ _ h := by simp [Cluster.init] at h
  request _ _ h := by simp [Cluster.init] at h
  reply _ _ _ h := by simp [Cluster.init] at h

/-- The relation reads the nodes, the elections and the vote messages only. -/
theorem VoteRel.frame (h : VoteRel P s b) (hpeers : s'.peers = s.peers) (hnode : s'.node = s.node)
    (helection : ∀ i e, s'.election i = some e → ElectionOk P b i e)
    (hrequest : ∀ d req, Message.request_vote d req ∈ s'.msgs → .request_vote d req ∈ s.msgs)
    (hreply : ∀ p req resp, Message.request_vote_reply p req resp ∈ s'.msgs →
      .request_vote_reply p req resp ∈ s.msgs) : VoteRel P s' b where
  peers := hpeers.trans h.peers
  node_id := hnode ▸ h.node_id
  node_peers := hnode ▸ h.node_peers
  term := hnode ▸ h.term
  voted_for := hnode ▸ h.voted_for
  vote_mem := h.vote_mem
  vote_term := h.vote_term
  leader := hnode ▸ h.leader
  election := helection
  request d req hm := h.request d req (hrequest d req hm)
  reply p req resp hm := h.reply p req resp (hreply p req resp hm)

theorem ElectionOk.mono {b' : Votes ℤ} (hle : Ballot.Le b b') {i : ℤ} {e : Election}
    (h : ElectionOk P b i e) (hfresh : b'.winner e.req.term ≠ some i) : ElectionOk P b' i e where
  mem := h.mem
  cand := h.cand
  term_le := le_trans h.term_le (hle.term i)
  own := hle.vote _ _ _ h.own
  nodup := h.nodup
  asked := h.asked
  granted p hp := hle.vote _ _ _ (h.granted p hp)
  fresh := hfresh

/-! ## Critical sections that at most enter a later term -/

/-- Between `n` and `n'` the term and vote are unchanged and leadership is not gained, or
a later term was entered without a vote. -/
structure Quiet (n n' : RaftNode) : Prop where
  node_id : n'.node_id = n.node_id
  peers : n'.peers = n.peers
  votes : (n'.state = n.state ∧ (n'.role = .Leader → n.role = .Leader)) ∨
    (n.state.current_term < n'.state.current_term ∧ n'.state.voted_for = -1 ∧ n'.role ≠ .Leader)

theorem Quiet.refl (n : RaftNode) : Quiet n n := ⟨rfl, rfl, Or.inl ⟨rfl, id⟩⟩

theorem Quiet.trans {n₁ n₂ n₃ : RaftNode} (h : Quiet n₁ n₂) (h' : Quiet n₂ n₃) : Quiet n₁ n₃ := by
  refine ⟨h'.node_id.trans h.node_id, h'.peers.trans h.peers, ?_⟩
  rcases h'.votes with ⟨hstate', hrole'⟩ | ⟨hlt', hnone', hrole'⟩
  · rcases h.votes with ⟨hstate, hrole⟩ | ⟨hlt, hnone, hrole⟩
    · exact Or.inl ⟨hstate'.trans hstate, fun hl => hrole (hrole' hl)⟩
    · rw [hstate']
      exact Or.inr ⟨hlt, hnone, fun hl => hrole (hrole' hl)⟩
  · refine Or.inr ⟨lt_of_le_of_lt ?_ hlt', hnone', hrole'⟩
    rcases h.votes with ⟨hstate, -⟩ | ⟨hlt, -, -⟩
    · rw [hstate]
    · exact Nat.le_of_lt hlt

theorem quiet_become_follower {n : RaftNode} {t : ℕ} (h : n.state.current_term < t) :
    Quiet n (become_follower_locked n t) :=
  ⟨rfl, rfl, Or.inr ⟨h, rfl, by simp [become_follower_locked]⟩⟩

theorem quiet_observe_term (n : RaftNode) (t : ℕ) : Quiet n (observe_term n t) := by
  rw [observe_term]
  by_cases h : t > n.state.current_term
  · rw [if_pos h]
    exact quiet_become_follower h
  · rw [if_neg h]
    exact Quiet.refl n

theorem Quiet.advance_commit {n m : RaftNode} (h : Quiet n m) :
    Quiet n (advance_commit_index_locked m).1 := by
  obtain ⟨c, a, cmds, heq⟩ := advance_commit_fst m
  rw [heq]
  exact h.trans ⟨rfl, rfl, Or.inl ⟨rfl, id⟩⟩

theorem quiet_follow_commit (n : RaftNode) (lc : ℕ) : Quiet n (follow_commit n lc).1 := by
  obtain ⟨a, cmds, h, -, -⟩ := follow_commit_spec n lc
  rw [h]
  exact ⟨rfl, rfl, Or.inl ⟨rfl, id⟩⟩

theorem quiet_store_entries (n : RaftNode) (req : AppendEntriesRequest) :
    Quiet n (store_entries n req) := by
  rw [store_entries]
  split
  · exact Quiet.refl n
  · exact ⟨rfl, rfl, Or.inl ⟨rfl, id⟩⟩

/-- Stepping down within a term. -/
theorem quiet_follow (n : RaftNode) (leader : ℤ) :
    Quiet n { n with role := .Follower, leader_id := leader } :=
  ⟨rfl, rfl, Or.inl ⟨rfl, fun h => absurd h (by simp)⟩⟩

theorem quiet_handle_append_entries (n : RaftNode) (req : AppendEntriesRequest) :
    Quiet n (handle_append_entries n req).1 := by
  have hobs := quiet_observe_term n req.term
  have hfol := hobs.trans (quiet_follow (observe_term n req.term) req.leader_id)
  rcases handle_append_entries_cases n req with ⟨_, h, -⟩ | ⟨-, _, h, -⟩ | ⟨-, -, h⟩
  · rw [h]
    exact hobs
  · rw [h]
    exact hfol
  · rw [h]
    exact (hfol.trans (quiet_store_entries _ req)).trans (quiet_follow_commit _ _)

theorem quiet_handle_install_snapshot (n : RaftNode) (req : InstallSnapshotRequest) :
    Quiet n (handle_install_snapshot n req).1 := by
  have hobs := quiet_observe_term n req.term
  have hfol := hobs.trans (quiet_follow (observe_term n req.term) req.leader_id)
  rw [handle_install_snapshot]
  dsimp only
  split
  · exact hobs
  · split
    · exact hfol
    · exact hfol.trans ⟨rfl, rfl, Or.inl ⟨rfl, id⟩⟩

theorem quiet_compact (n : RaftNode) (up_to : ℕ) (data : Bytes) :
    Quiet n (compact n up_to data).1 := by
  rw [compact]
  dsimp only
  split
  · exact Quiet.refl n
  split
  · exact Quiet.refl n
  split
  · exact Quiet.refl n
  · exact ⟨rfl, rfl, Or.inl ⟨rfl, id⟩⟩

theorem quiet_propose {n : RaftNode} {cmd : Bytes} {r : RaftNode × List (ℕ × Bytes)}
    (h : propose n cmd = some r) : Quiet n r.1 := by
  rw [propose] at h
  split_ifs at h
  obtain rfl := Option.some.inj h
  exact Quiet.advance_commit ⟨rfl, rfl, Or.inl ⟨rfl, id⟩⟩

theorem quiet_on_vote_reply (n : RaftNode) (t : ℕ) (resp : RequestVoteResponse) :
    Quiet n (on_vote_reply n t resp).1 := by
  rw [on_vote_reply]
  split
  · exact quiet_observe_term n resp.term
  · exact Quiet.refl n

theorem quiet_on_append_reply (n : RaftNode) (p : ℤ) (req : AppendEntriesRequest)
    (resp : AppendEntriesResponse) : Quiet n (on_append_reply n p req resp).1 := by
  rw [on_append_reply]
  dsimp only
  split
  case isTrue hgt => exact quiet_become_follower hgt
  split
  · exact Quiet.refl n
  split
  · exact Quiet.advance_commit ⟨rfl, rfl, Or.inl ⟨rfl, id⟩⟩
  split
  · exact ⟨rfl, rfl, Or.inl ⟨rfl, id⟩⟩
  · exact Quiet.refl n

theorem quiet_on_snapshot_reply (n : RaftNode) (p : ℤ) (req : InstallSnapshotRequest)
    (resp : InstallSnapshotResponse) : Quiet n (on_snapshot_reply n p req resp) := by
  rw [on_snapshot_reply]
  split
  case isTrue hgt => exact quiet_become_follower hgt
  split
  · exact Quiet.refl n
  split
  · exact ⟨rfl, rfl, Or.inl ⟨rfl, id⟩⟩
  · exact Quiet.refl n

theorem quiet_restart (n : RaftNode) : Quiet n n.restart :=
  ⟨rfl, rfl, Or.inl ⟨rfl, fun h => absurd h (by simp [RaftNode.restart, RaftNode.open_files])⟩⟩

/-! ## One lemma for each kind of act -/

theorem Quiet.term_le {n n' : RaftNode} (h : Quiet n n') :
    n.state.current_term ≤ n'.state.current_term := by
  rcases h.votes with ⟨hstate, -⟩ | ⟨hlt, -, -⟩
  · rw [hstate]
  · exact Nat.le_of_lt hlt

/-- A quiet critical section of node `i` is the move `enter` of the vote machine. -/
theorem VoteRel.quiet (hb : Ballot.Wf (IsMajority P) b) (h : VoteRel P s b) {i : ℤ} {n : RaftNode}
    (hq : Quiet (s.node i) n) : VoteRel P (s.set i n) (b.enter i n.state.current_term) := by
  have hterm : b.term i ≤ n.state.current_term := by
    rw [← h.term i]
    exact hq.term_le
  have hle : Ballot.Le b (b.enter i n.state.current_term) :=
    Step.le (fun _ _ => majority_inter) hb (.enter b i _ hterm)
  -- only node `i` changed, and only its term may have gone up
  refine
    { peers := h.peers
      node_id := forall_node_set (Q := fun j n => n.node_id = j)
        (hq.node_id.trans (h.node_id i)) (fun j _ => h.node_id j)
      node_peers := forall_node_set (Q := fun _ n => n.peers = P)
        (hq.peers.trans (h.node_peers i)) (fun j _ => h.node_peers j)
      term := forall_node_set (Q := fun j n' => n'.state.current_term
          = (b.enter i n.state.current_term).term j)
        (by rw [enter_term_self]) (fun j hj => by rw [enter_term_ne b _ hj, h.term])
      voted_for := forall_node_set (Q := fun j n' => n'.state.voted_for
          = vote_code (b.vote j ((b.enter i n.state.current_term).term j)))
        ?_ (fun j hj => by rw [enter_term_ne b _ hj, h.voted_for])
      vote_mem := h.vote_mem
      vote_term := fun v t c hv => le_trans (h.vote_term v t c hv) (hle.term c)
      leader := forall_node_set (Q := fun j n' => n'.role = .Leader →
          b.winner ((b.enter i n.state.current_term).term j) = some j)
        ?_ (fun j hj => by rw [enter_term_ne b _ hj]; exact h.leader j)
      election := fun j e he => (h.election j e he).mono hle (h.election j e he).fresh
      request := fun d req hm => ?_
      reply := h.reply }
  · rw [enter_term_self]
    rcases hq.votes with ⟨hstate, -⟩ | ⟨hlt, hnone, -⟩
    · rw [hstate, h.voted_for, h.term]
    · -- no vote has been cast in a term not entered before
      rw [hnone, hb.future i _ (by rw [← h.term i]; exact hlt)]
      rfl
  · rw [enter_term_self]
    intro hl
    rcases hq.votes with ⟨hstate, hrole⟩ | ⟨-, -, hrole⟩
    · rw [hstate, h.term]
      exact h.leader i (hrole hl)
    · exact absurd hl hrole
  · exact ⟨(h.request d req hm).1, le_trans (h.request d req hm).2 (hle.term _)⟩

/-- `voted_for` is no vote, or the vote for `c`: the sentinel is no member's id. -/
theorem VoteRel.vote_free (hsent : -1 ∉ P) (h : VoteRel P s b) {i c : ℤ}
    (hfree : (s.node i).state.voted_for = -1 ∨ (s.node i).state.voted_for = c) :
    b.vote i (b.term i) = none ∨ b.vote i (b.term i) = some c := by
  rw [h.voted_for i] at hfree
  cases hv : b.vote i (b.term i) with
  | none => exact Or.inl rfl
  | some d =>
      have hd : d ∈ P := h.vote_mem _ _ _ hv
      rw [hv] at hfree
      rcases hfree with hno | heq
      · exact absurd (show d = -1 from hno) (fun hd' => hsent (hd' ▸ hd))
      · exact Or.inr (congrArg some heq)

/-- Recording a vote for `c` is the move `cast`. -/
theorem VoteRel.vote (hb : Ballot.Wf (IsMajority P) b) (h : VoteRel P s b) {i c : ℤ} {n : RaftNode}
    (hc : c ∈ P) (hterm : b.term i ≤ b.term c)
    (hfree : b.vote i (b.term i) = none ∨ b.vote i (b.term i) = some c)
    (hid : n.node_id = (s.node i).node_id) (hpeers : n.peers = (s.node i).peers)
    (hrole : n.role = (s.node i).role)
    (hstate : n.state = ⟨(s.node i).state.current_term, c⟩) :
    VoteRel P (s.set i n) (b.cast i c) := by
  have hle : Ballot.Le b (b.cast i c) :=
    Step.le (fun _ _ => majority_inter) hb (.cast b i c hfree)
  -- the new vote is the only one that was not there before
  have hnew : ∀ v t d, (b.cast i c).vote v t = some d →
      b.vote v t = some d ∨ (v = i ∧ t = b.term i ∧ d = c) := by
    intro v t d hv
    by_cases hsame : v = i ∧ t = b.term i
    · obtain ⟨rfl, rfl⟩ := hsame
      rw [cast_vote_self] at hv
      exact Or.inr ⟨rfl, rfl, (Option.some.inj hv).symm⟩
    · rw [cast_vote_ne b c (by tauto)] at hv
      exact Or.inl hv
  refine
    { peers := h.peers
      node_id := forall_node_set (Q := fun j n => n.node_id = j)
        (hid.trans (h.node_id i)) (fun j _ => h.node_id j)
      node_peers := forall_node_set (Q := fun _ n => n.peers = P)
        (hpeers.trans (h.node_peers i)) (fun j _ => h.node_peers j)
      term := forall_node_set (Q := fun j n' => n'.state.current_term = b.term j)
        (by rw [hstate]; exact h.term i) (fun j _ => h.term j)
      voted_for := forall_node_set (Q := fun j n' => n'.state.voted_for
          = vote_code ((b.cast i c).vote j (b.term j)))
        (by rw [hstate, cast_vote_self]; rfl)
        (fun j hj => by rw [cast_vote_ne b c (Or.inl hj)]; exact h.voted_for j)
      vote_mem := fun v t d hv => ?_
      vote_term := fun v t d hv => ?_
      leader := forall_node_set (Q := fun j n' => n'.role = .Leader → b.winner (b.term j) = some j)
        (by rw [hrole]; exact h.leader i) (fun j _ => h.leader j)
      election := fun j e he => (h.election j e he).mono hle (h.election j e he).fresh
      request := h.request
      reply := fun p req resp hm hg => hle.vote _ _ _ (h.reply p req resp hm hg) }
  · rcases hnew v t d hv with hold | ⟨-, -, rfl⟩
    · exact h.vote_mem v t d hold
    · exact hc
  · rcases hnew v t d hv with hold | ⟨rfl, rfl, rfl⟩
    · exact h.vote_term v t d hold
    · exact hterm

theorem VoteRel.set_election (h : VoteRel P s b) {i : ℤ} {oe : Option Election}
    (hoe : ∀ e, oe = some e → ElectionOk P b i e) : VoteRel P (s.set_election i oe) b :=
  { h with
    election := fun j e he => by
      by_cases hj : j = i
      · subst hj
        rw [Cluster.set_election] at he
        exact hoe e (by simpa using he)
      · rw [Cluster.set_election] at he
        exact h.election j e (by simpa [hj] using he) }

theorem VoteRel.send (h : VoteRel P s b) {ms : List Message}
    (hrequest : ∀ d req, Message.request_vote d req ∈ ms →
      req.candidate_id ∈ P ∧ req.term ≤ b.term req.candidate_id)
    (hreply : ∀ p req resp, Message.request_vote_reply p req resp ∈ ms →
      resp.vote_granted = true → b.vote p req.term = some req.candidate_id) :
    VoteRel P (s.send ms) b :=
  { h with
    request := fun d req hm => (List.mem_append.mp hm).elim (hrequest d req) (h.request d req)
    reply := fun p req resp hm =>
      (List.mem_append.mp hm).elim (hreply p req resp) (h.reply p req resp) }

/-- Nobody can have won a term that the would-be winner has not entered. -/
theorem VoteRel.winner_fresh (hb : Ballot.Wf (IsMajority P) b) (h : VoteRel P s b) {i : ℤ} {t : ℕ}
    (ht : b.term i < t) : b.winner t ≠ some i := by
  intro hwon
  obtain ⟨Q, hQ, hvotes⟩ := hb.backed t i hwon
  obtain ⟨v, hv, -⟩ := majority_inter hQ hQ
  have := h.vote_term v t i (hvotes v hv)
  omega

/-- Starting an election is `enter` and then `cast` for oneself. -/
theorem voteRel_start_election (hb : Ballot.Wf (IsMajority P) b) (h : VoteRel P s b) {i : ℤ}
    (hs : step s (.start_election i) = some s') :
    VoteRel P s' ((b.enter i (b.term i + 1)).cast i i) := by
  rw [step] at hs
  split_ifs at hs with hg
  obtain rfl := Option.some.inj hs
  have hi : i ∈ P := h.peers ▸ hg.1
  have hterm := h.term i
  have hid := h.node_id i
  -- the node between the new term and the vote
  let n₁ : RaftNode := { s.node i with
    state := ⟨(s.node i).state.current_term + 1, -1⟩, role := .Candidate, leader_id := -1 }
  have hq : Quiet (s.node i) n₁ :=
    ⟨rfl, rfl, Or.inr ⟨Nat.lt_succ_self _, rfl, by simp [n₁]⟩⟩
  have h₁ := h.quiet hb hq
  have hn₁ : n₁.state.current_term = b.term i + 1 := by
    rw [← hterm]
  rw [hn₁] at h₁
  have hstep₁ : Step (IsMajority P) b (b.enter i (b.term i + 1)) := .enter b i _ (Nat.le_succ _)
  have hwf₁ := hstep₁.wf (fun _ _ => majority_inter) hb
  have hnone : (b.enter i (b.term i + 1)).vote i ((b.enter i (b.term i + 1)).term i) = none := by
    rw [enter_term_self]
    exact hb.future i _ (Nat.lt_succ_self _)
  have h₂ := h₁.vote (i := i) (c := i) (n := start_election (s.node i)) hwf₁ hi (le_refl _)
    (Or.inl hnone) (by rw [set_node_self]; rfl) (by rw [set_node_self]; rfl)
    (by rw [set_node_self]; rfl) (by rw [set_node_self, start_election, hid])
  rw [set_set] at h₂
  have hreq : (election_request (start_election (s.node i))).term = b.term i + 1 := by
    rw [← hterm]
    rfl
  have hown : ((b.enter i (b.term i + 1)).cast i i).vote i (b.term i + 1) = some i := by
    have := cast_vote_self (b.enter i (b.term i + 1)) i i
    rwa [enter_term_self] at this
  have hstubs : ∀ p ∈ (start_election (s.node i)).stubs, p ∈ P ∧ p ≠ i := by
    intro p hp
    rw [RaftNode.stubs, List.mem_dedup, List.mem_filter] at hp
    refine ⟨h.node_peers i ▸ hp.1, ?_⟩
    have hne := of_decide_eq_true hp.2
    rw [← hid]
    exact hne
  refine (h₂.set_election ?_).send ?_ ?_
  · intro e he
    obtain rfl := Option.some.inj he
    refine ⟨hi, hid, ?_, ?_, ?_, ?_, ?_, ?_⟩
    · rw [hreq, cast_term, enter_term_self]
    · rw [hreq, hown]
    · exact List.nodup_dedup _
    · exact hstubs
    · intro p hp
      simp at hp
    · rw [hreq]
      exact h.winner_fresh hb (Nat.lt_succ_self _)
  · intro d req hm
    obtain ⟨p, -, hp⟩ := List.mem_map.mp hm
    obtain ⟨rfl, rfl⟩ := Message.request_vote.inj hp
    have hcand : (election_request (start_election (s.node i))).candidate_id = i := hid
    rw [hcand, hreq, cast_term, enter_term_self]
    exact ⟨hi, le_refl _⟩
  · intro p req resp hm
    obtain ⟨q, -, hq⟩ := List.mem_map.mp hm
    simp at hq

/-- Refusing a vote is `enter`. -/
theorem VoteRel.refuse_vote (hb : Ballot.Wf (IsMajority P) b) (h : VoteRel P s b) (i : ℤ)
    (req : RequestVoteRequest) {resp : RequestVoteResponse} (hno : resp.vote_granted = false) :
    VoteRel P ((s.set i (observe_term (s.node i) req.term)).send [.request_vote_reply i req resp])
      (b.enter i (observe_term (s.node i) req.term).state.current_term) := by
  refine (h.quiet hb (quiet_observe_term (s.node i) req.term)).send
    (fun d q hm => by simp at hm) (fun p q r hm hgr => ?_)
  obtain ⟨-, -, rfl⟩ := Message.request_vote_reply.inj (List.mem_singleton.mp hm)
  rw [hno] at hgr
  simp at hgr

/-- Granting a vote is `enter` and then `cast`, which is free to vote. -/
theorem VoteRel.grant_vote (hsent : -1 ∉ P) (hb : Ballot.Wf (IsMajority P) b)
    (h : VoteRel P s b) {i : ℤ} {req : RequestVoteRequest} (resp : RequestVoteResponse)
    (hm : Message.request_vote i req ∈ s.msgs)
    (hterm : (observe_term (s.node i) req.term).state.current_term = req.term)
    (hfree : (observe_term (s.node i) req.term).state.voted_for = -1 ∨
      (observe_term (s.node i) req.term).state.voted_for = req.candidate_id) :
    ((b.enter i req.term).vote i req.term = none ∨
      (b.enter i req.term).vote i req.term = some req.candidate_id) ∧
    VoteRel P ((s.set i { observe_term (s.node i) req.term with
        state := ⟨(observe_term (s.node i) req.term).state.current_term, req.candidate_id⟩ }).send
          [.request_vote_reply i req resp]) ((b.enter i req.term).cast i req.candidate_id) := by
  have hq := quiet_observe_term (s.node i) req.term
  have hle : b.term i ≤ req.term := by
    rw [← h.term i, ← hterm]
    exact hq.term_le
  have hstep : Step (IsMajority P) b (b.enter i req.term) := .enter b i _ hle
  have h₁ := h.quiet hb hq
  rw [hterm] at h₁
  have hfree' := h₁.vote_free (i := i) (c := req.candidate_id) hsent
    (by rw [set_node_self]; exact hfree)
  rw [enter_term_self] at hfree'
  -- the request on the wire comes from a member that is in that term
  have hreq := h₁.request i req hm
  refine ⟨hfree', ?_⟩
  have h₂ := h₁.vote (i := i) (n := { observe_term (s.node i) req.term with
      state := ⟨(observe_term (s.node i) req.term).state.current_term, req.candidate_id⟩ })
    (hstep.wf (fun _ _ => majority_inter) hb) hreq.1
    (by rw [enter_term_self]; exact hreq.2) (by rw [enter_term_self]; exact hfree')
    (by rw [set_node_self]) (by rw [set_node_self]) (by rw [set_node_self])
    (by rw [set_node_self])
  rw [set_set] at h₂
  refine h₂.send (fun d q hm => by simp at hm) (fun p q r hm _ => ?_)
  obtain ⟨rfl, rfl, -⟩ := Message.request_vote_reply.inj (List.mem_singleton.mp hm)
  have hself := cast_vote_self (b.enter p q.term) p q.candidate_id
  rwa [enter_term_self] at hself

/-- A future that resolves leaves the election in order. -/
theorem ElectionOk.resolve {i p : ℤ} {e : Election} (h : ElectionOk P b i e) (hp : p ∈ e.pending)
    {granted : Bool} (hgranted : granted = true → b.vote p e.req.term = some i) :
    ElectionOk P b i { e with
      pending := e.pending.erase p
      granted := if granted then e.granted ++ [p] else e.granted } := by
  have hsub : List.Sublist (e.granted ++ e.pending.erase p) (e.granted ++ e.pending) :=
    (List.Sublist.refl _).append (List.erase_sublist (a := p) (l := e.pending))
  cases granted with
  | false =>
      exact ⟨h.mem, h.cand, h.term_le, h.own, h.nodup.sublist hsub,
        fun q hq => h.asked q (hsub.subset hq), h.granted, h.fresh⟩
  | true =>
      have hperm :
          List.Perm ((e.granted ++ [p]) ++ e.pending.erase p) (e.granted ++ e.pending) := by
        rw [List.append_assoc]
        exact (List.perm_cons_erase hp).symm.append_left e.granted
      refine ⟨h.mem, h.cand, h.term_le, h.own, hperm.nodup_iff.mpr h.nodup,
        fun q hq => h.asked q (hperm.subset hq), fun q hq => ?_, h.fresh⟩
      rcases List.mem_append.mp hq with hq | hq
      · exact h.granted q hq
      · rw [List.mem_singleton.mp hq]
        exact hgranted rfl

/-- The votes a candidate counted are a majority's. -/
theorem ElectionOk.quorum {i : ℤ} {e : Election} (h : ElectionOk P b i e)
    (hcount : P.length / 2 + 1 ≤ 1 + e.granted.length) :
    ∃ Q, IsMajority P Q ∧ ∀ v ∈ Q, b.vote v e.req.term = some i := by
  have hnd : e.granted.Nodup := (List.nodup_append.mp h.nodup).1
  have hasked : ∀ p ∈ e.granted, p ∈ P ∧ p ≠ i :=
    fun p hp => h.asked p (List.mem_append_left _ hp)
  refine ⟨insert i e.granted.toFinset, majority_insert h.mem (fun p hp => (hasked p hp).1) hnd
    (fun hi => (hasked i hi).2 rfl) hcount, fun v hv => ?_⟩
  rcases Finset.mem_insert.mp hv with rfl | hv
  · exact h.own
  · exact h.granted v (List.mem_toFinset.mp hv)

/-- Becoming leader is the move `win`. -/
theorem VoteRel.win (hb : Ballot.Wf (IsMajority P) b) (h : VoteRel P s b) {i : ℤ} {n : RaftNode}
    (hnone : s.election i = none) {Q : Finset ℤ} (hQ : IsMajority P Q)
    (hvotes : ∀ v ∈ Q, b.vote v (b.term i) = some i)
    (hid : n.node_id = (s.node i).node_id) (hpeers : n.peers = (s.node i).peers)
    (hstate : n.state = (s.node i).state) :
    VoteRel P (s.set i n) (b.win i (b.term i)) := by
  have hle : Ballot.Le b (b.win i (b.term i)) :=
    Step.le (fun _ _ => majority_inter) hb (.win b i _ Q hQ hvotes)
  refine
    { peers := h.peers
      node_id := forall_node_set (Q := fun j n => n.node_id = j)
        (hid.trans (h.node_id i)) (fun j _ => h.node_id j)
      node_peers := forall_node_set (Q := fun _ n => n.peers = P)
        (hpeers.trans (h.node_peers i)) (fun j _ => h.node_peers j)
      term := forall_node_set (Q := fun j n' => n'.state.current_term = b.term j)
        (by rw [hstate]; exact h.term i) (fun j _ => h.term j)
      voted_for := forall_node_set (Q := fun j n' => n'.state.voted_for
          = vote_code (b.vote j (b.term j)))
        (by rw [hstate]; exact h.voted_for i) (fun j _ => h.voted_for j)
      vote_mem := h.vote_mem
      vote_term := h.vote_term
      leader := forall_node_set (Q := fun j n' => n'.role = .Leader →
          (b.win i (b.term i)).winner (b.term j) = some j)
        (fun _ => win_winner_self b i _) (fun j _ hl => hle.winner _ _ (h.leader j hl))
      election := fun j e he => (h.election j e he).mono hle ?_
      request := h.request
      reply := h.reply }
  -- no other running election is for the winner
  have hji : j ≠ i := by
    intro hji
    rw [hji] at he
    exact absurd (he.symm.trans hnone) (by simp)
  by_cases ht : e.req.term = b.term i
  · rw [ht, win_winner_self]
    exact fun hij => hji (Option.some.inj hij).symm
  · rw [win_winner_ne b i ht]
    exact (h.election j e he).fresh

/-- The acts that can cast a vote or win a term. -/
def Act.Electoral : Act → Prop
  | .start_election _ | .deliver_request_vote _ _ | .finish_election _ => True
  | _ => False

/-- Outside the electoral acts, an election in progress at most loses a future, and that
future is counted only if it holds a granted vote. -/
theorem step_election {a : Act} (ha : ¬ a.Electoral) (hs : step s a = some s') {j : ℤ}
    {e' : Election} (he' : s'.election j = some e') :
    s.election j = some e' ∨ ∃ e p granted, s.election j = some e ∧ p ∈ e.pending ∧
      (granted = true → ∃ resp, Message.request_vote_reply p e.req resp ∈ s.msgs ∧
        resp.vote_granted = true) ∧
      e' = { e with
        pending := e.pending.erase p
        granted := if granted then e.granted ++ [p] else e.granted } := by
  have hspec := step_spec hs
  by_cases hj : j = a.actor
  · subst hj
    rw [hspec.election, Function.update_self] at he'
    cases a with
    | start_election i => exact absurd trivial ha
    | deliver_request_vote i req => exact absurd trivial ha
    | finish_election i => exact absurd trivial ha
    | vote_reply i p resp =>
        obtain ⟨e, he, hp, hm⟩ := hspec.enabled
        rw [Act.election, he, Option.bind_some, resolve_election] at he'
        refine Or.inr ⟨e, p, _, he, hp, fun hgr => ?_, (Option.some.inj he').symm⟩
        -- only the branch that keeps the reply's own verdict can grant
        rw [on_vote_reply] at hgr
        split_ifs at hgr
        exact ⟨resp, hm, hgr⟩
    | vote_failed i p =>
        obtain ⟨e, he, hp⟩ := hspec.enabled
        rw [Act.election, he, Option.bind_some, resolve_election] at he'
        exact Or.inr ⟨e, p, false, he, hp, fun hf => absurd hf (by simp),
          (Option.some.inj he').symm⟩
    | restart i => simp [Act.election] at he'
    | _ => exact Or.inl he'
  · rw [hspec.election_ne hj] at he'
    exact Or.inl he'

/-- They start no election. -/
theorem step_election_req {a : Act} (ha : ¬ a.Electoral) (hs : step s a = some s') (j : ℤ)
    (e' : Election) (he' : s'.election j = some e') :
    ∃ e, s.election j = some e ∧ e.req = e'.req := by
  rcases step_election ha hs he' with hsame | ⟨e, p, granted, he, -, -, rfl⟩
  · exact ⟨e', hsame, rfl⟩
  · exact ⟨e, he, rfl⟩

/-- They run a quiet critical section of their actor. -/
theorem quiet_result {a : Act} (ha : ¬ a.Electoral) (s : Cluster) :
    Quiet (s.node a.actor) (a.result s) := by
  cases a with
  | start_election i => exact absurd trivial ha
  | deliver_request_vote i req => exact absurd trivial ha
  | finish_election i => exact absurd trivial ha
  | vote_reply i p resp =>
      rw [Act.result]
      cases s.election i with
      | none => exact Quiet.refl _
      | some e => exact quiet_on_vote_reply _ e.req.term resp
  | propose i command =>
      rw [Act.result]
      cases hout : propose (s.node i) command with
      | none => exact Quiet.refl _
      | some out => exact quiet_propose hout
  | deliver_append_entries i req => exact quiet_handle_append_entries _ req
  | append_reply p req resp => exact quiet_on_append_reply _ p req resp
  | deliver_install_snapshot i req => exact quiet_handle_install_snapshot _ req
  | snapshot_reply p req resp => exact quiet_on_snapshot_reply _ p req resp
  | compact i up_to data => exact quiet_compact _ up_to data
  | restart i => exact quiet_restart _
  | _ => exact Quiet.refl _

/-- They put no vote message on the wire. -/
theorem sent_no_vote {a : Act} (ha : ¬ a.Electoral) {m : Message} (hm : m ∈ a.sent s) :
    (∀ d req, m ≠ .request_vote d req) ∧ ∀ p req resp, m ≠ .request_vote_reply p req resp := by
  cases a with
  | start_election i => exact absurd trivial ha
  | deliver_request_vote i req => exact absurd trivial ha
  | finish_election i => exact absurd trivial ha
  | send_check task =>
      simp only [Act.sent] at hm
      split at hm
      · simp [List.mem_singleton.mp hm]
      · simp at hm
  | send_build task =>
      simp only [Act.sent] at hm
      split at hm
      · simp [List.mem_singleton.mp hm]
      · simp at hm
  | deliver_append_entries i req => simp [List.mem_singleton.mp hm]
  | deliver_install_snapshot i req => simp [List.mem_singleton.mp hm]
  | _ => simp [Act.sent] at hm

/-- Every act but the electoral ones is the move `enter` of its actor. -/
theorem voteRel_enter_act (hb : Ballot.Wf (IsMajority P) b) (h : VoteRel P s b) {a : Act}
    (ha : ¬ a.Electoral) (hs : step s a = some s') :
    b.term a.actor ≤ (s'.node a.actor).state.current_term ∧
      VoteRel P s' (b.enter a.actor (s'.node a.actor).state.current_term) := by
  have hspec := step_spec hs
  have hq := quiet_result ha s
  have h₁ := h.quiet hb hq
  have hold : ∀ m ∈ s'.msgs, m ∈ a.sent s ∨ m ∈ s.msgs := fun m hm =>
    List.mem_append.mp (hspec.msgs ▸ hm)
  rw [hspec.node, set_node_self]
  refine ⟨h.term _ ▸ hq.term_le, h₁.frame hspec.peers hspec.node (fun j e' he' => ?_)
    (fun d req hm => ?_) (fun p req resp hm => ?_)⟩
  · rcases step_election ha hs he' with hsame | ⟨e, p, granted, he, hp, hgranted, rfl⟩
    · exact h₁.election j e' hsame
    · have hok := h₁.election j e he
      refine hok.resolve hp (fun hg => ?_)
      obtain ⟨resp, hm, hyes⟩ := hgranted hg
      rw [← hok.cand]
      exact h₁.reply p e.req resp hm hyes
  · exact (hold _ hm).resolve_left (fun hsent => (sent_no_vote ha hsent).1 d req rfl)
  · exact (hold _ hm).resolve_left (fun hsent => (sent_no_vote ha hsent).2 p req resp rfl)

/-- The last lock scope of an election: nothing, or the candidate wins its term. -/
theorem voteRel_finish_election (hb : Ballot.Wf (IsMajority P) b) (h : VoteRel P s b) {i : ℤ}
    (hs : step s (.finish_election i) = some s') :
    ∃ e n, s.election i = some e ∧ s' = (s.set i n).set_election i none ∧
      ((n = s.node i ∧ VoteRel P s' b) ∨
        (n = (s.node i).elected ∧ e.req.term = b.term i ∧ (s.node i).role = .Candidate ∧
          ∃ Q, IsMajority P Q ∧ (∀ v ∈ Q, b.vote v (b.term i) = some i) ∧
            VoteRel P s' (b.win i (b.term i)))) := by
  rw [step] at hs
  cases he : s.election i with
  | none => simp [he] at hs
  | some e =>
      simp only [he] at hs
      split_ifs at hs with hg
      obtain rfl := Option.some.inj hs
      have hok := h.election i e he
      -- the pending election is dropped whatever the count
      have hdrop : VoteRel P (s.set_election i none) b :=
        h.set_election (fun _ hno => absurd hno (by simp))
      refine ⟨e, _, rfl, rfl, ?_⟩
      rw [finish_election]
      by_cases hwin : (s.node i).role = .Candidate ∧ (s.node i).state.current_term = e.req.term ∧
          1 + e.granted.length ≥ (s.node i).peers.length / 2 + 1
      · right
        rw [if_pos hwin]
        have hterm : e.req.term = b.term i := by
          rw [← hwin.2.1, h.term]
        obtain ⟨Q, hQ, hvotes⟩ := hok.quorum (by rw [← h.node_peers i]; exact hwin.2.2)
        rw [hterm] at hvotes
        exact ⟨rfl, hterm, hwin.1, Q, hQ, hvotes,
          hdrop.win hb (by simp [Cluster.set_election]) hQ hvotes rfl rfl rfl⟩
      · left
        rw [if_neg hwin]
        refine ⟨rfl, hdrop.frame rfl ?_ hdrop.election (fun _ _ hm => hm)
          (fun _ _ _ hm => hm)⟩
        simp [Cluster.set_election, Cluster.set]

/-! ## Whole runs -/

/-- **Every act refines moves of the vote machine.** -/
theorem step_votes (hsent : -1 ∉ P) (hb : Ballot.Wf (IsMajority P) b) (h : VoteRel P s b)
    {a : Act} (hs : step s a = some s') :
    ∃ b', Ballot.Wf (IsMajority P) b' ∧ Ballot.Le b b' ∧ VoteRel P s' b' := by
  have hinter : ∀ A B, IsMajority P A → IsMajority P B → ∃ v, v ∈ A ∧ v ∈ B :=
    fun _ _ => majority_inter
  by_cases ha : a.Electoral
  · cases a with
    | start_election i =>
        -- a candidate enters the next term and votes for itself there
        have hstep : Step (IsMajority P) b (b.enter i (b.term i + 1)) :=
          .enter b i _ (Nat.le_succ _)
        have hwf := hstep.wf hinter hb
        have hcast : Step (IsMajority P) (b.enter i (b.term i + 1))
            ((b.enter i (b.term i + 1)).cast i i) := by
          refine .cast _ i i (Or.inl ?_)
          rw [enter_term_self]
          exact hb.future i _ (Nat.lt_succ_self _)
        exact ⟨_, hcast.wf hinter hwf, (hstep.le hinter hb).trans (hcast.le hinter hwf),
          voteRel_start_election hb h hs⟩
    | deliver_request_vote i req =>
        rw [step] at hs
        split_ifs at hs with hg
        obtain rfl := Option.some.inj hs
        have hterm : b.term i ≤ (observe_term (s.node i) req.term).state.current_term :=
          h.term i ▸ (quiet_observe_term (s.node i) req.term).term_le
        have henter : Step (IsMajority P) b
            (b.enter i (observe_term (s.node i) req.term).state.current_term) := .enter b i _ hterm
        have hwf := henter.wf hinter hb
        -- refused, or granted in the term of the request
        rcases handle_request_vote_cases (s.node i) req with ⟨_, heq, hno⟩ | ⟨ht, hfree, -, heq⟩
        · rw [heq]
          exact ⟨_, hwf, henter.le hinter hb, h.refuse_vote hb i req hno⟩
        · obtain ⟨hfree', hrel⟩ := h.grant_vote hsent hb _ hg.2 ht hfree
          rw [ht] at henter hwf
          have hcast : Step (IsMajority P) (b.enter i req.term)
              ((b.enter i req.term).cast i req.candidate_id) := by
            refine .cast _ i _ ?_
            rw [enter_term_self]
            exact hfree'
          rw [heq]
          exact ⟨_, hcast.wf hinter hwf, (henter.le hinter hb).trans (hcast.le hinter hwf), hrel⟩
    | finish_election i =>
        obtain ⟨-, -, -, -, ⟨-, hrel⟩ | ⟨-, -, -, Q, hQ, hvotes, hrel⟩⟩ :=
          voteRel_finish_election hb h hs
        · exact ⟨b, hb, Ballot.Le.refl b, hrel⟩
        · have hstep : Step (IsMajority P) b (b.win i (b.term i)) := .win b i _ Q hQ hvotes
          exact ⟨_, hstep.wf hinter hb, hstep.le hinter hb, hrel⟩
    | _ => exact absurd ha id
  · obtain ⟨hterm, hrel⟩ := voteRel_enter_act hb h ha hs
    have hstep : Step (IsMajority P) b
        (b.enter a.actor (s'.node a.actor).state.current_term) := .enter b _ _ hterm
    exact ⟨_, hstep.wf hinter hb, hstep.le hinter hb, hrel⟩

/-- A run of any length: votes, winners and terms are never taken back. -/
theorem run_votes (hsent : -1 ∉ P) (hb : Ballot.Wf (IsMajority P) b) (h : VoteRel P s b)
    {acts : List Act} (hs : Trace.run step s acts = some s') :
    ∃ b', Ballot.Wf (IsMajority P) b' ∧ Ballot.Le b b' ∧ VoteRel P s' b' := by
  refine Trace.run_invariant
    (P := fun t => ∃ b', Ballot.Wf (IsMajority P) b' ∧ Ballot.Le b b' ∧ VoteRel P t b')
    (fun t a t' ht hstep => ?_) ⟨b, hb, Ballot.Le.refl b, h⟩ hs
  obtain ⟨b₁, hb₁, hle₁, h₁⟩ := ht
  obtain ⟨b₂, hb₂, hle₂, h₂⟩ := step_votes hsent hb₁ h₁ hstep
  exact ⟨b₂, hb₂, hle₁.trans hle₂, h₂⟩

/-- **Election safety.** In every run of a cluster none of whose node ids is the
sentinel `-1`, a leader of a term and any leader of that term in a later state are the
same node, and no node's term ever decreases. (That the ids are pairwise distinct is not
needed: a duplicate only raises the majority.) -/
theorem election_safety {peers : List ℤ} (hsent : -1 ∉ peers) {acts acts' : List Act}
    {s s' : Cluster} (hs : run peers acts = some s) (hs' : Trace.run step s acts' = some s') :
    (∀ i j, (s.node i).role = .Leader → (s'.node j).role = .Leader →
      (s.node i).state.current_term = (s'.node j).state.current_term → i = j) ∧
    ∀ i, (s.node i).state.current_term ≤ (s'.node i).state.current_term := by
  obtain ⟨b, hb, -, h⟩ := run_votes hsent Ballot.wf_init (voteRel_init peers) hs
  obtain ⟨b', hb', hle, h'⟩ := run_votes hsent hb h hs'
  refine ⟨fun i j hi hj hterm => ?_, fun i => ?_⟩
  · have hwon := hle.winner _ _ (h.leader i hi)
    have hwon' := h'.leader j hj
    rw [h.term, h'.term] at hterm
    rw [hterm, hwon'] at hwon
    exact (Option.some.inj hwon).symm
  · rw [h.term, h'.term]
    exact hle.term i

/-- An election of node `0` among three, with the vote of node `1`. -/
def first_election : List Act :=
  [.start_election 0, .deliver_request_vote 1 ⟨1, 0, 0, 0⟩, .vote_reply 0 1 ⟨1, true⟩,
    .vote_failed 0 2, .finish_election 0]

theorem election_safety_first_election :
    (run [0, 1, 2] first_election).map (fun s => (s.node 0).role) = some .Leader ∧
    ∀ s, run [0, 1, 2] first_election = some s → ∀ j, (s.node j).role = .Leader →
      (s.node 0).state.current_term = (s.node j).state.current_term → 0 = j := by
  have hleader : (run [0, 1, 2] first_election).map (fun s => (s.node 0).role) = some .Leader :=
    rfl
  refine ⟨hleader, fun s hs j hj hterm => ?_⟩
  rw [hs] at hleader
  have hstay : Trace.run step s [] = some s := rfl
  exact (election_safety (by decide) hs hstay).1 0 j (Option.some.inj hleader) hj hterm

end NanoDB.Raft
