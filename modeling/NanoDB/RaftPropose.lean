/-
`RaftNode::propose` as its caller sees it: append, wait, answer.

`RaftNode.lean` has the first lock scope. What follows it is a loop that takes the mutex every ten
milliseconds and compares role, term and commit index with what they were; it gives the answer
`true` without looking at the log again. That the entry is still the caller's, and that it is
there to stay, is what the answer promises (`acknowledged_proposal_stays`).

The argument is about one list. A leader's log in its term is the leader log of that term in the
abstract machine, at the proposal and at the answer, and leader logs only grow; so the entry stands
where it was put. The commit index covers it, so its position is chosen, and everything chosen is
in every later leader's log and in every log whose commit index covers it.
-/
import NanoDB.RaftSafety

set_option autoImplicit false

namespace NanoDB.Raft

open Ballot Quorum Replog

/-- One pass of the loop of `propose`: the answer, or `none` to sleep and look again. -/
def propose_poll (n : RaftNode) (my_index my_term : ℕ) : Option Bool :=
  if n.role ≠ .Leader ∨ n.state.current_term ≠ my_term then some false
  else if n.commit_index ≥ my_index then some true
  else none

theorem propose_poll_true {n : RaftNode} {my_index my_term : ℕ}
    (h : propose_poll n my_index my_term = some true) :
    n.role = .Leader ∧ n.state.current_term = my_term ∧ my_index ≤ n.commit_index := by
  unfold propose_poll at h
  split at h
  · simp at h
  · rename_i hlead
    rw [not_or, not_not, not_not] at hlead
    split at h
    · rename_i hcommit
      exact ⟨hlead.1, hlead.2, hcommit⟩
    · cases h

variable {P : List ℤ} {s s' : Cluster} {r r' : Logs}

/-! ## Committed prefixes -/

/-- An entry of a committed prefix is chosen. -/
theorem CommitOk.applied_entry {T c m : ℕ} {L : List PersistedEntry} {e : PersistedEntry}
    (h : CommitOk P r T L c) (hm : m < c) (he : L[m]? = some e) :
    AppliedOk P r (m + 1) e.command := by
  rcases h with rfl | ⟨t, k, ht, -, hch, hck, htake⟩
  · omega
  · refine ⟨t, k, m, e, ht, hch, rfl, by omega, ?_, rfl⟩
    rw [← List.getElem?_take_of_lt hm, ← htake, List.getElem?_take_of_lt hm]
    exact he

/-- Two committed prefixes of one length are the same. -/
theorem CommitOk.agree (hr : Replog.Wf PersistedEntry.term (IsMajority P) r)
    (hsafe : Safe PersistedEntry.term (IsMajority P) r) {T T' c : ℕ} {L L' : List PersistedEntry}
    (h : CommitOk P r T L c) (h' : CommitOk P r T' L' c) : L.take c = L'.take c := by
  rcases h with rfl | ⟨t, k, ht, -, hch, hck, htake⟩
  · simp
  · rcases h' with rfl | ⟨t', k', ht', -, hch', hck', htake'⟩
    · simp
    · rw [htake, htake', chosen_agree (inter P) hr hsafe ht ht' hch hch' hck hck']

/-- An entry of a list that a log shows. -/
theorem Shows.entry {l : RaftLog} {L : List PersistedEntry} (h : Shows l L) {m : ℕ}
    {e : PersistedEntry} (he : L[m]? = some e) (hsnap : l.snapshot_last_index < m + 1) :
    l.has_entry_at (m + 1) = true ∧ l.term_at (m + 1) = e.term ∧
      l.command_at (m + 1) = e.command := by
  have hlt : m < L.length := (List.getElem?_eq_some_iff.mp he).1
  refine ⟨?_, h.term_at (by omega) he, h.command_at (by omega) he⟩
  rw [has_entry_at_iff, h.last_index]
  omega

/-! ## From the proposal to the answer -/

/-- The proposal puts the entry at the end of the term's leader log. -/
theorem proposed (hI : Inv P s r) {i : ℤ} {command : Bytes}
    (hs : step s (.propose i command) = some s')
    (hI' : Inv P s' (shadow s s' r (.propose i command))) :
    ∃ m, (s'.node i).log.last_index = m + 1 ∧
      ((shadow s s' r (.propose i command)).llog (s.node i).state.current_term)[m]?
        = some ⟨(s.node i).state.current_term, command⟩ ∧
      (shadow s s' r (.propose i command)).winner (s.node i).state.current_term ≠ none := by
  obtain ⟨-, hlead⟩ := (step_spec hs).enabled
  have hlog := (hI.logs.leader i hlead).log
  have hterm := hI.logs.votes.term i
  refine ⟨(r.log i).length, ?_, ?_, ?_⟩
  · rw [hI'.logs.last_index, shadow, append_log_self, List.length_append, List.length_singleton]
  · rw [shadow, hterm, append_llog_self, hlog]
    simp
  · have hwon := hI.logs.votes.leader i hlead
    rw [hterm]
    change r.winner (r.term i) ≠ none
    rw [hwon]
    exact Option.some_ne_none i

/-- **An acknowledged proposal stays.** Node `i` runs `propose` in any interleaving of steps that
do no harm, compaction and snapshots included. If a pass of its loop answers `true`, then the node
has applied up to the index it appended at, and there, unless compacted, stands its own command of
its own term. From then on, in every later state: whoever has applied that index has applied this
command, every log whose commit index covers it holds this entry, and so does the log of every
leader of this or a later term. -/
theorem acknowledged_proposal_stays {peers : List ℤ} (hsent : -1 ∉ peers) {i : ℤ}
    {command : Bytes} {acts acts' acts'' : List Act} {s s₁ s₂ s₃ : Cluster}
    (hok : Trace.Along step InOrder (Cluster.init peers)
      (acts ++ .propose i command :: (acts' ++ acts'')))
    (hs : run peers acts = some s) (hs₁ : step s (.propose i command) = some s₁)
    (hs₂ : Trace.run step s₁ acts' = some s₂)
    (hyes : propose_poll (s₂.node i) (s₁.node i).log.last_index (s.node i).state.current_term
      = some true)
    (hs₃ : Trace.run step s₂ acts'' = some s₃) :
    let my_index := (s₁.node i).log.last_index
    let my_term := (s.node i).state.current_term
    let holds := fun l : RaftLog => l.snapshot_last_index < my_index →
      l.has_entry_at my_index = true ∧ l.term_at my_index = my_term ∧
        l.command_at my_index = command
    my_index ≤ (s₂.node i).last_applied ∧ holds (s₂.node i).log ∧
    (∀ j c, (j, my_index, c) ∈ s₃.applied → c = command) ∧
    (∀ j, my_index ≤ (s₃.node j).commit_index → holds (s₃.node j).log) ∧
    ∀ j, (s₃.node j).role = .Leader → my_term ≤ (s₃.node j).state.current_term →
      my_index ≤ (s₃.node j).log.last_index ∧ holds (s₃.node j).log := by
  -- the abstract machine at the four moments
  obtain ⟨hok₀, hprop, hok'⟩ := (Trace.along_append hs).mp hok
  obtain ⟨r, hI, -⟩ := run_inv hsent (inv_init peers) hok₀ hs
  obtain ⟨hI₁, -⟩ := step_inv hsent hI hprop hs₁
  obtain ⟨hok₁, hok₂⟩ := (Trace.along_append hs₂).mp (hok' s₁ hs₁)
  obtain ⟨r₂, hI₂, hl₂⟩ := run_inv hsent hI₁ hok₁ hs₂
  obtain ⟨r₃, hI₃, hl₃⟩ := run_inv hsent hI₂ hok₂ hs₃
  obtain ⟨m, hindex, he, hwon⟩ := proposed hI hs₁ hI₁
  obtain ⟨hlead, hterm, hcommit⟩ := propose_poll_true hyes
  rw [hindex] at hcommit ⊢
  -- the node still leads its term, whose leader log has only grown
  have hentry : (r₂.log i)[m]? = some ⟨(s.node i).state.current_term, command⟩ := by
    rw [(hI₂.logs.leader i hlead).log, ← hI₂.logs.votes.term i, hterm]
    exact getElem_llog_mono hI₁.wf hl₂.le he
  -- and its commit index covers the entry
  have hchosen : CommitOk peers r₃ (r₂.term i) (r₂.log i) (m + 1) :=
    ((hI₂.commit.node i).commit.down hcommit).mono hI₂.wf hl₃.le (le_refl _) rfl
  have hlt : m < (r₂.log i).length := (List.getElem?_eq_some_iff.mp hentry).1
  have hagree : ∀ {L : List PersistedEntry}, (r₂.log i).take (m + 1) = L.take (m + 1) →
      L[m]? = some ⟨(s.node i).state.current_term, command⟩ := by
    intro L hL
    rw [← List.getElem?_take_of_lt (Nat.lt_succ_self m), ← hL,
      List.getElem?_take_of_lt (Nat.lt_succ_self m)]
    exact hentry
  refine ⟨?_, fun hsnap => (hI₂.logs.shows i).entry hentry hsnap, fun j c hc => ?_,
    fun j hj hsnap => ?_, fun j hj hlater => ?_⟩
  · rw [(hI₂.commit.node i).applied]
    exact hcommit
  · exact (hI₃.commit.applied j _ c hc).agree hI₃.wf hI₃.safe
      (hchosen.applied_entry (Nat.lt_succ_self m) hentry)
  · have hboth := hchosen.agree hI₃.wf hI₃.safe ((hI₃.commit.node j).commit.down hj)
    exact (hI₃.logs.shows j).entry (hagree hboth) hsnap
  · have hwon₃ : r₃.winner (r₃.term j) ≠ none := by
      rw [hI₃.logs.votes.leader j hj]
      exact Option.some_ne_none j
    rw [← hterm, hI₂.logs.votes.term i, hI₃.logs.votes.term j] at hlater
    have hboth := hchosen.take_llog hI₃.wf hI₃.safe hlater hwon₃
    rw [← (hI₃.logs.leader j hj).log] at hboth
    have hget := hagree hboth
    refine ⟨?_, fun hsnap => (hI₃.logs.shows j).entry hget hsnap⟩
    rw [hI₃.logs.last_index]
    exact (List.getElem?_eq_some_iff.mp hget).1

/-- Node `1` stores the entry and its reply commits it. -/
def replicated : List Act :=
  let ae : AppendEntriesRequest := ⟨1, 0, 0, 0, [⟨1, [97]⟩], 0⟩
  [.replicate 0, .send_check ⟨0, 1, 1, 1, false⟩, .send_build ⟨0, 1, 1, 1, true⟩,
    .deliver_append_entries 1 ae, .append_reply 1 ae ⟨1, true⟩]

/-- Node `1` becomes leader with the vote of node `2`. -/
def succeeded : List Act :=
  let rv : RequestVoteRequest := ⟨2, 1, 1, 1⟩
  [.start_election 1, .deliver_request_vote 2 rv, .vote_reply 1 2 ⟨2, true⟩, .vote_failed 1 0,
    .finish_election 1]

/-- What the next leader has at index `1`. -/
theorem acknowledged_proposal_stays_succeeded :
    ∃ s s₁ s₂ s₃, run [0, 1, 2] first_election = some s ∧ step s (.propose 0 [97]) = some s₁ ∧
      Trace.run step s₁ replicated = some s₂ ∧ Trace.run step s₂ succeeded = some s₃ ∧
      (s₃.node 1).role = .Leader ∧
      ((s₃.node 1).log.snapshot_last_index < (s₁.node 0).log.last_index →
        (s₃.node 1).log.has_entry_at (s₁.node 0).log.last_index = true ∧
        (s₃.node 1).log.term_at (s₁.node 0).log.last_index = (s.node 0).state.current_term ∧
        (s₃.node 1).log.command_at (s₁.node 0).log.last_index = [97]) := by
  obtain ⟨s₃, hrun, hlead, hterm⟩ : ∃ s₃, run [0, 1, 2]
        (first_election ++ .propose 0 [97] :: (replicated ++ succeeded)) = some s₃ ∧
      (s₃.node 1).role = .Leader ∧ (s₃.node 1).state.current_term = 2 :=
    Trace.exists_run (by decide +kernel)
  rw [run, Trace.run_append, Option.bind_eq_some_iff] at hrun
  obtain ⟨s, hs, hrun⟩ := hrun
  obtain ⟨s₁, hs₁, hrun⟩ := Trace.run_cons_some hrun
  rw [Trace.run_append, Option.bind_eq_some_iff] at hrun
  obtain ⟨s₂, hs₂, hs₃⟩ := hrun
  have hstate : (s.node 0).state.current_term = 1 := by
    have heval : (run [0, 1, 2] first_election).map
        (fun s => (s.node 0).state.current_term) = some 1 := rfl
    rw [run, hs] at heval
    exact Option.some.inj heval
  have hpoll : propose_poll (s₂.node 0) (s₁.node 0).log.last_index
      (s.node 0).state.current_term = some true := by
    have heval : ((run [0, 1, 2] first_election).bind (fun s =>
        (step s (.propose 0 [97])).bind (fun s₁ => (Trace.run step s₁ replicated).map (fun s₂ =>
          propose_poll (s₂.node 0) (s₁.node 0).log.last_index (s.node 0).state.current_term))))
        = some (some true) := by
      decide +kernel
    rw [run, hs, Option.bind_some, hs₁, Option.bind_some, hs₂] at heval
    exact Option.some.inj heval
  have hstays := acknowledged_proposal_stays (by decide) (by decide +kernel) hs hs₁ hs₂ hpoll hs₃
  exact ⟨s, s₁, s₂, s₃, hs, hs₁, hs₂, hs₃, hlead,
    (hstays.2.2.2.2 1 hlead (by rw [hstate, hterm]; decide)).2⟩

end NanoDB.Raft
