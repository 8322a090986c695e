/-
State-machine safety, and the reordering that breaks it.

`truncate_and_append` cuts the follower's log at `prev_log_index` and appends, whatever
was behind. An older `AppendEntries` that arrives after a newer one therefore removes
entries the follower has already acknowledged, and a leader that counted the
acknowledgement has committed an entry the cluster can lose. `late_append` is such a run
of three nodes: two different commands are applied at index `2`.

The rest says that this is the only way. Call a request *stale* for a log when all its
entries are already there and the log goes on behind them. If no accepted request is
stale when it is executed, the abstract `accept` never shortens a log (`NoCut`), the
machine of `Replog` keeps `Safe`, and every index below any commit index is chosen
(`CommitRel`). Applied commands then agree by `chosen_agree`, and leader completeness
is `leader_complete`, read in two states of the run.
-/
import NanoDB.RaftInv

set_option autoImplicit false

namespace NanoDB.Raft

open Ballot Quorum Replog

/-! ## The reordering -/

/-- Every entry of the request is already in the log, which goes on behind them. -/
def stale_append (l : RaftLog) (req : AppendEntriesRequest) : Prop :=
  req.entries ≠ [] ∧ req.prev_log_index + req.entries.length < l.last_index ∧
    ∀ j (h : j < req.entries.length), l.term_at (req.prev_log_index + 1 + j) = req.entries[j].term

instance (l : RaftLog) (req : AppendEntriesRequest) : Decidable (stale_append l req) := by
  unfold stale_append
  infer_instance

/-- The steps of the positive result: no compaction, and no request that passes the term
and consistency checks is stale for the log it is stored in. -/
def Orderly (s : Cluster) : Act → Prop
  | .deliver_append_entries i req =>
      (s.node i).state.current_term ≤ req.term → prev_ok (s.node i).log req = true →
        ¬ stale_append (s.node i).log req
  | a => a.Plain

instance : DecidablePred Act.Plain := fun a => by
  rcases a <;> unfold Act.Plain <;> infer_instance

instance (s : Cluster) (a : Act) : Decidable (Orderly s a) := by
  rcases a <;> unfold Orderly <;> infer_instance

theorem Orderly.plain {s : Cluster} {a : Act} (h : Orderly s a) : a.Plain := by
  cases a with
  | deliver_append_entries i req => trivial
  | _ => exact h

/-- Node `0` leads term `1` and has two `AppendEntries` to node `1` in flight, for one and
for two entries. The longer one arrives first and its acknowledgement commits index `2`;
then the shorter one arrives and takes entry `2` away. Node `1` wins term `2` with the vote
of node `2` and commits another command at index `2`. -/
def late_append : List Act :=
  let rv₀ : RequestVoteRequest := ⟨1, 0, 0, 0⟩
  let ae₁ : AppendEntriesRequest := ⟨1, 0, 0, 0, [⟨1, [97]⟩], 0⟩
  let ae₂ : AppendEntriesRequest := ⟨1, 0, 0, 0, [⟨1, [97]⟩, ⟨1, [98]⟩], 0⟩
  let rv₁ : RequestVoteRequest := ⟨2, 1, 1, 1⟩
  let ae₃ : AppendEntriesRequest := ⟨2, 1, 1, 1, [⟨2, [99]⟩], 0⟩
  [.start_election 0, .deliver_request_vote 1 rv₀, .vote_reply 0 1 ⟨1, true⟩, .vote_failed 0 2,
    .finish_election 0,
    .propose 0 [97], .replicate 0,
    .send_check ⟨0, 1, 1, 1, false⟩, .send_build ⟨0, 1, 1, 1, true⟩,
    .send_check ⟨0, 1, 2, 1, false⟩, .send_build ⟨0, 1, 2, 1, true⟩,
    .propose 0 [98], .replicate 0,
    .send_check ⟨0, 1, 1, 1, false⟩, .send_build ⟨0, 1, 1, 1, true⟩,
    .deliver_append_entries 1 ae₂, .append_reply 1 ae₂ ⟨1, true⟩,
    .deliver_append_entries 2 ae₁, .deliver_append_entries 1 ae₁,
    .start_election 1, .deliver_request_vote 2 rv₁, .vote_reply 1 2 ⟨2, true⟩, .vote_failed 1 0,
    .finish_election 1,
    .propose 1 [99], .replicate 1,
    .send_check ⟨1, 2, 2, 2, false⟩, .send_build ⟨1, 2, 2, 2, true⟩,
    .deliver_append_entries 2 ae₃, .append_reply 2 ae₃ ⟨2, true⟩]

/-- Two commands applied at index `2`, and a leader of term `2` without the entry that the
leader of term `1` had committed. -/
theorem late_append_breaks_safety :
    (run [0, 1, 2] late_append).map
        (fun s => (s.applied, (s.node 0).commit_index, (s.node 0).log.command_at 2,
          (s.node 1).role, (s.node 1).log.command_at 2))
      = some ([(0, 1, [97]), (0, 2, [98]), (1, 1, [97]), (1, 2, [99])], 2, [98], .Leader, [99]) :=
  rfl

variable {s s' : Cluster}

/-! ## Runs without compaction -/

/-- Only `compact` and `InstallSnapshot` put a snapshot into a log. -/
theorem plain_result {a : Act} (ha : a.Plain) (h : (s.node a.actor).log.Plain) :
    (a.result s).log.Plain := by
  -- only an accepted batch and a proposal write the log, and both keep the snapshot fields
  cases a with
  | deliver_request_vote i req =>
      change (handle_request_vote (s.node i) req).1.log.Plain
      rw [(unmoved_request_vote _ _).log]
      exact h
  | vote_reply i p resp =>
      simp only [Act.result]
      cases s.election i with
      | none => exact h
      | some e =>
          change (on_vote_reply (s.node i) e.req.term resp).1.log.Plain
          rw [(unmoved_on_vote_reply _ _ _).log]
          exact h
  | finish_election i =>
      simp only [Act.result]
      cases s.election i with
      | none => exact h
      | some e =>
          simp only [Option.elim_some, finish_election]
          split
          · exact h
          · exact h
  | propose i command =>
      simp only [Act.result, propose]
      split
      · obtain ⟨c, a, cmds, heq⟩ := advance_commit_fst
          { s.node i with log := (s.node i).log.append (s.node i).state.current_term command }
        simp only [Option.elim_some]
        rw [heq]
        exact plain_append h _ _
      · exact h
  | deliver_append_entries i req =>
      simp only [Act.result]
      cases hyes : (handle_append_entries (s.node i) req).2.1.success with
      | false =>
          rw [(tame_refused hyes).log]
          exact h
      | true =>
          rw [(accepted_of_success hyes).log]
          split
          · exact h
          · exact plain_truncate_and_append h _ _
  | append_reply p req resp =>
      simp only [Act.result]
      rcases on_append_reply_cases (s.node req.leader_id) p req resp with
        ⟨-, heq⟩ | heq | ⟨-, -, -, heq⟩ | ⟨-, -, heq⟩
      · rw [heq]
        exact h
      · rw [heq]
        exact h
      · obtain ⟨c, a, cmds, hadv⟩ := advance_commit_fst
          ((s.node req.leader_id).matched p (req.prev_log_index + req.entries.length))
        rw [heq, hadv]
        exact h
      · rw [heq]
        exact h
  | deliver_install_snapshot i req => exact absurd ha id
  | snapshot_reply p req resp => exact absurd ha id
  | compact i up_to data => exact absurd ha id
  | _ => exact h

theorem plain_step {a : Act} (ha : a.Plain) (hs : step s a = some s')
    (h : ∀ i, (s.node i).log.Plain) : ∀ i, (s'.node i).log.Plain :=
  (step_spec hs).forall_node (Q := fun _ n => n.log.Plain) (plain_result ha (h _)) h

/-- Without snapshots, not stale is not shortening. -/
theorem Orderly.inOrder (h : ∀ i, (s.node i).log.Plain) {a : Act} (ha : Orderly s a) :
    InOrder s a := by
  cases a with
  | deliver_append_entries i req =>
      intro hterm hprev hshort
      have hsnap := (h i).1
      obtain ⟨hnil, hend, hterms⟩ := hshort
      refine ha hterm hprev ⟨hnil, ?_, fun j hj => hterms j hj (by omega)⟩
      rw [stored_end, hsnap, Nat.max_eq_left (Nat.zero_le _)] at hend
      exact hend
  | send_build task =>
      intro _ _
      rw [(h task.leader).1]
      exact Nat.zero_le _
  | deliver_install_snapshot i req => exact absurd ha id
  | _ => trivial

/-- An orderly run is in order. -/
theorem along_inOrder {acts : List Act} (h : ∀ i, (s.node i).log.Plain)
    (hok : Trace.Along step Orderly s acts) : Trace.Along step InOrder s acts := by
  induction acts generalizing s with
  | nil => trivial
  | cons a acts ih =>
      exact ⟨hok.1.inOrder h, fun m hm => ih (plain_step hok.1.plain hm h) (hok.2 m hm)⟩

theorem run_plain {ok : Cluster → Act → Prop} (hplain : ∀ t a, ok t a → a.Plain)
    {acts : List Act} (h : ∀ i, (s.node i).log.Plain) (hok : Trace.Along step ok s acts)
    (hs : Trace.run step s acts = some s') : ∀ i, (s'.node i).log.Plain :=
  Trace.run_invariant_along (P := fun t => ∀ i, (t.node i).log.Plain)
    (fun t a _ ht ha hstep => plain_step (hplain t a ha) hstep ht) h hok hs

theorem init_plain (peers : List ℤ) (i : ℤ) : ((Cluster.init peers).node i).log.Plain :=
  ⟨rfl, rfl, rfl⟩

/-! ## Safety -/

/-- **State-machine safety of orderly runs.** In two states of a run, earlier `s` and later
`s'`: commands applied at one index agree, and what a leader has committed is in the log of
every leader of a later term, whichever of the two states comes first. -/
theorem state_machine_safety {peers : List ℤ} (hsent : -1 ∉ peers) {acts acts' : List Act}
    {s s' : Cluster} (hok : Trace.Along step Orderly (Cluster.init peers) (acts ++ acts'))
    (hs : run peers acts = some s) (hs' : Trace.run step s acts' = some s') :
    (∀ i j idx c c', (i, idx, c) ∈ s.applied → (j, idx, c') ∈ s'.applied → c = c') ∧
    ∀ i j idx, (s.node i).role = .Leader → (s'.node j).role = .Leader → 0 < idx →
      ((s.node i).state.current_term < (s'.node j).state.current_term →
        idx ≤ (s.node i).commit_index →
        (s'.node j).log.has_entry_at idx = true ∧
          (s'.node j).log.term_at idx = (s.node i).log.term_at idx ∧
          (s'.node j).log.command_at idx = (s.node i).log.command_at idx) ∧
      ((s'.node j).state.current_term < (s.node i).state.current_term →
        idx ≤ (s'.node j).commit_index →
        (s.node i).log.has_entry_at idx = true ∧
          (s.node i).log.term_at idx = (s'.node j).log.term_at idx ∧
          (s.node i).log.command_at idx = (s'.node j).log.command_at idx) := by
  rw [Trace.along_append hs] at hok
  have hp := run_plain (fun _ _ ha => Orderly.plain ha) (init_plain peers) hok.1 hs
  have hp' := run_plain (fun _ _ ha => Orderly.plain ha) hp hok.2 hs'
  obtain ⟨r, hI, -⟩ := run_inv hsent (inv_init peers) (along_inOrder (init_plain peers) hok.1) hs
  obtain ⟨r', hI', hl⟩ := run_inv hsent hI (along_inOrder hp hok.2) hs'
  have hle := hl.le
  refine ⟨fun i j idx c c' hc hc' => ?_, fun i j idx hi hj hpos => ⟨fun hterm hidx => ?_,
    fun hterm hidx => ?_⟩⟩
  · exact ((hI.commit.applied i idx c hc).mono hI.wf hle).agree hI'.wf hI'.safe
      (hI'.commit.applied j idx c' hc')
  · rw [hI.logs.votes.term, hI'.logs.votes.term] at hterm
    have hcommit := (hI.commit.node i).commit
    have hwon : r'.winner (r'.term j) ≠ none := by
      rw [hI'.logs.votes.leader j hj]
      simp
    have htake := (hcommit.mono hI.wf hle (le_refl _) rfl).take_llog hI'.wf hI'.safe
      (Nat.le_of_lt hterm) hwon
    rw [← (hI'.logs.leader j hj).log] at htake
    exact entry_eq_of_take (hI.logs.shows i) (hI'.logs.shows j) htake hcommit.le_length hidx
      (by rw [(hp i).1]; exact hpos) (by rw [(hp' j).1]; exact hpos)
  · rw [hI.logs.votes.term, hI'.logs.votes.term] at hterm
    have hcommit := (hI'.commit.node j).commit
    have hwon : r.winner (r.term i) ≠ none := by
      rw [hI.logs.votes.leader i hi]
      simp
    have htake := hcommit.take_llog hI'.wf hI'.safe (Nat.le_of_lt hterm)
      (winner_ne_none_mono hle hwon)
    -- what the later term's leader log gained since is of its own term
    obtain ⟨ext, hext, hextterm⟩ := hle.llog _ hwon
    rw [hext] at htake
    have hback := take_eq_of_append_eq htake.symm hcommit.le_length (hI'.wf.log_le j) hextterm
      hterm
    rw [← (hI.logs.leader i hi).log] at hback
    exact entry_eq_of_take (hI'.logs.shows j) (hI.logs.shows i) hback.symm hcommit.le_length hidx
      (by rw [(hp' j).1]; exact hpos) (by rw [(hp i).1]; exact hpos)

/-- The run above without its late message, up to the first commit: index `1` is applied by
the leader. -/
def in_order : List Act :=
  first_election ++
    [.propose 0 [97], .replicate 0, .send_check ⟨0, 1, 1, 1, false⟩,
      .send_build ⟨0, 1, 1, 1, true⟩, .deliver_append_entries 1 ⟨1, 0, 0, 0, [⟨1, [97]⟩], 0⟩,
      .append_reply 1 ⟨1, 0, 0, 0, [⟨1, [97]⟩], 0⟩ ⟨1, true⟩]

/-- And the next round, from which a follower learns of the commit. -/
def next_round : List Act :=
  [.replicate 0, .send_check ⟨0, 1, 1, 2, false⟩, .send_build ⟨0, 1, 1, 2, true⟩,
    .deliver_append_entries 1 ⟨1, 0, 1, 1, [], 1⟩]

theorem state_machine_safety_in_order :
    (run [0, 1, 2] (in_order ++ next_round)).map (·.applied)
      = some [(0, 1, [97]), (1, 1, [97])] ∧
    ∀ s, run [0, 1, 2] (in_order ++ next_round) = some s →
      ∀ i j idx c c', (i, idx, c) ∈ s.applied → (j, idx, c') ∈ s.applied → c = c' := by
  refine ⟨rfl, fun s hs => ?_⟩
  have hstay : Trace.run step s [] = some s := rfl
  exact (state_machine_safety (by decide) (by decide +kernel) hs hstay).1

end NanoDB.Raft
