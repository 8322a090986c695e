/-
What a leader puts on the wire while its log is compacted.

`send_append_entries_to_peer` looks at the snapshot in one lock scope and reads the entries
in the next. In between every other critical section of the node may run. Nearly all of them
are harmless: as long as the node leads the term its log only grows at the end and by
compaction (`Goes` lists what a critical section can do to a node), and the request is built
only if it still leads. A compaction is harmful when it passes `prev_log_index`: the accessors
answer for a compacted index with the snapshot's term and the empty command, and
`compacted_entry_sent` is a run in which that answer is sent, stored and applied.

# The one awkward thing, named up front

Nothing is asked of the leader's commit index or of `last_applied`, although `compact` goes by
the latter. A compaction past the end of the log would ruin it, but it would also pass
`prev_log_index`, and a snapshot never shrinks; so the condition at the end of the interval
is enough.
-/
import NanoDB.RaftSafety

set_option autoImplicit false

namespace NanoDB.Raft

/-! ## The race -/

/-- Node `0` has committed one entry with node `1` and is sending it to node `2`. It finds no
snapshot in its way, compacts, and then builds the request. -/
def compacted_between : List Act :=
  in_order ++
    [.send_check ⟨0, 1, 2, 1, false⟩, .compact 0 1 [7], .send_build ⟨0, 1, 2, 1, true⟩]

/-- The entry at index `1` is `[97]`; what is sent for it is the empty command, and node `2`
applies that. -/
theorem compacted_entry_sent :
    (run [0, 1, 2] compacted_between).map (fun s => s.msgs.head?)
      = some (some (.append_entries 2 ⟨1, 0, 0, 0, [⟨1, []⟩], 1⟩)) ∧
    (run [0, 1, 2] (compacted_between ++
        [.deliver_append_entries 2 ⟨1, 0, 0, 0, [⟨1, []⟩], 1⟩])).map (·.applied)
      = some [(0, 1, [97]), (2, 1, [])] :=
  ⟨rfl, rfl⟩

/-! ## What a critical section does to a node -/

/-- Between `n` and `n'` the term has moved on, or the node follows, or it has won, or it has
kept its role and its log, appended to it or compacted it. -/
inductive Goes (n n' : RaftNode) : Prop
  | later (h : n.state.current_term < n'.state.current_term)
  | follows (hterm : n'.state.current_term = n.state.current_term) (hrole : n'.role = .Follower)
  | wins (hterm : n'.state.current_term = n.state.current_term) (hrole : n.role = .Candidate)
  | stays (hterm : n'.state.current_term = n.state.current_term) (hrole : n'.role = n.role)
      (hlog : n'.log = n.log)
  | appends (hterm : n'.state.current_term = n.state.current_term) (hrole : n'.role = n.role)
      (command : Bytes) (hlog : n'.log = n.log.append n.state.current_term command)
  | compacts (hterm : n'.state.current_term = n.state.current_term) (hrole : n'.role = n.role)
      (up_to : ℕ) (data : Bytes) (hsnap : n.log.snapshot_last_index < up_to)
      (hlog : n'.log = n.log.compact up_to (n.log.term_at up_to) data)

theorem Goes.refl (n : RaftNode) : Goes n n := .stays rfl rfl rfl

/-- A node that ends up a follower in a term no earlier than its own. -/
theorem goes_follower {n n' : RaftNode} (hterm : n.state.current_term ≤ n'.state.current_term)
    (hrole : n'.role = .Follower) : Goes n n' := by
  rcases Nat.eq_or_lt_of_le hterm with heq | hlt
  · exact .follows heq.symm hrole
  · exact .later hlt

theorem goes_observe_term (n : RaftNode) (t : ℕ) : Goes n (observe_term n t) := by
  rw [observe_term]
  split
  · exact .later ‹_›
  · exact Goes.refl n

theorem goes_request_vote (n : RaftNode) (req : RequestVoteRequest) :
    Goes n (handle_request_vote n req).1 := by
  rcases handle_request_vote_cases n req with ⟨_, heq, -⟩ | ⟨-, -, -, heq⟩
  · rw [heq]
    exact goes_observe_term n req.term
  · rw [heq, observe_term]
    split
    · exact .later ‹_›
    · exact .stays rfl rfl rfl

theorem goes_append_entries (n : RaftNode) (req : AppendEntriesRequest) :
    Goes n (handle_append_entries n req).1 := by
  cases hyes : (handle_append_entries n req).2.1.success with
  | true =>
      have hacc := accepted_of_success hyes
      exact goes_follower (by rw [hacc.term]; exact hacc.term_le) hacc.role
  | false =>
      rcases handle_append_entries_cases n req with ⟨_, heq, -⟩ | ⟨-, _, heq, -⟩ | ⟨-, -, heq⟩
      · rw [heq]
        exact goes_observe_term n req.term
      · rw [heq]
        refine goes_follower ?_ rfl
        change _ ≤ (observe_term n req.term).state.current_term
        rw [observe_term_term]
        exact le_max_left _ _
      · rw [heq] at hyes
        simp at hyes

theorem goes_install_snapshot (n : RaftNode) (req : InstallSnapshotRequest) :
    Goes n (handle_install_snapshot n req).1 := by
  rcases installed_or_refused n req with ⟨-, hsame, -⟩ | ⟨hle, hinst⟩
  · rw [hsame]
    exact Goes.refl n
  · exact goes_follower (by rw [hinst.term]; exact hle) hinst.role

theorem goes_vote_reply (n : RaftNode) (t : ℕ) (resp : RequestVoteResponse) :
    Goes n (on_vote_reply n t resp).1 := by
  rw [on_vote_reply]
  split
  · exact goes_observe_term n resp.term
  · exact Goes.refl n

theorem goes_finish_election (n : RaftNode) (t votes : ℕ) : Goes n (finish_election n t votes) := by
  rw [finish_election]
  split
  · rename_i hwon
    exact .wins rfl hwon.1
  · exact Goes.refl n

theorem goes_propose (n : RaftNode) (command : Bytes) :
    Goes n ((propose n command).elim n Prod.fst) := by
  rw [propose]
  split
  · obtain ⟨c, a, cmds, heq⟩ := advance_commit_fst
      { n with log := n.log.append n.state.current_term command }
    simp only [Option.elim_some]
    rw [heq]
    exact .appends rfl rfl command rfl
  · exact Goes.refl n

theorem goes_append_reply (n : RaftNode) (p : ℤ) (req : AppendEntriesRequest)
    (resp : AppendEntriesResponse) : Goes n (on_append_reply n p req resp).1 := by
  rcases on_append_reply_cases n p req resp with
    ⟨hlt, heq⟩ | heq | ⟨-, -, -, heq⟩ | ⟨-, -, heq⟩
  · rw [heq]
    exact .later hlt
  · rw [heq]
    exact Goes.refl n
  · obtain ⟨c, a, cmds, hadv⟩ := advance_commit_fst
      (n.matched p (req.prev_log_index + req.entries.length))
    rw [heq, hadv]
    exact .stays rfl rfl rfl
  · rw [heq]
    exact .stays rfl rfl rfl

theorem goes_snapshot_reply (n : RaftNode) (p : ℤ) (req : InstallSnapshotRequest)
    (resp : InstallSnapshotResponse) : Goes n (on_snapshot_reply n p req resp) := by
  rcases on_snapshot_reply_cases n p req resp with ⟨hlt, heq⟩ | heq | ⟨-, -, -, heq⟩
  · rw [heq]
    exact .later hlt
  · rw [heq]
    exact Goes.refl n
  · rw [heq]
    exact .stays rfl rfl rfl

theorem goes_compact (n : RaftNode) (up_to : ℕ) (data : Bytes) :
    Goes n (compact n up_to data).1 := by
  rcases compact_cases n up_to data with heq | ⟨hsnap, -, -, heq⟩
  · rw [heq]
    exact Goes.refl n
  · rw [heq]
    exact .compacts rfl rfl up_to data hsnap rfl

variable {s s' : Cluster}

theorem goes_result (s : Cluster) (a : Act) : Goes (s.node a.actor) (a.result s) := by
  cases a with
  | start_election i => exact .later (Nat.lt_succ_self _)
  | deliver_request_vote i req => exact goes_request_vote _ _
  | vote_reply i p resp =>
      simp only [Act.result]
      cases s.election i with
      | none => exact Goes.refl _
      | some e => exact goes_vote_reply _ _ _
  | finish_election i =>
      simp only [Act.result]
      cases s.election i with
      | none => exact Goes.refl _
      | some e => exact goes_finish_election _ _ _
  | propose i command => exact goes_propose _ _
  | deliver_append_entries i req => exact goes_append_entries _ _
  | append_reply p req resp => exact goes_append_reply _ _ _ _
  | deliver_install_snapshot i req => exact goes_install_snapshot _ _
  | snapshot_reply p req resp => exact goes_snapshot_reply _ _ _ _
  | compact i up_to data => exact goes_compact _ _ _
  | restart i => exact .follows rfl rfl
  | _ => exact Goes.refl _

/-- **One critical section of the cluster**, seen from any node. -/
theorem step_goes {a : Act} (hs : step s a = some s') : ∀ j, Goes (s.node j) (s'.node j) :=
  (step_spec hs).forall_node (Q := fun j n => Goes (s.node j) n) (goes_result s a)
    (fun _ => Goes.refl _)

/-! ## A leader's log over an interval -/

/-- A node that led term `t` with the log `L`, some time later: the term is over for it, or it
follows in it, or it still leads and has compacted past `prev` or shows `L` with what it has
appended since. -/
def Held (t prev : ℕ) (L : List PersistedEntry) (n : RaftNode) : Prop :=
  t < n.state.current_term ∨
  (n.state.current_term = t ∧ n.role = .Follower) ∨
  (n.state.current_term = t ∧ n.role = .Leader ∧
    (prev < n.log.snapshot_last_index ∨
      ∃ new, (∀ e ∈ new, e.term = t) ∧ Shows n.log (L ++ new)))

theorem Held.goes {t prev : ℕ} {L : List PersistedEntry} (hprev : prev ≤ L.length)
    {n n' : RaftNode} (h : Held t prev L n) (hgo : Goes n n') : Held t prev L n' := by
  -- once the term has gone up it stays so; while the leader leads, its log only grows
  rcases h with hgone | ⟨rfl, hfollower⟩ | ⟨rfl, hleader, hlog⟩
  · refine Or.inl (lt_of_lt_of_le hgone ?_)
    cases hgo with
    | later hlt => exact Nat.le_of_lt hlt
    | _ => exact le_of_eq (by assumption : n'.state.current_term = n.state.current_term).symm
  · -- a follower leaves its role only with its term
    cases hgo with
    | later hlt => exact Or.inl hlt
    | follows hterm hrole => exact Or.inr (Or.inl ⟨hterm, hrole⟩)
    | wins hterm hrole => exact absurd (hfollower.symm.trans hrole) (by simp)
    | stays hterm hrole _ => exact Or.inr (Or.inl ⟨hterm, hrole.trans hfollower⟩)
    | appends hterm hrole _ _ => exact Or.inr (Or.inl ⟨hterm, hrole.trans hfollower⟩)
    | compacts hterm hrole _ _ _ _ => exact Or.inr (Or.inl ⟨hterm, hrole.trans hfollower⟩)
  · cases hgo with
    | later hlt => exact Or.inl hlt
    | follows hterm hrole => exact Or.inr (Or.inl ⟨hterm, hrole⟩)
    | wins hterm hrole => exact absurd (hleader.symm.trans hrole) (by simp)
    | stays hterm hrole hsame =>
        refine Or.inr (Or.inr ⟨hterm, hrole.trans hleader, ?_⟩)
        rw [hsame]
        exact hlog
    | appends hterm hrole command happ =>
        refine Or.inr (Or.inr ⟨hterm, hrole.trans hleader, ?_⟩)
        rw [happ]
        rcases hlog with hpast | ⟨new, hnew, hshows⟩
        · exact Or.inl hpast
        · refine Or.inr ⟨new ++ [⟨n.state.current_term, command⟩], fun e he => ?_, ?_⟩
          · rcases List.mem_append.mp he with he | he
            · exact hnew e he
            · rw [List.mem_singleton.mp he]
          · rw [← List.append_assoc]
            exact hshows.append _ _
    | compacts hterm hrole up_to data hsnap hcompact =>
        refine Or.inr (Or.inr ⟨hterm, hrole.trans hleader, ?_⟩)
        have hnewsnap : n'.log.snapshot_last_index = up_to := by
          rw [hcompact, RaftLog.compact, if_neg (by omega)]
        -- compacted past `prev`, or below it with the entries still there
        rcases Nat.lt_or_ge prev up_to with hlt | hge
        · exact Or.inl (by rw [hnewsnap]; exact hlt)
        · rcases hlog with hpast | ⟨new, hnew, hshows⟩
          · omega
          · refine Or.inr ⟨new, hnew, ?_⟩
            rw [hcompact]
            refine hshows.compact data ?_
            rw [List.length_append]
            omega

theorem run_held {t prev : ℕ} {L : List PersistedEntry} (hprev : prev ≤ L.length) {i : ℤ}
    (h : Held t prev L (s.node i)) {acts : List Act} (hs : Trace.run step s acts = some s') :
    Held t prev L (s'.node i) :=
  Trace.run_invariant (P := fun u => Held t prev L (u.node i))
    (fun _ _ _ hu hstep => hu.goes hprev (step_goes hstep i)) h hs

/-! ## The request -/

/-- Behind a compaction the first entry that is read is the empty command. -/
theorem entries_from_compacted {l : RaftLog} {prev : ℕ} (h : prev < l.snapshot_last_index) :
    ∃ term rest, entries_from l (prev + 1) = ⟨term, []⟩ :: rest := by
  obtain ⟨n, hn⟩ : ∃ n, l.last_index + 1 - (prev + 1) = n + 1 := by
    refine ⟨l.last_index - prev - 1, ?_⟩
    rw [RaftLog.last_index]
    omega
  rw [entries_from, hn, List.range'_succ, List.map_cons, RaftLog.command_at,
    if_pos (Or.inr (Or.inl (Nat.succ_le_of_lt h)))]
  exact ⟨_, _, rfl⟩

/-- **Requests are faithful unless a compaction passes them.** A node leads term `t`, its log
stands for `L`, and a call for `next_idx = prev + 1` is in its first lock scope; then come any
critical sections of any nodes, and the second lock scope builds a request. If no compaction has
passed `prev` by then, the request carries the term of the entry at `prev` and all entries behind
it, of `L` and of what the leader has appended to it in this term. If one has, the first entry of
the request is the empty command. -/
theorem request_faithful {i : ℤ} {t prev : ℕ} {L : List PersistedEntry}
    (hrole : (s.node i).role = .Leader) (hterm : (s.node i).state.current_term = t)
    (hshows : Shows (s.node i).log L) (hprev : prev ≤ L.length) {acts : List Act}
    (hs : Trace.run step s acts = some s') {req : AppendEntriesRequest}
    (hbuild : build_append_entries (s'.node i) t (prev + 1) = some req) :
    ((s'.node i).log.snapshot_last_index ≤ prev →
      ∃ new, (∀ e ∈ new, e.term = t) ∧ Shows (s'.node i).log (L ++ new) ∧
        req.prev_log_index = prev ∧
        (∀ k e, prev = k + 1 → (L ++ new)[k]? = some e → req.prev_log_term = e.term) ∧
        req.entries = (L ++ new).drop prev) ∧
    (prev < (s'.node i).log.snapshot_last_index →
      ∃ term rest, req.entries = ⟨term, []⟩ :: rest) := by
  have hheld : Held t prev L (s.node i) :=
    Or.inr (Or.inr ⟨hterm, hrole, Or.inr ⟨[], by simp, by rw [List.append_nil]; exact hshows⟩⟩)
  rw [build_append_entries] at hbuild
  split_ifs at hbuild with hleads
  rw [not_or, not_not, not_not] at hleads
  obtain rfl := Option.some.inj hbuild
  refine ⟨fun hsnap => ?_, entries_from_compacted⟩
  rcases run_held hprev hheld hs with hgone | ⟨-, hfollower⟩ | ⟨-, -, hpast | ⟨new, hnew, hlog⟩⟩
  · omega
  · exact absurd (hleads.1.symm.trans hfollower) (by simp)
  · omega
  · refine ⟨new, hnew, hlog, rfl, fun k e hk he => ?_, hlog.entries_from hsnap⟩
    subst hk
    exact hlog.term_at hsnap he

/-- Two entries committed; the leader appends a third and compacts the first, then builds a
request for the entries behind index `1`. -/
theorem request_faithful_compacted_prev : ∃ s s' req, run [0, 1, 2]
      (in_order ++ [.propose 0 [98]]) = some s ∧
    Trace.run step s [.propose 0 [99], .compact 0 1 [7]] = some s' ∧
    build_append_entries (s'.node 0) 1 2 = some req ∧
    (s'.node 0).log.snapshot_last_index = 1 ∧ req.prev_log_term = 1 := by
  have hview : (run [0, 1, 2] (in_order ++ [.propose 0 [98]])).map (fun s => ((s.node 0).log,
      (s.node 0).role, (s.node 0).state.current_term))
      = some ({ entries := [⟨1, [97]⟩, ⟨1, [98]⟩] }, .Leader, 1) := rfl
  have hview' : (run [0, 1, 2] ((in_order ++ [.propose 0 [98]]) ++
      [.propose 0 [99], .compact 0 1 [7]])).map
      (fun s => ((s.node 0).log.snapshot_last_index,
        (build_append_entries (s.node 0) 1 2).isSome)) = some (1, true) := rfl
  obtain ⟨s, hs, hs₀⟩ := Option.map_eq_some_iff.mp hview
  have hrun : Trace.run step (Cluster.init [0, 1, 2]) (in_order ++ [.propose 0 [98]]) = some s :=
    hs
  unfold run at hview'
  rw [Trace.run_append, hrun, Option.bind_some] at hview'
  obtain ⟨s', hs', hs₁⟩ := Option.map_eq_some_iff.mp hview'
  simp only [Prod.mk.injEq] at hs₀ hs₁
  obtain ⟨hlog, hrole, hterm⟩ := hs₀
  obtain ⟨req, hreq⟩ := Option.isSome_iff_exists.mp hs₁.2
  have hshows : Shows (s.node 0).log [⟨1, [97]⟩, ⟨1, [98]⟩] := by
    rw [hlog]
    exact ⟨by decide, rfl, rfl⟩
  have hone : 1 ≤ ([⟨1, [97]⟩, ⟨1, [98]⟩] : List PersistedEntry).length := by decide
  obtain ⟨new, -, -, -, hprev, -⟩ := (request_faithful hrole hterm hshows hone hs' hreq).1
    (by rw [hs₁.1])
  exact ⟨s, s', req, hs, hs', hreq, hs₁.1, hprev 0 ⟨1, [97]⟩ rfl rfl⟩

end NanoDB.Raft
