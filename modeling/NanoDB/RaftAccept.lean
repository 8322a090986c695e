/-
The follower's side refines the replicated-log machine, and with it every act.

An accepted `AppendEntries` makes the follower's log a prefix of the leader log, up to the end
of the request or of the follower's snapshot, whichever is later. An accepted
`InstallSnapshot` makes it a prefix too if the snapshot reaches past the log, and changes
nothing otherwise. A compaction never changes anything. Each of them rests on what the
follower does not check being right, which is what `Allowed` says.
-/
import NanoDB.RaftRefines

set_option autoImplicit false

namespace NanoDB.Raft

open Ballot Quorum Replog

variable {P : List ℤ} {s s' : Cluster} {r r' : Logs}
variable {guard : List PersistedEntry → List PersistedEntry → Prop}

/-! ## Accepting entries -/

/-- **The consistency check works**: a follower that passes it has the leader's log up to
`prev_log_index`. -/
theorem take_prev_eq (hr : Replog.Wf PersistedEntry.term (IsMajority P) r) (h : LogRel P s r)
    {i : ℤ} {req : AppendEntriesRequest} (hok : AppendOk r req) (hcov : Covered s r i req.term)
    (hprev : prev_ok (s.node i).log req = true) :
    (r.log i).take req.prev_log_index = (r.llog req.term).take req.prev_log_index := by
  rw [prev_ok] at hprev
  split_ifs at hprev with hreal
  · obtain ⟨k, hk⟩ : ∃ k, req.prev_log_index = k + 1 := ⟨req.prev_log_index - 1, by omega⟩
    rw [hk] at hprev hreal ⊢
    rw [Bool.and_eq_true, decide_eq_true_iff, has_real_entry_at_iff, h.last_index i] at hprev
    obtain ⟨e, he, het⟩ := hok.prev k hk
    have hget : (r.log i)[k]? = some (r.log i)[k] := List.getElem?_eq_getElem hprev.1.2
    have hterm := (h.shows i).term_at (by omega) hget
    exact Sourced.matching (hr.log_sourced i) (hr.llog_sourced _) hget he
      (hterm.symm.trans (hprev.2.trans het.symm))
  · -- covered by the snapshot: nothing was checked
    exact take_eq_of_le hcov (by omega)

/-- What an accepted request does to the log: the leader log up to the request's end, or to
that of the snapshot. -/
theorem shows_stored (hr : Replog.Wf PersistedEntry.term (IsMajority P) r) (h : LogRel P s r)
    {i : ℤ} {req : AppendEntriesRequest} (hok : AppendOk r req) (hcov : Covered s r i req.term)
    (hprev : prev_ok (s.node i).log req = true) :
    Shows ((s.node i).log.truncate_and_append req.prev_log_index req.entries)
      ((r.llog req.term).take (stored_end (s.node i).log req)) :=
  (h.shows i).truncate_and_append (take_prev_eq hr h hok hcov hprev) hcov hok.len hok.entries

theorem covered_le (h : LogRel P s r) {i : ℤ} {t : ℕ} (hcov : Covered s r i t) :
    (s.node i).log.snapshot_last_index ≤ (r.llog t).length := by
  have hlen := congrArg List.length hcov
  have hsnap := (h.shows i).covered
  rw [List.length_take, List.length_take] at hlen
  omega

/-- A refused request at most makes a follower of its receiver. -/
theorem tame_refused {n : RaftNode} {req : AppendEntriesRequest}
    (hno : (handle_append_entries n req).2.1.success = false) :
    Tame n (handle_append_entries n req).1 := by
  have htame := tame_observe_term n req.term
  rcases handle_append_entries_cases n req with ⟨_, heq, -⟩ | ⟨-, _, heq, -⟩ | ⟨-, -, heq⟩
  · rw [heq]
    exact htame
  · rw [heq]
    exact ⟨htame.log, htame.peers, htame.node_id, Or.inl rfl⟩
  · rw [heq] at hno
    simp at hno

/-- What an accepted request leaves behind, apart from the commit index. -/
structure Accepted (n n' : RaftNode) (req : AppendEntriesRequest) : Prop where
  role : n'.role = .Follower
  term : n'.state.current_term = req.term
  term_le : n.state.current_term ≤ req.term
  prev : prev_ok n.log req = true
  log : n'.log = if req.entries = [] then n.log
    else n.log.truncate_and_append req.prev_log_index req.entries

theorem accepted_of_success {n : RaftNode} {req : AppendEntriesRequest}
    (hyes : (handle_append_entries n req).2.1.success = true) :
    Accepted n (handle_append_entries n req).1 req := by
  rcases handle_append_entries_cases n req with ⟨_, heq, hno⟩ | ⟨-, _, heq, hno⟩ | ⟨ht, hp, heq⟩
  · rw [heq, hno] at hyes
    simp at hyes
  · rw [heq, hno] at hyes
    simp at hyes
  · obtain ⟨a, cmds, hcommit, -, -⟩ := follow_commit_spec (store_entries
      { observe_term n req.term with role := .Follower, leader_id := req.leader_id } req)
      req.leader_commit
    rw [heq]
    dsimp only
    rw [hcommit]
    have hlog := observe_term_log n req.term
    have hle : n.state.current_term ≤ req.term := by
      rw [observe_term_term] at ht
      omega
    by_cases hnil : req.entries = []
    · refine ⟨?_, ?_, hle, hp, ?_⟩ <;> simp [store_entries, hnil, ht, hlog]
    · refine ⟨?_, ?_, hle, hp, ?_⟩ <;> simp [store_entries, hnil, ht, hlog]

theorem elsewhere_ack (r : Logs) (i : ℤ) (t m : ℕ) : Elsewhere r ((r.enter i t).ack i m) i where
  log _ _ := rfl
  acked j hj := by simp [State.ack, State.enter, hj]
  llog _ _ _ := rfl
  cand _ _ _ hL := hL
  cand_pos _ hc := hc

theorem elsewhere_accept (r : Logs) (i : ℤ) (t m : ℕ) :
    Elsewhere r ((r.enter i t).accept i m) i where
  log j hj := by simp [State.accept, State.enter, hj]
  acked j hj := by simp [State.accept, State.ack, State.enter, hj]
  llog _ _ _ := rfl
  cand _ _ _ hL := hL
  cand_pos _ hc := hc

/-- The moves of an accepted request: `enter`, then `ack` for a heartbeat and `accept`
otherwise, the latter under the guard. -/
theorem accepted_steps (hr : Replog.Wf PersistedEntry.term (IsMajority P) r) (h : LogRel P s r)
    {i : ℤ} {req : AppendEntriesRequest} (hok : AppendOk r req) (hterm : r.term i ≤ req.term)
    (hcov : Covered s r i req.term) (hprev : prev_ok (s.node i).log req = true)
    (hguard : req.entries ≠ [] →
      guard (r.log i) ((r.llog req.term).take (stored_end (s.node i).log req))) :
    Relation.ReflTransGen (Replog.Step PersistedEntry.term (IsMajority P) guard) r
      (if req.entries = [] then (r.enter i req.term).ack i req.prev_log_index
        else (r.enter i req.term).accept i (stored_end (s.node i).log req)) := by
  have henter : Replog.Step PersistedEntry.term (IsMajority P) guard r (r.enter i req.term) :=
    .enter r i _ hterm
  have hself : (r.enter i req.term).term i = req.term := enter_term_self _ _ _
  have hlen := hok.len
  refine (Relation.ReflTransGen.single henter).tail ?_
  by_cases hnil : req.entries = []
  · rw [if_pos hnil]
    refine .ack _ i _ (hself.symm ▸ hok.won) (hself.symm ▸ ?_) (hself.symm ▸ ?_)
    · change req.prev_log_index ≤ (r.llog req.term).length
      omega
    · change (r.llog req.term).take req.prev_log_index <+: r.log i
      rw [← take_prev_eq hr h hok hcov hprev]
      exact List.take_prefix _ _
  · rw [if_neg hnil]
    refine .accept _ i _ (hself.symm ▸ hok.won) (hself.symm ▸ ?_) (hself.symm ▸ hguard hnil)
    exact max_le hlen (covered_le h hcov)

/-- An act after which its actor follows the leader of term `t`. -/
theorem refines_follows (hr : Replog.Wf PersistedEntry.term (IsMajority P) r) (h : LogRel P s r)
    {a : Act} (ha : ¬ a.Electoral) (hs : step s a = some s') {t : ℕ}
    (hsh : shadow s s' r a = r') (hvotes : r'.toVotes = r.toVotes.enter a.actor t)
    (hsteps : Relation.ReflTransGen (Replog.Step PersistedEntry.term (IsMajority P) guard) r r')
    (hels : Elsewhere r r' a.actor) (hterm : (a.result s).state.current_term = t)
    (hrole : (a.result s).role = .Follower) (hshows : Shows (a.result s).log (r'.log a.actor))
    (hwire : Wire s' r' s) : Refines P guard s s' r a := by
  have hspec := step_spec hs
  have hrel := (voteRel_enter_act hr.votes h.votes ha hs).2
  rw [hspec.node, set_node_self, hterm, ← hvotes] at hrel
  rw [Refines, hsh]
  refine ⟨hsteps, h.act hr (steps_wf (inter P) hsteps hr).2 hels hrel hspec.node hshows
    (fun hl => ?_) (fun e he hc => ?_) (fun j _ => step_election_req ha hs j) hwire⟩
  · rw [hrole] at hl
    simp at hl
  · rw [hrole] at hc
    simp at hc

theorem refines_append_entries (hr : Replog.Wf PersistedEntry.term (IsMajority P) r)
    (h : LogRel P s r) {i : ℤ} {req : AppendEntriesRequest}
    (hall : Allowed guard s r (.deliver_append_entries i req))
    (hs : step s (.deliver_append_entries i req) = some s') :
    Refines P guard s s' r (.deliver_append_entries i req) := by
  have hspec := step_spec hs
  -- the reply is the only message, and an acknowledgement promises what is confirmed
  have hwire : ∀ r' : Logs, ((handle_append_entries (s.node i) req).2.1.success = true →
      req.prev_log_index + req.entries.length ≤ r'.acked i req.term) → Wire s' r' s := by
    intro r' hreply
    refine hspec.wire (fun m hm => ?_) (fun _ ht => Or.inl ht)
    rw [List.mem_singleton.mp hm]
    exact hreply
  cases hyes : (handle_append_entries (s.node i) req).2.1.success with
  | false =>
      exact refines_tame hr h (a := .deliver_append_entries i req) (fun hf => hf) hs
        (by rw [shadow, hyes]; rfl) (tame_refused hyes)
        (hwire _ (fun hf => by rw [hyes] at hf; simp at hf))
  | true =>
      have hacc := accepted_of_success hyes
      have hok := h.append hspec.enabled.2
      have hterm : r.term i ≤ req.term := h.votes.term i ▸ hacc.term_le
      obtain ⟨hcov, hguard⟩ := hall hterm hacc.prev
      have hsteps := accepted_steps hr h hok hterm hcov hacc.prev hguard
      have hsh := shadow_accepted s' r hyes
      -- a heartbeat confirms the entry it names, a batch replaces the log
      by_cases hnil : req.entries = []
      · rw [if_pos hnil] at hsteps hsh
        refine refines_follows hr h (fun hf => hf) hs hsh rfl hsteps (elsewhere_ack r i req.term _)
          hacc.term hacc.role ?_ (hwire _ fun _ => ?_)
        · rw [Act.result, hacc.log, if_pos hnil]
          exact h.shows i
        · rw [ack_enter_acked, hnil]
          exact le_max_right _ _
      · rw [if_neg hnil] at hsteps hsh
        refine refines_follows hr h (fun hf => hf) hs hsh rfl hsteps
          (elsewhere_accept r i req.term _) hacc.term hacc.role ?_ (hwire _ fun _ => ?_)
        · rw [Act.result, Act.actor, hacc.log, if_neg hnil, accept_enter_log]
          exact shows_stored hr h hok hcov hacc.prev
        · rw [accept_enter_acked]
          exact le_trans (le_max_left _ _) (le_max_right _ _)

/-! ## Installing a snapshot -/

/-- A follower that keeps its log has the leader's up to the snapshot's end. -/
theorem take_included_eq (hr : Replog.Wf PersistedEntry.term (IsMajority P) r) (h : LogRel P s r)
    {i : ℤ} {req : InstallSnapshotRequest} (hok : InstallOk r req)
    (hcov : Covered s r i req.term) (hkeep : ¬ replaces (s.node i).log req)
    (hterm : (s.node i).log.snapshot_last_index < req.last_included_index →
      (s.node i).log.term_at req.last_included_index = req.last_included_term) :
    (r.log i).take req.last_included_index = (r.llog req.term).take req.last_included_index := by
  rcases Nat.lt_or_ge (s.node i).log.snapshot_last_index req.last_included_index with hlt | hge
  · have hshort : req.last_included_index < (r.log i).length := by
      rw [replaces, h.last_index i] at hkeep
      omega
    obtain ⟨k, hk⟩ : ∃ k, req.last_included_index = k + 1 :=
      ⟨req.last_included_index - 1, by omega⟩
    have hlen := hok.len
    have hlast := hok.term
    have hterm := hterm hlt
    rw [hk] at hlen hlast hterm hlt ⊢
    have hget : (r.log i)[k]? = some (r.log i)[k] := List.getElem?_eq_getElem _
    have hget' : (r.llog req.term)[k]? = some (r.llog req.term)[k] := List.getElem?_eq_getElem _
    rw [lastTerm_take_succ hget'] at hlast
    rw [(h.shows i).term_at (by omega) hget, hlast] at hterm
    exact Sourced.matching (hr.log_sourced i) (hr.llog_sourced _) hget hget' hterm
  · exact take_eq_of_le hcov hge

/-- The log after an accepted `InstallSnapshot`. -/
theorem shows_installed (hr : Replog.Wf PersistedEntry.term (IsMajority P) r) (h : LogRel P s r)
    {i : ℤ} {req : InstallSnapshotRequest} (hok : InstallOk r req)
    (hcov : Covered s r i req.term)
    (hterm : ¬ replaces (s.node i).log req →
      (s.node i).log.snapshot_last_index < req.last_included_index →
      (s.node i).log.term_at req.last_included_index = req.last_included_term) :
    Shows ((s.node i).log.compact req.last_included_index req.last_included_term req.data)
      (if replaces (s.node i).log req then (r.llog req.term).take req.last_included_index
        else r.log i) := by
  by_cases hrep : replaces (s.node i).log req
  · rw [if_pos hrep]
    have hbeyond := hrep.2
    rw [h.last_index i] at hbeyond
    exact (h.shows i).compact_beyond req.data hrep.1 hbeyond hok.len hok.term
  · rw [if_neg hrep]
    have htake := take_included_eq hr h hok hcov hrep (hterm hrep)
    have hlen := congrArg List.length htake
    have hidx := hok.len
    rw [List.length_take, List.length_take] at hlen
    exact (h.shows i).compact_within req.data (by omega) (by rw [htake, hok.term])

/-- The moves of an accepted `InstallSnapshot`. -/
theorem installed_steps (hr : Replog.Wf PersistedEntry.term (IsMajority P) r) (h : LogRel P s r)
    {i : ℤ} {req : InstallSnapshotRequest} (hok : InstallOk r req) (hterm : r.term i ≤ req.term)
    (hall : Allowed guard s r (.deliver_install_snapshot i req)) :
    Relation.ReflTransGen (Replog.Step PersistedEntry.term (IsMajority P) guard) r
      (if replaces (s.node i).log req then (r.enter i req.term).accept i req.last_included_index
        else (r.enter i req.term).ack i req.last_included_index) := by
  obtain ⟨hcov, hguard⟩ := hall hterm
  have henter : Replog.Step PersistedEntry.term (IsMajority P) guard r (r.enter i req.term) :=
    .enter r i _ hterm
  have hself : (r.enter i req.term).term i = req.term := enter_term_self _ _ _
  refine (Relation.ReflTransGen.single henter).tail ?_
  by_cases hrep : replaces (s.node i).log req
  · rw [if_pos hrep] at hguard ⊢
    exact .accept _ i _ (hself.symm ▸ hok.won) (hself.symm ▸ hok.len) (hself.symm ▸ hguard)
  · rw [if_neg hrep] at hguard ⊢
    refine .ack _ i _ (hself.symm ▸ hok.won) (hself.symm ▸ hok.len) (hself.symm ▸ ?_)
    change (r.llog req.term).take req.last_included_index <+: r.log i
    rw [← take_included_eq hr h hok hcov hrep hguard]
    exact List.take_prefix _ _

/-- What an accepted `InstallSnapshot` leaves behind, apart from the commit index. -/
structure Installed (n n' : RaftNode) (req : InstallSnapshotRequest) : Prop where
  role : n'.role = .Follower
  term : n'.state.current_term = req.term
  log : n'.log = n.log.compact req.last_included_index req.last_included_term req.data

/-- A request of an older term is refused with the node's term; any other is accepted. -/
theorem installed_or_refused (n : RaftNode) (req : InstallSnapshotRequest) :
    (req.term < n.state.current_term ∧ (handle_install_snapshot n req).1 = n ∧
      req.term < (handle_install_snapshot n req).2.term) ∨
    (n.state.current_term ≤ req.term ∧ Installed n (handle_install_snapshot n req).1 req) := by
  have hobs := observe_term_term n req.term
  rcases handle_install_snapshot_cases n req with ⟨hlt, heq⟩ | ⟨ht, hle, heq⟩ | ⟨ht, hlt, heq⟩
  · have hold : req.term < n.state.current_term := by omega
    rw [heq, observe_term, if_neg (by omega)]
    exact Or.inl ⟨hold, rfl, hold⟩
  · rw [heq]
    refine Or.inr ⟨by omega, rfl, ht, ?_⟩
    rw [RaftLog.compact, if_pos hle]
    exact observe_term_log n req.term
  · rw [heq]
    exact Or.inr ⟨by omega, rfl, ht, rfl⟩

theorem refines_install_snapshot (hr : Replog.Wf PersistedEntry.term (IsMajority P) r)
    (h : LogRel P s r) {i : ℤ} {req : InstallSnapshotRequest}
    (hall : Allowed guard s r (.deliver_install_snapshot i req))
    (hs : step s (.deliver_install_snapshot i req) = some s') :
    Refines P guard s s' r (.deliver_install_snapshot i req) := by
  have hspec := step_spec hs
  have hwire : ∀ r' : Logs, ((handle_install_snapshot (s.node i) req).2.term ≤ req.term →
      req.last_included_index ≤ r'.acked i req.term) → Wire s' r' s := by
    intro r' hreply
    refine hspec.wire (fun m hm => ?_) (fun _ ht => Or.inl ht)
    rw [List.mem_singleton.mp hm]
    exact hreply
  rcases installed_or_refused (s.node i) req with ⟨hlt, hsame, hresp⟩ | ⟨hle, hinst⟩
  · refine refines_tame hr h (a := .deliver_install_snapshot i req) (fun hf => hf) hs
      (by rw [shadow, if_neg (by omega)]; rfl) (by rw [Act.result, hsame]; exact Tame.refl _)
      (hwire _ (fun hterm => ?_))
    omega
  · have hok := h.install hspec.enabled.2
    have hterm : r.term i ≤ req.term := h.votes.term i ▸ hle
    obtain ⟨hcov, hguard⟩ := hall hterm
    have hsteps := installed_steps hr h hok hterm hall
    have hsh : shadow s s' r (.deliver_install_snapshot i req)
        = if replaces (s.node i).log req then
            (r.enter i req.term).accept i req.last_included_index
          else (r.enter i req.term).ack i req.last_included_index := by
      rw [shadow, if_pos hle]
    -- the log after the installation, whether the snapshot replaced it or not
    have hlog := shows_installed hr h hok hcov (fun hrep => by rwa [if_neg hrep] at hguard)
    rw [← hinst.log] at hlog
    by_cases hrep : replaces (s.node i).log req
    · rw [if_pos hrep] at hsteps hsh hlog
      refine refines_follows hr h (fun hf => hf) hs hsh rfl hsteps
        (elsewhere_accept r i req.term _) hinst.term hinst.role ?_ (hwire _ fun _ => ?_)
      · rw [Act.actor, accept_enter_log]
        exact hlog
      · rw [accept_enter_acked]
        exact le_max_right _ _
    · rw [if_neg hrep] at hsteps hsh hlog
      refine refines_follows hr h (fun hf => hf) hs hsh rfl hsteps
        (elsewhere_ack r i req.term _) hinst.term hinst.role hlog (hwire _ fun _ => ?_)
      rw [ack_enter_acked]
      exact le_max_right _ _

/-- A compaction changes nothing. -/
theorem refines_compact (hr : Replog.Wf PersistedEntry.term (IsMajority P) r) (h : LogRel P s r)
    {i : ℤ} {up_to : ℕ} {data : Bytes} (hall : Allowed guard s r (.compact i up_to data))
    (hs : step s (.compact i up_to data) = some s') :
    Refines P guard s s' r (.compact i up_to data) := by
  have hwire : ∀ r', Wire s' r' s := fun r' => (step_spec hs).wire_silent rfl (fun _ ht => ht)
  rcases compact_cases (s.node i) up_to data with heq | ⟨-, hlast, -, heq⟩
  · exact refines_tame hr h (fun hf => hf) hs rfl (by rw [Act.result, heq]; exact Tame.refl _)
      (hwire _)
  · have hle : (s.node i).last_applied ≤ (r.log i).length := hall
    refine refines_stays hr h (fun hf => hf) hs rfl (congrArg Prod.fst heq)
      ((h.shows i).compact data (le_trans hlast hle)) rfl rfl (fun hlead => ?_) (hwire r)
    have hok := h.leader i hlead
    exact ⟨hok.log, hok.acked, hok.match_le, hok.next_le, hok.next_pos⟩

/-! ## Whole runs -/

/-- **Every allowed act refines moves of the replicated-log machine.** -/
theorem step_refines (hsent : -1 ∉ P) (hr : Replog.Wf PersistedEntry.term (IsMajority P) r)
    (h : LogRel P s r) {a : Act} (hall : Allowed guard s r a) (hs : step s a = some s') :
    Refines P guard s s' r a := by
  cases a with
  | start_election i => exact refines_start_election hr h hs
  | deliver_request_vote i req => exact refines_request_vote hsent hr h hs
  | vote_reply i p resp => exact refines_vote_reply hr h hs
  | vote_failed i p => exact refines_vote_failed hr h hs
  | finish_election i => exact refines_finish_election hr h hs
  | propose i command => exact refines_propose hr h hs
  | replicate i => exact refines_replicate hr h hs
  | send_check task => exact refines_send_check hr h hs
  | send_build task => exact refines_send_build hr h hall hs
  | deliver_append_entries i req => exact refines_append_entries hr h hall hs
  | append_reply p req resp => exact refines_append_reply hr h hs
  | deliver_install_snapshot i req => exact refines_install_snapshot hr h hall hs
  | snapshot_reply p req resp => exact refines_snapshot_reply hr h hs
  | compact i up_to data => exact refines_compact hr h hall hs
  | restart i => exact refines_restart hr h hs

end NanoDB.Raft
