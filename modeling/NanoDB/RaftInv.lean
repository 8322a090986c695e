/-
The invariant of a cluster, snapshots and compaction included.

`LogRel` says what the logs are; `CommitRel` says which part of them is final, on every node
and in every message that announces a commit index or a snapshot. `Inv` is both, over a safe
state of the abstract machine.

# The one awkward thing, named up front

Three handlers trust what they do not check, and the invariant needs each of them to be right.
`truncate_and_append` cuts whatever stands behind the entries it stores; the second lock scope
of `send_append_entries_to_peer` reads a log that may have been compacted since the first;
`InstallSnapshot` keeps the entries behind the snapshot without comparing them to it.
`InOrder` is the condition on a step that these three do no harm. That a snapshot is right is
no condition: what it covers was committed.
-/
import NanoDB.RaftCommit

set_option autoImplicit false

namespace NanoDB.Raft

open Ballot Quorum Replog

/-! ## The steps that do no harm -/

/-- Every entry of the request that the snapshot does not cover is already in the log, which
goes on behind them: storing the request only takes entries away. -/
def shortens (l : RaftLog) (req : AppendEntriesRequest) : Prop :=
  req.entries ≠ [] ∧ stored_end l req < l.last_index ∧
    ∀ j (h : j < req.entries.length), l.snapshot_last_index < req.prev_log_index + 1 + j →
      l.term_at (req.prev_log_index + 1 + j) = req.entries[j].term

instance (l : RaftLog) (req : AppendEntriesRequest) : Decidable (shortens l req) := by
  unfold shortens
  infer_instance

/-- The steps of the positive results: no request that passes the term and consistency checks
shortens the log it is stored in, none is built from entries compacted since the snapshot
check, and no snapshot is installed below entries that do not continue it. -/
def InOrder (s : Cluster) : Act → Prop
  | .deliver_append_entries i req =>
      (s.node i).state.current_term ≤ req.term → prev_ok (s.node i).log req = true →
        ¬ shortens (s.node i).log req
  | .send_build task =>
      (s.node task.leader).role = .Leader → (s.node task.leader).state.current_term = task.term →
        (s.node task.leader).log.snapshot_last_index ≤ task.next_idx - 1
  | .deliver_install_snapshot i req =>
      (s.node i).state.current_term ≤ req.term →
        (s.node i).log.snapshot_last_index < req.last_included_index →
        req.last_included_index < (s.node i).log.last_index →
        (s.node i).log.term_at req.last_included_index = req.last_included_term
  | _ => True

instance (s : Cluster) (a : Act) : Decidable (InOrder s a) := by
  rcases a <;> unfold InOrder <;> infer_instance

variable {P : List ℤ} {s s' : Cluster} {r r' r'' : Logs}

/-! ## The relation -/

/-- What a message announces as committed is. -/
def MsgSettled (P : List ℤ) (r : Logs) : Message → Prop
  | .append_entries _ req =>
      req.leader_commit ≤ req.prev_log_index + req.entries.length ∧
        CommitOk P r req.term (r.llog req.term) req.leader_commit
  | .install_snapshot _ req =>
      CommitOk P r req.term (r.llog req.term) req.last_included_index
  | _ => True

theorem MsgSettled.mono (hr : Replog.Wf PersistedEntry.term (IsMajority P) r)
    (hle : Replog.Le PersistedEntry.term r r') {m : Message} (h : MsgSettled P r m) :
    MsgSettled P r' m := by
  have grow : ∀ {t c}, CommitOk P r t (r.llog t) c → CommitOk P r' t (r'.llog t) c :=
    fun hc => hc.mono hr hle (le_refl _) (take_llog_of_le hr hle hc.le_length)
  cases m with
  | append_entries d req => exact ⟨h.1, grow h.2⟩
  | install_snapshot d req => exact grow h
  | _ => trivial

/-- Everything any node counts as committed, announces as committed or has applied is
chosen. -/
structure CommitRel (P : List ℤ) (s : Cluster) (r : Logs) : Prop where
  node : ∀ i, Settled P r (r.term i) (r.log i) (s.node i)
  msgs : ∀ m ∈ s.msgs, MsgSettled P r m
  applied : ∀ i idx c, (i, idx, c) ∈ s.applied → AppliedOk P r idx c

theorem commitRel_init (P : List ℤ) : CommitRel P (Cluster.init P) State.init where
  node _ := ⟨Or.inl rfl, le_refl _, rfl, fun _ => rfl⟩
  msgs _ h := by simp [Cluster.init] at h
  applied _ _ _ h := by simp [Cluster.init] at h

/-- Everything that is kept along a run of steps in order. -/
structure Inv (P : List ℤ) (s : Cluster) (r : Logs) : Prop where
  wf : Replog.Wf PersistedEntry.term (IsMajority P) r
  safe : Safe PersistedEntry.term (IsMajority P) r
  logs : LogRel P s r
  commit : CommitRel P s r

theorem inv_init (P : List ℤ) : Inv P (Cluster.init P) State.init :=
  ⟨Replog.wf_init, safe_init, logRel_init P, commitRel_init P⟩

/-- What has happened between `r` and a later `r'`. -/
structure Later (P : List ℤ) (r r' : Logs) : Prop where
  le : Replog.Le PersistedEntry.term r r'
  keeps : Keeps P r r'

theorem Later.refl (r : Logs) : Later P r r := ⟨Replog.Le.refl r, Keeps.refl r⟩

theorem Later.trans (hr : Replog.Wf PersistedEntry.term (IsMajority P) r) (h : Later P r r')
    (h' : Later P r' r'') : Later P r r'' :=
  ⟨h.le.trans h'.le, h.keeps.trans hr h.le h'.keeps⟩

/-- A node that does nothing stays settled. -/
theorem Inv.settled (hI : Inv P s r) (hl : Later P r r') (i : ℤ) :
    Settled P r' (r'.term i) (r'.log i) (s.node i) :=
  (hI.commit.node i).mono hI.wf hl.le (hl.le.votes.term i)
    (hl.keeps i _ (hI.commit.node i).commit)

/-- The leader's side: a proposal or a positive reply, then an advance. -/
theorem settled_leader (h' : LogRel P s' r')
    (hwf' : Replog.Wf PersistedEntry.term (IsMajority P) r') {i : ℤ} {n : RaftNode}
    (hself : s'.node i = (advance_commit_index_locked n).1) (hrole : n.role = .Leader)
    (hn : Settled P r' (r'.term i) (r'.log i) n) :
    Settled P r' (r'.term i) (r'.log i) (advance_commit_index_locked n).1 ∧
      ∀ x ∈ (advance_commit_index_locked n).2, AppliedOk P r' x.1 x.2 := by
  obtain ⟨c, a, cmds, heq⟩ := advance_commit_fst n
  have hleader : (s'.node i).role = .Leader := by
    rw [hself, heq]
    exact hrole
  obtain ⟨hpos, hi⟩ := winner_pos hwf' h' (h'.votes.leader i hleader)
  have hok := h'.leader i hleader
  have hid := h'.votes.node_id i
  have hpeers := h'.votes.node_peers i
  have hterm := h'.votes.term i
  have hshows := h'.shows i
  rw [hself, heq] at hok hid hpeers hterm hshows
  exact Settled.advance (n := n) hi hpos hid hpeers hterm hshows
    ⟨hok.log, hok.acked, hok.match_le, hok.next_le, hok.next_pos⟩ hn

/-- The snapshot a leader offers is committed. -/
theorem Inv.snapshot_committed (hI : Inv P s r) {i : ℤ} {term next_idx : ℕ}
    {req : InstallSnapshotRequest} (hreq : send_check (s.node i) term next_idx = .snapshot req) :
    CommitOk P r req.term (r.llog req.term) req.last_included_index := by
  rw [send_check] at hreq
  split_ifs at hreq with hg
  rw [not_or, not_not, not_not] at hg
  obtain rfl := SendCheck.snapshot.inj hreq
  obtain ⟨hlead, rfl⟩ := hg
  have hcommit := (hI.commit.node i).commit.down (hI.commit.node i).snapshot
  rw [(hI.logs.leader i hlead).log, ← hI.logs.votes.term] at hcommit
  exact hcommit

/-! ## Steps in order are allowed -/

/-- What a snapshot covers was committed, so later leaders have it. -/
theorem Inv.covered (hI : Inv P s r) {i : ℤ} {t : ℕ} (hterm : r.term i ≤ t)
    (hwon : r.winner t ≠ none) : Covered s r i t :=
  ((hI.commit.node i).commit.down (hI.commit.node i).snapshot).take_llog hI.wf hI.safe hterm hwon

/-- A request that does not shorten the log leaves one that is no proper prefix of it. -/
theorem noCut_of_not_shortens (h : LogRel P s r) {i : ℤ} {req : AppendEntriesRequest}
    (hok : AppendOk r req) (hcov : Covered s r i req.term) (hnil : req.entries ≠ [])
    (hstays : ¬ shortens (s.node i).log req) :
    NoCut (r.log i) ((r.llog req.term).take (stored_end (s.node i).log req)) := by
  have hlen := hok.len
  have hend : stored_end (s.node i).log req ≤ (r.llog req.term).length :=
    max_le hlen (covered_le h hcov)
  have hreq : req.prev_log_index + req.entries.length ≤ stored_end (s.node i).log req :=
    le_max_left _ _
  rintro ⟨rest, hrest⟩
  by_contra hshort
  rw [List.length_take, Nat.min_eq_left hend] at hshort
  refine hstays ⟨hnil, by rw [h.last_index i]; omega, fun j hj hsnap => ?_⟩
  have hget : (r.log i)[req.prev_log_index + j]? = some req.entries[j] := by
    rw [← hrest, List.getElem?_append_left (by rw [List.length_take]; omega),
      List.getElem?_take_of_lt (by omega),
      ← List.getElem?_take_of_lt (show req.prev_log_index + j
        < req.prev_log_index + req.entries.length by omega), hok.entries,
      List.getElem?_append_right (by rw [List.length_take]; omega), List.length_take,
      Nat.min_eq_left (by omega), Nat.add_sub_cancel_left, List.getElem?_eq_getElem hj]
  have hterm := (h.shows i).term_at (by omega) hget
  rw [Nat.add_right_comm] at hterm
  exact hterm

/-- **A step in order is allowed**: the committed prefixes give what `Allowed` asks beyond
`InOrder`. -/
theorem Inv.allowed (hI : Inv P s r) {a : Act} (ha : InOrder s a) (hs : step s a = some s') :
    Allowed NoCut s r a := by
  cases a with
  | send_build task => exact ha
  | deliver_append_entries i req =>
      intro hterm hprev
      have hok := hI.logs.append (step_spec hs).enabled.2
      have hcov := hI.covered hterm hok.won
      refine ⟨hcov, fun hnil => noCut_of_not_shortens hI.logs hok hcov hnil ?_⟩
      exact ha (by rw [hI.logs.votes.term]; exact hterm) hprev
  | deliver_install_snapshot i req =>
      intro hterm
      have hok := hI.logs.install (step_spec hs).enabled.2
      refine ⟨hI.covered hterm hok.won, ?_⟩
      by_cases hrep : replaces (s.node i).log req
      · -- the log is shorter than the snapshot, so replacing it cuts nothing
        rw [if_pos hrep]
        intro _
        have hlen := hrep.2
        have hle := hok.len
        rw [hI.logs.last_index i] at hlen
        rw [List.length_take]
        omega
      · rw [if_neg hrep]
        intro hlt
        refine ha (by rw [hI.logs.votes.term]; exact hterm) hlt ?_
        rw [replaces] at hrep
        omega
  | compact i up_to data =>
      change (s.node i).last_applied ≤ (r.log i).length
      rw [(hI.commit.node i).applied]
      exact (hI.commit.node i).commit.le_length
  | _ => trivial

/-! ## One act -/

/-- The log an accepted request leaves has the leader's entries up to the request's end. -/
theorem stored_log (hI : Inv P s r) {i : ℤ} {req : AppendEntriesRequest} (hok : AppendOk r req)
    (hcov : Covered s r i req.term) (hprev : prev_ok (s.node i).log req = true)
    {L : List PersistedEntry}
    (hL : L = if req.entries = [] then r.log i
      else (r.llog req.term).take (stored_end (s.node i).log req)) :
    req.prev_log_index + req.entries.length ≤ L.length ∧
    L.take (req.prev_log_index + req.entries.length)
      = (r.llog req.term).take (req.prev_log_index + req.entries.length) := by
  have hlen := hok.len
  have hmatch := take_prev_eq hI.wf hI.logs hok hcov hprev
  have hreq : req.prev_log_index + req.entries.length ≤ stored_end (s.node i).log req :=
    le_max_left _ _
  by_cases hnil : req.entries = []
  · rw [if_pos hnil] at hL
    have hmlen := congrArg List.length hmatch
    rw [List.length_take, List.length_take] at hmlen
    rw [hnil, List.length_nil] at hlen
    rw [hL, hnil, List.length_nil, Nat.add_zero]
    exact ⟨by omega, hmatch⟩
  · rw [if_neg hnil] at hL
    rw [hL, List.length_take, List.take_take, Nat.min_eq_left hreq]
    exact ⟨by omega, rfl⟩

/-- The follower's side. -/
theorem Inv.append_entries (hI : Inv P s r) {i : ℤ} {req : AppendEntriesRequest}
    (hm : Message.append_entries i req ∈ s.msgs)
    (hnode : s'.node i = (handle_append_entries (s.node i) req).1)
    (hl : Later P r (shadow s s' r (.deliver_append_entries i req)))
    (h' : LogRel P s' (shadow s s' r (.deliver_append_entries i req))) :
    Settled P (shadow s s' r (.deliver_append_entries i req))
        ((shadow s s' r (.deliver_append_entries i req)).term i)
        ((shadow s s' r (.deliver_append_entries i req)).log i)
        (handle_append_entries (s.node i) req).1 ∧
      ∀ x ∈ (handle_append_entries (s.node i) req).2.2,
        AppliedOk P (shadow s s' r (.deliver_append_entries i req)) x.1 x.2 := by
  have hu := unmoved_observe_term (s.node i) req.term
  rcases handle_append_entries_cases (s.node i) req with
    ⟨_, heq, -⟩ | ⟨-, _, heq, -⟩ | ⟨ht, hp, heq⟩
  · rw [heq]
    exact ⟨(hI.settled hl i).unmoved hu, by simp⟩
  · rw [heq]
    exact ⟨(hI.settled hl i).unmoved ⟨hu.log, hu.commit, hu.applied, hu.queue⟩, by simp⟩
  · have hyes : (handle_append_entries (s.node i) req).2.1.success = true := by rw [heq]
    have hacc := accepted_of_success hyes
    have hok := hI.logs.append hm
    have hterm : r.term i ≤ req.term := by
      rw [← hI.logs.votes.term i]
      exact hacc.term_le
    have hcov := hI.covered hterm hok.won
    have hsh := shadow_accepted s' r hyes
    have hlog : (shadow s s' r (.deliver_append_entries i req)).log i
        = if req.entries = [] then r.log i
          else (r.llog req.term).take (stored_end (s.node i).log req) := by
      rw [hsh]
      by_cases hnil : req.entries = []
      · rw [if_pos hnil, if_pos hnil]
        rfl
      · rw [if_neg hnil, if_neg hnil, accept_enter_log]
    have hllog : (shadow s s' r (.deliver_append_entries i req)).llog = r.llog := by
      rw [hsh]
      split <;> rfl
    have hterm' : (shadow s s' r (.deliver_append_entries i req)).term i = req.term := by
      rw [← h'.votes.term i, hnode, hacc.term]
    obtain ⟨hlc, hleader⟩ := (hI.commit.msgs _ hm).mono hI.wf hl.le
    obtain ⟨hm₁, hm₂⟩ := stored_log hI hok hcov hp hlog
    have hshows := h'.shows i
    rw [hnode, heq] at hshows
    -- the node between storing the entries and following the commit index
    let n₁ := store_entries { observe_term (s.node i) req.term with
      role := .Follower, leader_id := req.leader_id } req
    have hn₁ : Unmoved { s.node i with log := n₁.log } n₁ := by
      by_cases hnil : req.entries = []
      · simp only [n₁, store_entries, if_pos hnil]
        exact ⟨rfl, hu.commit, hu.applied, hu.queue⟩
      · simp only [n₁, store_entries, if_neg hnil]
        exact ⟨rfl, hu.commit, hu.applied, hu.queue⟩
    have hsnap : n₁.log.snapshot_last_index = (s.node i).log.snapshot_last_index := by
      by_cases hnil : req.entries = []
      · simp only [n₁, store_entries, if_pos hnil, hu.log]
      · simp only [n₁, store_entries, if_neg hnil, hu.log, RaftLog.truncate_and_append]
    obtain ⟨hc, hb, ha, hq⟩ := hI.settled hl i
    have hold : Settled P (shadow s s' r (.deliver_append_entries i req)) req.term
        ((shadow s s' r (.deliver_append_entries i req)).log i)
        { s.node i with log := n₁.log } := by
      refine ⟨hterm' ▸ hc, by rw [hsnap]; exact hb, ha, ?_⟩
      unfold Queued
      rw [hsnap]
      exact hq
    have hflog : (follow_commit n₁ req.leader_commit).1.log = n₁.log := by
      obtain ⟨a, cmds, hcommit, -⟩ := follow_commit_spec n₁ req.leader_commit
      rw [hcommit]
    rw [heq, hterm']
    exact (hold.unmoved hn₁).follow (m := req.prev_log_index + req.entries.length)
      (hflog ▸ hshows) hm₁ (by rw [hm₂, hllog]) hlc hleader

theorem Inv.install_snapshot (hI : Inv P s r) {i : ℤ} {req : InstallSnapshotRequest}
    (hall : Allowed NoCut s r (.deliver_install_snapshot i req))
    (hm : Message.install_snapshot i req ∈ s.msgs)
    (hl : Later P r (shadow s s' r (.deliver_install_snapshot i req))) :
    Settled P (shadow s s' r (.deliver_install_snapshot i req))
      ((shadow s s' r (.deliver_install_snapshot i req)).term i)
      ((shadow s s' r (.deliver_install_snapshot i req)).log i)
      (handle_install_snapshot (s.node i) req).1 := by
  rcases installed_or_refused (s.node i) req with ⟨-, hsame, -⟩ | ⟨hle, hinst⟩
  · rw [hsame]
    exact hI.settled hl i
  · have hok := hI.logs.install hm
    have hterm : r.term i ≤ req.term := by
      rw [← hI.logs.votes.term i]
      exact hle
    obtain ⟨hcov, hguard⟩ := hall hterm
    refine (hI.settled hl i).install ?_
    have hmsg : CommitOk P _ req.term (_ : List PersistedEntry) req.last_included_index :=
      (hI.commit.msgs _ hm).mono hI.wf hl.le
    rw [shadow, if_pos hle] at hmsg ⊢
    have hself : (r.enter i req.term).term i = req.term := enter_term_self _ _ _
    -- replaced by the snapshot's prefix, or kept because it agrees with that prefix
    by_cases hrep : replaces (s.node i).log req
    · rw [if_pos hrep] at hmsg ⊢
      rw [accept_enter_log]
      change CommitOk P _ ((r.enter i req.term).term i) _ _
      rw [hself]
      refine hmsg.of_take ?_
      rw [List.take_take, Nat.min_self]
      rfl
    · rw [if_neg hrep] at hmsg hguard ⊢
      change CommitOk P _ ((r.enter i req.term).term i) (r.log i) _
      rw [hself]
      exact hmsg.of_take (take_included_eq hI.wf hI.logs hok hcov hrep hguard)

/-- **The actor of an act is settled afterwards**, and what it applied is chosen. -/
theorem Inv.settled_result (hI : Inv P s r) {a : Act} (hall : Allowed NoCut s r a)
    (hs : step s a = some s') (hl : Later P r (shadow s s' r a))
    (h' : LogRel P s' (shadow s s' r a))
    (hwf' : Replog.Wf PersistedEntry.term (IsMajority P) (shadow s s' r a)) :
    Settled P (shadow s s' r a) ((shadow s s' r a).term a.actor) ((shadow s s' r a).log a.actor)
        (a.result s) ∧
      ∀ x ∈ a.applies s, AppliedOk P (shadow s s' r a) x.1 x.2 := by
  have hspec := step_spec hs
  have hnode : s'.node a.actor = a.result s := by
    rw [hspec.node, set_node_self]
  have hold := hI.settled hl a.actor
  -- the acts that apply nothing and leave the counters where they are
  have quiet : ∀ n, Unmoved (s.node a.actor) n → Settled P (shadow s s' r a)
      ((shadow s s' r a).term a.actor) ((shadow s s' r a).log a.actor) n :=
    fun n hu => hold.unmoved hu
  cases a with
  | start_election i => exact ⟨quiet _ ⟨rfl, rfl, rfl, rfl⟩, by simp [Act.applies]⟩
  | deliver_request_vote i req =>
      exact ⟨quiet _ (unmoved_request_vote _ _), by simp [Act.applies]⟩
  | vote_reply i p resp =>
      refine ⟨quiet _ ?_, by simp [Act.applies]⟩
      simp only [Act.result]
      cases s.election i with
      | none => exact Unmoved.refl _
      | some e => exact unmoved_on_vote_reply _ _ _
  | finish_election i =>
      refine ⟨quiet _ ?_, by simp [Act.applies]⟩
      simp only [Act.result]
      cases s.election i with
      | none => exact Unmoved.refl _
      | some e =>
          simp only [Option.elim_some, finish_election]
          split
          · exact ⟨rfl, rfl, rfl, rfl⟩
          · exact Unmoved.refl _
  | propose i command =>
      obtain ⟨-, hlead⟩ := hspec.enabled
      simp only [Act.result, Act.applies, propose, if_pos hlead] at hnode ⊢
      obtain ⟨hc, hb, ha, hq⟩ := hold
      exact settled_leader h' hwf' hnode hlead ⟨hc, hb, ha, hq⟩
  | deliver_append_entries i req => exact hI.append_entries hspec.enabled.2 hnode hl h'
  | append_reply p req resp =>
      simp only [Act.result, Act.applies] at hnode ⊢
      rcases on_append_reply_cases (s.node req.leader_id) p req resp with
        ⟨-, heq⟩ | heq | ⟨hlead, -, -, heq⟩ | ⟨-, -, heq⟩
      · rw [heq]
        exact ⟨quiet _ ⟨rfl, rfl, rfl, rfl⟩, by simp⟩
      · rw [heq]
        exact ⟨hold, by simp⟩
      · rw [heq] at hnode ⊢
        obtain ⟨hc, hb, ha, hq⟩ := hold
        exact settled_leader h' hwf' hnode hlead ⟨hc, hb, ha, hq⟩
      · rw [heq]
        exact ⟨quiet _ ⟨rfl, rfl, rfl, rfl⟩, by simp⟩
  | deliver_install_snapshot i req =>
      exact ⟨hI.install_snapshot hall hspec.enabled.2 hl, by simp [Act.applies]⟩
  | snapshot_reply p req resp =>
      refine ⟨quiet _ ?_, by simp [Act.applies]⟩
      simp only [Act.result]
      rcases on_snapshot_reply_cases (s.node req.leader_id) p req resp with
        ⟨-, heq⟩ | heq | ⟨-, -, -, heq⟩
      · rw [heq]
        exact ⟨rfl, rfl, rfl, rfl⟩
      · rw [heq]
        exact Unmoved.refl _
      · rw [heq]
        exact ⟨rfl, rfl, rfl, rfl⟩
  | compact i up_to data => exact ⟨hold.compact up_to data, by simp [Act.applies]⟩
  | restart i => exact ⟨hold.restart, by simp [Act.applies]⟩
  | _ => exact ⟨hold, by simp [Act.applies]⟩

/-- What an act announces as committed is. -/
theorem Inv.sent_settled (hI : Inv P s r) {a : Act} (hall : Allowed NoCut s r a)
    (hs : step s a = some s') : ∀ m ∈ a.sent s, MsgSettled P r m := by
  intro m hm
  cases a with
  | start_election i =>
      obtain ⟨p, -, rfl⟩ := List.mem_map.mp hm
      trivial
  | send_check task =>
      simp only [Act.sent] at hm
      split at hm
      · rename_i req hreq
        rw [List.mem_singleton.mp hm]
        exact hI.snapshot_committed hreq
      · simp at hm
  | send_build task =>
      simp only [Act.sent] at hm
      split at hm
      · rename_i req hb
        -- the batch carries the leader's own commit index
        obtain ⟨-, hlead, hterm, hlc, hend⟩ :=
          appendOk_build hI.logs (hI.logs.task task (step_spec hs).enabled.1) hall hb
        have hcommit := (hI.commit.node task.leader).commit
        rw [(hI.logs.leader _ hlead).log, ← hterm, ← hlc] at hcommit
        rw [List.mem_singleton.mp hm]
        exact ⟨by rw [hend]; exact hcommit.le_length, hcommit⟩
      · simp at hm
  | deliver_request_vote i req =>
      rw [List.mem_singleton.mp hm]
      trivial
  | deliver_append_entries i req =>
      rw [List.mem_singleton.mp hm]
      trivial
  | deliver_install_snapshot i req =>
      rw [List.mem_singleton.mp hm]
      trivial
  | _ => simp [Act.sent] at hm

/-- Every step in order keeps commit indices on chosen entries. -/
theorem commitRel_step (hI : Inv P s r) {a : Act} (hall : Allowed NoCut s r a)
    (hs : step s a = some s') (hl : Later P r (shadow s s' r a))
    (h' : LogRel P s' (shadow s s' r a))
    (hwf' : Replog.Wf PersistedEntry.term (IsMajority P) (shadow s s' r a)) :
    CommitRel P s' (shadow s s' r a) := by
  have hspec := step_spec hs
  obtain ⟨hnew, happlied⟩ := hI.settled_result hall hs hl h' hwf'
  refine ⟨?_, fun m hm => ?_, fun j idx c hm => ?_⟩
  · exact hspec.forall_node (Q := fun j n => Settled P _ ((shadow s s' r a).term j)
      ((shadow s s' r a).log j) n) hnew (fun j => hI.settled hl j)
  · rw [hspec.msgs] at hm
    rcases List.mem_append.mp hm with hm | hm
    · exact (hI.sent_settled hall hs m hm).mono hI.wf hl.le
    · exact (hI.commit.msgs m hm).mono hI.wf hl.le
  · rw [hspec.applied] at hm
    rcases List.mem_append.mp hm with hm | hm
    · exact (hI.commit.applied j idx c hm).mono hI.wf hl.le
    · obtain ⟨x, hx, heq⟩ := List.mem_map.mp hm
      obtain ⟨-, rfl, rfl⟩ : a.actor = j ∧ x.1 = idx ∧ x.2 = c := by
        simpa only [Prod.mk.injEq] using heq
      exact happlied x hx

/-- **One step in order** keeps the invariant and takes nothing back. -/
theorem step_inv (hsent : -1 ∉ P) (hI : Inv P s r) {a : Act} (ha : InOrder s a)
    (hs : step s a = some s') : Inv P s' (shadow s s' r a) ∧ Later P r (shadow s s' r a) := by
  have hall := hI.allowed ha hs
  obtain ⟨hsteps, hlogs⟩ := step_refines hsent hI.wf hI.logs hall hs
  obtain ⟨hwf, hle⟩ := steps_wf (inter P) hsteps hI.wf
  have hl : Later P r (shadow s s' r a) := ⟨hle, steps_keep hI.wf hI.safe hsteps⟩
  exact ⟨⟨hwf, steps_safe (inter P) hsteps hI.wf hI.safe, hlogs,
    commitRel_step hI hall hs hl hlogs hwf⟩, hl⟩

/-! ## Whole runs -/

/-- The invariant along a run of steps in order. -/
theorem run_inv (hsent : -1 ∉ P) (hI : Inv P s r) {acts : List Act}
    (hok : Trace.Along step InOrder s acts) (hs : Trace.run step s acts = some s') :
    ∃ r', Inv P s' r' ∧ Later P r r' := by
  refine Trace.run_invariant_along
    (P := fun t => ∃ r', Inv P t r' ∧ Later P r r')
    (fun t a t' ht ha hstep => ?_) ⟨r, hI, Later.refl r⟩ hok hs
  obtain ⟨r₁, hI₁, hl₁⟩ := ht
  obtain ⟨hI₂, hl₂⟩ := step_inv hsent hI₁ ha hstep
  exact ⟨_, hI₂, hl₁.trans hI.wf hl₂⟩

end NanoDB.Raft
