/-
The terms in a Raft log do not decrease, as long as snapshots meet logs they belong to.

`handle_request_vote` compares `last_term()`, the term at the end of the log, and that is the
largest term in the log only if the terms never go down. Every write but one keeps this by
itself: `propose` appends the current term, `AppendEntries` compares the entry in front of
what it stores. `InstallSnapshot` calls `compact`, which was written for a prefix that the node
itself has committed: the entries behind `last_included_index` stay, whatever the term of the
node's own entry at that index is.

`Follows` is the condition on a step under which nothing goes wrong. For a snapshot it is the
comparison that is missing in the source. For an `AppendEntries` that starts inside the
snapshot of the receiver, where the source compares nothing either, the first entry that is
stored must not be of an older term than the snapshot; runs in order always meet that
(`Inv.follows`), since what a snapshot covers is committed.
-/
import NanoDB.RaftInv

set_option autoImplicit false

namespace NanoDB.Raft

open Replog Quorum

/-! ## The terms of a log -/

/-- The term of the snapshot, and then those of the entries. -/
def RaftLog.terms (l : RaftLog) : List ℕ :=
  l.snapshot_last_term :: l.entries.map PersistedEntry.term

/-- No term is below one in front of it. -/
def RaftLog.Ascending (l : RaftLog) : Prop := l.terms.Pairwise (· ≤ ·)

instance (l : RaftLog) : Decidable l.Ascending := inferInstanceAs (Decidable (List.Pairwise _ _))

variable {l : RaftLog}

theorem last_term_eq (l : RaftLog) : l.terms.getLast? = some l.last_term := by
  rw [RaftLog.terms, RaftLog.last_term, List.getLast?_cons, List.getLast?_map]
  cases l.entries.getLast? with
  | none => rfl
  | some e => rfl

/-- The later of two terms in an ascending list is the greater. -/
theorem le_of_pairwise {ts : List ℕ} (h : ts.Pairwise (· ≤ ·)) {i j a b : ℕ} (hij : i ≤ j)
    (hi : ts[i]? = some a) (hj : ts[j]? = some b) : a ≤ b := by
  obtain ⟨hilt, rfl⟩ := List.getElem?_eq_some_iff.mp hi
  obtain ⟨hjlt, rfl⟩ := List.getElem?_eq_some_iff.mp hj
  rcases Nat.eq_or_lt_of_le hij with rfl | hlt
  · exact le_refl _
  · exact List.pairwise_iff_getElem.mp h i j hilt hjlt hlt

/-- **`last_term` is the largest term** in an ascending log. -/
theorem RaftLog.Ascending.le_last_term (h : l.Ascending) : ∀ t ∈ l.terms, t ≤ l.last_term := by
  intro t ht
  obtain ⟨i, hi⟩ := List.mem_iff_getElem?.mp ht
  have hlast := last_term_eq l
  rw [List.getLast?_eq_getElem?] at hlast
  have hlt := (List.getElem?_eq_some_iff.mp hi).1
  exact le_of_pairwise h (by omega) hi hlast

/-- Where `term_at` finds a term. -/
theorem terms_getElem {i : ℕ} (hpos : 1 ≤ i) (hle : i ≤ l.last_index) :
    l.terms[i - l.snapshot_last_index]? = some (l.term_at i) := by
  rw [RaftLog.term_at, if_neg (by omega), if_neg (by omega), RaftLog.terms]
  by_cases hsnap : i ≤ l.snapshot_last_index
  · rw [if_pos hsnap, Nat.sub_eq_zero_of_le hsnap]
    rfl
  · rw [RaftLog.last_index] at hle
    have hlt : i - 1 - l.snapshot_last_index < l.entries.length := by omega
    rw [if_neg hsnap, show i - l.snapshot_last_index = i - 1 - l.snapshot_last_index + 1 by omega,
      List.getElem?_cons_succ, List.getElem?_map, List.getElem?_eq_getElem hlt,
      List.getD_eq_getElem?_getD, List.getElem?_eq_getElem hlt]
    rfl

theorem RaftLog.Ascending.term_at_mono (h : l.Ascending) {i j : ℕ} (hij : i ≤ j)
    (hj : j ≤ l.last_index) : l.term_at i ≤ l.term_at j := by
  rcases Nat.eq_zero_or_pos i with rfl | hpos
  · rw [RaftLog.term_at, if_pos rfl]
    exact Nat.zero_le _
  · exact le_of_pairwise h (by omega) (terms_getElem hpos (by omega))
      (terms_getElem (by omega) hj)

/-- A term that `term_at` reads is one of the log's, or zero. -/
theorem term_at_le {c : ℕ} (h : ∀ t ∈ l.terms, t ≤ c) (i : ℕ) : l.term_at i ≤ c := by
  by_cases hin : 1 ≤ i ∧ i ≤ l.last_index
  · exact h _ (List.mem_of_getElem? (terms_getElem hin.1 hin.2))
  · have hzero : l.term_at i = 0 := by
      rw [RaftLog.term_at]
      split_ifs
      all_goals omega
    rw [hzero]
    exact Nat.zero_le c

/-! ## What the writes do to the terms -/

theorem append_terms (l : RaftLog) (term : ℕ) (command : Bytes) :
    (l.append term command).terms = l.terms ++ [term] := by
  simp [RaftLog.append, RaftLog.terms]

theorem truncate_terms (l : RaftLog) (keep : ℕ) (es : List PersistedEntry) :
    (l.truncate_and_append keep es).terms
      = l.terms.take (keep - l.snapshot_last_index + 1)
        ++ (es.drop (l.snapshot_last_index - keep)).map PersistedEntry.term := by
  rw [RaftLog.terms, truncate_and_append_entries, RaftLog.terms, List.take_succ_cons,
    List.map_append, List.map_take]
  rfl

/-- Compacting up to an entry of the log with its term takes the terms in front of it away. -/
theorem compact_terms {i t : ℕ} (hi : l.snapshot_last_index < i) (hle : i ≤ l.last_index)
    (ht : l.term_at i = t) (data : Bytes) :
    (l.compact i t data).terms = l.terms.drop (i - l.snapshot_last_index) := by
  have hget := terms_getElem (l := l) (by omega) hle
  obtain ⟨hlt, hterm⟩ := List.getElem?_eq_some_iff.mp hget
  have hlast : i - l.snapshot_last_index ≤ l.entries.length := by
    rw [RaftLog.last_index] at hle
    omega
  rw [List.drop_eq_getElem_cons hlt, hterm, ht, RaftLog.compact, if_neg (by omega),
    Nat.min_eq_left hlast]
  rw [RaftLog.terms, RaftLog.terms, List.drop_succ_cons, List.map_drop]

/-- Compacting up to the end of the log or beyond leaves the term of the snapshot alone. -/
theorem compact_terms_all {i t : ℕ} (hi : l.snapshot_last_index < i) (hge : l.last_index ≤ i)
    (data : Bytes) : (l.compact i t data).terms = [t] := by
  rw [RaftLog.last_index] at hge
  rw [RaftLog.compact, if_neg (by omega), RaftLog.terms, Nat.min_eq_right (by omega),
    List.drop_length]
  rfl

/-- The log has an entry with this index and this term. -/
def holds_entry (l : RaftLog) (index term : ℕ) : Bool :=
  l.has_entry_at index && l.term_at index = term

/-! ## Nodes and messages -/

/-- What every node of a run keeps. -/
structure TermsOk (n : RaftNode) : Prop where
  ascending : n.log.Ascending
  bounded : ∀ t ∈ n.log.terms, t ≤ n.state.current_term
  /-- Without a snapshot its term is zero. -/
  fresh : n.log.snapshot_last_index = 0 → n.log.snapshot_last_term = 0

/-- A request carries ascending terms, none above its own. -/
def MsgTerms : Message → Prop
  | .append_entries _ req =>
      (req.prev_log_term :: req.entries.map PersistedEntry.term).Pairwise (· ≤ ·) ∧
        ∀ e ∈ req.entries, e.term ≤ req.term
  | .install_snapshot _ req => req.last_included_term ≤ req.term
  | _ => True

structure TermsInv (s : Cluster) : Prop where
  node : ∀ i, TermsOk (s.node i)
  msgs : ∀ m ∈ s.msgs, MsgTerms m

theorem termsInv_init (peers : List ℤ) : TermsInv (Cluster.init peers) where
  node _ := ⟨List.pairwise_singleton _ _, by simp [Cluster.init, RaftNode.open_files,
    RaftLog.terms], fun _ => rfl⟩
  msgs _ h := by simp [Cluster.init] at h

variable {n n' : RaftNode}

/-- The log stays and the term does not go back. -/
theorem TermsOk.same (h : TermsOk n) (hlog : n'.log = n.log)
    (hterm : n.state.current_term ≤ n'.state.current_term) : TermsOk n' := by
  obtain ⟨hasc, hbound, hfresh⟩ := h
  refine ⟨?_, ?_, ?_⟩
  · rw [hlog]
    exact hasc
  · rw [hlog]
    exact fun t ht => (hbound t ht).trans hterm
  · rw [hlog]
    exact hfresh

theorem TermsOk.observe_term (h : TermsOk n) (t : ℕ) : TermsOk (observe_term n t) := by
  apply h.same (observe_term_log n t)
  rw [observe_term_term]
  exact le_max_left _ _

theorem TermsOk.advance (h : TermsOk n) : TermsOk (advance_commit_index_locked n).1 := by
  obtain ⟨c, a, cmds, heq⟩ := advance_commit_fst n
  rw [heq]
  exact h.same rfl (le_refl _)

theorem TermsOk.become_follower (h : TermsOk n) {t : ℕ} (ht : n.state.current_term < t) :
    TermsOk (become_follower_locked n t) :=
  h.same rfl (Nat.le_of_lt ht)

theorem TermsOk.request_vote (h : TermsOk n) (req : RequestVoteRequest) :
    TermsOk (handle_request_vote n req).1 := by
  have hobs := h.observe_term req.term
  rcases handle_request_vote_cases n req with ⟨_, heq, -⟩ | ⟨-, -, -, heq⟩
  · rw [heq]
    exact hobs
  · rw [heq]
    exact hobs.same rfl (le_refl _)

theorem TermsOk.propose (h : TermsOk n) (command : Bytes) :
    TermsOk { n with log := n.log.append n.state.current_term command } := by
  refine ⟨?_, ?_, h.fresh⟩
  · rw [RaftLog.Ascending, append_terms, List.pairwise_append]
    refine ⟨h.ascending, List.pairwise_singleton _ _, fun a ha b hb => ?_⟩
    rw [List.mem_singleton.mp hb]
    exact h.bounded a ha
  · rw [append_terms]
    intro t ht
    rcases List.mem_append.mp ht with ht | ht
    · exact h.bounded t ht
    · rw [List.mem_singleton.mp ht]

/-- A log that is compacted within itself, or beyond its end. -/
theorem TermsOk.compact (h : TermsOk n) {i t : ℕ} (hi : n.log.snapshot_last_index < i)
    (hkeep : i < n.log.last_index → n.log.term_at i = t) (ht : t ≤ n.state.current_term)
    (data : Bytes) : TermsOk { n with log := n.log.compact i t data } := by
  have hsnap : (n.log.compact i t data).snapshot_last_index = i := by
    rw [RaftLog.compact, if_neg (by omega)]
  refine ⟨?_, ?_, fun hzero => ?_⟩
  · unfold RaftLog.Ascending
    by_cases hlt : i < n.log.last_index
    · dsimp only
      rw [compact_terms hi (Nat.le_of_lt hlt) (hkeep hlt)]
      exact h.ascending.sublist (List.drop_sublist _ _)
    · dsimp only
      rw [compact_terms_all hi (not_lt.mp hlt)]
      exact List.pairwise_singleton _ _
  · by_cases hlt : i < n.log.last_index
    · dsimp only
      rw [compact_terms hi (Nat.le_of_lt hlt) (hkeep hlt)]
      exact fun u hu => h.bounded u (List.mem_of_mem_drop hu)
    · dsimp only
      rw [compact_terms_all hi (not_lt.mp hlt)]
      intro u hu
      rw [List.mem_singleton.mp hu]
      exact ht
  · rw [hsnap] at hzero
    omega

/-! ## Steps -/

/-- The first entry that is stored behind the receiver's snapshot is not of an older term. -/
def Onward (l : RaftLog) (req : AppendEntriesRequest) : Prop :=
  0 < l.snapshot_last_index → req.prev_log_index ≤ l.snapshot_last_index →
    ∀ e ∈ (req.entries.drop (l.snapshot_last_index - req.prev_log_index)).head?,
      l.snapshot_last_term ≤ e.term

instance (l : RaftLog) (req : AppendEntriesRequest) : Decidable (Onward l req) := by
  unfold Onward
  infer_instance

/-- The comparisons that the source leaves out. A snapshot that is installed below the end of a
log finds its last entry there; entries that are accepted inside a snapshot go on behind it. -/
def Follows (s : Cluster) : Act → Prop
  | .deliver_append_entries i req =>
      (s.node i).state.current_term ≤ req.term → prev_ok (s.node i).log req = true →
        Onward (s.node i).log req
  | .deliver_install_snapshot i req =>
      (s.node i).state.current_term ≤ req.term →
        (s.node i).log.snapshot_last_index < req.last_included_index →
        req.last_included_index < (s.node i).log.last_index →
        (s.node i).log.term_at req.last_included_index = req.last_included_term
  | _ => True

instance (s : Cluster) (a : Act) : Decidable (Follows s a) := by
  rcases a <;> unfold Follows <;> infer_instance

/-- Every entry of the request that is stored is of no older term than what is kept in front. -/
theorem kept_le_stored (h : TermsOk n) {req : AppendEntriesRequest}
    (hmsg : (req.prev_log_term :: req.entries.map PersistedEntry.term).Pairwise (· ≤ ·))
    (hprev : prev_ok n.log req = true) (hon : Onward n.log req) :
    ∀ t ∈ n.log.terms.take (req.prev_log_index - n.log.snapshot_last_index + 1),
      ∀ e ∈ req.entries.drop (n.log.snapshot_last_index - req.prev_log_index), t ≤ e.term := by
  intro t ht e he
  obtain ⟨hhead, hrest⟩ := List.pairwise_cons.mp hmsg
  rw [prev_ok] at hprev
  by_cases hreal : req.prev_log_index > 0 ∧ req.prev_log_index > n.log.snapshot_last_index
  · -- the entry in front was compared
    rw [if_pos hreal, Bool.and_eq_true, decide_eq_true_iff, has_real_entry_at_iff] at hprev
    obtain ⟨⟨-, hle⟩, hterm⟩ := hprev
    obtain ⟨j, hj⟩ := List.mem_iff_getElem?.mp ht
    have hjlt : j < req.prev_log_index - n.log.snapshot_last_index + 1 := by
      by_contra hge
      rw [List.getElem?_take_eq_none (not_lt.mp hge)] at hj
      simp at hj
    rw [List.getElem?_take_of_lt hjlt] at hj
    have hfront := le_of_pairwise h.ascending (by omega) hj (terms_getElem (by omega) hle)
    rw [hterm] at hfront
    exact hfront.trans (hhead _ (List.mem_map_of_mem (List.mem_of_mem_drop he)))
  · -- inside the snapshot, so only its term is in front
    have hzero : req.prev_log_index - n.log.snapshot_last_index = 0 := by omega
    rw [hzero, RaftLog.terms, Nat.zero_add, List.take_succ_cons, List.take_zero,
      List.mem_singleton] at ht
    rw [ht]
    by_cases hsnap : n.log.snapshot_last_index = 0
    · rw [h.fresh hsnap]
      exact Nat.zero_le _
    · have hstored : ((req.entries.drop (n.log.snapshot_last_index - req.prev_log_index)).map
          PersistedEntry.term).Pairwise (· ≤ ·) := by
        rw [List.map_drop]
        exact hrest.sublist (List.drop_sublist _ _)
      rw [Onward] at hon
      cases hcase : req.entries.drop (n.log.snapshot_last_index - req.prev_log_index) with
      | nil =>
          rw [hcase] at he
          simp at he
      | cons f fs =>
          rw [hcase] at he hstored hon
          have hfirst := hon (Nat.pos_of_ne_zero hsnap) (by omega) f rfl
          rcases List.mem_cons.mp he with rfl | he
          · exact hfirst
          · exact hfirst.trans ((List.pairwise_cons.mp hstored).1 _ (List.mem_map_of_mem he))

theorem TermsOk.store_entries (h : TermsOk n) {req : AppendEntriesRequest}
    (hmsg : (req.prev_log_term :: req.entries.map PersistedEntry.term).Pairwise (· ≤ ·))
    (hbound : ∀ e ∈ req.entries, e.term ≤ n.state.current_term)
    (hprev : prev_ok n.log req = true) (hon : Onward n.log req) :
    TermsOk (Raft.store_entries n req) := by
  rw [Raft.store_entries]
  split_ifs with hnil
  · exact h
  · refine ⟨?_, ?_, h.fresh⟩
    · rw [RaftLog.Ascending, truncate_terms, List.pairwise_append]
      refine ⟨h.ascending.sublist (List.take_sublist _ _), ?_, fun t ht u hu => ?_⟩
      · rw [List.map_drop]
        exact (List.pairwise_cons.mp hmsg).2.sublist (List.drop_sublist _ _)
      · obtain ⟨e, he, rfl⟩ := List.mem_map.mp hu
        exact kept_le_stored h hmsg hprev hon t ht e he
    · rw [truncate_terms]
      intro t ht
      rcases List.mem_append.mp ht with ht | ht
      · exact h.bounded t (List.mem_of_mem_take ht)
      · obtain ⟨e, he, rfl⟩ := List.mem_map.mp ht
        exact hbound e (List.mem_of_mem_drop he)

theorem TermsOk.append_entries (h : TermsOk n) {d : ℤ} {req : AppendEntriesRequest}
    (hmsg : MsgTerms (.append_entries d req))
    (hon : n.state.current_term ≤ req.term → prev_ok n.log req = true → Onward n.log req) :
    TermsOk (handle_append_entries n req).1 := by
  have hobs := h.observe_term req.term
  rcases handle_append_entries_cases n req with ⟨_, heq, -⟩ | ⟨-, _, heq, -⟩ | ⟨ht, hp, heq⟩
  · rw [heq]
    exact hobs
  · rw [heq]
    exact hobs.same rfl (le_refl _)
  · have hle : n.state.current_term ≤ req.term := by
      rw [observe_term_term] at ht
      omega
    have hfollower : TermsOk { Raft.observe_term n req.term with
        role := .Follower, leader_id := req.leader_id } := hobs.same rfl (le_refl _)
    have hstored := hfollower.store_entries hmsg.1 (by rw [ht]; exact hmsg.2)
      (by rw [observe_term_log]; exact hp) (by rw [observe_term_log]; exact hon hle hp)
    obtain ⟨a, cmds, hcommit, -⟩ := follow_commit_spec (Raft.store_entries
      { Raft.observe_term n req.term with role := .Follower, leader_id := req.leader_id } req)
      req.leader_commit
    rw [heq, hcommit]
    exact hstored.same rfl (le_refl _)

theorem TermsOk.install_snapshot (h : TermsOk n) {req : InstallSnapshotRequest}
    (hmsg : req.last_included_term ≤ req.term)
    (hkeep : n.state.current_term ≤ req.term →
      n.log.snapshot_last_index < req.last_included_index →
      req.last_included_index < n.log.last_index →
      n.log.term_at req.last_included_index = req.last_included_term) :
    TermsOk (handle_install_snapshot n req).1 := by
  have hobs := h.observe_term req.term
  have hlog := observe_term_log n req.term
  rcases handle_install_snapshot_cases n req with ⟨-, heq⟩ | ⟨-, -, heq⟩ | ⟨ht, hi, heq⟩
  · rw [heq]
    exact hobs
  · rw [heq]
    exact hobs.same rfl (le_refl _)
  · have hle : n.state.current_term ≤ req.term := by
      rw [observe_term_term] at ht
      omega
    have hcompact := hobs.compact (by rw [hlog]; exact hi) (by rw [hlog]; exact hkeep hle hi)
      (by rw [ht]; exact hmsg) req.data
    rw [hlog] at hcompact
    rw [heq]
    exact hcompact.same rfl (le_refl _)

theorem TermsOk.compact_own (h : TermsOk n) (up_to_index : ℕ) (snapshot_data : Bytes) :
    TermsOk (Raft.compact n up_to_index snapshot_data).1 := by
  rcases compact_cases n up_to_index snapshot_data with heq | ⟨hi, -, -, heq⟩
  · rw [heq]
    exact h
  · rw [heq]
    exact (h.compact hi (fun _ => rfl) (term_at_le h.bounded _) snapshot_data).same rfl (le_refl _)

theorem TermsOk.append_reply (h : TermsOk n) (p : ℤ) (req : AppendEntriesRequest)
    (resp : AppendEntriesResponse) : TermsOk (on_append_reply n p req resp).1 := by
  rcases on_append_reply_cases n p req resp with
    ⟨hlt, heq⟩ | heq | ⟨-, -, -, heq⟩ | ⟨-, -, heq⟩
  · rw [heq]
    exact h.become_follower hlt
  · rw [heq]
    exact h
  · have hmatched : TermsOk (n.matched p (req.prev_log_index + req.entries.length)) :=
      h.same rfl (le_refl _)
    rw [heq]
    exact hmatched.advance
  · rw [heq]
    exact h.same rfl (le_refl _)

theorem TermsOk.snapshot_reply (h : TermsOk n) (p : ℤ) (req : InstallSnapshotRequest)
    (resp : InstallSnapshotResponse) : TermsOk (on_snapshot_reply n p req resp) := by
  rcases on_snapshot_reply_cases n p req resp with ⟨hlt, heq⟩ | heq | ⟨-, -, -, heq⟩
  · rw [heq]
    exact h.become_follower hlt
  · rw [heq]
    exact h
  · rw [heq]
    exact h.same rfl (le_refl _)

variable {s s' : Cluster}

/-- The node that moved. -/
theorem termsOk_result (h : TermsInv s) {a : Act} (ha : Follows s a) (hen : a.Enabled s) :
    TermsOk (a.result s) := by
  cases a with
  | start_election i => exact (h.node i).same rfl (Nat.le_succ _)
  | deliver_request_vote i req => exact (h.node i).request_vote req
  | vote_reply i p resp =>
      obtain ⟨e, he, -⟩ := hen
      simp only [Act.result, he, Option.elim_some, on_vote_reply]
      split_ifs
      · exact (h.node i).observe_term resp.term
      · exact h.node i
  | finish_election i =>
      obtain ⟨e, he, -⟩ := hen
      simp only [Act.result, he, Option.elim_some, finish_election]
      split_ifs
      · exact (h.node i).same rfl (le_refl _)
      · exact h.node i
  | propose i command =>
      simp only [Act.result, propose, if_pos hen.2, Option.elim_some]
      exact ((h.node i).propose command).advance
  | deliver_append_entries i req => exact (h.node i).append_entries (h.msgs _ hen.2) ha
  | append_reply p req resp => exact (h.node req.leader_id).append_reply p req resp
  | deliver_install_snapshot i req => exact (h.node i).install_snapshot (h.msgs _ hen.2) ha
  | snapshot_reply p req resp => exact (h.node req.leader_id).snapshot_reply p req resp
  | compact i up_to_index snapshot_data => exact (h.node i).compact_own up_to_index snapshot_data
  | restart i => exact (h.node i).same rfl (le_refl _)
  | vote_failed i p => exact h.node i
  | replicate i => exact h.node i
  | send_check task => exact h.node task.leader
  | send_build task => exact h.node task.leader

/-- The request that a leader puts on the wire. -/
theorem TermsOk.build (h : TermsOk n) {term next_idx : ℕ} {req : AppendEntriesRequest} (d : ℤ)
    (hreq : build_append_entries n term next_idx = some req) :
    MsgTerms (.append_entries d req) := by
  rw [build_append_entries] at hreq
  split_ifs at hreq with hg
  rw [not_or, not_not, not_not] at hg
  obtain rfl := Option.some.inj hreq
  have hterms : (entries_from n.log next_idx).map PersistedEntry.term
      = (List.range' next_idx (n.log.last_index + 1 - next_idx)).map n.log.term_at := by
    rw [entries_from, List.map_map]
    rfl
  constructor
  · dsimp only
    rw [hterms, List.pairwise_cons]
    constructor
    · intro t ht
      obtain ⟨i, hi, rfl⟩ := List.mem_map.mp ht
      rw [List.mem_range'_1] at hi
      exact h.ascending.term_at_mono (by omega) (by omega)
    · rw [List.pairwise_map]
      refine List.Pairwise.imp_of_mem ?_ List.pairwise_lt_range'
      intro i j _ hj hij
      rw [List.mem_range'_1] at hj
      exact h.ascending.term_at_mono (Nat.le_of_lt hij) (by omega)
  · intro e he
    rw [entries_from, List.mem_map] at he
    obtain ⟨i, -, rfl⟩ := he
    rw [← hg.2]
    exact term_at_le h.bounded i

/-- The messages that go out. -/
theorem msgTerms_sent (h : TermsInv s) (a : Act) : ∀ m ∈ a.sent s, MsgTerms m := by
  intro m hm
  cases a with
  | start_election i =>
      obtain ⟨p, -, rfl⟩ := List.mem_map.mp hm
      trivial
  | deliver_request_vote i req =>
      rw [List.mem_singleton.mp hm]
      trivial
  | send_check task =>
      simp only [Act.sent] at hm
      split at hm
      · rename_i req hreq
        rw [List.mem_singleton.mp hm]
        rw [send_check] at hreq
        split_ifs at hreq with hg
        rw [not_or, not_not, not_not] at hg
        obtain rfl := SendCheck.snapshot.inj hreq
        rw [MsgTerms, ← hg.2]
        exact (h.node task.leader).bounded _ List.mem_cons_self
      · simp at hm
  | send_build task =>
      simp only [Act.sent] at hm
      split at hm
      · rename_i req hreq
        rw [List.mem_singleton.mp hm]
        exact (h.node task.leader).build task.peer hreq
      · simp at hm
  | deliver_append_entries i req =>
      rw [List.mem_singleton.mp hm]
      trivial
  | deliver_install_snapshot i req =>
      rw [List.mem_singleton.mp hm]
      trivial
  | _ => simp [Act.sent] at hm

theorem termsInv_step (h : TermsInv s) {a : Act} (ha : Follows s a) (hs : step s a = some s') :
    TermsInv s' := by
  have hstep := step_spec hs
  refine ⟨hstep.forall_node (Q := fun _ n => TermsOk n)
    (termsOk_result h ha hstep.enabled) h.node, fun m hm => ?_⟩
  rw [hstep.msgs] at hm
  rcases List.mem_append.mp hm with hm | hm
  · exact msgTerms_sent h a m hm
  · exact h.msgs m hm

/-! ## Runs -/

/-- What is left behind an installed snapshot, when the comparison would have succeeded or there
is nothing to keep. -/
theorem install_keeps (n : RaftNode) {req : InstallSnapshotRequest}
    (hterm : n.state.current_term ≤ req.term)
    (hi : n.log.snapshot_last_index < req.last_included_index)
    (hkeep : req.last_included_index < n.log.last_index →
      n.log.term_at req.last_included_index = req.last_included_term) :
    (handle_install_snapshot n req).1.log.entries
      = if holds_entry n.log req.last_included_index req.last_included_term then
          n.log.entries.drop (req.last_included_index - n.log.snapshot_last_index)
        else [] := by
  have hlast : n.log.last_index = n.log.snapshot_last_index + n.log.entries.length := rfl
  rcases handle_install_snapshot_cases n req with ⟨hold, -⟩ | ⟨-, hcov, -⟩ | ⟨-, -, heq⟩
  · rw [observe_term_term] at hold
    omega
  · omega
  · have hentries : (handle_install_snapshot n req).1.log.entries = n.log.entries.drop
        (min (req.last_included_index - n.log.snapshot_last_index) n.log.entries.length) := by
      rw [heq]
      dsimp only
      rw [RaftLog.compact, if_neg (not_le.mpr hi)]
    have hholds : holds_entry n.log req.last_included_index req.last_included_term = true ↔
        (1 ≤ req.last_included_index ∧ req.last_included_index ≤ n.log.last_index) ∧
          n.log.term_at req.last_included_index = req.last_included_term := by
      rw [holds_entry, Bool.and_eq_true, decide_eq_true_iff, has_entry_at_iff]
    rw [hentries]
    split_ifs with hown
    · rw [hholds] at hown
      rw [Nat.min_eq_left (by omega)]
    · -- the log does not reach behind the snapshot
      have hge : n.log.last_index ≤ req.last_included_index := by
        by_contra hlt
        exact hown (hholds.mpr ⟨⟨by omega, by omega⟩, hkeep (not_le.mp hlt)⟩)
      rw [Nat.min_eq_right (by omega), List.drop_length]

/-- **`InstallSnapshot` leaves a consistent log**, in every run whose steps meet `Follows`. The
terms never decrease in any log, so `last_term` is the largest of them; and an installed snapshot
keeps the entries behind it exactly if the log had an entry with its index and its term. -/
theorem install_snapshot_consistent {peers : List ℤ} {acts : List Act} {s : Cluster}
    (hok : Trace.Along step Follows (Cluster.init peers) acts) (hs : run peers acts = some s) :
    (∀ i, (s.node i).log.Ascending ∧ ∀ t ∈ (s.node i).log.terms, t ≤ (s.node i).log.last_term) ∧
    ∀ before i req after m, acts = before ++ .deliver_install_snapshot i req :: after →
      run peers before = some m → (m.node i).state.current_term ≤ req.term →
      (m.node i).log.snapshot_last_index < req.last_included_index →
      (handle_install_snapshot (m.node i) req).1.log.entries
        = if holds_entry (m.node i).log req.last_included_index req.last_included_term then
            (m.node i).log.entries.drop
              (req.last_included_index - (m.node i).log.snapshot_last_index)
          else [] := by
  constructor
  · intro i
    have hinv : TermsInv s := Trace.run_invariant_along
      (fun _ _ _ ht ha hstep => termsInv_step ht ha hstep) (termsInv_init peers) hok hs
    exact ⟨(hinv.node i).ascending, (hinv.node i).ascending.le_last_term⟩
  · intro before i req after m hacts hm hterm hi
    rw [hacts, Trace.along_append hm] at hok
    exact install_keeps (m.node i) hterm hi (hok.2.1 hterm hi)

/-- Node `0` leads and has sent two entries to node `1`, which were committed. A second call was
under way and starts after the leader has compacted the first entry, so node `1` gets a snapshot
of an entry it has, and keeps the other. -/
def late_snapshot : List Act :=
  first_election ++
    [.propose 0 [97], .propose 0 [98], .replicate 0, .replicate 0,
      .send_check ⟨0, 1, 1, 1, false⟩, .send_build ⟨0, 1, 1, 1, true⟩,
      .deliver_append_entries 1 ⟨1, 0, 0, 0, [⟨1, [97]⟩, ⟨1, [98]⟩], 0⟩,
      .append_reply 1 ⟨1, 0, 0, 0, [⟨1, [97]⟩, ⟨1, [98]⟩], 0⟩ ⟨1, true⟩,
      .compact 0 1 [120], .send_check ⟨0, 1, 1, 1, false⟩,
      .deliver_install_snapshot 1 ⟨1, 0, 1, 1, [120]⟩]

theorem install_snapshot_consistent_late :
    (run [0, 1, 2] late_snapshot).map (fun s => (s.node 1).log)
      = some ⟨[⟨1, [98]⟩], 1, 1, [120]⟩ ∧
    ∀ s, run [0, 1, 2] late_snapshot = some s → (s.node 1).log.Ascending := by
  refine ⟨rfl, fun s hs => ?_⟩
  exact ((install_snapshot_consistent (by decide +kernel) hs).1 1).1

/-- Node `0` leads term `1` and proposes two commands that reach nobody. Node `1` wins term `2`,
commits another command at index `1` with node `2`, compacts it, and brings node `0` up to date
with a snapshot. -/
def diverged_snapshot : List Act :=
  first_election ++
    [.propose 0 [97], .propose 0 [98],
      .start_election 1, .deliver_request_vote 2 ⟨2, 1, 0, 0⟩, .vote_reply 1 2 ⟨2, true⟩,
      .vote_failed 1 0, .finish_election 1,
      .propose 1 [99], .replicate 1,
      .send_check ⟨1, 2, 2, 1, false⟩, .send_build ⟨1, 2, 2, 1, true⟩,
      .deliver_append_entries 2 ⟨2, 1, 0, 0, [⟨2, [99]⟩], 0⟩,
      .append_reply 2 ⟨2, 1, 0, 0, [⟨2, [99]⟩], 0⟩ ⟨2, true⟩,
      .compact 1 1 [120], .send_check ⟨1, 2, 0, 1, false⟩,
      .deliver_install_snapshot 0 ⟨2, 1, 1, 2, [120]⟩]

/-- **A stale entry survives a snapshot.** Node `0` had an entry of term `1` at index `1`. It
takes the snapshot of term `2` and keeps its second entry, of term `1`, behind it; its
`last_term` is `1`. -/
theorem diverged_snapshot_keeps_entry :
    (run [0, 1, 2] (diverged_snapshot.take 20)).map
        (fun s => ((s.node 0).log, (s.node 1).role, (s.node 1).state.current_term))
      = some (⟨[⟨1, [97]⟩, ⟨1, [98]⟩], 0, 0, []⟩, .Leader, 2) ∧
    diverged_snapshot.drop 20 = [.deliver_install_snapshot 0 ⟨2, 1, 1, 2, [120]⟩] ∧
    (run [0, 1, 2] diverged_snapshot).map
        (fun s => ((s.node 0).log, (s.node 0).log.terms, (s.node 0).log.last_term))
      = some (⟨[⟨1, [98]⟩], 1, 2, [120]⟩, [2, 1], 1) ∧
    ¬ RaftLog.Ascending ⟨[⟨1, [98]⟩], 1, 2, [120]⟩ :=
  ⟨rfl, rfl, rfl, by decide⟩

/-- One round of a leader with a peer, up to the reply. -/
def exchange (leader peer : ℤ) (term next_idx : ℕ) (req : AppendEntriesRequest) (success : Bool) :
    List Act :=
  [.replicate leader, .send_check ⟨leader, term, peer, next_idx, false⟩,
    .send_build ⟨leader, term, peer, next_idx, true⟩, .deliver_append_entries peer req,
    .append_reply peer req ⟨term, success⟩]

/-- Node `1` has the first of node `0`'s three entries when it wins term `2`, and commits one of its
own behind it with node `2`. An earlier request of it reaches node `2` late and cuts that log. So
node `2` votes for node `0` in term `3`. Node `1` has compacted both entries when node `0` sends it
the third of its own. -/
def entries_inside_snapshot : List Act :=
  first_election ++ [.propose 0 [97]] ++ exchange 0 1 1 1 ⟨1, 0, 0, 0, [⟨1, [97]⟩], 0⟩ true ++
    [.propose 0 [98], .propose 0 [98], .start_election 1, .deliver_request_vote 2 ⟨2, 1, 1, 1⟩,
      .vote_reply 1 2 ⟨2, true⟩, .vote_failed 1 0, .finish_election 1] ++
    exchange 1 2 2 2 ⟨2, 1, 1, 1, [], 0⟩ false ++
    [.replicate 1, .send_check ⟨1, 2, 2, 1, false⟩, .send_build ⟨1, 2, 2, 1, true⟩,
      .propose 1 [99]] ++
    exchange 1 2 2 1 ⟨2, 1, 0, 0, [⟨1, [97]⟩, ⟨2, [99]⟩], 0⟩ true ++
    [.deliver_append_entries 2 ⟨2, 1, 0, 0, [⟨1, [97]⟩], 0⟩, .compact 1 2 [120],
      .deliver_request_vote 0 ⟨2, 1, 1, 1⟩, .start_election 0,
      .deliver_request_vote 2 ⟨3, 0, 3, 1⟩, .vote_reply 0 2 ⟨3, true⟩, .vote_failed 0 1,
      .finish_election 0] ++
    exchange 0 1 3 4 ⟨3, 0, 3, 1, [], 1⟩ false ++
    exchange 0 1 3 3 ⟨3, 0, 2, 1, [⟨1, [98]⟩], 1⟩ true

/-- **Entries that begin inside a snapshot** are accepted without a look at its term: no snapshot
was installed here, and an entry of term `1` stands behind one of term `2`. -/
theorem entries_inside_snapshot_accepted :
    (run [0, 1, 2] entries_inside_snapshot).map
        (fun s => ((s.node 1).log, (s.node 1).log.terms, (s.node 1).log.last_term))
      = some (⟨[⟨1, [98]⟩], 2, 2, [120]⟩, [2, 1], 1) := by
  decide +kernel

/-! ## Runs in order -/

/-- **A step in order meets the condition.** What the receiver's snapshot covers is in the log of
the leader that sent the entries, and the terms of that log do not decrease. -/
theorem Inv.follows {P : List ℤ} {r : Logs} (hI : Inv P s r) {a : Act} (ha : InOrder s a)
    (hs : step s a = some s') : Follows s a := by
  cases a with
  | deliver_install_snapshot i req => exact ha
  | deliver_append_entries i req =>
      intro hterm _ hpos hle e he
      have hok := hI.logs.append (step_spec hs).enabled.2
      rw [hI.logs.votes.term] at hterm
      have hcov := hI.covered hterm hok.won
      obtain ⟨k, hk⟩ : ∃ k, (s.node i).log.snapshot_last_index = k + 1 :=
        ⟨(s.node i).log.snapshot_last_index - 1, by omega⟩
      -- the entry stored first is the leader's at `k + 1`, and the snapshot ends with `k`
      have hget : (r.llog req.term)[k + 1]? = some e := by
        rw [Option.mem_def, List.head?_drop] at he
        have hlt := (List.getElem?_eq_some_iff.mp he).1
        have hlen := hok.len
        rw [← hk, ← List.getElem?_take_of_lt (show (s.node i).log.snapshot_last_index
            < req.prev_log_index + req.entries.length by omega), hok.entries,
          List.getElem?_append_right (by rw [List.length_take]; omega), List.length_take,
          Nat.min_eq_left (by omega), he]
      have hlast : k < (r.llog req.term).length := by
        have := (List.getElem?_eq_some_iff.mp hget).1
        omega
      have hsnap : (s.node i).log.snapshot_last_term = (r.llog req.term)[k].term := by
        rw [(hI.logs.shows i).term, hcov, hk, lastTerm_take_succ (List.getElem?_eq_getElem hlast)]
      rw [hsnap]
      exact (hI.wf.llog_sourced req.term).sorted hI.wf.llog_le (Nat.le_succ k)
        (List.getElem?_eq_getElem hlast) hget
  | _ => trivial

/-- Runs in order have ascending logs. -/
theorem ascending_of_inOrder {peers : List ℤ} (hsent : -1 ∉ peers) {acts : List Act} {s : Cluster}
    (hok : Trace.Along step InOrder (Cluster.init peers) acts) (hs : run peers acts = some s) :
    ∀ i, (s.node i).log.Ascending := by
  have hinv : (∃ r, Inv peers s r) ∧ TermsInv s := by
    refine Trace.run_invariant_along (P := fun t => (∃ r, Inv peers t r) ∧ TermsInv t)
      (fun t a t' ht ha hstep => ?_) ⟨⟨_, inv_init peers⟩, termsInv_init peers⟩ hok hs
    obtain ⟨⟨r, hI⟩, hterms⟩ := ht
    exact ⟨⟨_, (step_inv hsent hI ha hstep).1⟩, termsInv_step hterms (hI.follows ha hstep) hstep⟩
  exact fun i => (hinv.2.node i).ascending

end NanoDB.Raft
