/-
Committed prefixes, and the counters of a node that hang on them.

Everything a node counts as committed is a prefix of a chosen position of some leader log, so
no later term can contradict it (`CommitOk.take_llog`) and no move of the abstract machine
takes it away (`Keeps`). A node's other counters follow its commit index: the snapshot lies
below, `last_applied` is equal, and the queue of applied commands holds the committed entries
behind the snapshot, as long as none of those commands is empty (`Settled`). The lemmas here
are about one node and one critical section; what the cluster makes of them is `RaftInv`.
-/
import NanoDB.Lib.ReplogSafe
import NanoDB.RaftAccept

set_option autoImplicit false

namespace NanoDB.Raft

open Ballot Quorum Replog

variable {P : List ℤ} {s s' : Cluster} {r r' r'' : Logs}

/-! ## Commit indices -/

/-- The first `c` entries of `L` are a prefix of a chosen one, of a term up to `T`. -/
def CommitOk (P : List ℤ) (r : Logs) (T : ℕ) (L : List PersistedEntry) (c : ℕ) : Prop :=
  c = 0 ∨ ∃ t k, 0 < t ∧ t ≤ T ∧ Chosen PersistedEntry.term (IsMajority P) r t k ∧ c ≤ k + 1 ∧
    L.take c = (r.llog t).take c

/-- Command `c` sits at the absolute index `idx` below a chosen position. -/
def AppliedOk (P : List ℤ) (r : Logs) (idx : ℕ) (c : Bytes) : Prop :=
  ∃ t k m e, 0 < t ∧ Chosen PersistedEntry.term (IsMajority P) r t k ∧ idx = m + 1 ∧ m ≤ k ∧
    (r.llog t)[m]? = some e ∧ e.command = c

theorem chosen_lt {t k : ℕ} (h : Chosen PersistedEntry.term (IsMajority P) r t k) :
    k < (r.llog t).length := by
  obtain ⟨⟨e, he, -⟩, -⟩ := h
  exact (List.getElem?_eq_some_iff.mp he).1

/-- A committed prefix lies within the log. -/
theorem CommitOk.le_length {T c : ℕ} {L : List PersistedEntry} (h : CommitOk P r T L c) :
    c ≤ L.length := by
  rcases h with rfl | ⟨t, k, -, -, hch, hck, htake⟩
  · exact Nat.zero_le _
  · have hk := chosen_lt hch
    have hlen := congrArg List.length htake
    rw [List.length_take, List.length_take] at hlen
    omega

/-- Nothing that is committed becomes uncommitted, as long as the log keeps its committed
prefix. -/
theorem CommitOk.mono (hr : Replog.Wf PersistedEntry.term (IsMajority P) r)
    (hle : Replog.Le PersistedEntry.term r r') {T T' c : ℕ} {L L' : List PersistedEntry}
    (hT : T ≤ T') (hL : L'.take c = L.take c) (h : CommitOk P r T L c) : CommitOk P r' T' L' c := by
  rcases h with rfl | ⟨t, k, hpos, htT, hch, hck, htake⟩
  · exact Or.inl rfl
  · have hk := chosen_lt hch
    refine Or.inr ⟨t, k, hpos, le_trans htT hT, hch.mono hr hle, hck, ?_⟩
    rw [hL, htake, take_llog_of_le hr hle (by omega)]

theorem CommitOk.down {T c c' : ℕ} {L : List PersistedEntry} (h : CommitOk P r T L c)
    (hle : c' ≤ c) : CommitOk P r T L c' := by
  rcases h with rfl | ⟨t, k, hpos, htT, hch, hck, htake⟩
  · exact Or.inl (Nat.le_zero.mp hle)
  · exact Or.inr ⟨t, k, hpos, htT, hch, le_trans hle hck, take_eq_of_le htake hle⟩

/-- A prefix that a log shares with a committed one is committed. -/
theorem CommitOk.of_take {T c : ℕ} {L L' : List PersistedEntry} (h : CommitOk P r T L c)
    (hL : L'.take c = L.take c) : CommitOk P r T L' c := by
  rcases h with rfl | ⟨t, k, hpos, htT, hch, hck, htake⟩
  · exact Or.inl rfl
  · exact Or.inr ⟨t, k, hpos, htT, hch, hck, by rw [hL, htake]⟩

/-- A committed prefix of any log is a prefix of the leader log of every later term that
was won. -/
theorem CommitOk.take_llog (hr : Replog.Wf PersistedEntry.term (IsMajority P) r)
    (hsafe : Safe PersistedEntry.term (IsMajority P) r) {T u c : ℕ} {L : List PersistedEntry}
    (hTu : T ≤ u) (hwon : r.winner u ≠ none) (h : CommitOk P r T L c) :
    L.take c = (r.llog u).take c := by
  rcases h with rfl | ⟨t, k, hpos, htT, hch, hck, htake⟩
  · simp
  · rw [htake]
    rcases Nat.lt_or_ge t u with htu | htu
    · exact (take_eq_of_le (leader_complete (inter P) hr hsafe hpos hch u htu hwon) hck).symm
    · rw [show t = u by omega]

theorem AppliedOk.mono (hr : Replog.Wf PersistedEntry.term (IsMajority P) r)
    (hle : Replog.Le PersistedEntry.term r r') {idx : ℕ} {c : Bytes} (h : AppliedOk P r idx c) :
    AppliedOk P r' idx c := by
  obtain ⟨t, k, m, e, hpos, hch, hidx, hmk, he, hc⟩ := h
  exact ⟨t, k, m, e, hpos, hch.mono hr hle, hidx, hmk, getElem_llog_mono hr hle he, hc⟩

/-- What a node applies at an index up to a committed one is chosen. -/
theorem CommitOk.applied {l : RaftLog} {L : List PersistedEntry} (hshows : Shows l L)
    {T c idx : ℕ} (h : CommitOk P r T L c) (hsnap : l.snapshot_last_index < idx) (hidx : idx ≤ c) :
    AppliedOk P r idx (l.command_at idx) := by
  have hlen := h.le_length
  rcases h with rfl | ⟨t, k, ht, -, hch, hck, htake⟩
  · omega
  · obtain ⟨m, rfl⟩ : ∃ m, idx = m + 1 := ⟨idx - 1, by omega⟩
    have hget : L[m]? = some L[m] := List.getElem?_eq_getElem (by omega)
    refine ⟨t, k, m, L[m], ht, hch, rfl, by omega, ?_, (hshows.command_at (by omega) hget).symm⟩
    rw [← List.getElem?_take_of_lt (show m < c by omega), ← htake,
      List.getElem?_take_of_lt (show m < c by omega), hget]

/-- Two commands applied at one index are the same. -/
theorem AppliedOk.agree (hr : Replog.Wf PersistedEntry.term (IsMajority P) r)
    (hsafe : Safe PersistedEntry.term (IsMajority P) r) {idx : ℕ} {c c' : Bytes}
    (h : AppliedOk P r idx c) (h' : AppliedOk P r idx c') : c = c' := by
  obtain ⟨t, k, m, e, ht, hch, hidx, hmk, he, rfl⟩ := h
  obtain ⟨t', k', m', e', ht', hch', hidx', hmk', he', rfl⟩ := h'
  obtain rfl : m = m' := by omega
  have htake := chosen_agree (inter P) hr hsafe ht ht' hch hch' (k := m + 1) (by omega) (by omega)
  rw [← List.getElem?_take_of_lt (Nat.lt_succ_self m), htake,
    List.getElem?_take_of_lt (Nat.lt_succ_self m), he'] at he
  rw [Option.some.inj he]

/-! ## Committed prefixes stay

A fact about the abstract machine alone: no move takes a committed prefix from a log. -/

/-- Every committed prefix of `r` is still there in `r'`. -/
def Keeps (P : List ℤ) (r r' : Logs) : Prop :=
  ∀ i c, CommitOk P r (r.term i) (r.log i) c → (r'.log i).take c = (r.log i).take c

theorem Keeps.refl (r : Logs) : Keeps P r r := fun _ _ _ => rfl

theorem Keeps.trans (hr : Replog.Wf PersistedEntry.term (IsMajority P) r)
    (hle : Replog.Le PersistedEntry.term r r') (h : Keeps P r r') (h' : Keeps P r' r'') :
    Keeps P r r'' := by
  intro i c hc
  rw [h' i c (hc.mono hr hle (hle.votes.term i) (h i c hc)), h i c hc]

theorem step_keeps (hr : Replog.Wf PersistedEntry.term (IsMajority P) r)
    (hsafe : Safe PersistedEntry.term (IsMajority P) r)
    (hstep : Replog.Step PersistedEntry.term (IsMajority P) NoCut r r') : Keeps P r r' := by
  intro i c hc
  cases hstep with
  | append v e hwon hlog he =>
      by_cases hi : i = v
      · subst hi
        rw [append_log_self]
        exact List.take_append_of_le_length hc.le_length
      · rw [append_log_ne r e hi]
  | accept v m hwon hm hcut =>
      by_cases hi : i = v
      · subst hi
        have hold := hc.take_llog hr hsafe (le_refl _) hwon
        have hlen := congrArg List.length hold
        have hle := hc.le_length
        rw [List.length_take, List.length_take] at hlen
        simp only [State.accept, Function.update_self]
        rw [take_of_noCut hcut hold (by omega), hold]
      · simp [State.accept, hi]
  | _ => rfl

theorem steps_keep (hr : Replog.Wf PersistedEntry.term (IsMajority P) r)
    (hsafe : Safe PersistedEntry.term (IsMajority P) r)
    (hsteps : Relation.ReflTransGen (Replog.Step PersistedEntry.term (IsMajority P) NoCut) r r') :
    Keeps P r r' := by
  induction hsteps with
  | refl => exact Keeps.refl r
  | tail hsteps hstep ih =>
      obtain ⟨hwf, hle⟩ := steps_wf (inter P) hsteps hr
      exact ih.trans hr hle (step_keeps hwf (steps_safe (inter P) hsteps hr hsafe) hstep)

/-! ## The counters of a node -/

/-- The queue holds the commands applied since the snapshot, in order, unless an empty one
was among those ever applied. -/
def Queued (n : RaftNode) (L : List PersistedEntry) : Prop :=
  (∀ e ∈ L.take n.last_applied, e.command ≠ []) →
    n.applied_commands
      = ((L.take n.last_applied).drop n.log.snapshot_last_index).map PersistedEntry.command

/-- A node in term `T` whose log shows `L`: what it counts as committed is, and its other
counters follow. -/
structure Settled (P : List ℤ) (r : Logs) (T : ℕ) (L : List PersistedEntry) (n : RaftNode) :
    Prop where
  commit : CommitOk P r T L n.commit_index
  snapshot : n.log.snapshot_last_index ≤ n.commit_index
  applied : n.last_applied = n.commit_index
  queue : Queued n L

theorem Settled.mono (hr : Replog.Wf PersistedEntry.term (IsMajority P) r)
    (hle : Replog.Le PersistedEntry.term r r') {T T' : ℕ} {L L' : List PersistedEntry}
    {n : RaftNode} (hT : T ≤ T') (hL : L'.take n.commit_index = L.take n.commit_index)
    (h : Settled P r T L n) : Settled P r' T' L' n := by
  refine ⟨h.commit.mono hr hle hT hL, h.snapshot, h.applied, ?_⟩
  unfold Queued
  rw [h.applied, hL, ← h.applied]
  exact h.queue

theorem Settled.unmoved {T : ℕ} {L : List PersistedEntry} {n n' : RaftNode}
    (h : Settled P r T L n) (hu : Unmoved n n') : Settled P r T L n' := by
  refine ⟨?_, ?_, ?_, ?_⟩
  · rw [hu.commit]
    exact h.commit
  · rw [hu.log, hu.commit]
    exact h.snapshot
  · rw [hu.applied, hu.commit]
    exact h.applied
  · unfold Queued
    rw [hu.applied, hu.queue, hu.log]
    exact h.queue

/-- A restart goes back to the snapshot. -/
theorem Settled.restart {T : ℕ} {L : List PersistedEntry} {n : RaftNode}
    (h : Settled P r T L n) : Settled P r T L n.restart := by
  refine ⟨h.commit.down h.snapshot, le_refl _, rfl, fun _ => ?_⟩
  change [] = ((L.take n.log.snapshot_last_index).drop n.log.snapshot_last_index).map _
  rw [List.drop_of_length_le (by rw [List.length_take]; omega)]
  rfl

theorem Settled.compact {T : ℕ} {L : List PersistedEntry} {n : RaftNode}
    (h : Settled P r T L n) (up_to : ℕ) (data : Bytes) :
    Settled P r T L (compact n up_to data).1 := by
  rcases compact_cases n up_to data with heq | ⟨hsnap, hlast, -, heq⟩
  · rw [heq]
    exact h
  · have happ := h.applied
    rw [heq]
    refine ⟨h.commit, ?_, h.applied, fun hne => ?_⟩
    · rw [RaftLog.compact, if_neg (by omega)]
      exact le_trans hlast (le_of_eq happ)
    · dsimp only at hne ⊢
      rw [h.queue hne, RaftLog.compact, if_neg (by omega), ← List.map_drop, List.drop_drop,
        show n.log.snapshot_last_index + (up_to - n.log.snapshot_last_index) = up_to by omega]

/-- **Applying up to a new commit index** `c`. -/
theorem Settled.apply {T c : ℕ} {L : List PersistedEntry} {n : RaftNode} (hshows : Shows n.log L)
    (h : Settled P r T L n) (hlt : n.commit_index < c) (hnew : CommitOk P r T L c) :
    Settled P r T L (apply_committed_entries_locked { n with commit_index := c }).1 ∧
      ∀ x ∈ (apply_committed_entries_locked { n with commit_index := c }).2,
        AppliedOk P r x.1 x.2 := by
  have happ := h.applied
  have hsnap := h.snapshot
  have hlen := hnew.le_length
  refine ⟨?_, fun x hm => ?_⟩
  · have hqueue := apply_loop_queue (c - n.last_applied) { n with commit_index := c }
    obtain ⟨cmds, hcmds⟩ := apply_loop_fst (c - n.last_applied) { n with commit_index := c }
    unfold apply_committed_entries_locked
    rw [hcmds] at hqueue ⊢
    dsimp only at hqueue
    have hlast : n.last_applied + (c - n.last_applied) = c := by omega
    refine ⟨hnew, Nat.le_of_lt (lt_of_le_of_lt hsnap hlt), hlast, fun hne => ?_⟩
    dsimp only at hne ⊢
    rw [hlast] at hne ⊢
    have hold : ∀ e ∈ L.take n.last_applied, e.command ≠ [] := by
      intro e he
      apply hne
      rw [show L.take n.last_applied = (L.take c).take n.last_applied by
        rw [List.take_take, Nat.min_eq_left (by omega)]] at he
      exact List.mem_of_mem_take he
    -- nothing is filtered out, so the queue gains the commands up to `c`
    have hall : ∀ x ∈ ((L.take c).drop n.last_applied).map PersistedEntry.command,
        decide (x ≠ []) = true := by
      intro x hx
      obtain ⟨e, he, rfl⟩ := List.mem_map.mp hx
      exact decide_eq_true (hne e (List.mem_of_mem_drop he))
    have hsplit : (L.take c).drop n.log.snapshot_last_index
        = (L.take n.last_applied).drop n.log.snapshot_last_index
          ++ (L.take c).drop n.last_applied := by
      have hcut : L.take c = L.take n.last_applied ++ (L.take c).drop n.last_applied := by
        have := (List.take_append_drop n.last_applied (L.take c)).symm
        rwa [List.take_take, Nat.min_eq_left (by omega)] at this
      have hle : n.log.snapshot_last_index ≤ (L.take n.last_applied).length := by
        rw [List.length_take]
        omega
      rw [← List.drop_append_of_le_length hle, ← hcut]
    rw [hqueue, h.queue hold, hshows.commands (by omega) hlen, List.filter_eq_self.mpr hall,
      hsplit, List.map_append]
  · obtain ⟨hlo, hhi, hcmd⟩ := mem_apply_committed (i := x.1) (c := x.2) hm
    dsimp only at hlo hhi hcmd
    rw [hcmd]
    exact hnew.applied hshows (by omega) hhi

/-! ## A leader advances its commit index -/

/-- A term that was won is positive, and its winner is a member. -/
theorem winner_pos (hr : Replog.Wf PersistedEntry.term (IsMajority P) r) (h : LogRel P s r)
    {t : ℕ} {c : ℤ} (hwon : r.winner t = some c) : 0 < t ∧ c ∈ P := by
  obtain ⟨Q, hQ, hvotes⟩ := hr.votes.backed t c hwon
  obtain ⟨v, hv, -⟩ := majority_inter hQ hQ
  refine ⟨?_, h.votes.vote_mem v t c (hvotes v hv)⟩
  obtain ⟨L, -, hL, -, -⟩ := hr.granted v t c (hvotes v hv)
  rcases Nat.eq_zero_or_pos t with rfl | hpos
  · rw [h.cand_pos] at hL
    simp at hL
  · exact hpos

/-- Sorting the match values down and taking the one at the majority's position finds a
value that a majority of the values reach. -/
theorem count_candidate {values : List ℕ} {majority k : ℕ}
    (hk : (values.insertionSort (· ≥ ·)).getD (majority - 1) 0 = k + 1) (hmaj : 0 < majority) :
    majority ≤ values.countP (fun x => decide (k + 1 ≤ x)) := by
  have hlt : majority - 1 < (values.insertionSort (· ≥ ·)).length := by
    by_contra hge
    rw [List.getD_eq_getElem?_getD, List.getElem?_eq_none (by omega)] at hk
    simp at hk
  have hget : (values.insertionSort (· ≥ ·))[majority - 1] = k + 1 := by
    rw [List.getD_eq_getElem?_getD, List.getElem?_eq_getElem hlt] at hk
    exact hk
  have hcount := count_ge_of_sorted (List.pairwise_insertionSort (· ≥ ·) values) hlt
  rw [hget, (List.perm_insertionSort (· ≥ ·) values).countP_eq] at hcount
  omega

/-- **What `advance_commit_index_locked` commits is chosen.** -/
theorem chosen_new_commit {n : RaftNode} {i : ℤ} (hi : i ∈ P) (hpos : 0 < r.term i)
    (hid : n.node_id = i) (hpeers : n.peers = P) (hterm : n.state.current_term = r.term i)
    (hshows : Shows n.log (r.log i)) (hsnap : n.log.snapshot_last_index ≤ n.commit_index)
    (hok : LeaderOk r n i) (hlt : n.commit_index < n.new_commit) :
    ∃ k, n.new_commit = k + 1 ∧ Chosen PersistedEntry.term (IsMajority P) r (r.term i) k := by
  rw [RaftNode.new_commit, compute_new_commit_index] at hlt ⊢
  split_ifs at hlt ⊢ with hcond
  · obtain ⟨k, hk⟩ : ∃ k, ((n.log.last_index :: n.stubs.map n.match_index).insertionSort
        (· ≥ ·)).getD (n.peers.length / 2 + 1 - 1) 0 = k + 1 :=
      ⟨_, (Nat.succ_pred_eq_of_pos (by omega)).symm⟩
    refine ⟨k, hk, ?_⟩
    rw [hk] at hcond
    have hcount := count_candidate hk (by omega)
    -- the entry at the candidate index is of the leader's term
    have hkl : k < (r.log i).length := by
      by_contra hge
      have hzero : n.log.term_at (k + 1) = 0 := by
        rw [RaftLog.term_at, if_neg (by omega), if_pos (by rw [hshows.last_index]; omega)]
      omega
    obtain ⟨e, hget⟩ : ∃ e, (r.log i)[k]? = some e := ⟨_, List.getElem?_eq_getElem hkl⟩
    have het : e.term = r.term i := by
      rw [← hshows.term_at (by omega) hget, hcond.2, hterm]
    rw [hok.log] at hget
    have hself := hok.acked e (List.mem_of_getElem? hget) het
    refine ⟨⟨e, hget, het⟩, insert i (n.stubs.filter (fun p => k + 1 ≤ n.match_index p)).toFinset,
      majority_insert hi ?_ ?_ ?_ ?_, ?_⟩
    · intro p hp
      rw [← hpeers]
      exact List.mem_of_mem_filter (List.mem_dedup.mp (List.mem_of_mem_filter hp))
    · exact (List.nodup_dedup _).filter _
    · intro hmem
      have hstub := List.mem_dedup.mp (List.mem_of_mem_filter hmem)
      rw [List.mem_filter, hid] at hstub
      simp at hstub
    · rw [hpeers, List.countP_cons, List.countP_map, List.countP_eq_length_filter] at hcount
      refine le_trans hcount ?_
      rw [Nat.add_comm]
      refine Nat.add_le_add ?_ (le_of_eq rfl)
      split <;> omega
    · intro v hv
      rcases Finset.mem_insert.mp hv with rfl | hv
      · rw [hself]
        exact (List.getElem?_eq_some_iff.mp hget).1
      · rw [List.mem_toFinset, List.mem_filter, decide_eq_true_iff] at hv
        exact le_trans hv.2 (hok.match_le v)
  · exact absurd hlt (lt_irrefl _)

/-- Advancing keeps a leader's commit index on chosen entries, and so is all it applies. -/
theorem Settled.advance {n : RaftNode} {i : ℤ} (hi : i ∈ P) (hpos : 0 < r.term i)
    (hid : n.node_id = i) (hpeers : n.peers = P) (hterm : n.state.current_term = r.term i)
    (hshows : Shows n.log (r.log i)) (hok : LeaderOk r n i)
    (h : Settled P r (r.term i) (r.log i) n) :
    Settled P r (r.term i) (r.log i) (advance_commit_index_locked n).1 ∧
      ∀ x ∈ (advance_commit_index_locked n).2, AppliedOk P r x.1 x.2 := by
  rcases advance_commit_cases n with heq | ⟨hlt, heq⟩
  · rw [heq]
    exact ⟨h, by simp⟩
  · obtain ⟨k, hk, hch⟩ :=
      chosen_new_commit hi hpos hid hpeers hterm hshows h.snapshot hok hlt
    rw [heq]
    exact h.apply hshows hlt
      (Or.inr ⟨r.term i, k, hpos, le_refl _, hch, by omega, by rw [hok.log]⟩)

/-! ## A follower follows -/

/-- **Following the leader's commit index is safe** once the stored log has the leader's
prefix up to the end of the request. -/
theorem Settled.follow {T m lc : ℕ} {L : List PersistedEntry} {n : RaftNode}
    (hshows : Shows n.log L) (hm : m ≤ L.length) (hagree : L.take m = (r.llog T).take m)
    (hlc : lc ≤ m) (hleader : CommitOk P r T (r.llog T) lc) (h : Settled P r T L n) :
    Settled P r T L (follow_commit n lc).1 ∧
      ∀ x ∈ (follow_commit n lc).2, AppliedOk P r x.1 x.2 := by
  unfold follow_commit
  by_cases hlt : lc > n.commit_index
  · have hmin : min lc n.log.last_index = lc := by
      rw [hshows.last_index]
      omega
    rw [if_pos hlt, hmin]
    exact h.apply hshows hlt (hleader.of_take (take_eq_of_le hagree hlc))
  · rw [if_neg hlt]
    exact ⟨h, by simp⟩

/-- Installing a snapshot of which `idx` entries are committed. -/
theorem Settled.install {T : ℕ} {L : List PersistedEntry} {n : RaftNode}
    {req : InstallSnapshotRequest} (h : Settled P r T L n)
    (hnew : CommitOk P r T L req.last_included_index) :
    Settled P r T L (handle_install_snapshot n req).1 := by
  have hu := unmoved_observe_term n req.term
  rcases handle_install_snapshot_cases n req with ⟨-, heq⟩ | ⟨-, -, heq⟩ | ⟨-, hlt, heq⟩
  · rw [heq]
    exact h.unmoved hu
  · rw [heq]
    exact h.unmoved ⟨hu.log, hu.commit, hu.applied, hu.queue⟩
  · -- the snapshot is newer than the one held: log, commit index and queue all move
    have happ := h.applied
    have hsnap := h.snapshot
    rw [heq, hu.applied, hu.queue]
    refine ⟨?_, ?_, ?_, fun hne => ?_⟩
    · dsimp only
      split
      · exact hnew
      · exact h.commit
    · dsimp only
      rw [RaftLog.compact, if_neg (by omega)]
      dsimp only
      split <;> omega
    · dsimp only
      rw [happ]
    · dsimp only at hne ⊢
      have hcompact : (n.log.compact req.last_included_index req.last_included_term
          req.data).snapshot_last_index = req.last_included_index := by
        rw [RaftLog.compact, if_neg (by omega)]
      rw [hcompact]
      by_cases hbeyond : req.last_included_index > n.last_applied
      · -- the whole queue goes, and the snapshot covers everything applied
        rw [if_pos hbeyond] at hne ⊢
        have hold : ∀ e ∈ L.take n.last_applied, e.command ≠ [] := by
          intro e he
          apply hne
          rw [show L.take n.last_applied = (L.take req.last_included_index).take n.last_applied by
            rw [List.take_take, Nat.min_eq_left (by omega)]] at he
          exact List.mem_of_mem_take he
        rw [h.queue hold, List.drop_of_length_le, List.drop_of_length_le]
        · rfl
        · rw [List.length_take]
          omega
        · rw [List.length_map, List.length_drop, List.length_take]
          omega
      · rw [if_neg hbeyond] at hne ⊢
        have hlen := h.commit.le_length
        rw [h.queue hne, List.length_map, List.length_drop, List.length_take,
          Nat.min_eq_left (show n.last_applied ≤ L.length by omega),
          Nat.min_eq_left (by omega), ← List.map_drop, List.drop_drop,
          show n.log.snapshot_last_index
            + (req.last_included_index - n.log.snapshot_last_index)
            = req.last_included_index by omega]

end NanoDB.Raft
