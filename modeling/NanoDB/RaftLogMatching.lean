/-
Log matching, and leaders that only append.

Both are read off the refinement of `RaftMatching`, so they hold in every run without
compaction, the reordered `AppendEntries` of `RaftSafety` included: a late request can cut a
follower's log, but what is left is still a prefix of some leader's log.

# The one awkward thing, named up front

That a leader never loses an entry is not only about its time as `Leader`: a node that
restarts in the term it won is a follower of that term, and one `AppendEntries` of that term
in its mailbox would cut its log. There is none, since a leader sends to its stubs and
nobody else wins the term. `OwnLog` is that invariant: whoever won the term it is in has the
leader log, in whatever role.
-/
import NanoDB.RaftSafety

set_option autoImplicit false

namespace NanoDB.Raft

open Ballot Quorum Replog

variable {P : List ℤ} {s s' : Cluster} {r r' : Logs}

/-! ## Where tasks and requests come from -/

/-- A task was there before, up to its progress, or is new for a stub of a leader. -/
theorem step_tasks {a : Act} (hs : step s a = some s') : ∀ t ∈ s'.tasks,
    (∃ t₀ ∈ s.tasks, t₀.term = t.term ∧ t₀.peer = t.peer) ∨
      ∃ i, (s.node i).role = .Leader ∧ t.term = (s.node i).state.current_term ∧
        t.peer ∈ (s.node i).stubs := by
  intro t ht
  have hspec := step_spec hs
  rw [hspec.tasks] at ht
  have old : t ∈ s.tasks → ∃ t₀ ∈ s.tasks, t₀.term = t.term ∧ t₀.peer = t.peer :=
    fun ht => ⟨t, ht, rfl, rfl⟩
  cases a with
  | replicate i =>
      rcases List.mem_append.mp ht with ht | ht
      · obtain ⟨p, hp, rfl⟩ := List.mem_map.mp ht
        exact Or.inr ⟨i, hspec.enabled.2, rfl, hp⟩
      · exact Or.inl (old ht)
  | send_check task =>
      simp only [Act.tasks] at ht
      split at ht
      · -- a checked task goes on to its second half, for the same term and peer
        rcases List.mem_cons.mp ht with rfl | ht
        · exact Or.inl ⟨task, hspec.enabled.1, rfl, rfl⟩
        · exact Or.inl (old (List.mem_of_mem_erase ht))
      · exact Or.inl (old (List.mem_of_mem_erase ht))
  | send_build task => exact Or.inl (old (List.mem_of_mem_erase ht))
  | restart i => exact Or.inl (old (List.mem_of_mem_filter ht))
  | _ => exact Or.inl (old ht)

/-- An `AppendEntries` is sent by a task for its addressee. -/
theorem sent_append {a : Act} (hs : step s a = some s') {d : ℤ} {req : AppendEntriesRequest}
    (hm : Message.append_entries d req ∈ a.sent s) :
    ∃ t ∈ s.tasks, t.term = req.term ∧ t.peer = d := by
  cases a with
  | send_check task =>
      simp only [Act.sent] at hm
      split at hm <;> simp at hm
  | send_build task =>
      simp only [Act.sent] at hm
      split at hm
      · rename_i q hb
        obtain ⟨rfl, rfl⟩ := Message.append_entries.inj (List.mem_singleton.mp hm)
        refine ⟨task, (step_spec hs).enabled.1, ?_, rfl⟩
        rw [build_append_entries] at hb
        split_ifs at hb
        rw [← Option.some.inj hb]
      · simp at hm
  | _ => simp [Act.sent] at hm

/-! ## Winners keep their log -/

/-- Whoever won the term it is in has the leader log of that term. -/
def Owned (r : Logs) : Prop := ∀ i, r.winner (r.term i) = some i → r.log i = r.llog (r.term i)

theorem owned_enter (hr : Replog.Wf PersistedEntry.term (IsMajority P) r) (h : LogRel P s r)
    (hown : Owned r) {i : ℤ} {t : ℕ} (ht : r.term i ≤ t) : Owned (r.enter i t) := by
  intro j hj
  by_cases hji : j = i
  · subst hji
    have hterm : (r.enter j t).term j = t := enter_term_self r.toVotes j t
    rw [hterm] at hj ⊢
    -- a later term cannot have been won by `j`
    rcases Nat.lt_or_ge (r.term j) t with hlt | hge
    · exact absurd hj (h.votes.winner_fresh hr.votes hlt)
    · obtain rfl : r.term j = t := Nat.le_antisymm ht hge
      exact hown j hj
  · have hterm : (r.enter i t).term j = r.term j := enter_term_ne r.toVotes t hji
    rw [hterm] at hj ⊢
    exact hown j hj

theorem owned_elect (hown : Owned r) (i : ℤ) : Owned (r.elect i (r.term i)) := by
  intro j hj
  have hterm : (r.elect i (r.term i)).term j = r.term j := rfl
  rw [hterm] at hj ⊢
  by_cases hsame : r.term j = r.term i
  · have hwin : (r.elect i (r.term i)).winner (r.term j) = some i := by
      rw [hsame]
      exact win_winner_self r.toVotes i (r.term i)
    obtain rfl : i = j := Option.some.inj (hwin.symm.trans hj)
    rw [hsame]
    exact (elect_llog_self r i (r.term i)).symm
  · have hwin : (r.elect i (r.term i)).winner (r.term j) = r.winner (r.term j) :=
      win_winner_ne r.toVotes i hsame
    rw [hwin] at hj
    rw [elect_llog_ne r i hsame]
    exact hown j hj

theorem owned_append (hown : Owned r) {i : ℤ} (hi : r.winner (r.term i) = some i)
    (e : PersistedEntry) : Owned (r.append i e) := by
  intro j hj
  have hterm : (r.append i e).term j = r.term j := rfl
  rw [hterm] at hj ⊢
  by_cases hji : j = i
  · subst hji
    rw [append_log_self, append_llog_self, hown j hi]
  · have hne : r.term j ≠ r.term i := by
      intro heq
      have hj' : r.winner (r.term j) = some j := hj
      rw [heq, hi] at hj'
      exact hji (Option.some.inj hj').symm
    rw [append_log_ne r e hji, append_llog_ne r e hne]
    exact hown j hj

theorem owned_accept {i : ℤ} (hown : Owned r) (hi : r.winner (r.term i) ≠ some i) (m : ℕ) :
    Owned (r.accept i m) := by
  intro j hj
  have hterm : (r.accept i m).term j = r.term j := rfl
  rw [hterm] at hj ⊢
  have hji : j ≠ i := by
    rintro rfl
    exact hi hj
  simpa [State.accept, State.ack, hji] using hown j hj

/-- Winners have their leader log, and nobody is sent an `AppendEntries` of a term it won. -/
structure OwnLog (s : Cluster) (r : Logs) : Prop where
  owned : Owned r
  task : ∀ t ∈ s.tasks, r.winner t.term ≠ some t.peer
  append : ∀ d req, Message.append_entries d req ∈ s.msgs → r.winner req.term ≠ some d

theorem ownLog_init (P : List ℤ) : OwnLog (Cluster.init P) State.init :=
  ⟨fun _ _ => rfl, fun _ ht => absurd ht (by simp [Cluster.init]),
    fun _ _ hm => absurd hm (by simp [Cluster.init])⟩

/-- The winner of a term that has been won does not change. -/
theorem winner_ne_mono (hle : Replog.Le PersistedEntry.term r r') {t : ℕ} {d : ℤ}
    (hwon : r.winner t ≠ none) (h : r.winner t ≠ some d) : r'.winner t ≠ some d := by
  obtain ⟨c, hc⟩ := Option.ne_none_iff_exists'.mp hwon
  rw [hle.votes.winner t c hc]
  rw [hc] at h
  exact h

/-- The moves of one act keep the winners' logs. -/
theorem owned_shadow (hr : Replog.Wf PersistedEntry.term (IsMajority P) r) (h : LogRel P s r)
    (hown : OwnLog s r) {a : Act} (ha : a.Plain) (hs : step s a = some s')
    (hle : Replog.Le PersistedEntry.term r (shadow s s' r a)) : Owned (shadow s s' r a) := by
  -- a member that changes term owns nothing there, unless it had won it
  have enter : ∀ i t, r.term i ≤ (r.enter i t).term i → Owned (r.enter i t) := by
    intro i t ht
    have hterm : (r.enter i t).term i = t := enter_term_self r.toVotes i t
    exact owned_enter hr h hown.owned (hterm ▸ ht)
  have hterm := hle.votes.term
  cases a with
  | start_election i => exact enter i (r.term i + 1) (hterm i)
  | deliver_request_vote i req =>
      simp only [shadow] at hterm ⊢
      split_ifs at hterm ⊢
      · exact enter i req.term (hterm i)
      · exact enter i _ (hterm i)
  | finish_election i =>
      simp only [shadow]
      split_ifs
      · exact owned_elect hown.owned i
      · exact hown.owned
  | propose i command =>
      exact owned_append hown.owned (h.votes.leader i (step_spec hs).enabled.2) _
  | deliver_append_entries i req =>
      simp only [shadow] at hterm ⊢
      split_ifs at hterm ⊢
      · exact enter i req.term (hterm i)
      · apply owned_accept (enter i req.term (hterm i))
        have hreq : (r.enter i req.term).term i = req.term := enter_term_self r.toVotes i req.term
        rw [hreq]
        exact hown.append i req (step_spec hs).enabled.2
      · exact enter i _ (hterm i)
  | deliver_install_snapshot i req => exact absurd ha id
  | _ => exact enter _ _ (hterm _)

theorem ownLog_step (hr : Replog.Wf PersistedEntry.term (IsMajority P) r) (h : LogRel P s r)
    (hown : OwnLog s r) {a : Act} (ha : a.Plain) (hs : step s a = some s')
    (hle : Replog.Le PersistedEntry.term r (shadow s s' r a)) :
    OwnLog s' (shadow s s' r a) := by
  refine ⟨owned_shadow hr h hown ha hs hle, fun t ht => ?_, fun d req hm => ?_⟩
  · rcases step_tasks hs t ht with ⟨t₀, ht₀, hterm, hpeer⟩ | ⟨i, hl, hterm, hpeer⟩
    · rw [← hterm, ← hpeer]
      exact winner_ne_mono hle (h.task t₀ ht₀).won (hown.task t₀ ht₀)
    · have hwin := h.votes.leader i hl
      have hne : t.peer ≠ i := by
        unfold RaftNode.stubs at hpeer
        rw [List.mem_dedup, List.mem_filter, h.votes.node_id i] at hpeer
        exact of_decide_eq_true hpeer.2
      rw [hterm, h.votes.term i, hle.votes.winner _ _ hwin]
      intro heq
      exact hne (Option.some.inj heq).symm
  · rw [(step_spec hs).msgs] at hm
    rcases List.mem_append.mp hm with hm | hm
    · obtain ⟨t, ht, hterm, hpeer⟩ := sent_append hs hm
      rw [← hterm, ← hpeer]
      exact winner_ne_mono hle (h.task t ht).won (hown.task t ht)
    · exact winner_ne_mono hle (h.append hm).won (hown.append d req hm)

/-! ## Whole runs -/

/-- Without snapshots and without a guard every act is allowed. -/
theorem allowed_plain (h : ∀ i, (s.node i).log.Plain) {a : Act} (ha : a.Plain) :
    Allowed (fun _ _ => True) s r a := by
  cases a with
  | send_build task =>
      intro _ _
      rw [(h task.leader).1]
      exact Nat.zero_le _
  | deliver_append_entries i req =>
      intro _ _
      refine ⟨?_, fun _ => trivial⟩
      rw [Covered, (h i).1]
      simp
  | deliver_install_snapshot i req => exact absurd ha id
  | compact i up_to data => exact absurd ha id
  | _ => trivial

/-- The refinement along a run without compaction. -/
theorem run_refines (hsent : -1 ∉ P) (hr : Replog.Wf PersistedEntry.term (IsMajority P) r)
    (h : LogRel P s r) (hplain : ∀ i, (s.node i).log.Plain) (hown : OwnLog s r)
    {acts : List Act} (hacts : ∀ a ∈ acts, a.Plain) (hs : Trace.run step s acts = some s') :
    ∃ r', Replog.Wf PersistedEntry.term (IsMajority P) r' ∧ LogRel P s' r' ∧ OwnLog s' r' ∧
      Replog.Le PersistedEntry.term r r' := by
  have hend := Trace.run_invariant_along
    (P := fun t => ∃ r', Replog.Wf PersistedEntry.term (IsMajority P) r' ∧ LogRel P t r' ∧
      OwnLog t r' ∧ Replog.Le PersistedEntry.term r r' ∧ ∀ i, (t.node i).log.Plain)
    (fun t a t' ht ha hstep => by
      obtain ⟨r₁, hr₁, h₁, hown₁, hle₁, hplain₁⟩ := ht
      -- no guard: a request may cut the log it is stored in
      obtain ⟨hsteps, hlogs⟩ : Refines P (fun _ _ => True) t t' r₁ a :=
        step_refines hsent hr₁ h₁ (allowed_plain hplain₁ ha) hstep
      obtain ⟨hwf, hle⟩ := steps_wf (inter P) hsteps hr₁
      exact ⟨_, hwf, hlogs, ownLog_step hr₁ h₁ hown₁ ha hstep hle, hle₁.trans hle,
        plain_step ha hstep hplain₁⟩)
    ⟨r, hr, h, hown, Replog.Le.refl r, hplain⟩ (Trace.along_of_forall hacts s) hs
  obtain ⟨r', hr', h', hown', hle, -⟩ := hend
  exact ⟨r', hr', h', hown', hle⟩

/-- **Log matching.** In every run without compaction of a cluster none of whose node ids is
the sentinel `-1`: logs of two nodes with an entry of one term at one index are identical up
to it; and a leader's log is kept, entry by entry, in every later state in which the node is
still in the term it leads, whatever its role there. -/
theorem log_matching {peers : List ℤ} (hsent : -1 ∉ peers) {acts acts' : List Act}
    {s s' : Cluster} (hacts : ∀ a ∈ acts ++ acts', a.Plain) (hs : run peers acts = some s)
    (hs' : Trace.run step s acts' = some s') :
    (∀ i j idx, (s.node i).log.has_entry_at idx = true → (s.node j).log.has_entry_at idx = true →
      (s.node i).log.term_at idx = (s.node j).log.term_at idx →
      ∀ k, 0 < k → k ≤ idx →
        (s.node j).log.term_at k = (s.node i).log.term_at k ∧
          (s.node j).log.command_at k = (s.node i).log.command_at k) ∧
    ∀ i, (s.node i).role = .Leader →
      (s'.node i).state.current_term = (s.node i).state.current_term →
      (s.node i).log.entries <+: (s'.node i).log.entries := by
  have hpre : ∀ a ∈ acts, a.Plain := fun a ha => hacts a (List.mem_append_left _ ha)
  have hpost : ∀ a ∈ acts', a.Plain := fun a ha => hacts a (List.mem_append_right _ ha)
  have hp := run_plain (fun _ _ ha => ha) (init_plain peers) (Trace.along_of_forall hpre _) hs
  have hp' := run_plain (fun _ _ ha => ha) hp (Trace.along_of_forall hpost s) hs'
  obtain ⟨r, hr, h, hown, -⟩ := run_refines hsent Replog.wf_init (logRel_init peers)
    (init_plain peers) (ownLog_init peers) hpre hs
  obtain ⟨r', hr', h', hown', hle⟩ := run_refines hsent hr h hp hown hpost hs'
  refine ⟨fun i j idx hi hj hterm k hpos hk => ?_, fun i hl hterm => ?_⟩
  · rw [has_entry_at_iff, h.last_index i] at hi
    rw [has_entry_at_iff, h.last_index j] at hj
    obtain ⟨m, rfl⟩ : ∃ m, idx = m + 1 := ⟨idx - 1, by omega⟩
    have hgi : (r.log i)[m]? = some (r.log i)[m] := List.getElem?_eq_getElem _
    have hgj : (r.log j)[m]? = some (r.log j)[m] := List.getElem?_eq_getElem _
    rw [(h.shows i).term_at (by rw [(hp i).1]; omega) hgi,
      (h.shows j).term_at (by rw [(hp j).1]; omega) hgj] at hterm
    -- equal terms at one index: both are prefixes of that term's leader log
    have htake := (hr.log_sourced i).matching (hr.log_sourced j) hgi hgj hterm
    exact (entry_eq_of_take (h.shows i) (h.shows j) htake hi.2 hk
      (by rw [(hp i).1]; exact hpos) (by rw [(hp j).1]; exact hpos)).2
  · rw [h.votes.term, h'.votes.term] at hterm
    have hwin := h.votes.leader i hl
    -- the leader log of a won term only grows
    obtain ⟨ext, hext, -⟩ := hle.llog (r.term i) (by rw [hwin]; simp)
    have hlog' : r'.log i = r'.llog (r'.term i) := by
      apply hown'.owned i
      rw [hterm]
      exact hle.votes.winner _ _ hwin
    rw [(h.shows i).plain (hp i), (h'.shows i).plain (hp' i), (h.leader i hl).log, hlog', hterm,
      hext]
    exact List.prefix_append _ _

/-- Nodes `0` and `1` after the first commit, and node `0` one proposal later. -/
theorem log_matching_in_order : ∃ s s', run [0, 1, 2] in_order = some s ∧
    Trace.run step s [.propose 0 [98]] = some s' ∧
    (s.node 1).log.command_at 1 = (s.node 0).log.command_at 1 ∧
    (s.node 0).log.entries <+: (s'.node 0).log.entries := by
  have hview : (run [0, 1, 2] in_order).map (fun s => ((s.node 0).log, (s.node 1).log,
      (s.node 0).role, (s.node 0).state.current_term))
      = some ({ entries := [⟨1, [97]⟩] }, { entries := [⟨1, [97]⟩] }, .Leader, 1) := rfl
  have hterm : (run [0, 1, 2] (in_order ++ [.propose 0 [98]])).map
      (fun s => (s.node 0).state.current_term) = some 1 := rfl
  obtain ⟨s, hs, hs₀⟩ := Option.map_eq_some_iff.mp hview
  have hrun : Trace.run step (Cluster.init [0, 1, 2]) in_order = some s := hs
  unfold run at hterm
  rw [Trace.run_append, hrun, Option.bind_some] at hterm
  obtain ⟨s', hs', hterm'⟩ := Option.map_eq_some_iff.mp hterm
  simp only [Prod.mk.injEq] at hs₀
  obtain ⟨h₀, h₁, hl, ht⟩ := hs₀
  obtain ⟨hmatch, hkeep⟩ := log_matching (by decide) (by decide) hs hs'
  refine ⟨s, s', hs, hs', (hmatch 0 1 1 (by rw [h₀]; rfl) (by rw [h₁]; rfl) (by rw [h₀, h₁]) 1
    (by decide) (by decide)).2, hkeep 0 hl (hterm'.trans ht.symm)⟩

end NanoDB.Raft
