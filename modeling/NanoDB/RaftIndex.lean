/-
The order of a node's indices, and what stays in its log.

`snapshot_last_index ≤ last_applied = commit_index ≤ last_index` on every node, and the
committed entries behind the snapshot stay what they are. Both are read off `Inv` in one
state and in two states of a run. The same late `AppendEntries` that breaks state-machine
safety breaks them: `late_cut` leaves a follower with a commit index past the end of its log.
-/
import NanoDB.RaftSafety

set_option autoImplicit false

namespace NanoDB.Raft

/-! ## The reordering -/

/-- Node `1` gets two entries, learns that both are committed, and only then executes an
earlier `AppendEntries` of the same leader, which carries the first entry alone. -/
def late_cut : List Act :=
  let ae₁ : AppendEntriesRequest := ⟨1, 0, 0, 0, [⟨1, [97]⟩], 0⟩
  let ae₂ : AppendEntriesRequest := ⟨1, 0, 0, 0, [⟨1, [97]⟩, ⟨1, [98]⟩], 0⟩
  let heartbeat : AppendEntriesRequest := ⟨1, 0, 2, 1, [], 2⟩
  first_election ++
    [.propose 0 [97], .replicate 0,
      .send_check ⟨0, 1, 1, 1, false⟩, .send_build ⟨0, 1, 1, 1, true⟩,
      .propose 0 [98], .replicate 0,
      .send_check ⟨0, 1, 1, 1, false⟩, .send_build ⟨0, 1, 1, 1, true⟩,
      .deliver_append_entries 1 ae₂, .append_reply 1 ae₂ ⟨1, true⟩,
      .replicate 0, .send_check ⟨0, 1, 1, 3, false⟩, .send_build ⟨0, 1, 1, 3, true⟩,
      .deliver_append_entries 1 heartbeat, .deliver_append_entries 1 ae₁]

/-- Entry `2` was committed and applied on node `1`; now it is gone, and the commit index
points past the end of the log. -/
theorem late_cut_below_commit :
    (run [0, 1, 2] late_cut.dropLast).map (fun s => ((s.node 1).commit_index,
        (s.node 1).log.last_index, (s.node 1).log.command_at 2)) = some (2, 2, [98]) ∧
    (run [0, 1, 2] late_cut).map (fun s => ((s.node 1).last_applied, (s.node 1).commit_index,
        (s.node 1).log.last_index, (s.node 1).log.command_at 2)) = some (2, 2, 1, []) :=
  ⟨rfl, rfl⟩

/-! ## Runs in order -/

/-- **The indices are in order, and committed entries stay.** In two states of a run in order,
`s` and a later `s'`: on every node the snapshot lies below `last_applied`, which is the
commit index, which lies within the log; and an entry committed in `s` behind the snapshot
is in `s'` covered by a snapshot or the same. -/
theorem index_order {peers : List ℤ} (hsent : -1 ∉ peers) {acts acts' : List Act}
    {s s' : Cluster} (hok : Trace.Along step InOrder (Cluster.init peers) (acts ++ acts'))
    (hs : run peers acts = some s) (hs' : Trace.run step s acts' = some s') (i : ℤ) :
    ((s.node i).log.snapshot_last_index ≤ (s.node i).last_applied ∧
      (s.node i).last_applied = (s.node i).commit_index ∧
      (s.node i).commit_index ≤ (s.node i).log.last_index) ∧
    ∀ idx, (s.node i).log.snapshot_last_index < idx → idx ≤ (s.node i).commit_index →
      idx ≤ (s'.node i).log.snapshot_last_index ∨
        ((s'.node i).log.has_real_entry_at idx = true ∧
          (s'.node i).log.term_at idx = (s.node i).log.term_at idx ∧
          (s'.node i).log.command_at idx = (s.node i).log.command_at idx) := by
  rw [Trace.along_append hs] at hok
  obtain ⟨r, hI, -⟩ := run_inv hsent (inv_init peers) hok.1 hs
  obtain ⟨r', hI', hl⟩ := run_inv hsent hI hok.2 hs'
  obtain ⟨hcommit, hsnap, happlied, -⟩ := hI.commit.node i
  refine ⟨⟨by rw [happlied]; exact hsnap, happlied, ?_⟩, fun idx hreal hidx => ?_⟩
  · rw [hI.logs.last_index i]
    exact hcommit.le_length
  · rcases Nat.lt_or_ge (s'.node i).log.snapshot_last_index idx with hlt | hge
    · -- still above the new snapshot: the committed prefix of the log is what it was
      have hkept := hl.keeps i _ hcommit
      obtain ⟨hentry, hsame⟩ := entry_eq_of_take (hI.logs.shows i) (hI'.logs.shows i) hkept.symm
        hcommit.le_length hidx hreal hlt
      refine Or.inr ⟨?_, hsame⟩
      exact (has_real_entry_at_iff _ _).mpr ⟨hlt, ((has_entry_at_iff _ _).mp hentry).2⟩
    · exact Or.inl hge

/-- Two entries committed by node `0`, both stored on node `1`. -/
def two_committed : List Act :=
  in_order ++
    [.propose 0 [98], .replicate 0,
      .send_check ⟨0, 1, 1, 2, false⟩, .send_build ⟨0, 1, 1, 2, true⟩,
      .deliver_append_entries 1 ⟨1, 0, 1, 1, [⟨1, [98]⟩], 1⟩,
      .append_reply 1 ⟨1, 0, 1, 1, [⟨1, [98]⟩], 1⟩ ⟨1, true⟩]

/-- Node `0` compacts its first entry and offers the snapshot to node `2`. -/
def snapshot_sent : List Act :=
  [.compact 0 1 [7], .send_check ⟨0, 1, 2, 1, false⟩,
    .deliver_install_snapshot 2 ⟨1, 0, 1, 1, [7]⟩, .snapshot_reply 2 ⟨1, 0, 1, 1, [7]⟩ ⟨1⟩]

/-- The second entry of node `0` survives the compaction of the first; node `2` has the
snapshot and nothing behind it. -/
theorem index_order_snapshot_sent : ∃ s s', run [0, 1, 2] two_committed = some s ∧
    Trace.run step s snapshot_sent = some s' ∧
    (s'.node 0).log.snapshot_last_index = 1 ∧ (s'.node 2).log.snapshot_last_index = 1 ∧
    (s'.node 0).log.command_at 2 = (s.node 0).log.command_at 2 := by
  have hview : (run [0, 1, 2] two_committed).map (fun s => ((s.node 0).commit_index,
      (s.node 0).log.snapshot_last_index)) = some (2, 0) := rfl
  have hview' : (run [0, 1, 2] (two_committed ++ snapshot_sent)).map
      (fun s => ((s.node 0).log.snapshot_last_index, (s.node 2).log.snapshot_last_index))
      = some (1, 1) := rfl
  obtain ⟨s, hs, hs₀⟩ := Option.map_eq_some_iff.mp hview
  have hrun : Trace.run step (Cluster.init [0, 1, 2]) two_committed = some s := hs
  unfold run at hview'
  rw [Trace.run_append, hrun, Option.bind_some] at hview'
  obtain ⟨s', hs', hs₁⟩ := Option.map_eq_some_iff.mp hview'
  simp only [Prod.mk.injEq] at hs₀ hs₁
  have hkept := (index_order (by decide) (by decide +kernel) hs hs' 0).2 2
    (by rw [hs₀.2]; decide) (by rw [hs₀.1])
  rw [hs₁.1] at hkept
  exact ⟨s, s', hs, hs', hs₁.1, hs₁.2, (hkept.resolve_left (by decide)).2.2⟩

end NanoDB.Raft
