/-
The hash ring is never empty.

The remove handler refuses to remove the last shard, but it counts the shards its own
coordinator knows at that time. The command is committed after the migration, and in between
another coordinator may have had another shard removed.

`ring_never_empty` holds when no other removal is committed between what the handler's
coordinator had applied at its checks and the handler's own command, or so few of them that some of
the shards it counted are left. It also needs that all coordinators agree on the shards, which they
do as long as the topology is the fold of the commands.
-/
import NanoDB.CoordAdmin

set_option autoImplicit false

namespace NanoDB.Coord

/-! ## Removals in the fold -/

/-- The active ids after the commands. -/
def ids_after (config : List ShardEndpoint) (cmds : List Command) : Finset ℤ :=
  cmds.foldl fold_ids (config_ids config)

theorem ids_after_append (config : List ShardEndpoint) (cmds : List Command) (cmd : Command) :
    ids_after config (cmds ++ [cmd]) = fold_ids (ids_after config cmds) cmd := by
  unfold ids_after
  rw [List.foldl_append]
  rfl

def Command.removes : Command → Bool
  | .remove_shard _ => true
  | _ => false

/-- A removal takes at most one id away, and no other command any. -/
theorem card_le_foldl_ids (cmds : List Command) : ∀ ids : Finset ℤ,
    ids.card ≤ (cmds.foldl fold_ids ids).card + cmds.countP Command.removes := by
  induction cmds with
  | nil =>
      intro ids
      exact le_refl _
  | cons cmd cmds ih =>
      intro ids
      have hrest := ih (fold_ids ids cmd)
      rw [List.foldl_cons, List.countP_cons]
      cases cmd with
      | add_shard k replicas =>
          have := Finset.card_le_card (Finset.subset_insert k ids)
          simp only [fold_ids, Command.removes] at hrest ⊢
          omega
      | remove_shard k =>
          have := Finset.pred_card_le_card_erase (s := ids) (a := k)
          simp only [fold_ids, Command.removes, if_true] at hrest ⊢
          omega
      | set_primary k r => exact hrest
      | malformed => exact hrest

/-- The number of active ids of a coordinator that holds the fold. -/
theorem active_ids_of_folds {config : List ShardEndpoint} {cmds : List Command}
    (hcmds : ∀ cmd ∈ cmds, cmd.WellFormed) {g : List ShardClient}
    (h : Folds config cmds (live_shards g)) : active_ids g = (ids_after config cmds).sort := by
  apply active_ids_eq
  intro k
  unfold Folds at h
  rw [replicas_of_live] at h
  rw [← replicas_of_ne_nil, h]
  apply mem_fold_ids hcmds
  intro j
  simp [config_ids, config_replicas]

/-! ## Every run -/

/-- If it is a removal, no other one was committed behind the commands its checks stand for, or
with all of them and itself a shard is left of those it counted. -/
def Proposal.Spares (config : List ShardEndpoint) (history : List Command) (p : Proposal) : Prop :=
  p.command.removes = true → (history.drop p.seen).countP Command.removes = 0 ∨
    (history.drop p.seen).countP Command.removes + 1 < (ids_after config (history.take p.seen)).card

instance decidableSpares (config : List ShardEndpoint) (history : List Command) (p : Proposal) :
    Decidable (p.Spares config history) :=
  inferInstanceAs (Decidable (_ → _))

/-- The condition on a step: a removal that is committed spares a shard, and a poll meets
`Fresh`. -/
def Unrivalled (config : List ShardEndpoint) (s : Admin) : AdminAct → Prop
  | .commit j => ∀ p ∈ s.proposed[j]?, p.Spares config s.fleet.history
  | .turn i (.poll _) => PollMeets Fresh (s.fleet.node i)
  | _ => True

instance decidableUnrivalled (config : List ShardEndpoint) (s : Admin) :
    ∀ a, Decidable (Unrivalled config s a)
  | .commit j => inferInstanceAs (Decidable (∀ p ∈ s.proposed[j]?, p.Spares config s.fleet.history))
  | .turn i (.poll threshold) => decidableEventMeets s.fleet (.turn i (.poll threshold))
  | .turn _ .deliver => isTrue trivial
  | .add _ _ _ _ => isTrue trivial
  | .remove _ _ _ => isTrue trivial
  | .set_primary _ _ _ _ => isTrue trivial
  | .health_check _ _ _ _ => isTrue trivial
  | .propose _ => isTrue trivial
  | .release _ => isTrue trivial
  | .send_snapshot _ => isTrue trivial
  | .install_snapshot _ _ _ => isTrue trivial

structure RingRun (config : List ShardEndpoint) (s : Admin) : Prop where
  follows : FleetFollows (Folds config) s.fleet
  sees : ∀ i, Sees (Folds config) s.fleet.history (s.position i) (s.fleet.node i).1
  wellFormed : ∀ cmd ∈ s.fleet.history, cmd.WellFormed
  nonempty : ∀ n, (ids_after config (s.fleet.history.take n)).Nonempty
  pending : ∀ p ∈ s.checked ++ s.proposed, p.command.WellFormed ∧
    p.seen ≤ s.fleet.history.length ∧ ∀ k, p.command = .remove_shard k →
      1 < (ids_after config (s.fleet.history.take p.seen)).card

section Run

variable {config : List ShardEndpoint} {s s' : Admin} {a : AdminAct}

/-- What the checks let through is well-formed, and a removal leaves another shard in the
topology it was checked against. -/
theorem RingRun.checked (hs : RingRun config s) {p : Proposal}
    (hseen : p.seen = s.position p.coordinator)
    (hcmd : Checked a p.coordinator (s.fleet.node p.coordinator).1 p.command) :
    p.command.WellFormed ∧ p.seen ≤ s.fleet.history.length ∧
      ∀ k, p.command = .remove_shard k →
        1 < (ids_after config (s.fleet.history.take p.seen)).card := by
  obtain ⟨hbound, hfolds⟩ := hs.sees p.coordinator
  rw [← hseen] at hbound hfolds
  refine ⟨?_, hbound, fun k hk => ?_⟩
  · cases hp : p.command with
    | add_shard k replicas =>
        rw [hp] at hcmd
        exact hcmd.2.1
    | remove_shard k => trivial
    | set_primary k r => trivial
    | malformed =>
        rw [hp] at hcmd
        exact hcmd
  · rw [hk] at hcmd
    have hmany : 1 < (active_ids (s.fleet.node p.coordinator).1.g_shards).length := hcmd
    rw [active_ids_of_folds (fun cmd h => hs.wellFormed cmd (List.mem_of_mem_take h)) hfolds,
      Finset.length_sort] at hmany
    exact hmany

/-- A committed command leaves a shard. -/
theorem RingRun.commit (hs : RingRun config s) {p : Proposal} (hp : p ∈ s.checked ++ s.proposed)
    (hspares : p.Spares config s.fleet.history) :
    (ids_after config (s.fleet.history ++ [p.command])).Nonempty := by
  obtain ⟨-, -, hmany⟩ := hs.pending p hp
  have hall := hs.nonempty s.fleet.history.length
  rw [List.take_length] at hall
  rw [ids_after_append]
  cases hcmd : p.command with
  | add_shard k replicas => exact Finset.insert_nonempty _ _
  | remove_shard k =>
      -- of the shards of the check there are two left
      have hcard := card_le_foldl_ids (s.fleet.history.drop p.seen)
        (ids_after config (s.fleet.history.take p.seen))
      rw [ids_after, ← List.foldl_append, List.take_append_drop] at hcard
      have hmany := hmany k hcmd
      have htwo : 1 < (ids_after config s.fleet.history).card := by
        unfold ids_after at hmany ⊢
        rcases hspares (by rw [hcmd]; rfl) with hnone | hfew
        · omega
        · unfold ids_after at hfew
          omega
      exact Finset.Nontrivial.erase_nonempty (Finset.one_lt_card_iff_nontrivial.mp htwo)
  | set_primary k r => exact hall
  | malformed => exact hall

theorem ringRun_step (hs : RingRun config s) (ha : Unrivalled config s a)
    (h : admin_step s a = some s') : RingRun config s' := by
  obtain ⟨hfleet, hpos, hpending⟩ |
    ⟨e, hstep, hpos, hpending, hcommitted, hturn⟩ := admin_step_cases h
  · refine ⟨by rw [hfleet]; exact hs.follows, by rw [hfleet, hpos]; exact hs.sees,
      by rw [hfleet]; exact hs.wellFormed, by rw [hfleet]; exact hs.nonempty, fun p hp => ?_⟩
    rw [hfleet]
    rcases hpending p hp with hp | ⟨hseen, hcmd⟩
    · exact hs.pending p hp
    · exact hs.checked hseen hcmd
  · -- a turn of the fleet: only what a handler committed is new in the history
    have hmeets : e.Meets Fresh s.fleet := by
      unfold Event.Meets
      split
      · rename_i i threshold
        rw [hturn i _ rfl] at ha
        exact ha
      · trivial
    have hhistory := Fleet.step_history hstep
    refine ⟨hs.follows.step (folds_stable config) hmeets hstep, ?_, ?_, ?_, fun p hp => ?_⟩
    · rw [hpos]
      exact hs.follows.sees (folds_stable config) hmeets hs.sees hstep
    · rw [hhistory]
      intro cmd hcmd
      rcases List.mem_append.mp hcmd with hcmd | hcmd
      · exact hs.wellFormed cmd hcmd
      · obtain ⟨j, p, -, hj, rfl⟩ := hcommitted cmd hcmd
        exact (hs.pending p (List.mem_append_right _ (List.mem_of_getElem? hj))).1
    · intro n
      rw [hhistory]
      by_cases hn : n ≤ s.fleet.history.length
      · rw [List.take_append_of_le_length hn]
        exact hs.nonempty n
      · -- a prefix that takes in the new command
        rcases e.committed_cases with hnone | ⟨cmd, hone⟩
        · rw [hnone, List.append_nil]
          exact hs.nonempty n
        · obtain ⟨j, p, rfl, hj, rfl⟩ := hcommitted cmd (hone ▸ List.mem_singleton_self cmd)
          rw [hone, List.take_of_length_le (by rw [List.length_append]; exact not_le.mp hn)]
          exact hs.commit (List.mem_append_right _ (List.mem_of_getElem? hj)) (ha p hj)
    · obtain ⟨hwf, hbound, hmany⟩ := hs.pending p (hpending p hp)
      rw [hhistory, List.length_append, List.take_append_of_le_length hbound]
      exact ⟨hwf, Nat.le_add_right_of_le hbound, hmany⟩

/-- A coordinator that holds the fold routes to an active shard. -/
theorem RingRun.routes (hs : RingRun config s) {c : Coordinator} (hbuilt : c.Built) {n : ℕ}
    (hsees : Sees (Folds config) s.fleet.history n c) :
    c.active_ring.ring ≠ [] ∧ ∀ key, c.active_ring.route key ∈ active_ids c.g_shards := by
  have hids := active_ids_of_folds
    (fun cmd h => hs.wellFormed cmd (List.mem_of_mem_take h)) hsees.2
  have hne : active_ids c.g_shards ≠ [] := by
    intro hnil
    have hcard := congrArg List.length hids
    rw [hnil, Finset.length_sort] at hcard
    exact absurd hcard.symm (Finset.card_ne_zero.mpr (hs.nonempty n))
  rw [hbuilt]
  exact ⟨ring_ne_nil hne, fun key => route_mem hne key⟩

/-- **The ring is never empty.** In every run of the handlers that meets the condition, on every
coordinator, and at every moment of a poll that meets it, the ring has a point and every key is
routed to an active shard. -/
theorem ring_never_empty {c₀ : Coordinator} (hstart : start config 0 = some c₀)
    {acts : List AdminAct}
    (hacts : Trace.Along admin_step (Unrivalled config) { fleet := Fleet.init c₀ } acts)
    (hrun : Trace.run admin_step { fleet := Fleet.init c₀ } acts = some s) (i : ℤ) :
    ((s.fleet.node i).1.active_ring.ring ≠ [] ∧
      ∀ key, (s.fleet.node i).1.active_ring.route key ∈ active_ids (s.fleet.node i).1.g_shards) ∧
    (PollMeets Fresh (s.fleet.node i) → ∀ c ∈ moments (s.fleet.node i),
      c.active_ring.ring ≠ [] ∧ ∀ key, c.active_ring.route key ∈ active_ids c.g_shards) := by
  have hinit : RingRun config { fleet := Fleet.init c₀ } := by
    have hsees : Sees (Folds config) [] 0 c₀ := ⟨Nat.zero_le _, folds_start hstart⟩
    refine ⟨fleetFollows_init hstart (folds_start hstart), fun j => hsees,
      fun cmd hcmd => absurd hcmd (by simp [Fleet.init]), fun n => ?_,
      fun p hp => absurd hp (by simp)⟩
    -- the config names a shard
    have hne : config ≠ [] := by
      rintro rfl
      simp [start] at hstart
    obtain ⟨ep, rest, rfl⟩ := List.exists_cons_of_ne_nil hne
    rw [show (Fleet.init c₀).history = [] from rfl, List.take_nil]
    exact ⟨ep.shard_id, by simp [ids_after, config_ids]⟩
  have hs : RingRun config s := Trace.run_invariant_along
    (fun t a t' ht ha h => ringRun_step ht ha h) hinit hacts hrun
  refine ⟨hs.routes (hs.follows.node i).built (hs.sees i), fun hmeets c hc => ?_⟩
  obtain ⟨hbuilt, n, hsees⟩ :=
    (hs.follows.node i).moments (folds_stable config) (hs.sees i) hmeets c hc
  exact hs.routes hbuilt hsees

end Run

/-- A second shard in the config. -/
def two_shard_config : List ShardEndpoint := one_shard ++ [⟨1, 0, "10.0.0.2", 5000, true⟩]

/-- The coordinators started from it. -/
def two_shard_start : Admin :=
  { fleet := Fleet.init ((start two_shard_config 0).get rfl) }

/-- The remove handler gets through when the flag is free, the shard has a primary and there is
another shard. -/
theorem remove_step {s : Admin} {i k : ℤ} (hflag : s.rebalancing i = false)
    (hprimary : (find_primary (live_shards (s.fleet.node i).1.g_shards) k).isSome)
    (hmany :
      1 < ((live_shards (s.fleet.node i).1.g_shards).map ShardClient.shard_id).dedup.length) :
    admin_step s (.remove i true k) = some
      { s.check i (.remove_shard k) with rebalancing := Function.update s.rebalancing i true } := by
  obtain ⟨sc, hsc⟩ := Option.isSome_iff_exists.mp hprimary
  have hreplicas : replicas_for_shard (live_shards (s.fleet.node i).1.g_shards) k ≠ [] := by
    have hid := List.find?_some hsc
    rw [Bool.and_eq_true, decide_eq_true_eq] at hid
    exact List.ne_nil_of_mem (mem_replicas_for_shard.mpr ⟨List.mem_of_find?_eq_some hsc, hid.1⟩)
  have hlast : ¬ (active_ids (s.fleet.node i).1.g_shards).length ≤ 1 := by
    unfold active_ids
    rw [List.length_mergeSort]
    exact not_le.mpr hmany
  have hok : remove_checks (s.fleet.node i).1 true (s.rebalancing i) k
      = .ok (.remove_shard k) := by
    simp [remove_checks, hflag, hreplicas, hsc, hlast]
  simp only [admin_step]
  rw [hok]

/-- The remove handler for shard 0 on coordinator 0. -/
theorem remove_step_two_shards : admin_step two_shard_start (.remove 0 true 0) = some
    { two_shard_start.check 0 (.remove_shard 0) with
      rebalancing := Function.update (fun _ => false) 0 true } :=
  remove_step rfl (by decide +kernel) (by decide +kernel)

/-- A removal with nobody else around. -/
theorem ring_never_empty_one_removal : ∃ s,
    Trace.run admin_step two_shard_start [.remove 0 true 0, .propose 0, .commit 0,
      .turn 0 .deliver, .turn 0 (.poll COMPACTION_THRESHOLD)] = some s ∧
    (live_shards (s.fleet.node 0).1.g_shards).map ShardClient.shard_id = [1] ∧
    (s.fleet.node 0).1.active_ring.ring ≠ [] := by
  obtain ⟨s, hs, hlive⟩ : ∃ s, Trace.run admin_step
      { two_shard_start.check 0 (.remove_shard 0) with
        rebalancing := Function.update (fun _ => false) 0 true }
      [.propose 0, .commit 0, .turn 0 .deliver, .turn 0 (.poll COMPACTION_THRESHOLD)] = some s ∧
      (live_shards (s.fleet.node 0).1.g_shards).map ShardClient.shard_id = [1] := by
    refine ⟨_, rfl, ?_⟩
    decide +kernel
  have hrun : Trace.run admin_step two_shard_start [.remove 0 true 0, .propose 0, .commit 0,
      .turn 0 .deliver, .turn 0 (.poll COMPACTION_THRESHOLD)] = some s := by
    rw [Trace.run_step remove_step_two_shards]
    exact hs
  have halong : Trace.Along admin_step (Unrivalled two_shard_config) two_shard_start
      [.remove 0 true 0, .propose 0, .commit 0, .turn 0 .deliver,
        .turn 0 (.poll COMPACTION_THRESHOLD)] := by
    refine ⟨trivial, fun s' hs' => ?_⟩
    obtain rfl := Option.some.inj (remove_step_two_shards.symm.trans hs')
    decide +kernel
  exact ⟨s, hrun, hlive, (ring_never_empty (Option.some_get rfl).symm halong hrun 0).1.1⟩

/-- **Two removals, none of them of the last shard.** Coordinators 0 and 1 run the checks for the
two shards at the same time; both commands are committed, and the ring of coordinator 0 is
empty. -/
theorem two_removals_empty_the_ring : ∃ s,
    Trace.run admin_step two_shard_start [.remove 0 true 0, .remove 1 true 1, .propose 0,
      .propose 0, .commit 0, .commit 0, .turn 0 .deliver, .turn 0 .deliver,
      .turn 0 (.poll COMPACTION_THRESHOLD)] = some s ∧
    (s.fleet.node 0).1.active_ring.ring = [] := by
  have hsecond : admin_step
      { two_shard_start.check 0 (.remove_shard 0) with
        rebalancing := Function.update (fun _ => false) 0 true } (.remove 1 true 1) = some _ :=
    remove_step (by decide) (by decide +kernel) (by decide +kernel)
  rw [Trace.run_step remove_step_two_shards, Trace.run_step hsecond]
  refine ⟨_, rfl, ?_⟩
  have hbuilt : ∀ c : Coordinator, c.Built → live_shards c.g_shards = [] →
      c.active_ring.ring = [] := by
    intro c hc hlive
    rw [hc, active_ids, hlive]
    simp [HashRing.build]
  apply hbuilt
  · rfl
  · decide +kernel

end NanoDB.Coord
