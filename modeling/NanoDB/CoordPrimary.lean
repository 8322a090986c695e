/-
Exactly one primary per shard.

The add handler asks for a replica that is marked primary, although its error text says that
exactly one has to be. `set_primary` names a replica by its id, which is checked against the
topology of one coordinator and applied, later, to those of all of them.

Both are harmless when the ids of a shard's replicas are pairwise distinct and the same whenever
the shard is added: then `set_primary` marks one replica wherever the shard is active, and
`one_primary` is left with the requirement that an `add_shard` that is committed marks exactly one.
-/
import NanoDB.CoordAdmin

set_option autoImplicit false

namespace NanoDB.Coord

/-! ## What the commands keep -/

/-- The replicas of a shard have these ids, and exactly one of them is primary. -/
def Proper (ids : List ℤ) (replicas : List ReplicaSpec) : Prop :=
  (replicas.map ReplicaSpec.replica_id).Perm ids ∧ replicas.countP (fun r => r.primary) = 1

instance decidableProper (ids : List ℤ) (replicas : List ReplicaSpec) :
    Decidable (Proper ids replicas) :=
  inferInstanceAs (Decidable (_ ∧ _))

/-- Every active shard is proper. -/
def AllProper (ids : ℤ → List ℤ) (T : ℤ → List ReplicaSpec) : Prop :=
  ∀ k, T k = [] ∨ Proper (ids k) (T k)

/-- An `add_shard` names proper replicas. -/
def Command.Adds (ids : ℤ → List ℤ) : Command → Prop
  | .add_shard k replicas => Proper (ids k) replicas
  | _ => True

instance decidableAddsProper (ids : ℤ → List ℤ) : ∀ cmd : Command, Decidable (cmd.Adds ids)
  | .add_shard k replicas => decidableProper (ids k) replicas
  | .remove_shard _ => isTrue trivial
  | .set_primary _ _ => isTrue trivial
  | .malformed => isTrue trivial

/-- A `set_primary` names one of the shard's ids. -/
def Command.Names (ids : ℤ → List ℤ) : Command → Prop
  | .set_primary k r => r ∈ ids k
  | _ => True

section Keeps

variable {ids : ℤ → List ℤ}

/-- A promotion leaves the ids alone and marks the one replica it names. -/
theorem Proper.promote {ids : List ℤ} (hids : ids.Nodup) {replicas : List ReplicaSpec}
    (h : Proper ids replicas) {r : ℤ} (hr : r ∈ ids) :
    Proper ids (replicas.map (fun x => { x with primary := decide (x.replica_id = r) })) := by
  have hsame : (replicas.map (fun x : ReplicaSpec =>
      { x with primary := decide (x.replica_id = r) })).map ReplicaSpec.replica_id
      = replicas.map ReplicaSpec.replica_id := by
    rw [List.map_map]
    rfl
  refine ⟨by rw [hsame]; exact h.1, ?_⟩
  have hcount : (replicas.map ReplicaSpec.replica_id).count r = 1 := by
    rw [h.1.count_eq]
    exact List.count_eq_one_of_mem hids hr
  rw [List.countP_map, ← hcount, List.count, List.countP_map]
  apply List.countP_congr
  intro x _
  simp

/-- One step of the fold. -/
theorem AllProper.fold_command (hids : ∀ k, (ids k).Nodup) {T : ℤ → List ReplicaSpec}
    (h : AllProper ids T) {cmd : Command} (hadds : cmd.Adds ids) (hnames : cmd.Names ids) :
    AllProper ids (fold_command T cmd) := by
  intro k
  cases cmd with
  | add_shard j replicas =>
      dsimp only [Coord.fold_command]
      split
      · by_cases hk : k = j
        · subst hk
          rw [Function.update_self]
          exact Or.inr hadds
        · rw [Function.update_of_ne hk]
          exact h k
      · exact h k
  | remove_shard j =>
      dsimp only [Coord.fold_command]
      by_cases hk : k = j
      · rw [hk, Function.update_self]
        exact Or.inl rfl
      · rw [Function.update_of_ne hk]
        exact h k
  | set_primary j r =>
      dsimp only [Coord.fold_command]
      by_cases hk : k = j
      · subst hk
        rw [Function.update_self]
        -- a promotion of a replica the shard has moves the one flag; on an absent shard it does
        -- nothing
        rcases h k with hnil | hproper
        · left
          rw [hnil]
          rfl
        · exact Or.inr (hproper.promote (hids k) hnames)
      · rw [Function.update_of_ne hk]
        exact h k
  | malformed => exact h k

/-- A command that is not a step of the fold is skipped. -/
theorem apply_command_of_not_fresh (e : ℕ) {c : Coordinator} {cmd : Command} (h : ¬ Fresh c cmd) :
    apply_command e c cmd = c := by
  cases cmd with
  | add_shard k replicas =>
      unfold Fresh at h
      rw [Classical.not_imp] at h
      simp only [apply_command]
      rw [if_pos h.1]
  | remove_shard k => exact absurd trivial h
  | set_primary k r => exact absurd trivial h
  | malformed => exact absurd trivial h

theorem allProper_stable (hids : ∀ k, (ids k).Nodup) :
    Stable (fun _ live => AllProper ids (replicas_of live))
      (fun _ cmd => cmd.Adds ids ∧ cmd.Names ids) := by
  intro h c cmd hc hcmd
  rw [replicas_of_live] at hc ⊢
  by_cases hfresh : Fresh c cmd
  · rw [replicas_of_apply_command _ hfresh]
    exact hc.fold_command hids hcmd.1 hcmd.2
  · rw [apply_command_of_not_fresh _ hfresh]
    exact hc

/-- A condition that only looks at the command holds along the loop. -/
theorem meets_of_forall {Q : Command → Prop} (cmds : List Command) :
    (∀ cmd ∈ cmds, Q cmd) → ∀ applied c, Meets (fun _ => Q) applied c cmds := by
  induction cmds with
  | nil =>
      intro _ applied c
      trivial
  | cons cmd cmds ih =>
      intro h applied c
      exact ⟨h cmd List.mem_cons_self, ih (fun d hd => h d (List.mem_cons_of_mem cmd hd)) _ _⟩

/-- The primaries of an active shard, counted among the active replicas. -/
theorem count_primaries (g : List ShardClient) (k : ℤ) :
    ((live_shards g).filter (fun sc => decide (sc.shard_id = k) && sc.is_primary)).length
      = (replicas_of g k).countP (fun r => r.primary) := by
  unfold live_shards replicas_of
  rw [List.filter_filter, ← List.countP_eq_length_filter, List.countP_filterMap]
  apply List.countP_congr
  intro sc _
  by_cases hact : sc.active = true
  · by_cases hid : sc.shard_id = k
    · simp [ShardClient.slot, hact, hid]
    · simp [ShardClient.slot, hid]
  · simp [ShardClient.slot, hact]

end Keeps

/-! ## Every run -/

section Run

variable (ids : ℤ → List ℤ)

/-- An `add_shard` that is committed is proper. -/
def AdminAct.Proper (s : Admin) : AdminAct → Prop
  | .commit j => ∀ p ∈ s.proposed[j]?, p.command.Adds ids
  | _ => True

instance decidableActProper (s : Admin) : ∀ a : AdminAct, Decidable (a.Proper ids s)
  | .commit j => inferInstanceAs (Decidable (∀ p ∈ s.proposed[j]?, p.command.Adds ids))
  | .add _ _ _ _ => isTrue trivial
  | .remove _ _ _ => isTrue trivial
  | .set_primary _ _ _ _ => isTrue trivial
  | .health_check _ _ _ _ => isTrue trivial
  | .propose _ => isTrue trivial
  | .release _ => isTrue trivial
  | .turn _ _ => isTrue trivial
  | .send_snapshot _ => isTrue trivial
  | .install_snapshot _ _ _ => isTrue trivial

/-- The topologies and the committed commands are proper, and so are the promotions on their way. -/
structure ProperRun (s : Admin) : Prop where
  follows : FleetFollows (fun _ live => AllProper ids (replicas_of live)) s.fleet
  sees : ∀ i, Sees (fun _ live => AllProper ids (replicas_of live)) s.fleet.history (s.position i)
    (s.fleet.node i).1
  history : ∀ cmd ∈ s.fleet.history, cmd.Adds ids ∧ cmd.Names ids
  pending : ∀ p ∈ s.checked ++ s.proposed, p.command.Names ids

variable {ids}

/-- The commands of a poll are committed ones. -/
theorem ProperRun.poll_meets {s : Admin} (hs : ProperRun ids s) (i : ℤ) :
    PollMeets (fun _ cmd => cmd.Adds ids ∧ cmd.Names ids) (s.fleet.node i) := by
  apply meets_of_forall
  intro cmd hcmd
  apply hs.history
  apply List.mem_of_mem_take (i := (s.fleet.node i).2.delivered)
  rw [((hs.follows.node i).split).2]
  exact List.mem_append_right _ hcmd

/-- A promotion that passes the checks names a replica. -/
theorem ProperRun.checked {s : Admin} (hs : ProperRun ids s) {a : AdminAct} {i : ℤ}
    {cmd : Command} (hcmd : Checked a i (s.fleet.node i).1 cmd) : cmd.Names ids := by
  cases cmd with
  | add_shard k replicas => trivial
  | remove_shard k => trivial
  | set_primary k r =>
      -- the replica is active on the coordinator that checked
      obtain ⟨sc, hsc, rfl, rfl⟩ := hcmd
      have hne : replicas_of (live_shards (s.fleet.node i).1.g_shards) sc.shard_id ≠ [] := by
        rw [replicas_of_live]
        exact replicas_of_ne_nil.mpr ⟨sc, hsc, rfl⟩
      obtain ⟨hperm, -⟩ := ((hs.sees i).2 sc.shard_id).resolve_left hne
      apply hperm.mem_iff.mp
      have hslot : sc.slot sc.shard_id
          = some ⟨sc.replica_id, sc.host, sc.port, sc.is_primary⟩ := by
        unfold ShardClient.slot
        rw [if_pos ⟨(mem_live_shards.mp hsc).2, rfl⟩]
      exact List.mem_map.mpr ⟨_, List.mem_filterMap.mpr ⟨sc, hsc, hslot⟩, rfl⟩
  | malformed => exact absurd hcmd id

theorem properRun_step (hids : ∀ k, (ids k).Nodup) {s s' : Admin} {a : AdminAct}
    (hs : ProperRun ids s) (ha : a.Proper ids s) (h : admin_step s a = some s') :
    ProperRun ids s' := by
  -- a handler only adds what it checked to the pending commands; an event touches the coordinators
  obtain ⟨hfleet, hpos, hpending⟩ |
    ⟨e, hstep, hpos, hpending, hcommitted, -⟩ := admin_step_cases h
  · refine ⟨by rw [hfleet]; exact hs.follows, by rw [hfleet, hpos]; exact hs.sees,
      by rw [hfleet]; exact hs.history, fun p hp => ?_⟩
    rcases hpending p hp with hp | ⟨-, hcmd⟩
    · exact hs.pending p hp
    · exact hs.checked hcmd
  · have hmeets : e.Meets (fun _ cmd => cmd.Adds ids ∧ cmd.Names ids) s.fleet := by
      unfold Event.Meets
      split
      · exact hs.poll_meets _
      · trivial
    refine ⟨hs.follows.step (allProper_stable hids) hmeets hstep, ?_, ?_,
      fun p hp => hs.pending p (hpending p hp)⟩
    · rw [hpos]
      exact hs.follows.sees (allProper_stable hids) hmeets hs.sees hstep
    · rw [Fleet.step_history hstep]
      intro cmd hcmd
      rcases List.mem_append.mp hcmd with hcmd | hcmd
      · exact hs.history cmd hcmd
      · obtain ⟨j, p, rfl, hj, rfl⟩ := hcommitted cmd hcmd
        exact ⟨ha p hj, hs.pending p (List.mem_append_right _ (List.mem_of_getElem? hj))⟩

/-- **Exactly one primary per shard.** The replicas of a shard have the same, pairwise distinct
ids in the config and in every `add_shard` that is committed, and both mark exactly one of them.
Then in every run of the handlers, on every coordinator and at every moment of its polls, every
active shard has exactly one active primary. -/
theorem one_primary {config : List ShardEndpoint} {c₀ : Coordinator}
    (hstart : start config 0 = some c₀) (hids : ∀ k, (ids k).Nodup)
    (hconfig : AllProper ids (config_replicas config)) {acts : List AdminAct}
    (hacts : Trace.Along admin_step (AdminAct.Proper ids) { fleet := Fleet.init c₀ } acts)
    {s : Admin}
    (hrun : Trace.run admin_step { fleet := Fleet.init c₀ } acts = some s) (i : ℤ) :
    ∀ c ∈ moments (s.fleet.node i), ∀ k, (∃ sc ∈ live_shards c.g_shards, sc.shard_id = k) →
      ((live_shards c.g_shards).filter
        (fun sc => decide (sc.shard_id = k) && sc.is_primary)).length = 1 := by
  have hinit : ProperRun ids { fleet := Fleet.init c₀ } := by
    have hlive : AllProper ids (replicas_of (live_shards c₀.g_shards)) := by
      rw [folds_start hstart]
      exact hconfig
    exact ⟨fleetFollows_init hstart hlive, fun j => ⟨Nat.zero_le _, hlive⟩,
      fun cmd hcmd => absurd hcmd (by simp [Fleet.init]), fun p hp => absurd hp (by simp)⟩
  have hs : ProperRun ids s := Trace.run_invariant_along
    (fun t a t' ht ha h => properRun_step hids ht ha h) hinit hacts hrun
  intro c hc k hk
  obtain ⟨-, n, -, hproper⟩ := (hs.follows.node i).moments (allProper_stable hids) (hs.sees i)
    (hs.poll_meets i) c hc
  rw [replicas_of_live] at hproper
  rw [count_primaries]
  exact ((hproper k).resolve_left (replicas_of_ne_nil.mpr hk)).2

end Run

/-- A second shard with two replicas. -/
def two_replicas (second_is_primary : Bool) : List ReplicaSpec :=
  [⟨0, "10.0.0.2", 5000, true⟩, ⟨1, "10.0.0.3", 5000, second_is_primary⟩]

/-- The add request, its command committed and applied by coordinator 0. -/
def add_two_replicas (second_is_primary : Bool) : List AdminAct :=
  [.add 0 true 1 (two_replicas second_is_primary), .propose 0, .commit 0, .turn 0 .deliver,
    .turn 0 (.poll COMPACTION_THRESHOLD)]

/-- Shard 1 is added with one of two replicas marked, and the other one is promoted. -/
theorem one_primary_promoted : ∃ c₀ s, start one_shard 0 = some c₀ ∧
    Trace.run admin_step { fleet := Fleet.init c₀ } (add_two_replicas false ++
      [.set_primary 0 true 1 1, .propose 0, .commit 0, .turn 0 .deliver,
        .turn 0 (.poll COMPACTION_THRESHOLD)]) = some s ∧
    (∃ sc ∈ live_shards (s.fleet.node 0).1.g_shards, sc.shard_id = 1) ∧
    ((live_shards (s.fleet.node 0).1.g_shards).filter
      (fun sc => decide (sc.shard_id = 1) && sc.is_primary)).length = 1 := by
  have hids : ∀ k, (if k = (0 : ℤ) then [(0 : ℤ)] else [0, 1]).Nodup := by
    intro k
    split <;> decide
  -- shard 0 has the one replica of the config, every other shard the two of the add request
  have hconfig :
      AllProper (fun k => if k = 0 then [0] else [0, 1]) (config_replicas one_shard) := by
    intro k
    by_cases hk : k = 0
    · subst hk
      exact Or.inr (by decide)
    · have hk' : ¬ (0 : ℤ) = k := fun h => hk h.symm
      exact Or.inl (by simp [config_replicas, one_shard, hk'])
  have hstart := (Option.some_get start_one_shard).symm
  obtain ⟨s, hrun, hactive⟩ : ∃ s : Admin, Trace.run admin_step
        { fleet := Fleet.init ((start one_shard 0).get start_one_shard) }
        (add_two_replicas false ++ [.set_primary 0 true 1 1, .propose 0, .commit 0,
          .turn 0 .deliver, .turn 0 (.poll COMPACTION_THRESHOLD)]) = some s ∧
      ∃ sc ∈ live_shards (s.fleet.node 0).1.g_shards, sc.shard_id = 1 :=
    Trace.exists_run (by decide +kernel)
  exact ⟨_, s, hstart, hrun, hactive,
    one_primary hstart hids hconfig (by decide +kernel) hrun 0 _ List.mem_cons_self 1 hactive⟩

/-- **Two primaries.** The add handler accepts a request that marks both replicas. -/
theorem add_two_primaries : ∃ c₀ s, start one_shard 0 = some c₀ ∧
    Trace.run admin_step { fleet := Fleet.init c₀ } (add_two_replicas true) = some s ∧
    ((live_shards (s.fleet.node 0).1.g_shards).filter
      (fun sc => decide (sc.shard_id = 1) && sc.is_primary)).length = 2 := by
  refine ⟨(start one_shard 0).get start_one_shard, ?_⟩
  rw [exists_and_left]
  exact ⟨(Option.some_get start_one_shard).symm, Trace.exists_run (by decide +kernel)⟩

end NanoDB.Coord
