/-
The topology as the fold of the committed commands.

What the commands are for: `add_shard` makes a shard active with the replicas it names,
`remove_shard` makes it inactive, `set_primary` moves a flag. `fold_command` and `fold_ids`
say that over maps and sets, without a list that only grows and without activity flags, and
`topology_is_the_fold` is when a coordinator holds exactly that.

# The one awkward thing, named up front

`add_shard` is skipped when any replica of the shard is known, inactive ones included. So a
shard that was removed cannot be added again, and the topology is the fold only as long as no
coordinator is given an `add_shard` of a shard that it knows and that is not active there.
-/
import NanoDB.CoordFleet
import Mathlib

set_option autoImplicit false

namespace NanoDB.Coord

/-! ## The fold -/

/-- One command over the map from shard ids to replicas; a shard without replicas is not
active. -/
def fold_command (T : ℤ → List ReplicaSpec) : Command → ℤ → List ReplicaSpec
  | .add_shard k replicas => if T k = [] then Function.update T k replicas else T
  | .remove_shard k => Function.update T k []
  | .set_primary k r => Function.update T k
      ((T k).map (fun x => { x with primary := decide (x.replica_id = r) }))
  | .malformed => T

/-- One command over the set of active ids. -/
def fold_ids (ids : Finset ℤ) : Command → Finset ℤ
  | .add_shard k _ => insert k ids
  | .remove_shard k => ids.erase k
  | .set_primary _ _ => ids
  | .malformed => ids

/-- It parses, and an `add_shard` names a replica. -/
def Command.WellFormed : Command → Prop
  | .add_shard _ replicas => replicas ≠ []
  | .malformed => False
  | _ => True

instance decidableWellFormed : ∀ cmd : Command, Decidable cmd.WellFormed
  | .add_shard _ replicas => inferInstanceAs (Decidable (replicas ≠ []))
  | .remove_shard _ => isTrue trivial
  | .set_primary _ _ => isTrue trivial
  | .malformed => isFalse id

/-- The two folds go together. -/
theorem mem_fold_ids {cmds : List Command} (hcmds : ∀ cmd ∈ cmds, cmd.WellFormed) :
    ∀ {T : ℤ → List ReplicaSpec} {ids : Finset ℤ}, (∀ k, k ∈ ids ↔ T k ≠ []) →
      ∀ k, k ∈ cmds.foldl fold_ids ids ↔ cmds.foldl fold_command T k ≠ [] := by
  induction cmds with
  | nil =>
      intro T ids h
      exact h
  | cons cmd cmds ih =>
      intro T ids h
      apply ih (fun c hc => hcmds c (List.mem_cons_of_mem cmd hc))
      -- a well-formed add names a replica, so the id set and the table agree on every command
      have hcmd := hcmds cmd List.mem_cons_self
      intro k
      cases cmd with
      | add_shard j replicas =>
          rw [fold_ids, fold_command, Finset.mem_insert, h]
          by_cases hk : k = j
          · subst hk
            by_cases hT : T k = []
            · simp [hT, show replicas ≠ [] from hcmd]
            · simp [hT]
          · by_cases hT : T j = []
            · rw [if_pos hT, Function.update_of_ne hk, or_iff_right hk]
            · rw [if_neg hT, or_iff_right hk]
      | remove_shard j =>
          rw [fold_ids, fold_command, Finset.mem_erase, h]
          by_cases hk : k = j
          · simp [hk]
          · rw [Function.update_of_ne hk, and_iff_right hk]
      | set_primary j r =>
          rw [fold_ids, fold_command, h]
          by_cases hk : k = j
          · simp [hk]
          · rw [Function.update_of_ne hk]
      | malformed => exact absurd hcmd id

/-! ## The replicas a coordinator holds -/

/-- A replica as an `add_shard` of shard `k` would name it, if it is an active one of `k`. -/
def ShardClient.slot (k : ℤ) (sc : ShardClient) : Option ReplicaSpec :=
  if sc.active = true ∧ sc.shard_id = k then some ⟨sc.replica_id, sc.host, sc.port, sc.is_primary⟩
  else none

/-- The active replicas of a shard. -/
def replicas_of (g : List ShardClient) (k : ℤ) : List ReplicaSpec :=
  g.filterMap (ShardClient.slot k)

/-- Those of the config file. -/
def config_replicas (config : List ShardEndpoint) (k : ℤ) : List ReplicaSpec :=
  (config.filter (fun ep => decide (ep.shard_id = k))).map
    (fun ep => ⟨ep.replica_id, ep.host, ep.port, ep.is_primary⟩)

theorem replicas_of_append (g g' : List ShardClient) (k : ℤ) :
    replicas_of (g ++ g') k = replicas_of g k ++ replicas_of g' k :=
  List.filterMap_append

/-- Only active replicas count. -/
theorem replicas_of_live (g : List ShardClient) : replicas_of (live_shards g) = replicas_of g := by
  funext k
  unfold replicas_of live_shards
  rw [List.filterMap_filter]
  apply List.filterMap_congr
  intro sc _
  by_cases hact : sc.active = true
  · rw [if_pos hact]
  · rw [if_neg hact, ShardClient.slot, if_neg (fun h => hact h.1)]

theorem replicas_of_ne_nil {g : List ShardClient} {k : ℤ} :
    replicas_of g k ≠ [] ↔ ∃ sc ∈ live_shards g, sc.shard_id = k := by
  rw [← replicas_of_live]
  unfold replicas_of
  rw [ne_eq, List.filterMap_eq_nil_iff, not_forall]
  apply exists_congr
  intro sc
  rw [Classical.not_imp]
  apply and_congr_right
  intro hsc
  simp [ShardClient.slot, (mem_live_shards.mp hsc).2]

/-- The replicas of an `add_shard` are all put in. -/
theorem replicas_of_new_clients (j : ℤ) (replicas : List ReplicaSpec) (e : ℕ) (k : ℤ) :
    replicas_of (new_clients j replicas e) k = if k = j then replicas else [] := by
  unfold replicas_of new_clients
  rw [List.filterMap_map]
  by_cases hk : k = j
  · subst hk
    rw [if_pos rfl]
    simp [Function.comp_def, ShardClient.slot, make_shard_client]
  · have hk' : ¬ j = k := fun h => hk h.symm
    rw [if_neg hk]
    simp [Function.comp_def, ShardClient.slot, make_shard_client, hk']

/-- A command about a shard leaves the replicas of the others as they are. -/
theorem slot_update_ne {j k : ℤ} (hk : k ≠ j) {cmd : Command}
    (hcmd : cmd = .remove_shard j ∨ ∃ r, cmd = .set_primary j r) (e : ℕ) (sc : ShardClient) :
    (update e sc cmd).slot k = sc.slot k := by
  by_cases hid : sc.shard_id = j
  · have hid' : ¬ j = k := fun h => hk h.symm
    rcases hcmd with rfl | ⟨r, rfl⟩
    · simp [ShardClient.slot, update, hid, hid']
    · simp [ShardClient.slot, update, hid, hid']
  · rcases hcmd with rfl | ⟨r, rfl⟩
    · simp [update, hid]
    · simp [update, hid]

/-- What a command does to the replicas in place. -/
theorem replicas_of_update (e : ℕ) (cmd : Command) (g : List ShardClient) (k : ℤ) :
    replicas_of (g.map (fun sc => update e sc cmd)) k
      = match cmd with
        | .add_shard _ _ => replicas_of g k
        | _ => fold_command (replicas_of g) cmd k := by
  unfold replicas_of
  rw [List.filterMap_map]
  cases cmd with
  | add_shard j replicas => rfl
  | remove_shard j =>
      dsimp only [fold_command]
      -- the shard that is removed loses its replicas, another shard keeps its own
      by_cases hk : k = j
      · subst hk
        rw [Function.update_self, List.filterMap_eq_nil_iff]
        intro sc _
        by_cases hid : sc.shard_id = k
        · simp [ShardClient.slot, update, hid]
        · simp [ShardClient.slot, update, hid]
      · rw [Function.update_of_ne hk]
        exact List.filterMap_congr (fun sc _ => slot_update_ne hk (Or.inl rfl) e sc)
  | set_primary j r =>
      dsimp only [fold_command]
      by_cases hk : k = j
      · subst hk
        rw [Function.update_self, List.map_filterMap]
        apply List.filterMap_congr
        intro sc _
        by_cases hid : sc.shard_id = k
        · by_cases hact : sc.active = true
          · simp [ShardClient.slot, update, hid, hact]
          · simp [ShardClient.slot, update, hid, hact]
        · simp [ShardClient.slot, update, hid]
      · rw [Function.update_of_ne hk]
        exact List.filterMap_congr (fun sc _ => slot_update_ne hk (Or.inr ⟨r, rfl⟩) e sc)
  | malformed => rfl

/-! ## A command on a coordinator -/

/-- An `add_shard` does not name a shard of which the coordinator only has inactive replicas. -/
def Fresh (c : Coordinator) : Command → Prop
  | .add_shard k _ => (∃ sc ∈ c.g_shards, sc.shard_id = k) →
      ∃ sc ∈ live_shards c.g_shards, sc.shard_id = k
  | _ => True

instance decidableFresh (c : Coordinator) : ∀ cmd, Decidable (Fresh c cmd)
  | .add_shard k _ => inferInstanceAs (Decidable ((∃ sc ∈ c.g_shards, sc.shard_id = k) →
      ∃ sc ∈ live_shards c.g_shards, sc.shard_id = k))
  | .remove_shard _ => isTrue trivial
  | .set_primary _ _ => isTrue trivial
  | .malformed => isTrue trivial

/-- **One command is one step of the fold.** -/
theorem replicas_of_apply_command (e : ℕ) {c : Coordinator} {cmd : Command} (h : Fresh c cmd) :
    replicas_of (apply_command e c cmd).g_shards = fold_command (replicas_of c.g_shards) cmd := by
  funext k
  rw [apply_command_shards, replicas_of_append, replicas_of_update]
  cases cmd with
  | add_shard j replicas =>
      dsimp only [fold_command]
      by_cases htaken : j ∈ c.g_shards.map ShardClient.shard_id
      · -- known, so it is active and stays as it is
        have hactive := replicas_of_ne_nil.mpr (h (List.mem_map.mp htaken))
        rw [if_pos htaken, if_neg hactive]
        exact List.append_nil _
      · have hnone : replicas_of c.g_shards j = [] := by
          by_contra hne
          obtain ⟨sc, hsc, hid⟩ := replicas_of_ne_nil.mp hne
          exact htaken (List.mem_map.mpr ⟨sc, (mem_live_shards.mp hsc).1, hid⟩)
        rw [if_neg htaken, if_pos hnone, replicas_of_new_clients]
        by_cases hk : k = j
        · rw [if_pos hk, hk, hnone, Function.update_self]
          rfl
        · rw [if_neg hk, Function.update_of_ne hk, List.append_nil]
  | remove_shard j => exact List.append_nil _
  | set_primary j r => exact List.append_nil _
  | malformed => exact List.append_nil _

/-- The active replicas are the fold of the commands over the configured ones. -/
def Folds (config : List ShardEndpoint) (h : List Command) (live : List ShardClient) : Prop :=
  replicas_of live = h.foldl fold_command (config_replicas config)

theorem folds_stable (config : List ShardEndpoint) : Stable (Folds config) Fresh := by
  intro h c cmd hc hfresh
  unfold Folds at hc ⊢
  rw [replicas_of_live] at hc ⊢
  rw [replicas_of_apply_command _ hfresh, hc, List.foldl_append]
  rfl

theorem folds_start {config : List ShardEndpoint} {c₀ : Coordinator} {n : ℕ}
    (h : start config n = some c₀) : Folds config [] (live_shards c₀.g_shards) := by
  unfold Folds
  funext k
  rw [replicas_of_live, (start_shards h).1]
  unfold replicas_of config_replicas
  rw [List.filterMap_map, List.foldl_nil, ← List.filterMap_eq_map, List.filterMap_filter]
  apply List.filterMap_congr
  intro ep _
  by_cases hid : ep.shard_id = k
  · simp [ShardClient.slot, make_shard_client, hid]
  · simp [ShardClient.slot, make_shard_client, hid]

/-! ## The set of active ids -/

/-- The ids the config file names. -/
def config_ids (config : List ShardEndpoint) : Finset ℤ :=
  (config.map ShardEndpoint.shard_id).toFinset

/-- The sorted list of the active ids, from the set of them. -/
theorem active_ids_eq {g : List ShardClient} {ids : Finset ℤ}
    (h : ∀ k, k ∈ ids ↔ ∃ sc ∈ live_shards g, sc.shard_id = k) : active_ids g = ids.sort := by
  have hnodup : (active_ids g).Nodup := by
    unfold active_ids
    rw [List.nodup_mergeSort]
    exact List.nodup_dedup _
  have hsorted : (active_ids g).Pairwise (· ≤ ·) := List.pairwise_mergeSort' (· ≤ ·) _
  have hset : (active_ids g).toFinset = ids := by
    ext k
    rw [h, List.mem_toFinset, active_ids, List.mem_mergeSort, List.mem_dedup, List.mem_map]
  rw [← hset]
  exact ((List.toFinset_sort (· ≤ ·) hnodup).mpr hsorted).symm

/-- **The topology is the fold of the committed commands.** In every run of the fleet in which
no coordinator is given an `add_shard` of a shard it knows and that is not active there, after
every poll: the active ids, the replicas of each shard and the ring are those of the fold of
what was delivered, and an `add_shard` delivered last has made its shard active. -/
theorem topology_is_the_fold {config : List ShardEndpoint} {c₀ : Coordinator}
    (hstart : start config 0 = some c₀) {events : List Event} {i : ℤ} {threshold : ℕ} {f : Fleet}
    (hfresh : Trace.Along Fleet.step (fun f e => e.Meets Fresh f) (Fleet.init c₀)
      (events ++ [.turn i (.poll threshold)]))
    (hrun : Trace.run Fleet.step (Fleet.init c₀) (events ++ [.turn i (.poll threshold)]) = some f)
    (hwf : ∀ cmd ∈ f.history, cmd.WellFormed) :
    let c := (f.node i).1
    let cmds := f.history.take (f.node i).2.delivered
    let ids := cmds.foldl fold_ids (config_ids config)
    (∀ k, (∃ sc ∈ live_shards c.g_shards, sc.shard_id = k) ↔ k ∈ ids) ∧
    replicas_of c.g_shards = cmds.foldl fold_command (config_replicas config) ∧
    c.active_ring = HashRing.build ids.sort ∧
    ∀ k replicas, cmds.getLast? = some (.add_shard k replicas) →
      ∃ sc ∈ live_shards c.g_shards, sc.shard_id = k := by
  rw [Trace.run_append, Option.bind_eq_some_iff] at hrun
  obtain ⟨f₁, hrun₁, hlast⟩ := hrun
  rw [Trace.along_append hrun₁] at hfresh
  have hf₁ : FleetFollows (Folds config) f₁ := Trace.run_invariant_along
    (fun f e f' hf he h => hf.step (folds_stable config) he h)
    (fleetFollows_init hstart (folds_start hstart)) hfresh.1 hrun₁
  obtain ⟨f₂, hstep, hnil⟩ := Trace.run_cons_some hlast
  obtain rfl := Option.some.inj hnil
  have hpolled : f₂ = { f₁ with
      node := Function.update f₁.node i
        (apply_pending_raft_commands threshold (f₁.node i).1 (f₁.node i).2) } :=
    (Option.some.inj hstep).symm
  subst hpolled
  obtain ⟨hok, hdelivered, hfold⟩ :=
    (hf₁.node i).poll (folds_stable config) hfresh.2.1 threshold
  dsimp only at hwf ⊢
  rw [Function.update_self, hdelivered]
  have hreplicas := hfold
  unfold Folds at hreplicas
  rw [replicas_of_live] at hreplicas
  -- the set fold follows the map fold
  have hids : ∀ k,
      k ∈ (f₁.history.take (f₁.node i).2.delivered).foldl fold_ids (config_ids config) ↔
      ∃ sc ∈ live_shards
        (apply_pending_raft_commands threshold (f₁.node i).1 (f₁.node i).2).1.g_shards,
        sc.shard_id = k := by
    intro k
    rw [← replicas_of_ne_nil, hreplicas]
    apply mem_fold_ids (fun cmd hcmd => hwf cmd (List.mem_of_mem_take hcmd))
    intro j
    simp [config_ids, config_replicas]
  refine ⟨fun k => (hids k).symm, hreplicas, ?_, fun k replicas hadd => ?_⟩
  · rw [← active_ids_eq hids]
    exact hok.built
  · rw [← hids]
    obtain ⟨cmds, hcmds⟩ := List.getLast?_eq_some_iff.mp hadd
    rw [hcmds, List.foldl_append]
    exact Finset.mem_insert_self _ _

/-- Shard 1 is added and promoted. -/
theorem topology_is_the_fold_added : ∃ c₀ f, start one_shard 0 = some c₀ ∧
    Trace.run Fleet.step (Fleet.init c₀) [.commit second_shard, .turn 0 .deliver,
      .turn 0 (.poll COMPACTION_THRESHOLD)] = some f ∧
    ∃ sc ∈ live_shards (f.node 0).1.g_shards, sc.shard_id = 1 := by
  have hstart := (Option.some_get start_one_shard).symm
  obtain ⟨f, hrun, hwf, hlast⟩ : ∃ f : Fleet, Trace.run Fleet.step
        (Fleet.init ((start one_shard 0).get start_one_shard))
        ([.commit second_shard, .turn 0 .deliver] ++ [.turn 0 (.poll COMPACTION_THRESHOLD)])
        = some f ∧
      (∀ cmd ∈ f.history, cmd.WellFormed) ∧
      (f.history.take (f.node 0).2.delivered).getLast?
        = some (.add_shard 1 [⟨0, "10.0.0.2", 5000, true⟩]) :=
    Trace.exists_run (by decide +kernel)
  obtain ⟨-, -, -, hadded⟩ := topology_is_the_fold hstart (by decide +kernel) hrun hwf
  exact ⟨_, f, hstart, hrun, hadded 1 _ hlast⟩

/-- **A removed shard cannot be added again.** Shard 1 is added, removed and added: it is in the
fold, but the coordinator holds no active replica of it. -/
theorem removed_shard_stays_out : ∃ c₀ f, start one_shard 0 = some c₀ ∧
    Trace.run Fleet.step (Fleet.init c₀)
      [.commit second_shard, .commit (.remove_shard 1), .commit second_shard,
        .turn 0 .deliver, .turn 0 .deliver, .turn 0 .deliver,
        .turn 0 (.poll COMPACTION_THRESHOLD)] = some f ∧
    (∀ cmd ∈ f.history, cmd.WellFormed) ∧ (f.node 0).2.delivered = f.history.length ∧
    1 ∈ f.history.foldl fold_ids (config_ids one_shard) ∧
    ¬ ∃ sc ∈ live_shards (f.node 0).1.g_shards, sc.shard_id = 1 := by
  refine ⟨(start one_shard 0).get start_one_shard, ?_⟩
  rw [exists_and_left]
  exact ⟨(Option.some_get start_one_shard).symm, Trace.exists_run (by decide +kernel)⟩

end NanoDB.Coord
