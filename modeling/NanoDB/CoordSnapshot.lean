/-
Installing a snapshot instead of applying the commands it stands for.

`serialize_raft_snapshot` writes the active replicas, epochs included, and
`apply_raft_snapshot` puts exactly these back, behind the old ones, which it marks inactive.
So the active replicas agree at the moment of installation, and they keep agreeing under
every further command but `add_shard`: what the two coordinators hold to be taken ids may
differ, in both directions.

* A fresh coordinator does not know the shards that came and went before the snapshot. It
  accepts a later `add_shard` of such an id that the others refuse.
* A coordinator that was ahead still holds, inactive, the shards that were added after the
  snapshot. It refuses their `add_shard` when it replays the suffix.
-/
import NanoDB.Topology

set_option autoImplicit false

namespace NanoDB.Coord

theorem built_installed (c : Coordinator) (snap : List SnapshotShard) :
    (apply_raft_snapshot c (some snap)).Built :=
  built_rebuild _ _

/-- What is put back is what was active. -/
theorem installed_shards (c g : Coordinator) :
    (apply_raft_snapshot c (some (serialize_raft_snapshot g))).g_shards
      = c.g_shards.map (fun sc => { sc with active := false }) ++ live_shards g.g_shards := by
  unfold apply_raft_snapshot serialize_raft_snapshot Coordinator.rebuild
  dsimp only
  rw [List.map_map]
  congr 1
  nth_rewrite 2 [← List.map_id (live_shards g.g_shards)]
  apply List.map_congr_left
  intro sc hsc
  have hact : sc.active = true := (mem_live_shards.mp hsc).2
  unfold make_shard_client
  dsimp only [Function.comp, id]
  rw [← hact]

/-- The replicas that were there when a snapshot is installed stay inactive, whatever is
applied afterwards. -/
theorem live_shards_evolve_inactive (applied : ℕ) (cmds : List Command) (g : List ShardClient) :
    live_shards ((g.map (fun sc => { sc with active := false })).map (evolve applied cmds))
      = [] := by
  unfold live_shards
  rw [List.filter_eq_nil_iff]
  intro sc hsc
  obtain ⟨sc₀, hsc₀, rfl⟩ := List.mem_map.mp hsc
  obtain ⟨sc₁, -, rfl⟩ := List.mem_map.mp hsc₀
  rw [evolve_active]
  simp

/-- **One suffix, two coordinators**: `c` installs the snapshot of `g`, and both apply the
same commands. They agree exactly if the new replicas agree. -/
theorem sameTopology_installed_iff {c g : Coordinator} (hg : g.Built) (applied : ℕ)
    (cmds : List Command) :
    SameTopology
        (apply_commands applied (apply_raft_snapshot c (some (serialize_raft_snapshot g))) cmds)
        (apply_commands applied g cmds) ↔
      live_shards (added applied
          (c.g_shards.map ShardClient.shard_id ++ (live_shards g.g_shards).map ShardClient.shard_id)
          cmds)
        = live_shards (added applied (g.g_shards.map ShardClient.shard_id) cmds) := by
  have hids : (c.g_shards.map (fun sc => { sc with active := false })).map ShardClient.shard_id
      = c.g_shards.map ShardClient.shard_id := by
    rw [List.map_map]
    rfl
  have hinst := built_apply_commands cmds applied (built_installed c (serialize_raft_snapshot g))
  rw [sameTopology_iff hinst (built_apply_commands cmds applied hg), apply_commands_shards,
    apply_commands_shards, installed_shards, List.map_append, List.map_append, hids,
    live_shards_append, live_shards_append, live_shards_append, live_shards_evolve_inactive,
    List.nil_append, ← live_shards_map_evolve]
  exact List.append_right_inj _

/-! ## From a config file -/

section FromConfig

variable {config : List ShardEndpoint} {c₀ : Coordinator}

theorem start_shards {n : ℕ} (h : start config n = some c₀) :
    c₀.g_shards = config.map (fun ep =>
      make_shard_client ep.shard_id ep.replica_id ep.host ep.port ep.is_primary) ∧
      c₀.g_local_applied_count = 0 ∧ c₀.g_snapshot_applied_index = n ∧ c₀.Built := by
  unfold start at h
  split at h
  · exact absurd h (by simp)
  · rw [← Option.some.inj h]
    exact ⟨rfl, rfl, rfl, rfl⟩

theorem start_ids {n : ℕ} (h : start config n = some c₀) :
    c₀.g_shards.map ShardClient.shard_id = config.map ShardEndpoint.shard_id := by
  rw [(start_shards h).1, List.map_map]
  rfl

/-- A shard is active after the commands when it was configured and is not removed, or was
not and its first `add_shard` lasts. -/
theorem mem_live_ids {n : ℕ} (h : start config n = some c₀) (cmds : List Command) {k : ℤ}
    (hk : k ∉ config.map ShardEndpoint.shard_id) :
    k ∈ (live_shards (apply_commands 0 c₀ cmds).g_shards).map ShardClient.shard_id ↔
      Lasts k cmds := by
  rw [apply_commands_shards, live_shards_append, List.map_append, List.mem_append, start_ids h]
  have hold : k ∉ (live_shards (c₀.g_shards.map (evolve 0 cmds))).map ShardClient.shard_id := by
    intro hmem
    obtain ⟨sc, hsc, rfl⟩ := List.mem_map.mp hmem
    obtain ⟨sc₀, hsc₀, rfl⟩ := List.mem_map.mp (mem_live_shards.mp hsc).1
    rw [evolve_shard_id, ← start_ids h] at hk
    exact hk (List.mem_map_of_mem hsc₀)
  rw [or_iff_right hold]
  constructor
  · intro hmem
    obtain ⟨sc, hsc, hid⟩ := List.mem_map.mp hmem
    obtain ⟨hsc, hact⟩ := mem_live_shards.mp hsc
    exact ((active_added_iff k cmds _ _).mp ⟨sc, hsc, hid, hact⟩).2
  · intro hlasts
    obtain ⟨sc, hsc, hid, hact⟩ := (active_added_iff k cmds 0 _).mpr ⟨hk, hlasts⟩
    rw [← hid]
    exact List.mem_map_of_mem (mem_live_shards.mpr ⟨hsc, hact⟩)

/-- **A snapshot for its commands**: when the shortcut agrees with the long way.

A coordinator that starts from the config and installs the snapshot ends with the topology
of one that applied everything, exactly if no shard that came and went before the snapshot
is added afterwards for good. A coordinator that was ahead by `cs₂`, re-installs the snapshot
and replays, does so exactly if no shard that `cs₂` added for the first time outlives the
replay. -/
theorem snapshot_equivalence_iff (hstart : start config 0 = some c₀)
    (cs₁ cs₂ cs₃ : List Command) :
    (SameTopology
        (apply_commands cs₁.length
          (apply_raft_snapshot c₀ (some (serialize_raft_snapshot (apply_commands 0 c₀ cs₁)))) cs₂)
        (apply_commands 0 c₀ (cs₁ ++ cs₂)) ↔
      ∀ k, k ∉ config.map ShardEndpoint.shard_id →
        Adds k cs₁ → ¬ Lasts k cs₁ → ¬ Lasts k cs₂) ∧
    (SameTopology
        (apply_commands cs₁.length
          (apply_raft_snapshot (apply_commands 0 c₀ (cs₁ ++ cs₂))
            (some (serialize_raft_snapshot (apply_commands 0 c₀ cs₁)))) (cs₂ ++ cs₃))
        (apply_commands 0 c₀ (cs₁ ++ (cs₂ ++ cs₃))) ↔
      ∀ k, k ∉ config.map ShardEndpoint.shard_id →
        ¬ Adds k cs₁ → Adds k cs₂ → ¬ Lasts k (cs₂ ++ cs₃)) := by
  have hbuilt := built_apply_commands cs₁ 0 (start_shards hstart).2.2.2
  have hids := start_ids hstart
  -- what is alive after `cs₁` has an id that is taken after `cs₁`
  have hlive : ∀ k ∈ (live_shards (apply_commands 0 c₀ cs₁).g_shards).map ShardClient.shard_id,
      k ∈ (apply_commands 0 c₀ cs₁).g_shards.map ShardClient.shard_id := by
    intro k hk
    obtain ⟨sc, hsc, rfl⟩ := List.mem_map.mp hk
    exact List.mem_map_of_mem (mem_live_shards.mp hsc).1
  constructor
  · -- the fresh coordinator knows fewer taken ids
    rw [apply_commands_append cs₁ cs₂ 0 c₀, Nat.zero_add, sameTopology_installed_iff hbuilt,
      eq_comm, live_added_eq_iff]
    · constructor
      · intro h k hk hadds hlasts
        apply h k ((mem_ids_apply_commands k 0 c₀ cs₁).mpr (Or.inr hadds))
        rw [List.mem_append, not_or, hids, mem_live_ids hstart cs₁ hk]
        exact ⟨hk, hlasts⟩
      · intro h k hk hfree
        rw [List.mem_append, not_or, hids] at hfree
        have hadds := ((mem_ids_apply_commands k 0 c₀ cs₁).mp hk).resolve_left (hids ▸ hfree.1)
        exact h k hfree.1 hadds
          (fun hlasts => hfree.2 ((mem_live_ids hstart cs₁ hfree.1).mpr hlasts))
    · intro k hk
      rcases List.mem_append.mp hk with hk | hk
      · exact (mem_ids_apply_commands k 0 c₀ cs₁).mpr (Or.inl hk)
      · exact hlive k hk
  · -- the one that was ahead knows more
    rw [apply_commands_append cs₁ (cs₂ ++ cs₃) 0 c₀, Nat.zero_add,
      sameTopology_installed_iff hbuilt, live_added_eq_iff]
    · have happend : ∀ k, Adds k (cs₁ ++ cs₂) ↔ Adds k cs₁ ∨ Adds k cs₂ := by
        intro k
        simp [Adds, or_and_right, exists_or]
      constructor
      · intro h k hk hadds hadds₂
        apply h k
        · rw [List.mem_append, mem_ids_apply_commands, happend]
          exact Or.inl (Or.inr (Or.inr hadds₂))
        · rw [mem_ids_apply_commands, hids]
          exact fun hor => hor.elim hk hadds
      · intro h k hk hfree
        have hfree' := hfree
        rw [mem_ids_apply_commands, not_or, hids] at hfree'
        rw [List.mem_append, mem_ids_apply_commands, happend, hids] at hk
        have hmem := hk.resolve_right (fun hmem => hfree (hlive k hmem))
        exact h k hfree'.1 hfree'.2 ((hmem.resolve_left hfree'.1).resolve_left hfree'.2)
    · intro k hk
      apply List.mem_append_left
      rw [mem_ids_apply_commands] at hk ⊢
      refine hk.imp id (fun hadds => ?_)
      obtain ⟨cmd, hcmd, hk⟩ := hadds
      exact ⟨cmd, List.mem_append_left _ hcmd, hk⟩

end FromConfig

/-- A single shard, and the only replica of another. -/
def one_shard : List ShardEndpoint := [⟨0, 0, "10.0.0.1", 5000, true⟩]

theorem start_one_shard : (start one_shard 0).isSome = true := by decide +kernel

def second_shard : Command := .add_shard 1 [⟨0, "10.0.0.2", 5000, true⟩]

/-- Shard 1 is added for good before the snapshot and removed after it. -/
theorem snapshot_equivalence_of_removed_later :
    ∃ c₀, start one_shard 0 = some c₀ ∧
      SameTopology
        (apply_commands 1
          (apply_raft_snapshot c₀
            (some (serialize_raft_snapshot (apply_commands 0 c₀ [second_shard]))))
          [.set_primary 1 0, .remove_shard 1])
        (apply_commands 0 c₀ [second_shard, .set_primary 1 0, .remove_shard 1]) ∧
      SameTopology
        (apply_commands 1
          (apply_raft_snapshot
            (apply_commands 0 c₀ [second_shard, .set_primary 1 0, .remove_shard 1])
            (some (serialize_raft_snapshot (apply_commands 0 c₀ [second_shard]))))
          [.set_primary 1 0, .remove_shard 1])
        (apply_commands 0 c₀ [second_shard, .set_primary 1 0, .remove_shard 1]) := by
  have h := fun c₀ (hstart : start one_shard 0 = some c₀) =>
    snapshot_equivalence_iff hstart [second_shard] [.set_primary 1 0, .remove_shard 1] []
  refine ⟨_, rfl, (h _ rfl).1.mpr ?_, (h _ rfl).2.mpr ?_⟩
  · intro k _ _ _
    simp [Lasts, Command.adds]
  · intro k _ _ hadds
    simp [Adds, Command.adds] at hadds

/-- **Two coordinators that route differently.** Shard 1 is added and removed, a snapshot is
taken, and shard 1 is added again: only the coordinator that installed the snapshot routes to
it. And shard 1 is added after a snapshot: the coordinator that had applied this before it
re-installed the snapshot does not route to it any more. -/
theorem snapshot_forgets_taken_ids :
    ∃ c₀, start one_shard 0 = some c₀ ∧
      ¬ SameTopology
        (apply_commands 2
          (apply_raft_snapshot c₀ (some (serialize_raft_snapshot
            (apply_commands 0 c₀ [second_shard, .remove_shard 1])))) [second_shard])
        (apply_commands 0 c₀ [second_shard, .remove_shard 1, second_shard]) ∧
      ¬ SameTopology
        (apply_commands 1
          (apply_raft_snapshot (apply_commands 0 c₀ [.set_primary 0 0, second_shard])
            (some (serialize_raft_snapshot (apply_commands 0 c₀ [.set_primary 0 0]))))
          [second_shard])
        (apply_commands 0 c₀ [.set_primary 0 0, second_shard]) := by
  refine ⟨_, rfl, fun h => absurd h.1 ?_, fun h => absurd h.1 ?_⟩
  · decide +kernel
  · decide +kernel

end NanoDB.Coord
