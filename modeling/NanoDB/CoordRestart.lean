/-
Restarting a coordinator from its config file and its Raft log.

`persist_cluster_state` writes the active replicas without their epochs. A restarted
coordinator reads them back with epoch 0, skips the snapshot of its Raft node
(`g_snapshot_applied_index` is preset to it) and applies the commands behind the snapshot a
second time. `restart_restores_iff` says exactly when it ends where it was.

# The one awkward thing, named up front

The commands behind the snapshot are applied to replicas they have already shaped. What that
does is a statement about the last `set_primary` of a shard among them, so the proof carries
along that the active replicas know every promotion in the history (`Current`). This holds
in a fleet of coordinators that exchange snapshots, and there it is proved.
-/
import NanoDB.CoordFleet

set_option autoImplicit false

namespace NanoDB.Coord

/-! ## The last promotion -/

/-- What does not change in place. -/
theorem update_endpoint (e : ℕ) (sc : ShardClient) (cmd : Command) :
    (update e sc cmd).replica_id = sc.replica_id ∧ (update e sc cmd).host = sc.host ∧
      (update e sc cmd).port = sc.port := by
  unfold update
  split
  · exact ⟨rfl, rfl, rfl⟩
  · split <;> exact ⟨rfl, rfl, rfl⟩
  · split <;> exact ⟨rfl, rfl, rfl⟩
  · exact ⟨rfl, rfl, rfl⟩

theorem evolve_endpoint (cmds : List Command) :
    ∀ applied sc, (evolve applied cmds sc).replica_id = sc.replica_id ∧
      (evolve applied cmds sc).host = sc.host ∧ (evolve applied cmds sc).port = sc.port := by
  induction cmds with
  | nil =>
      intro applied sc
      exact ⟨rfl, rfl, rfl⟩
  | cons cmd cmds ih =>
      intro applied sc
      obtain ⟨h₁, h₂, h₃⟩ := update_endpoint (applied + 1) sc cmd
      rw [evolve, (ih _ _).1, (ih _ _).2.1, (ih _ _).2.2, h₁, h₂, h₃]
      exact ⟨rfl, rfl, rfl⟩

/-- A command that is no promotion of the shard leaves epoch and flag alone. -/
theorem update_no_promotion (e : ℕ) (sc : ShardClient) {cmd : Command}
    (h : ∀ r, cmd ≠ .set_primary sc.shard_id r) :
    (update e sc cmd).epoch = sc.epoch ∧ (update e sc cmd).is_primary = sc.is_primary := by
  unfold update
  cases cmd with
  | add_shard k replicas => exact ⟨rfl, rfl⟩
  | remove_shard k =>
      dsimp only
      split <;> exact ⟨rfl, rfl⟩
  | set_primary k r =>
      have hk : sc.shard_id ≠ k := fun hk => h r (by rw [hk])
      dsimp only
      rw [if_pos hk]
      exact ⟨rfl, rfl⟩
  | malformed => exact ⟨rfl, rfl⟩

theorem update_promotion (e : ℕ) (sc : ShardClient) (r : ℤ) :
    update e sc (.set_primary sc.shard_id r)
      = { sc with is_primary := decide (sc.replica_id = r), epoch := e } := by
  simp [update]

/-- **Epoch and flag in the end** are those of the last promotion, and the old ones if there
is none. -/
theorem evolve_promotion (cmds : List Command) :
    ∀ applied sc,
      ((∀ r, .set_primary sc.shard_id r ∉ cmds) ∧
        (evolve applied cmds sc).epoch = sc.epoch ∧
        (evolve applied cmds sc).is_primary = sc.is_primary) ∨
      ∃ j r, cmds[j]? = some (.set_primary sc.shard_id r) ∧
        (∀ i r', cmds[i]? = some (.set_primary sc.shard_id r') → i ≤ j) ∧
        (evolve applied cmds sc).epoch = applied + j + 1 ∧
        (evolve applied cmds sc).is_primary = decide (sc.replica_id = r) := by
  induction cmds with
  | nil =>
      intro applied sc
      exact Or.inl ⟨fun r => by simp, rfl, rfl⟩
  | cons cmd cmds ih =>
      intro applied sc
      have hid := update_shard_id (applied + 1) sc cmd
      rw [evolve]
      -- a promotion in the tail overrides the head; without one the head decides
      rcases ih (applied + 1) (update (applied + 1) sc cmd) with
        ⟨hnone, hepoch, hprim⟩ | ⟨j, r, hj, hlast, hepoch, hprim⟩
      · rw [hid] at hnone
        rw [hepoch, hprim]
        by_cases hcmd : ∃ r, cmd = .set_primary sc.shard_id r
        · -- the head is the last promotion
          obtain ⟨r, rfl⟩ := hcmd
          rw [update_promotion]
          refine Or.inr ⟨0, r, rfl, fun i r' hi => ?_, rfl, rfl⟩
          cases i with
          | zero => exact le_refl _
          | succ i =>
              rw [List.getElem?_cons_succ] at hi
              exact absurd (List.mem_of_getElem? hi) (hnone r')
        · have hcmd' : ∀ r, cmd ≠ .set_primary sc.shard_id r := fun r h => hcmd ⟨r, h⟩
          refine Or.inl ⟨fun r hmem => ?_, update_no_promotion _ _ hcmd'⟩
          rcases List.mem_cons.mp hmem with h | h
          · exact hcmd' r h.symm
          · exact hnone r h
      · rw [hid] at hj hlast
        refine Or.inr ⟨j + 1, r, ?_, fun i r' hi => ?_, ?_, ?_⟩
        · rw [List.getElem?_cons_succ]
          exact hj
        · cases i with
          | zero => exact Nat.zero_le _
          | succ i =>
              rw [List.getElem?_cons_succ] at hi
              exact Nat.succ_le_succ (hlast i r' hi)
        · rw [hepoch]
          omega
        · rw [hprim, (update_endpoint _ _ _).1]

/-! ## Knowing every promotion -/

/-- The replica's epoch is not behind any promotion of its shard in the first commands of the
history, and at the promotion it stands at the flag is the promoted one. -/
def Current (history : List Command) (sc : ShardClient) : Prop :=
  ∀ j r, history[j]? = some (.set_primary sc.shard_id r) →
    j + 1 ≤ sc.epoch ∧ (j + 1 = sc.epoch → sc.is_primary = decide (sc.replica_id = r))

theorem current_update {history : List Command} {sc : ShardClient} (h : Current history sc)
    (cmd : Command) : Current (history ++ [cmd]) (update (history.length + 1) sc cmd) := by
  intro j r hj
  rw [update_shard_id] at hj
  by_cases hlast : j < history.length
  · rw [List.getElem?_append_left hlast] at hj
    by_cases hcmd : ∃ r, cmd = .set_primary sc.shard_id r
    · obtain ⟨r', rfl⟩ := hcmd
      rw [update_promotion]
      refine ⟨by dsimp only; omega, fun heq => ?_⟩
      dsimp only at heq
      omega
    · obtain ⟨h₁, h₂⟩ := update_no_promotion (history.length + 1) sc (fun r h => hcmd ⟨r, h⟩)
      rw [h₁, h₂, (update_endpoint _ _ _).1]
      exact h j r hj
  · obtain ⟨hlt, -⟩ := List.getElem?_eq_some_iff.mp hj
    rw [List.length_append, List.length_singleton] at hlt
    obtain rfl : j = history.length := by omega
    rw [List.getElem?_append_right (le_refl _), Nat.sub_self] at hj
    obtain rfl : cmd = .set_primary sc.shard_id r := by simpa using hj
    rw [update_promotion]
    exact ⟨le_refl _, fun _ => rfl⟩

theorem current_new {history : List Command} {k : ℤ} {replicas replicas' : List ReplicaSpec}
    {sc : ShardClient} (h : sc ∈ new_clients k replicas (history.length + 1)) :
    Current (history ++ [.add_shard k replicas']) sc := by
  intro j r hj
  rw [(mem_new_clients h).2.2]
  by_cases hlast : j < history.length
  · exact ⟨by omega, fun heq => by omega⟩
  · rw [List.getElem?_append_right (by omega), List.getElem?_singleton] at hj
    split at hj <;> simp at hj

/-- One command keeps the active replicas current. -/
theorem current_apply_command {history : List Command} {c : Coordinator}
    (h : ∀ sc ∈ live_shards c.g_shards, Current history sc) (cmd : Command) :
    ∀ sc ∈ live_shards (apply_command (history.length + 1) c cmd).g_shards,
      Current (history ++ [cmd]) sc := by
  intro sc hsc
  obtain ⟨hmem, hact⟩ := mem_live_shards.mp hsc
  rw [apply_command_shards, List.mem_append] at hmem
  rcases hmem with hmem | hmem
  · obtain ⟨sc₀, hsc₀, rfl⟩ := List.mem_map.mp hmem
    have hact₀ := ((update_active _ _ _).mp hact).1
    exact current_update (h sc₀ (mem_live_shards.mpr ⟨hsc₀, hact₀⟩)) cmd
  · cases cmd with
    | add_shard k replicas =>
        dsimp only at hmem
        split at hmem
        · simp at hmem
        · exact current_new hmem
    | remove_shard k => simp at hmem
    | set_primary k p => simp at hmem
    | malformed => simp at hmem

/-! ## The fleet -/

/-- A snapshot at `m` was made by a coordinator whose active replicas knew every promotion up
to there. -/
def SnapshotOk (history : List Command) (m : ℕ) (data : Option (List SnapshotShard)) : Prop :=
  m ≤ history.length ∧ (m = 0 ∨ ∃ g : Coordinator, data = some (serialize_raft_snapshot g) ∧
    ∀ sc ∈ live_shards g.g_shards, Current (history.take m) sc)

/-- What every coordinator of the fleet keeps: unless a snapshot waits to be installed, its
active replicas know every promotion up to the last command it has applied. -/
structure NodeOk (history : List Command) (s : Coordinator × RaftStatus) : Prop where
  shows_ : Shows history s.2
  snapshot : SnapshotOk history s.2.snapshot_last_index s.2.snapshot_data
  built : s.1.Built
  behind : s.1.g_snapshot_applied_index ≤ s.2.snapshot_last_index
  level : s.1.g_snapshot_applied_index = s.2.snapshot_last_index →
    s.1.g_local_applied_count ≤ s.2.applied_commands.length ∧
    ∀ sc ∈ live_shards s.1.g_shards,
      Current (history.take (s.2.snapshot_last_index + s.1.g_local_applied_count)) sc

structure FleetOk (f : Fleet) : Prop where
  node : ∀ i, NodeOk f.history (f.node i)
  sent : ∀ x ∈ f.sent, SnapshotOk f.history x.1 x.2

/-- The active replicas know every promotion. -/
def AllCurrent (history : List Command) (live : List ShardClient) : Prop :=
  ∀ sc ∈ live, Current history sc

theorem allCurrent_stable : Stable AllCurrent (fun _ _ => True) :=
  fun _ _ cmd h _ => current_apply_command h cmd

theorem nodeOk_iff {history : List Command} {s : Coordinator × RaftStatus} :
    NodeOk history s ↔ Follows AllCurrent history s :=
  ⟨fun h => ⟨h.shows_, h.snapshot, h.built, h.behind, h.level⟩,
    fun h => ⟨h.shows_, h.snapshot, h.built, h.behind, h.level⟩⟩

theorem fleetOk_iff {f : Fleet} : FleetOk f ↔ FleetFollows AllCurrent f :=
  ⟨fun h => ⟨fun i => nodeOk_iff.mp (h.node i), h.sent⟩,
    fun h => ⟨fun i => nodeOk_iff.mpr (h.node i), h.sent⟩⟩

/-- **One poll**: afterwards the active replicas know every promotion that was delivered. -/
theorem NodeOk.poll {history : List Command} {s : Coordinator × RaftStatus}
    (h : NodeOk history s) (threshold : ℕ) :
    let s' := apply_pending_raft_commands threshold s.1 s.2
    NodeOk history s' ∧
      ∀ sc ∈ live_shards s'.1.g_shards, Current (history.take s'.2.delivered) sc := by
  obtain ⟨hok, hdelivered, hcurrent⟩ :=
    (nodeOk_iff.mp h).poll allCurrent_stable (meets_true _ _ _) threshold
  intro s'
  rw [hdelivered]
  exact ⟨nodeOk_iff.mpr hok, hcurrent⟩

theorem fleetOk_init {config : List ShardEndpoint} {c₀ : Coordinator}
    (h : start config 0 = some c₀) : FleetOk (Fleet.init c₀) := by
  rw [fleetOk_iff]
  apply fleetFollows_init h
  intro sc _ j r hj
  simp at hj

/-- One event keeps the fleet. -/
theorem fleetOk_step (f : Fleet) (e : Event) (f' : Fleet) (hf : FleetOk f)
    (h : f.step e = some f') : FleetOk f' := by
  have he : e.Meets (fun _ _ => True) f := by
    unfold Event.Meets
    split
    · exact meets_true _ _ _
    · trivial
  exact fleetOk_iff.mpr ((fleetOk_iff.mp hf).step allCurrent_stable he h)

/-! ## The restart -/

/-- A replica as the config file gives it back. -/
def reload (sc : ShardClient) : ShardClient :=
  make_shard_client sc.shard_id sc.replica_id sc.host sc.port sc.is_primary

/-- When the replayed commands turn the reloaded replica into what it was. -/
theorem evolve_reload_iff {m : ℕ} {cmds : List Command} {sc : ShardClient}
    (hact : sc.active = true)
    (hcur : ∀ j r, cmds[j]? = some (.set_primary sc.shard_id r) →
      m + j + 1 ≤ sc.epoch ∧ (m + j + 1 = sc.epoch → sc.is_primary = decide (sc.replica_id = r))) :
    evolve m cmds (reload sc) = sc ↔ .remove_shard sc.shard_id ∉ cmds ∧
      (sc.epoch = 0 ∨ ∃ j r, cmds[j]? = some (.set_primary sc.shard_id r) ∧
        sc.epoch = m + j + 1) := by
  -- activity, promotion and address of the replayed replica, each from its own lemma
  have hactive := evolve_active cmds m (reload sc)
  have hprom := evolve_promotion cmds m (reload sc)
  obtain ⟨hrep, hhost, hport⟩ := evolve_endpoint cmds m (reload sc)
  have hid := evolve_shard_id cmds m (reload sc)
  generalize evolve m cmds (reload sc) = sc' at hactive hprom hrep hhost hport hid
  constructor
  · rintro rfl
    refine ⟨(hactive.mp hact).2, ?_⟩
    rcases hprom with ⟨-, hepoch, -⟩ | ⟨j, r, hj, -, hepoch, -⟩
    · exact Or.inl hepoch
    · exact Or.inr ⟨j, r, hj, hepoch⟩
  · rintro ⟨hrem, hstamp⟩
    have hact' : sc'.active = true := hactive.mpr ⟨rfl, hrem⟩
    have hstate : sc'.epoch = sc.epoch ∧ sc'.is_primary = sc.is_primary := by
      rcases hprom with ⟨hnone, hepoch, hprim⟩ | ⟨j, r, hj, hlast, hepoch, hprim⟩
      · -- nothing was promoted behind the snapshot
        refine ⟨?_, hprim⟩
        rcases hstamp with hzero | ⟨j, r, hj, -⟩
        · rw [hepoch, hzero]
          rfl
        · exact absurd (List.mem_of_getElem? hj) (hnone r)
      · -- the last promotion is the one the epoch stands at
        obtain ⟨hle, hflag⟩ := hcur j r hj
        have heq : m + j + 1 = sc.epoch := by
          rcases hstamp with hzero | ⟨i, r', hi, hepoch'⟩
          · omega
          · have := hlast i r' hi
            omega
        refine ⟨hepoch.trans heq, ?_⟩
        rw [hprim, hflag heq]
        rfl
    cases sc'
    cases sc
    simp_all [reload, make_shard_client]

/-- No new shard is active in the end exactly if no free id is added for good. -/
theorem live_added_eq_nil (applied : ℕ) (taken : List ℤ) (cmds : List Command) :
    live_shards (added applied taken cmds) = [] ↔ ∀ k, k ∉ taken → ¬ Lasts k cmds := by
  unfold live_shards
  rw [List.filter_eq_nil_iff]
  constructor
  · intro h k hfree hlasts
    obtain ⟨sc, hsc, -, hact⟩ := (active_added_iff k cmds applied taken).mpr ⟨hfree, hlasts⟩
    exact h sc hsc hact
  · intro h sc hsc hact
    obtain ⟨hfree, hlasts⟩ := (active_added_iff sc.shard_id cmds applied taken).mp
      ⟨sc, hsc, rfl, hact⟩
    exact h _ hfree hlasts

/-- **Replaying on the reloaded replicas** gives the old ones back exactly if it gives each
one back and adds nothing. -/
theorem replay_reloaded_iff (m : ℕ) (cmds : List Command) (g : List ShardClient) :
    live_shards (((live_shards g).map reload).map (evolve m cmds))
        ++ live_shards (added m ((live_shards g).map ShardClient.shard_id) cmds)
        = live_shards g ↔
      (∀ sc ∈ live_shards g, evolve m cmds (reload sc) = sc) ∧
      ∀ k, k ∉ (live_shards g).map ShardClient.shard_id → ¬ Lasts k cmds := by
  rw [← live_added_eq_nil m, List.map_map]
  constructor
  · intro h
    -- the new replicas cannot be among the old ones: their ids were free
    have hnil : live_shards (added m ((live_shards g).map ShardClient.shard_id) cmds) = [] := by
      rw [List.eq_nil_iff_forall_not_mem]
      intro sc hsc
      have hmem : sc ∈ live_shards g := by
        rw [← h]
        exact List.mem_append_right _ hsc
      exact ((mem_added_iff sc cmds _ _).mp (mem_live_shards.mp hsc).1).1 (List.mem_map_of_mem hmem)
    rw [hnil, List.append_nil] at h
    refine ⟨fun sc hsc => ?_, hnil⟩
    -- nothing is filtered out, so the map is the identity on the list
    have hall : live_shards ((live_shards g).map (evolve m cmds ∘ reload))
        = (live_shards g).map (evolve m cmds ∘ reload) := by
      unfold live_shards at h ⊢
      rw [List.filter_eq_self, ← List.length_filter_eq_length_iff, h, List.length_map]
    rw [hall] at h
    nth_rewrite 2 [← List.map_id (live_shards g)] at h
    exact List.map_inj_left.mp h sc hsc
  · rintro ⟨hsame, hnil⟩
    have hmap : (live_shards g).map (evolve m cmds ∘ reload) = live_shards g := by
      nth_rewrite 2 [← List.map_id (live_shards g)]
      exact List.map_inj_left.mpr hsame
    rw [hnil, hmap, List.append_nil]
    unfold live_shards
    rw [List.filter_filter]
    simp only [Bool.and_self]

/-- After a restart, and after the Raft node has delivered again what it had delivered, in
between the given turns, a last poll leaves the coordinator with the topology of `c`. -/
def Restores (history : List Command) (c : Coordinator) (st : RaftStatus) (turns : List Turn)
    (threshold : ℕ) : Prop :=
  ∃ c' s, start (persist_cluster_state c) st.snapshot_last_index = some c' ∧
    Trace.run (turn history) (c', { st with applied_commands := [] })
      (turns ++ [.poll threshold]) = some s ∧
    SameTopology s.1 c

/-- The restarted coordinator holds the reloaded replicas. -/
theorem start_persisted {c c' : Coordinator} {n : ℕ}
    (h : start (persist_cluster_state c) n = some c') :
    c'.g_shards = (live_shards c.g_shards).map reload := by
  rw [(start_shards h).1, persist_cluster_state, List.map_map]
  rfl

theorem start_persisted_isSome (c : Coordinator) (n : ℕ) :
    (∃ c', start (persist_cluster_state c) n = some c') ↔ live_shards c.g_shards ≠ [] := by
  have hnil : persist_cluster_state c = [] ↔ live_shards c.g_shards = [] := List.map_eq_nil_iff
  unfold start
  by_cases h : live_shards c.g_shards = []
  · rw [if_pos (hnil.mpr h)]
    simp [h]
  · rw [if_neg (fun hp => h (hnil.mp hp))]
    simp [h]

/-- A restarted coordinator ends, whatever the schedule, with what one replay gives. -/
theorem restores_iff {history : List Command} {c : Coordinator} {st : RaftStatus}
    (hshows : Shows history st) (hbuilt : c.Built) {turns : List Turn}
    (hturns : turns.count .deliver = st.applied_commands.length) (threshold : ℕ) :
    Restores history c st turns threshold ↔ live_shards c.g_shards ≠ [] ∧
      live_shards (((live_shards c.g_shards).map reload).map
          (evolve st.snapshot_last_index st.applied_commands))
        ++ live_shards (added st.snapshot_last_index
          ((live_shards c.g_shards).map ShardClient.shard_id) st.applied_commands)
        = live_shards c.g_shards := by
  have hids : ((live_shards c.g_shards).map reload).map ShardClient.shard_id
      = (live_shards c.g_shards).map ShardClient.shard_id := by
    rw [List.map_map]
    rfl
  -- what any restarted coordinator ends with
  have hend : ∀ c', start (persist_cluster_state c) st.snapshot_last_index = some c' →
      ∃ s, Trace.run (turn history) (c', { st with applied_commands := [] })
          (turns ++ [.poll threshold]) = some s ∧ s.1.Built ∧
        live_shards s.1.g_shards
          = live_shards
              (apply_commands st.snapshot_last_index c' st.applied_commands).g_shards := by
    intro c' hc'
    obtain ⟨-, hcount, hsnap, hbuilt'⟩ := start_shards hc'
    have hb := hshows.bound
    unfold RaftStatus.delivered at hb
    have hinit : Replays history st.snapshot_last_index c'
        (c', { st with applied_commands := [] }) := by
      refine ⟨⟨?_, rfl⟩, hbuilt', 0, Agree.refl _, Or.inl ⟨hsnap, ?_, ?_⟩⟩
      · simp only [RaftStatus.delivered, List.length_nil]
        omega
      · rw [hcount]
      · rw [hcount]
        exact Nat.zero_le _
    obtain ⟨s, hrun, hs, hdel⟩ := run_replays turns _ hinit (by
      simp only [RaftStatus.delivered, List.length_nil]
      omega)
    obtain ⟨hs', -, k, hk, hagree⟩ := hs.poll threshold
    refine ⟨_, ?_, hs'.built, ?_⟩
    · rw [Trace.run_append, hrun]
      rfl
    · have hk' : k = st.applied_commands.length := by
        rw [hdel, hturns] at hk
        simp only [RaftStatus.delivered, List.length_nil] at hk
        omega
      rw [hagree.live, hk', ← hshows.cmds]
  have hlive : ∀ c', start (persist_cluster_state c) st.snapshot_last_index = some c' →
      live_shards (apply_commands st.snapshot_last_index c' st.applied_commands).g_shards
        = live_shards (((live_shards c.g_shards).map reload).map
            (evolve st.snapshot_last_index st.applied_commands))
          ++ live_shards (added st.snapshot_last_index
            ((live_shards c.g_shards).map ShardClient.shard_id) st.applied_commands) := by
    intro c' hc'
    rw [apply_commands_shards, live_shards_append, start_persisted hc', hids]
  constructor
  · rintro ⟨c', s, hc', hrun, htop⟩
    obtain ⟨s₁, hrun₁, -, hs₁⟩ := hend c' hc'
    obtain rfl : s₁ = s := Option.some.inj (hrun₁.symm.trans hrun)
    refine ⟨(start_persisted_isSome c _).mp ⟨c', hc'⟩, ?_⟩
    rw [← hlive c' hc', ← hs₁]
    exact htop.1
  · rintro ⟨hne, heq⟩
    obtain ⟨c', hc'⟩ := (start_persisted_isSome c st.snapshot_last_index).mpr hne
    obtain ⟨s, hrun, hs, hs'⟩ := hend c' hc'
    refine ⟨c', s, hc', hrun, (sameTopology_iff hs hbuilt).mpr ?_⟩
    rw [hs', hlive c' hc', heq]

/-- **When a restart restores the topology.** The coordinator has polled, written its config
file and been restarted. It ends where it was, by every schedule of deliveries and polls,
exactly if

* it had an active replica;
* no active replica's shard is removed behind the snapshot, and every active replica's epoch
  is 0 or stands at a `set_primary` of its shard behind the snapshot;
* no shard without an active replica is added for good behind the snapshot. -/
theorem restart_restores_iff {config : List ShardEndpoint} {c₀ : Coordinator}
    (hstart : start config 0 = some c₀) {events : List Event} {f : Fleet}
    (hrun : Trace.run Fleet.step (Fleet.init c₀) events = some f) (i : ℤ) (threshold : ℕ)
    {c : Coordinator} {st : RaftStatus}
    (hpoll : apply_pending_raft_commands threshold (f.node i).1 (f.node i).2 = (c, st))
    {turns : List Turn} (hturns : turns.count .deliver = st.applied_commands.length)
    (threshold' : ℕ) :
    Restores f.history c st turns threshold' ↔
      live_shards c.g_shards ≠ [] ∧
      (∀ sc ∈ live_shards c.g_shards,
        .remove_shard sc.shard_id ∉ st.applied_commands ∧
        (sc.epoch = 0 ∨ ∃ j r,
          st.applied_commands[j]? = some (.set_primary sc.shard_id r) ∧
          sc.epoch = st.snapshot_last_index + j + 1)) ∧
      ∀ k, k ∉ (live_shards c.g_shards).map ShardClient.shard_id →
        ¬ Lasts k st.applied_commands := by
  have hf : FleetOk f := Trace.run_invariant fleetOk_step (fleetOk_init hstart) hrun
  have hnode := (hf.node i).poll threshold
  rw [hpoll] at hnode
  obtain ⟨hok, hcur⟩ := hnode
  have hshows : Shows f.history st := hok.shows_
  have hb := hshows.bound
  unfold RaftStatus.delivered at hb
  -- behind the snapshot the active replicas know every promotion, at its absolute index
  have hbehind : ∀ sc ∈ live_shards c.g_shards, ∀ j r,
      st.applied_commands[j]? = some (.set_primary sc.shard_id r) →
      st.snapshot_last_index + j + 1 ≤ sc.epoch ∧
        (st.snapshot_last_index + j + 1 = sc.epoch →
          sc.is_primary = decide (sc.replica_id = r)) := by
    intro sc hsc j r hj
    apply hcur sc hsc (st.snapshot_last_index + j) r
    have hlength : (f.history.take st.snapshot_last_index).length = st.snapshot_last_index := by
      rw [List.length_take]
      omega
    rw [hshows.take_delivered, List.getElem?_append_right (by omega), hlength,
      Nat.add_sub_cancel_left]
    exact hj
  rw [restores_iff hshows hok.built hturns, replay_reloaded_iff]
  apply and_congr_right
  intro _
  apply and_congr_left
  intro _
  constructor
  · intro h sc hsc
    exact (evolve_reload_iff (mem_live_shards.mp hsc).2 (hbehind sc hsc)).mp (h sc hsc)
  · intro h sc hsc
    exact (evolve_reload_iff (mem_live_shards.mp hsc).2 (hbehind sc hsc)).mpr (h sc hsc)

/-- A promotion behind the snapshot is restored. -/
theorem restart_restores_promotion :
    ∃ c₀ f c st, start one_shard 0 = some c₀ ∧
      Trace.run Fleet.step (Fleet.init c₀) [.commit (.set_primary 0 0), .turn 0 .deliver]
        = some f ∧
      apply_pending_raft_commands COMPACTION_THRESHOLD (f.node 0).1 (f.node 0).2 = (c, st) ∧
      Restores f.history c st [.deliver] COMPACTION_THRESHOLD := by
  have h := fun c₀ f c st (h₀ : start one_shard 0 = some c₀)
      (h₁ : Trace.run Fleet.step (Fleet.init c₀) [.commit (.set_primary 0 0), .turn 0 .deliver]
        = some f)
      (h₂ : apply_pending_raft_commands COMPACTION_THRESHOLD (f.node 0).1 (f.node 0).2 = (c, st))
      (h₃ : [Turn.deliver].count .deliver = st.applied_commands.length) =>
    restart_restores_iff h₀ h₁ 0 _ h₂ h₃ COMPACTION_THRESHOLD
  refine ⟨_, _, _, _, rfl, rfl, rfl, (h _ _ _ _ rfl rfl rfl rfl).mpr ⟨?_, ?_, ?_⟩⟩
  · decide +kernel
  · intro sc hsc
    have hsc' : sc ∈ [(⟨0, 0, "10.0.0.1", 5000, true, true, 1⟩ : ShardClient)] := hsc
    rw [List.mem_singleton.mp hsc']
    exact ⟨by decide +kernel, Or.inr ⟨0, 0, rfl, rfl⟩⟩
  · intro k _ hlasts
    have hlasts' : Lasts k [.set_primary 0 0] := hlasts
    simp [Lasts, Command.adds] at hlasts'

/-- **A restart sets the epoch back.** Shard 1 is added by the first command and its replica
stamped with epoch 1. The config file keeps the replica but not the epoch, and the replayed
`add_shard` is skipped because the shard is there. -/
theorem restart_loses_epoch :
    ∃ c₀ f c' s, start one_shard 0 = some c₀ ∧
      Trace.run Fleet.step (Fleet.init c₀)
        [.commit second_shard, .turn 0 .deliver, .turn 0 (.poll COMPACTION_THRESHOLD)] = some f ∧
      start (persist_cluster_state (f.node 0).1) (f.node 0).2.snapshot_last_index = some c' ∧
      Trace.run (turn f.history) (c', { (f.node 0).2 with applied_commands := [] })
        [.deliver, .poll COMPACTION_THRESHOLD] = some s ∧
      (live_shards (f.node 0).1.g_shards).map ShardClient.epoch = [0, 1] ∧
      (live_shards s.1.g_shards).map ShardClient.epoch = [0, 0] := by
  refine ⟨_, _, _, _, rfl, rfl, rfl, rfl, ?_, ?_⟩
  · decide +kernel
  · decide +kernel

end NanoDB.Coord
