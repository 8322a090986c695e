/-
What a list of committed commands does to the replicas of a coordinator.

The state after a run is split in two. Every replica that was there changes in place, by
itself and without regard to the others (`evolve`), and every replica that was not there
was put in by the first `add_shard` of its shard id (`added`). `apply_commands_shards` is
this decomposition; all that follows is about the two halves separately.

# The one awkward thing, named up front

A shard id can be used once. `add_shard` looks at inactive replicas too, so after a
`remove_shard` the id stays taken, unless the coordinator has forgotten the inactive
replicas because it was restarted or installed a snapshot. Whether an id is taken is the
only thing in which two coordinators with the same active replicas can differ, which is why
`added` depends on the taken ids and `Lasts` says when that shows.
-/
import NanoDB.Coordinator

set_option autoImplicit false

namespace NanoDB.Coord

/-! ## In-place changes -/

/-- What one command does to a replica that is already there. -/
def update (command_epoch : ℕ) (sc : ShardClient) : Command → ShardClient
  | .add_shard _ _ => sc
  | .remove_shard shard_id =>
      if sc.shard_id = shard_id then { sc with active := false } else sc
  | .set_primary shard_id replica_id =>
      if sc.shard_id ≠ shard_id then sc
      else { sc with is_primary := decide (sc.replica_id = replica_id), epoch := command_epoch }
  | .malformed => sc

/-- What a list of commands does to it. -/
def evolve : ℕ → List Command → ShardClient → ShardClient
  | _, [], sc => sc
  | applied, cmd :: cmds, sc => evolve (applied + 1) cmds (update (applied + 1) sc cmd)

/-- The replicas put in by a list of commands, when the ids in `taken` are taken. -/
def added : ℕ → List ℤ → List Command → List ShardClient
  | _, _, [] => []
  | applied, taken, .add_shard shard_id replicas :: cmds =>
      if shard_id ∈ taken then added (applied + 1) taken cmds
      else
        (new_clients shard_id replicas (applied + 1)).map (evolve (applied + 1) cmds)
          ++ added (applied + 1) (taken ++ replicas.map (fun _ => shard_id)) cmds
  | applied, taken, _ :: cmds => added (applied + 1) taken cmds

theorem update_shard_id (e : ℕ) (sc : ShardClient) (cmd : Command) :
    (update e sc cmd).shard_id = sc.shard_id := by
  unfold update
  split
  · rfl
  · split <;> rfl
  · split <;> rfl
  · rfl

theorem evolve_shard_id (cmds : List Command) :
    ∀ applied sc, (evolve applied cmds sc).shard_id = sc.shard_id := by
  induction cmds with
  | nil =>
      intro applied sc
      rfl
  | cons cmd cmds ih =>
      intro applied sc
      rw [evolve, ih, update_shard_id]

theorem ids_new_clients (k : ℤ) (replicas : List ReplicaSpec) (e : ℕ) :
    (new_clients k replicas e).map ShardClient.shard_id = replicas.map (fun _ => k) := by
  unfold new_clients
  rw [List.map_map]
  rfl

/-- The replicas after one command: those that were there, changed in place, and the new
ones of an `add_shard` whose id is free. -/
theorem apply_command_shards (e : ℕ) (c : Coordinator) (cmd : Command) :
    (apply_command e c cmd).g_shards = c.g_shards.map (fun sc => update e sc cmd) ++
      match cmd with
      | .add_shard k replicas =>
          if k ∈ c.g_shards.map ShardClient.shard_id then [] else new_clients k replicas e
      | _ => [] := by
  cases cmd with
  | add_shard k replicas =>
      have hmap : c.g_shards.map (fun sc => update e sc (.add_shard k replicas)) = c.g_shards := by
        simp [update]
      have hiff :
          (∃ sc ∈ c.g_shards, sc.shard_id = k) ↔ k ∈ c.g_shards.map ShardClient.shard_id := by
        rw [List.mem_map]
      rw [hmap]
      unfold apply_command
      by_cases hk : ∃ sc ∈ c.g_shards, sc.shard_id = k
      · dsimp only
        rw [if_pos hk, if_pos (hiff.mp hk), List.append_nil]
      · dsimp only
        rw [if_neg hk, if_neg (fun h => hk (hiff.mpr h))]
        rfl
  | remove_shard k =>
      rw [List.append_nil]
      rfl
  | set_primary k p =>
      rw [List.append_nil]
      rfl
  | malformed =>
      have hmap : c.g_shards.map (fun sc => update e sc .malformed) = c.g_shards := by
        simp [update]
      rw [List.append_nil, hmap]
      rfl

/-- **The decomposition**: old replicas in place, new ones behind them. -/
theorem apply_commands_shards (cmds : List Command) :
    ∀ applied (c : Coordinator), (apply_commands applied c cmds).g_shards
      = c.g_shards.map (evolve applied cmds)
        ++ added applied (c.g_shards.map ShardClient.shard_id) cmds := by
  induction cmds with
  | nil =>
      intro applied c
      simp [apply_commands, evolve, added]
  | cons cmd cmds ih =>
      intro applied c
      -- the shards present before keep their ids and evolve on
      have hids : (c.g_shards.map (fun sc => update (applied + 1) sc cmd)).map ShardClient.shard_id
          = c.g_shards.map ShardClient.shard_id := by
        rw [List.map_map]
        apply List.map_congr_left
        intro sc _
        exact update_shard_id _ _ _
      have hold : (c.g_shards.map (fun sc => update (applied + 1) sc cmd)).map
          (evolve (applied + 1) cmds) = c.g_shards.map (evolve applied (cmd :: cmds)) := by
        rw [List.map_map]
        rfl
      rw [apply_commands, ih, apply_command_shards, List.map_append, hold, List.map_append, hids]
      cases cmd with
      | add_shard k replicas =>
          by_cases hk : k ∈ c.g_shards.map ShardClient.shard_id
          · simp only [added, if_pos hk, List.map_nil, List.append_nil]
          · simp only [added, if_neg hk, ids_new_clients, List.append_assoc]
      | remove_shard k => simp [added]
      | set_primary k p => simp [added]
      | malformed => simp [added]

theorem apply_commands_append (cs cs' : List Command) :
    ∀ applied (c : Coordinator), apply_commands applied c (cs ++ cs')
      = apply_commands (applied + cs.length) (apply_commands applied c cs) cs' := by
  induction cs with
  | nil =>
      intro applied c
      rfl
  | cons cmd cs ih =>
      intro applied c
      rw [List.cons_append, apply_commands, ih, apply_commands, List.length_cons,
        Nat.add_right_comm, Nat.add_assoc]

/-! ## Which replicas are active in the end -/

theorem update_active (e : ℕ) (sc : ShardClient) (cmd : Command) :
    (update e sc cmd).active = true ↔ sc.active = true ∧ cmd ≠ .remove_shard sc.shard_id := by
  unfold update
  cases cmd with
  | add_shard k replicas => simp
  | remove_shard k =>
      by_cases hk : sc.shard_id = k
      · simp [hk]
      · have hk' : k ≠ sc.shard_id := fun h => hk h.symm
        simp [hk, hk']
  | set_primary k p =>
      by_cases hk : sc.shard_id = k
      · simp [hk]
      · simp [hk]
  | malformed => simp

/-- A replica is active in the end when it was and its shard is not removed. -/
theorem evolve_active (cmds : List Command) :
    ∀ applied sc, (evolve applied cmds sc).active = true ↔
      sc.active = true ∧ .remove_shard sc.shard_id ∉ cmds := by
  induction cmds with
  | nil =>
      intro applied sc
      simp [evolve]
  | cons cmd cmds ih =>
      intro applied sc
      rw [evolve, ih, update_active, update_shard_id, List.mem_cons, not_or, and_assoc]
      constructor
      · rintro ⟨h₁, h₂, h₃⟩
        exact ⟨h₁, fun h => h₂ h.symm, h₃⟩
      · rintro ⟨h₁, h₂, h₃⟩
        exact ⟨h₁, fun h => h₂ h.symm, h₃⟩

theorem mem_new_clients {k : ℤ} {replicas : List ReplicaSpec} {e : ℕ} {sc : ShardClient}
    (h : sc ∈ new_clients k replicas e) : sc.shard_id = k ∧ sc.active = true ∧ sc.epoch = e := by
  obtain ⟨r, -, rfl⟩ := List.mem_map.mp h
  exact ⟨rfl, rfl, rfl⟩

/-- No command moves a client to another shard. -/
theorem shard_id_of_evolved {k : ℤ} {replicas : List ReplicaSpec} {e applied : ℕ}
    {cmds : List Command} {sc : ShardClient}
    (h : sc ∈ (new_clients k replicas e).map (evolve applied cmds)) : sc.shard_id = k := by
  obtain ⟨sc₀, hsc₀, rfl⟩ := List.mem_map.mp h
  rw [evolve_shard_id, (mem_new_clients hsc₀).1]

/-- An `add_shard` of `k` that names a replica. -/
def Command.adds (k : ℤ) : Command → Bool
  | .add_shard k' replicas => decide (k' = k) && !replicas.isEmpty
  | _ => false

theorem adds_add_shard {k k' : ℤ} {replicas : List ReplicaSpec} :
    (Command.add_shard k' replicas).adds k = true ↔ k' = k ∧ replicas ≠ [] := by
  simp [Command.adds]

/-- Some command adds `k`. -/
def Adds (k : ℤ) (cmds : List Command) : Prop := ∃ cmd ∈ cmds, cmd.adds k = true

instance decidableAdds (k : ℤ) (cmds : List Command) : Decidable (Adds k cmds) := by
  unfold Adds
  infer_instance

/-- The first command that adds `k` is there and is not followed by a `remove_shard` of `k`. -/
def Lasts (k : ℤ) : List Command → Prop
  | [] => False
  | cmd :: cmds => if cmd.adds k then .remove_shard k ∉ cmds else Lasts k cmds

instance decidableLasts (k : ℤ) : ∀ cmds, Decidable (Lasts k cmds)
  | [] => isFalse id
  | cmd :: cmds =>
      have := decidableLasts k cmds
      inferInstanceAs
        (Decidable (if cmd.adds k then .remove_shard k ∉ cmds else Lasts k cmds))

/-- What becomes of the replicas of the first command that adds `k`. -/
def first_added (k : ℤ) : ℕ → List Command → List ShardClient
  | _, [] => []
  | applied, cmd :: cmds =>
      match cmd with
      | .add_shard k' replicas =>
          if k' = k ∧ replicas ≠ [] then
            (new_clients k replicas (applied + 1)).map (evolve (applied + 1) cmds)
          else first_added k (applied + 1) cmds
      | _ => first_added k (applied + 1) cmds

/-- The new replicas of `k` are those of the first command that adds it, if `k` was free. -/
theorem mem_added_iff (sc : ShardClient) (cmds : List Command) :
    ∀ applied taken, sc ∈ added applied taken cmds ↔
      sc.shard_id ∉ taken ∧ sc ∈ first_added sc.shard_id applied cmds := by
  induction cmds with
  | nil =>
      intro applied taken
      simp [added, first_added]
  | cons cmd cmds ih =>
      intro applied taken
      cases cmd with
      | add_shard k replicas =>
          rw [added, first_added]
          by_cases hk : k ∈ taken
          · rw [if_pos hk, ih]
            apply and_congr_right
            intro hfree
            rw [if_neg]
            rintro ⟨rfl, -⟩
            exact hfree hk
          rw [if_neg hk, List.mem_append, ih]
          by_cases hfirst : k = sc.shard_id ∧ replicas ≠ []
          · -- from here on the id is taken
            rw [if_pos hfirst, ← hfirst.1]
            obtain ⟨r, rs, rfl⟩ := List.exists_cons_of_ne_nil hfirst.2
            simp [hk]
          · have hid : sc ∉ (new_clients k replicas (applied + 1)).map
                (evolve (applied + 1) cmds) := by
              intro hsc
              obtain ⟨sc₀, hsc₀, -⟩ := List.mem_map.mp hsc
              obtain ⟨r, hr, -⟩ := List.mem_map.mp hsc₀
              exact hfirst ⟨(shard_id_of_evolved hsc).symm, List.ne_nil_of_mem hr⟩
            have htaken : sc.shard_id ∉ replicas.map (fun _ => k) := by
              intro hmem
              obtain ⟨r, hr, hrk⟩ := List.mem_map.mp hmem
              exact hfirst ⟨hrk, List.ne_nil_of_mem hr⟩
            rw [if_neg hfirst, or_iff_right hid, List.mem_append, or_iff_left htaken]
      | remove_shard k => exact ih _ _
      | set_primary k p => exact ih _ _
      | malformed => exact ih _ _

/-- **More taken ids**: the coordinator that has more ids taken adds the same replicas, in
the same order and with the same epochs, less those whose id it holds to be taken. -/
theorem added_of_more_taken (cmds : List Command) :
    ∀ applied taken taken', (∀ k ∈ taken, k ∈ taken') →
      added applied taken' cmds
        = (added applied taken cmds).filter (fun sc => decide (sc.shard_id ∉ taken')) := by
  induction cmds with
  | nil =>
      intro applied taken taken' _
      rfl
  | cons cmd cmds ih =>
      intro applied taken taken' hsub
      cases cmd with
      | add_shard k replicas =>
          rw [added, added]
          by_cases hk : k ∈ taken
          · rw [if_pos hk, if_pos (hsub k hk)]
            exact ih _ _ _ hsub
          rw [if_neg hk, List.filter_append]
          by_cases hk' : k ∈ taken'
          · -- only here do the two differ
            have hnew : ((new_clients k replicas (applied + 1)).map
                (evolve (applied + 1) cmds)).filter (fun sc => decide (sc.shard_id ∉ taken'))
                = [] := by
              rw [List.filter_eq_nil_iff]
              intro sc hsc
              rw [shard_id_of_evolved hsc]
              simpa using hk'
            rw [if_pos hk', hnew, List.nil_append]
            apply ih
            intro j hj
            rcases List.mem_append.mp hj with hj | hj
            · exact hsub j hj
            · obtain ⟨_, -, rfl⟩ := List.mem_map.mp hj
              exact hk'
          · have hnew : ((new_clients k replicas (applied + 1)).map
                (evolve (applied + 1) cmds)).filter (fun sc => decide (sc.shard_id ∉ taken'))
                = (new_clients k replicas (applied + 1)).map (evolve (applied + 1) cmds) := by
              rw [List.filter_eq_self]
              intro sc hsc
              rw [shard_id_of_evolved hsc]
              simpa using hk'
            have hrest := ih (applied + 1) (taken ++ replicas.map (fun _ => k))
              (taken' ++ replicas.map (fun _ => k)) (by
                intro j hj
                rcases List.mem_append.mp hj with hj | hj
                · exact List.mem_append_left _ (hsub j hj)
                · exact List.mem_append_right _ hj)
            rw [if_neg hk', hnew, hrest]
            apply congrArg
            apply List.filter_congr
            intro sc hsc
            have hfree := ((mem_added_iff sc _ _ _).mp hsc).1
            rw [List.mem_append, not_or] at hfree
            rw [decide_eq_decide, List.mem_append, or_iff_left hfree.2]
      | remove_shard k => exact ih _ _ _ hsub
      | set_primary k p => exact ih _ _ _ hsub
      | malformed => exact ih _ _ _ hsub

theorem first_added_shard_id {k : ℤ} {sc : ShardClient} (cmds : List Command) :
    ∀ applied, sc ∈ first_added k applied cmds → sc.shard_id = k := by
  induction cmds with
  | nil =>
      intro applied h
      simp [first_added] at h
  | cons cmd cmds ih =>
      intro applied h
      cases cmd with
      | add_shard k' replicas =>
          rw [first_added] at h
          by_cases hfirst : k' = k ∧ replicas ≠ []
          · rw [if_pos hfirst] at h
            exact shard_id_of_evolved h
          · rw [if_neg hfirst] at h
            exact ih _ h
      | remove_shard k' => exact ih _ h
      | set_primary k' p => exact ih _ h
      | malformed => exact ih _ h

theorem first_added_ne_nil (k : ℤ) (cmds : List Command) :
    ∀ applied, first_added k applied cmds ≠ [] ↔ Adds k cmds := by
  induction cmds with
  | nil =>
      intro applied
      simp [first_added, Adds]
  | cons cmd cmds ih =>
      intro applied
      have hcons : Adds k (cmd :: cmds) ↔ cmd.adds k = true ∨ Adds k cmds := by
        simp [Adds]
      rw [hcons]
      cases cmd with
      | add_shard k' replicas =>
          rw [first_added, adds_add_shard]
          by_cases hfirst : k' = k ∧ replicas ≠ []
          · rw [if_pos hfirst]
            simp [hfirst, new_clients]
          · rw [if_neg hfirst, ih, or_iff_right hfirst]
      | remove_shard k' => simpa [Command.adds, first_added] using ih (applied + 1)
      | set_primary k' p => simpa [Command.adds, first_added] using ih (applied + 1)
      | malformed => simpa [Command.adds, first_added] using ih (applied + 1)

theorem first_added_active (k : ℤ) (cmds : List Command) :
    ∀ applied, (∃ sc ∈ first_added k applied cmds, sc.active = true) ↔ Lasts k cmds := by
  induction cmds with
  | nil =>
      intro applied
      simp [first_added, Lasts]
  | cons cmd cmds ih =>
      intro applied
      rw [Lasts]
      cases cmd with
      | add_shard k' replicas =>
          rw [first_added]
          by_cases hfirst : k' = k ∧ replicas ≠ []
          · rw [if_pos hfirst, if_pos (adds_add_shard.mpr hfirst)]
            constructor
            · -- what was added is active as long as no later command removes its shard
              rintro ⟨sc, hsc, hact⟩
              obtain ⟨sc₀, hsc₀, rfl⟩ := List.mem_map.mp hsc
              have hrem := ((evolve_active cmds _ _).mp hact).2
              rwa [(mem_new_clients hsc₀).1] at hrem
            · intro hrem
              obtain ⟨r, rs, rfl⟩ := List.exists_cons_of_ne_nil hfirst.2
              refine ⟨_, List.mem_map_of_mem List.mem_cons_self, ?_⟩
              rw [evolve_active]
              exact ⟨rfl, hrem⟩
          · rw [if_neg hfirst, if_neg (fun h => hfirst (adds_add_shard.mp h))]
            exact ih _
      | remove_shard k' => simpa [Command.adds, first_added] using ih (applied + 1)
      | set_primary k' p => simpa [Command.adds, first_added] using ih (applied + 1)
      | malformed => simpa [Command.adds, first_added] using ih (applied + 1)

/-- **When a new shard is active in the end**: its id was free and its first `add_shard`
lasts. -/
theorem active_added_iff (k : ℤ) (cmds : List Command) (applied : ℕ) (taken : List ℤ) :
    (∃ sc ∈ added applied taken cmds, sc.shard_id = k ∧ sc.active = true) ↔
      k ∉ taken ∧ Lasts k cmds := by
  rw [← first_added_active k cmds applied]
  constructor
  · rintro ⟨sc, hsc, rfl, hact⟩
    obtain ⟨hfree, hfirst⟩ := (mem_added_iff sc cmds applied taken).mp hsc
    exact ⟨hfree, sc, hfirst, hact⟩
  · rintro ⟨hfree, sc, hsc, hact⟩
    obtain rfl := first_added_shard_id cmds applied hsc
    exact ⟨sc, (mem_added_iff sc cmds applied taken).mpr ⟨hfree, hsc⟩, rfl, hact⟩

/-- **Which ids are taken in the end**: those that were, and those that some command adds. -/
theorem mem_ids_apply_commands (k : ℤ) (applied : ℕ) (c : Coordinator) (cmds : List Command) :
    k ∈ (apply_commands applied c cmds).g_shards.map ShardClient.shard_id ↔
      k ∈ c.g_shards.map ShardClient.shard_id ∨ Adds k cmds := by
  have hold : (c.g_shards.map (evolve applied cmds)).map ShardClient.shard_id
      = c.g_shards.map ShardClient.shard_id := by
    rw [List.map_map]
    apply List.map_congr_left
    intro sc _
    exact evolve_shard_id _ _ _
  rw [apply_commands_shards, List.map_append, hold, List.mem_append]
  by_cases hk : k ∈ c.g_shards.map ShardClient.shard_id
  · simp [hk]
  · rw [or_iff_right hk, or_iff_right hk, ← first_added_ne_nil k cmds applied, List.mem_map]
    constructor
    · rintro ⟨sc, hsc, rfl⟩
      exact List.ne_nil_of_mem ((mem_added_iff sc cmds _ _).mp hsc).2
    · intro hne
      obtain ⟨sc, hsc⟩ := List.exists_mem_of_ne_nil _ hne
      obtain rfl := first_added_shard_id cmds applied hsc
      exact ⟨sc, (mem_added_iff sc cmds _ _).mpr ⟨hk, hsc⟩, rfl⟩

/-! ## The active replicas -/

theorem live_shards_append (g g' : List ShardClient) :
    live_shards (g ++ g') = live_shards g ++ live_shards g' :=
  List.filter_append _ _

theorem mem_live_shards {sc : ShardClient} {g : List ShardClient} :
    sc ∈ live_shards g ↔ sc ∈ g ∧ sc.active = true :=
  List.mem_filter

/-- A replica that is not active never becomes so. -/
theorem live_shards_map_evolve (applied : ℕ) (cmds : List Command) (g : List ShardClient) :
    live_shards (g.map (evolve applied cmds))
      = live_shards ((live_shards g).map (evolve applied cmds)) := by
  induction g with
  | nil => rfl
  | cons sc g ih =>
      by_cases hact : sc.active = true
      · have hlive : live_shards (sc :: g) = sc :: live_shards g := List.filter_cons_of_pos hact
        rw [hlive, List.map_cons, List.map_cons]
        unfold live_shards at ih ⊢
        rw [List.filter_cons, List.filter_cons, ih]
      · have hlive : live_shards (sc :: g) = live_shards g := List.filter_cons_of_neg hact
        have hact' : ¬ (evolve applied cmds sc).active = true := by
          intro h
          exact hact ((evolve_active cmds applied sc).mp h).1
        rw [hlive, ← ih, List.map_cons]
        exact List.filter_cons_of_neg hact'

/-- **When taken ids show**: with more ids taken the same new replicas are active in the
end, exactly if no `add_shard` that would last is refused. -/
theorem live_added_eq_iff (applied : ℕ) (cmds : List Command) {taken taken' : List ℤ}
    (hsub : ∀ k ∈ taken, k ∈ taken') :
    live_shards (added applied taken' cmds) = live_shards (added applied taken cmds) ↔
      ∀ k ∈ taken', k ∉ taken → ¬ Lasts k cmds := by
  -- more ids taken means fewer shards added, and the active ones are a sublist
  have hfilter : live_shards (added applied taken' cmds)
      = (live_shards (added applied taken cmds)).filter
          (fun sc => decide (sc.shard_id ∉ taken')) := by
    unfold live_shards
    rw [added_of_more_taken cmds applied taken taken' hsub, List.filter_filter,
      List.filter_filter]
    simp only [Bool.and_comm]
  rw [hfilter, List.filter_eq_self]
  constructor
  · intro h k hk hfree hlasts
    obtain ⟨sc, hsc, hid, hact⟩ := (active_added_iff k cmds applied taken).mpr ⟨hfree, hlasts⟩
    have hnot := h sc (mem_live_shards.mpr ⟨hsc, hact⟩)
    rw [decide_eq_true_eq, hid] at hnot
    exact hnot hk
  · intro h sc hsc
    obtain ⟨hsc, hact⟩ := mem_live_shards.mp hsc
    obtain ⟨hfree, hlasts⟩ := (active_added_iff sc.shard_id cmds applied taken).mp
      ⟨sc, hsc, rfl, hact⟩
    rw [decide_eq_true_eq]
    intro hk
    exact h sc.shard_id hk hfree hlasts

/-! ## The ring -/

/-- The ring is the one of the active ids. -/
def Coordinator.Built (c : Coordinator) : Prop :=
  c.active_ring = HashRing.build (active_ids c.g_shards)

theorem built_rebuild (c : Coordinator) (g : List ShardClient) : (c.rebuild g).Built := rfl

theorem built_apply_command (e : ℕ) {c : Coordinator} (hc : c.Built) (cmd : Command) :
    (apply_command e c cmd).Built := by
  unfold apply_command
  cases cmd with
  | add_shard k replicas =>
      dsimp only
      split
      · exact hc
      · exact built_rebuild _ _
  | remove_shard k => exact built_rebuild _ _
  | set_primary k p =>
      -- the ring is left alone, and neither ids nor activity change
      unfold Coordinator.Built active_ids live_shards at hc ⊢
      dsimp only
      rw [hc, List.filter_map, List.map_map]
      congr 4
      · funext sc
        simp only [Function.comp]
        split <;> rfl
      · apply List.filter_congr
        intro sc _
        simp only [Function.comp]
        split <;> rfl
  | malformed => exact hc

theorem built_apply_commands (cmds : List Command) :
    ∀ applied {c : Coordinator}, c.Built → (apply_commands applied c cmds).Built := by
  induction cmds with
  | nil =>
      intro applied c hc
      exact hc
  | cons cmd cmds ih =>
      intro applied c hc
      exact ih _ (built_apply_command _ hc cmd)

/-- The same topology: the same active replicas, in the order in which requests look them
up, and the same ring. -/
def SameTopology (c c' : Coordinator) : Prop :=
  live_shards c.g_shards = live_shards c'.g_shards ∧ c.active_ring = c'.active_ring

/-- The ring adds nothing: it is determined by the active replicas. -/
theorem sameTopology_iff {c c' : Coordinator} (hc : c.Built) (hc' : c'.Built) :
    SameTopology c c' ↔ live_shards c.g_shards = live_shards c'.g_shards := by
  unfold SameTopology
  refine ⟨And.left, fun h => ⟨h, ?_⟩⟩
  unfold Coordinator.Built active_ids at hc hc'
  rw [hc, hc', h]

end NanoDB.Coord
