/-
A fleet of coordinators on one committed history, exchanging snapshots.

A coordinator applies the history in pieces: it polls, compacts, installs snapshots that other
coordinators made, and skips what they stand for. Whatever one command keeps of the active
replicas is kept by all of this (`fleet_step`), so a property of the topology needs one lemma
about `apply_command` and no word about schedules.

# The one awkward thing, named up front

What a command does can depend on the inactive replicas too, and these differ from
coordinator to coordinator. A property may therefore need a condition on the coordinator a
command is applied to; `Meets` is that condition along the loop of
`apply_pending_raft_commands`.
-/
import NanoDB.CoordPoll

set_option autoImplicit false

namespace NanoDB.Coord

/-- Coordinators on one committed history, and the `InstallSnapshot` requests ever sent. -/
structure Fleet where
  history : List Command
  node : ℤ → Coordinator × RaftStatus
  sent : List (ℕ × Option (List SnapshotShard))

/-- All started from one config, on empty Raft logs. -/
def Fleet.init (c₀ : Coordinator) : Fleet := ⟨[], fun _ => (c₀, {}), []⟩

inductive Event
  | commit (cmd : Command)
  | turn (i : ℤ) (t : Turn)
  | send_snapshot (i : ℤ)
  | install_snapshot (i : ℤ) (new_snap : ℕ) (data : Option (List SnapshotShard))
deriving DecidableEq, Repr

def Fleet.step (f : Fleet) : Event → Option Fleet
  | .commit cmd => some { f with history := f.history ++ [cmd] }
  | .turn i t => (Coord.turn f.history (f.node i) t).map
      (fun s => { f with node := Function.update f.node i s })
  | .send_snapshot i => some
      { f with sent := ((f.node i).2.snapshot_last_index, (f.node i).2.snapshot_data) :: f.sent }
  | .install_snapshot i new_snap data =>
      -- late, repeated and reordered requests included
      if (new_snap, data) ∈ f.sent then
        some { f with
          node := Function.update f.node i ((f.node i).1, (f.node i).2.install new_snap data) }
      else none

/-- What an event commits. -/
def Event.committed : Event → List Command
  | .commit cmd => [cmd]
  | _ => []

theorem Event.committed_cases (e : Event) :
    e.committed = [] ∨ ∃ cmd, e.committed = [cmd] := by
  cases e with
  | commit cmd => exact Or.inr ⟨cmd, rfl⟩
  | turn i t => exact Or.inl rfl
  | send_snapshot i => exact Or.inl rfl
  | install_snapshot i m data => exact Or.inl rfl

/-- Nothing but a commit adds to the history. -/
theorem Fleet.step_history {f f' : Fleet} {e : Event} (h : f.step e = some f') :
    f'.history = f.history ++ e.committed := by
  cases e with
  | commit cmd =>
      obtain rfl := Option.some.inj h
      rfl
  | turn i t =>
      obtain ⟨s, -, rfl⟩ := Option.map_eq_some_iff.mp h
      exact (List.append_nil _).symm
  | send_snapshot i =>
      obtain rfl := Option.some.inj h
      exact (List.append_nil _).symm
  | install_snapshot i m data =>
      rw [Fleet.step] at h
      split at h
      · obtain rfl := Option.some.inj h
        exact (List.append_nil _).symm
      · exact absurd h (by simp)

/-! ## The loop -/

section Loop

variable (P : List Command → List ShardClient → Prop) (G : Coordinator → Command → Prop)

/-- Every command of the loop meets the condition on the coordinator it is applied to. -/
def Meets : ℕ → Coordinator → List Command → Prop
  | _, _, [] => True
  | applied, c, cmd :: cmds =>
      G c cmd ∧ Meets (applied + 1) (apply_command (applied + 1) c cmd) cmds

instance decidableMeets [∀ c cmd, Decidable (G c cmd)] :
    ∀ applied c cmds, Decidable (Meets G applied c cmds)
  | _, _, [] => isTrue trivial
  | applied, c, cmd :: cmds =>
      have := decidableMeets (applied + 1) (apply_command (applied + 1) c cmd) cmds
      inferInstanceAs (Decidable (G c cmd ∧ Meets G (applied + 1) _ cmds))

/-- One command that meets the condition keeps the property: of the commands applied so far and
the active replicas. -/
def Stable : Prop :=
  ∀ (h : List Command) (c : Coordinator) (cmd : Command), P h (live_shards c.g_shards) →
    G c cmd → P (h ++ [cmd]) (live_shards (apply_command (h.length + 1) c cmd).g_shards)

variable {P G}

theorem Meets.take {cmds : List Command} (n : ℕ) :
    ∀ {applied c}, Meets G applied c cmds → Meets G applied c (cmds.take n) := by
  induction cmds generalizing n with
  | nil =>
      intro applied c _
      rw [List.take_nil]
      trivial
  | cons cmd cmds ih =>
      intro applied c h
      cases n with
      | zero => trivial
      | succ n => exact ⟨h.1, ih n h.2⟩

theorem meets_true (cmds : List Command) :
    ∀ applied c, Meets (fun _ _ => True) applied c cmds := by
  induction cmds with
  | nil =>
      intro applied c
      trivial
  | cons cmd cmds ih =>
      intro applied c
      exact ⟨trivial, ih _ _⟩

/-- The loop keeps what one command keeps. -/
theorem Stable.apply_commands (hP : Stable P G) (cmds : List Command) :
    ∀ (h : List Command) (c : Coordinator), P h (live_shards c.g_shards) →
      Meets G h.length c cmds →
      P (h ++ cmds) (live_shards (apply_commands h.length c cmds).g_shards) := by
  induction cmds with
  | nil =>
      intro h c hc _
      rw [List.append_nil]
      exact hc
  | cons cmd cmds ih =>
      intro h c hc hmeets
      have hstep := ih (h ++ [cmd]) (apply_command (h.length + 1) c cmd) (hP h c cmd hc hmeets.1)
      rw [List.append_assoc, List.length_append] at hstep
      exact hstep hmeets.2

end Loop

/-! ## A poll -/

/-- The commands a poll applies. -/
def to_apply (c : Coordinator) (st : RaftStatus) : List Command :=
  st.applied_commands.drop (snapshot_catch_up c st).g_local_applied_count

/-- How many commands precede them. -/
def applied_before (c : Coordinator) (st : RaftStatus) : ℕ :=
  st.snapshot_last_index + (snapshot_catch_up c st).g_local_applied_count

/-- The commands of a poll meet the condition. -/
def PollMeets (G : Coordinator → Command → Prop) (s : Coordinator × RaftStatus) : Prop :=
  Meets G (applied_before s.1 s.2) (snapshot_catch_up s.1 s.2) (to_apply s.1 s.2)

/-- What other threads can see of the topology while a poll runs: the locks are taken for the
catch-up and for each command. -/
def moments (s : Coordinator × RaftStatus) : List Coordinator :=
  s.1 :: (List.range ((to_apply s.1 s.2).length + 1)).map (fun n =>
    apply_commands (applied_before s.1 s.2) (snapshot_catch_up s.1 s.2) ((to_apply s.1 s.2).take n))

/-! ## What a coordinator keeps -/

section Follows

variable (P : List Command → List ShardClient → Prop)

/-- A snapshot at `m` was made by a coordinator with the property after the first `m` commands. -/
def SnapshotFollows (history : List Command) (m : ℕ) (data : Option (List SnapshotShard)) : Prop :=
  m ≤ history.length ∧ (m = 0 ∨ ∃ g : Coordinator, data = some (serialize_raft_snapshot g) ∧
    P (history.take m) (live_shards g.g_shards))

/-- Unless a snapshot waits to be installed, the coordinator has the property after the commands
it has applied. -/
structure Follows (history : List Command) (s : Coordinator × RaftStatus) : Prop where
  shows_ : Shows history s.2
  snapshot : SnapshotFollows P history s.2.snapshot_last_index s.2.snapshot_data
  built : s.1.Built
  behind : s.1.g_snapshot_applied_index ≤ s.2.snapshot_last_index
  level : s.1.g_snapshot_applied_index = s.2.snapshot_last_index →
    s.1.g_local_applied_count ≤ s.2.applied_commands.length ∧
    P (history.take (s.2.snapshot_last_index + s.1.g_local_applied_count))
      (live_shards s.1.g_shards)

/-- The coordinator has the property after the first `n` commands of the history. -/
def Sees (history : List Command) (n : ℕ) (c : Coordinator) : Prop :=
  n ≤ history.length ∧ P (history.take n) (live_shards c.g_shards)

structure FleetFollows (f : Fleet) : Prop where
  node : ∀ i, Follows P f.history (f.node i)
  sent : ∀ x ∈ f.sent, SnapshotFollows P f.history x.1 x.2

variable {P} {G : Coordinator → Command → Prop} {history : List Command}

/-- What held after the first `n` commands still does after one more is committed. -/
theorem take_commit {Q : List Command → Prop} {n : ℕ}
    (h : n ≤ history.length ∧ Q (history.take n)) (cmd : Command) :
    n ≤ (history ++ [cmd]).length ∧ Q ((history ++ [cmd]).take n) := by
  refine ⟨?_, ?_⟩
  · rw [List.length_append]
    exact Nat.le_add_right_of_le h.1
  · rw [List.take_append_of_le_length h.1]
    exact h.2

theorem SnapshotFollows.commit {m : ℕ} {data : Option (List SnapshotShard)}
    (h : SnapshotFollows P history m data) (cmd : Command) :
    SnapshotFollows P (history ++ [cmd]) m data :=
  take_commit (Q := fun before => m = 0 ∨ ∃ g : Coordinator,
    data = some (serialize_raft_snapshot g) ∧ P before (live_shards g.g_shards)) h cmd

theorem Sees.commit {n : ℕ} {c : Coordinator} (h : Sees P history n c) (cmd : Command) :
    Sees P (history ++ [cmd]) n c :=
  take_commit (Q := fun before => P before (live_shards c.g_shards)) h cmd

theorem Shows.commit {st : RaftStatus} (h : Shows history st) (cmd : Command) :
    Shows (history ++ [cmd]) st := by
  have hb := h.bound
  unfold RaftStatus.delivered at hb
  refine ⟨?_, ?_⟩
  · rw [List.length_append]
    exact Nat.le_add_right_of_le h.bound
  · rw [List.drop_append_of_le_length (by omega), List.take_append_of_le_length]
    · exact h.cmds
    · rw [List.length_drop]
      omega

theorem Follows.commit {s : Coordinator × RaftStatus} (h : Follows P history s) (cmd : Command) :
    Follows P (history ++ [cmd]) s := by
  refine ⟨h.shows_.commit cmd, h.snapshot.commit cmd, h.built, h.behind, fun heq => ?_⟩
  obtain ⟨hcount, hlive⟩ := h.level heq
  have hb := h.shows_.bound
  unfold RaftStatus.delivered at hb
  rw [List.take_append_of_le_length (by omega)]
  exact ⟨hcount, hlive⟩

/-- After the catch-up the coordinator is level with its Raft node. -/
theorem Follows.catch_up {s : Coordinator × RaftStatus} (h : Follows P history s) :
    let c₁ := snapshot_catch_up s.1 s.2
    c₁.g_snapshot_applied_index = s.2.snapshot_last_index ∧
      c₁.g_local_applied_count ≤ s.2.applied_commands.length ∧
      P (history.take (s.2.snapshot_last_index + c₁.g_local_applied_count))
        (live_shards c₁.g_shards) := by
  unfold snapshot_catch_up
  dsimp only
  by_cases hnew : s.2.snapshot_last_index > s.1.g_snapshot_applied_index
  · rw [if_pos hnew]
    refine ⟨rfl, Nat.zero_le _, ?_⟩
    -- the snapshot is one that a coordinator wrote, so installing it is adopting that topology
    obtain hzero | ⟨g, hdata, hlive⟩ := h.snapshot.2
    · omega
    · -- the old replicas are inactive, the new ones come from the snapshot
      have hold := live_shards_evolve_inactive 0 [] s.1.g_shards
      rw [show evolve 0 [] = id from rfl, List.map_id] at hold
      have hnew : live_shards (live_shards g.g_shards) = live_shards g.g_shards := by
        simp [live_shards]
      rw [hdata]
      dsimp only
      rw [installed_shards, live_shards_append, hold, hnew]
      exact hlive
  · have heq := le_antisymm h.behind (not_lt.mp hnew)
    rw [if_neg hnew]
    exact ⟨heq, h.level heq⟩

/-- How much of the history precedes the commands of a poll, and where these end. -/
theorem Follows.split {s : Coordinator × RaftStatus} (h : Follows P history s) :
    (history.take (applied_before s.1 s.2)).length = applied_before s.1 s.2 ∧
    history.take s.2.delivered = history.take (applied_before s.1 s.2) ++ to_apply s.1 s.2 := by
  obtain ⟨-, hcount, -⟩ := h.catch_up
  have hb := h.shows_.bound
  unfold RaftStatus.delivered at hb
  unfold applied_before to_apply
  constructor
  · rw [List.length_take]
    omega
  · rw [h.shows_.pending, ← List.take_add]
    congr 1
    unfold RaftStatus.delivered
    omega

/-- While a poll runs, other threads only see topologies with the property. -/
theorem Follows.moments (hP : Stable P G) {s : Coordinator × RaftStatus} (h : Follows P history s)
    {m : ℕ} (hsees : Sees P history m s.1) (hmeets : PollMeets G s) :
    ∀ c ∈ moments s, c.Built ∧ ∃ n, Sees P history n c := by
  intro c hc
  rcases List.mem_cons.mp hc with rfl | hc
  · exact ⟨h.built, m, hsees⟩
  obtain ⟨n, hn, rfl⟩ := List.mem_map.mp hc
  obtain ⟨hlength, hall⟩ := h.split
  have hloop := hP.apply_commands ((to_apply s.1 s.2).take n)
    (history.take (applied_before s.1 s.2)) (snapshot_catch_up s.1 s.2) h.catch_up.2.2
    (by rw [hlength]; exact hmeets.take n)
  rw [hlength] at hloop
  have hprefix :
      history.take (applied_before s.1 s.2) ++ (to_apply s.1 s.2).take n <+: history := by
    refine List.IsPrefix.trans ?_ (List.take_prefix s.2.delivered history)
    rw [hall, List.prefix_append_right_inj]
    exact List.take_prefix _ _
  refine ⟨built_apply_commands _ _ (built_catch_up h.built s.2), _, hprefix.length_le, ?_⟩
  rw [← List.prefix_iff_eq_take.mp hprefix]
  exact hloop

/-- **One poll**: afterwards the coordinator has the property after all that was delivered. -/
theorem Follows.poll (hP : Stable P G) {s : Coordinator × RaftStatus} (h : Follows P history s)
    (hmeets : PollMeets G s) (threshold : ℕ) :
    let s' := apply_pending_raft_commands threshold s.1 s.2
    Follows P history s' ∧ s'.2.delivered = s.2.delivered ∧
      P (history.take s.2.delivered) (live_shards s'.1.g_shards) := by
  obtain ⟨hsnap, hcount, hlive⟩ := h.catch_up
  obtain ⟨hlength, hall⟩ := h.split
  have hpoll := polled threshold s.1 s.2 hcount
  have hbuilt := hpoll.built (built_catch_up h.built s.2)
  -- the commands of the loop are the ones that follow in the history, so the property is carried
  -- over them one by one
  have hloop := hP.apply_commands (to_apply s.1 s.2) (history.take (applied_before s.1 s.2))
    (snapshot_catch_up s.1 s.2) hlive (by rw [hlength]; exact hmeets)
  rw [hlength, ← hall] at hloop
  intro s'
  have hlive' : P (history.take s.2.delivered) (live_shards s'.1.g_shards) := by
    rw [hpoll.shards]
    exact hloop
  have hsnap' : s'.1.g_snapshot_applied_index = s.2.snapshot_last_index :=
    hpoll.snapshot.trans hsnap
  -- without a compaction the node is as before; with one its snapshot is what this poll ended with
  rcases hpoll.status with ⟨hst, hcnt⟩ | ⟨hpos, hcnt, hst⟩
  · have hst' : s'.2 = s.2 := hst
    have hcnt' : s'.1.g_local_applied_count = s.2.applied_commands.length := hcnt
    refine ⟨⟨?_, ?_, hbuilt, ?_, fun _ => ⟨?_, ?_⟩⟩, ?_, hlive'⟩
    · rw [hst']
      exact h.shows_
    · rw [hst']
      exact h.snapshot
    · rw [hst', hsnap']
    · rw [hst', hcnt']
    · rw [hst', hcnt']
      exact hlive'
    · rw [hst']
  · have hst' : s'.2 = ⟨s.2.delivered, some (serialize_raft_snapshot s'.1), []⟩ := hst
    have hlt : s'.1.g_snapshot_applied_index < s.2.delivered := by
      rw [hsnap']
      exact Nat.lt_add_of_pos_right hpos
    refine ⟨⟨?_, ?_, hbuilt, ?_, fun heq => ?_⟩, ?_, hlive'⟩
    · rw [hst']
      exact h.shows_.compacted _
    · rw [hst']
      exact ⟨h.shows_.bound, Or.inr ⟨s'.1, rfl, hlive'⟩⟩
    · rw [hst']
      exact le_of_lt hlt
    · rw [hst'] at heq
      exact absurd heq (Nat.ne_of_lt hlt)
    · rw [hst']
      rfl

theorem Follows.install {s : Coordinator × RaftStatus} (h : Follows P history s) {m : ℕ}
    {data : Option (List SnapshotShard)} (hm : SnapshotFollows P history m data) :
    Follows P history (s.1, s.2.install m data) := by
  unfold RaftStatus.install
  by_cases hold : m ≤ s.2.snapshot_last_index
  · rw [if_pos hold]
    exact h
  rw [if_neg hold]
  have hb := h.shows_.bound
  unfold RaftStatus.delivered at hb
  have hbehind := h.behind
  refine ⟨⟨?_, ?_⟩, hm, h.built, ?_, fun heq => ?_⟩
  · have hm' := hm.1
    simp only [RaftStatus.delivered, List.length_drop]
    omega
  · dsimp only
    rw [List.length_drop, h.shows_.pending]
    by_cases hfar : m - s.2.snapshot_last_index ≤ s.2.applied_commands.length
    · rw [min_eq_left hfar, Nat.add_sub_cancel' (by omega)]
    · rw [min_eq_right (by omega), Nat.sub_self, List.take_zero, List.take_zero]
  · dsimp only
    omega
  · dsimp only at heq
    omega

end Follows

/-! ## What a fleet keeps -/

section FleetFollows

variable {P : List Command → List ShardClient → Prop} {G : Coordinator → Command → Prop}
  {f f' : Fleet} {e : Event}

/-- The condition on an event: a poll meets it. -/
def Event.Meets (G : Coordinator → Command → Prop) (f : Fleet) : Event → Prop
  | .turn i (.poll _) => PollMeets G (f.node i)
  | _ => True

instance decidableEventMeets [∀ c cmd, Decidable (G c cmd)] (f : Fleet) :
    ∀ e : Event, Decidable (e.Meets G f)
  | .turn i (.poll _) =>
      inferInstanceAs (Decidable (Coord.Meets G (applied_before (f.node i).1 (f.node i).2) _ _))
  | .turn _ .deliver => isTrue trivial
  | .commit _ => isTrue trivial
  | .send_snapshot _ => isTrue trivial
  | .install_snapshot _ _ _ => isTrue trivial

theorem fleetFollows_init {config : List ShardEndpoint} {c₀ : Coordinator}
    (h : start config 0 = some c₀) (hP : P [] (live_shards c₀.g_shards)) :
    FleetFollows P (Fleet.init c₀) := by
  obtain ⟨-, hcount, hsnap, hbuilt⟩ := start_shards h
  refine ⟨fun i => ?_, by simp [Fleet.init]⟩
  refine ⟨⟨Nat.zero_le _, rfl⟩, ⟨Nat.zero_le _, Or.inl rfl⟩, hbuilt, ?_, fun _ => ⟨?_, ?_⟩⟩
  · exact le_of_eq hsnap
  · exact le_of_eq hcount
  · rw [show (Fleet.init c₀).history = [] from rfl, List.take_nil]
    exact hP

/-- One event keeps the fleet. -/
theorem FleetFollows.step (hP : Stable P G) (hf : FleetFollows P f) (he : e.Meets G f)
    (h : f.step e = some f') : FleetFollows P f' := by
  -- every event but a commit changes one coordinator
  have hset : ∀ (i : ℤ) (s : Coordinator × RaftStatus), Follows P f.history s →
      ∀ j, Follows P f.history (Function.update f.node i s j) := by
    intro i s hs j
    by_cases hj : j = i
    · rw [hj, Function.update_self]
      exact hs
    · rw [Function.update_of_ne hj]
      exact hf.node j
  cases e with
  | commit cmd =>
      obtain rfl := Option.some.inj h
      exact ⟨fun i => (hf.node i).commit cmd, fun x hx => (hf.sent x hx).commit cmd⟩
  | turn i t =>
      obtain ⟨s, hs, rfl⟩ := Option.map_eq_some_iff.mp h
      refine ⟨hset i s ?_, hf.sent⟩
      cases t with
      | deliver =>
          obtain ⟨cmd, hcmd, rfl⟩ := Option.map_eq_some_iff.mp hs
          have hi := hf.node i
          refine ⟨hi.shows_.deliver hcmd, hi.snapshot, hi.built, hi.behind, fun heq => ?_⟩
          obtain ⟨hcount, hlive⟩ := hi.level heq
          refine ⟨?_, hlive⟩
          rw [List.length_append]
          exact Nat.le_add_right_of_le hcount
      | poll threshold =>
          obtain rfl := Option.some.inj hs
          exact ((hf.node i).poll hP he threshold).1
  | send_snapshot i =>
      obtain rfl := Option.some.inj h
      refine ⟨hf.node, fun x hx => ?_⟩
      rcases List.mem_cons.mp hx with rfl | hx
      · exact (hf.node i).snapshot
      · exact hf.sent x hx
  | install_snapshot i m data =>
      rw [Fleet.step] at h
      split at h
      · rename_i hmem
        obtain rfl := Option.some.inj h
        exact ⟨hset i _ ((hf.node i).install (hf.sent _ hmem)), hf.sent⟩
      · exact absurd h (by simp)

/-- How many commands the topology of each coordinator stands for, after an event. -/
def Event.position (f : Fleet) (position : ℤ → ℕ) : Event → ℤ → ℕ
  | .turn i (.poll _) => Function.update position i (f.node i).2.delivered
  | _ => position

/-- One event keeps what each coordinator sees. -/
theorem FleetFollows.sees (hP : Stable P G) (hf : FleetFollows P f) (he : e.Meets G f)
    {position : ℤ → ℕ} (hsees : ∀ i, Sees P f.history (position i) (f.node i).1)
    (h : f.step e = some f') :
    ∀ i, Sees P f'.history (e.position f position i) (f'.node i).1 := by
  cases e with
  | commit cmd =>
      obtain rfl := Option.some.inj h
      exact fun i => (hsees i).commit cmd
  | turn i t =>
      obtain ⟨s, hs, rfl⟩ := Option.map_eq_some_iff.mp h
      intro j
      dsimp only
      cases t with
      | deliver =>
          obtain ⟨cmd, -, rfl⟩ := Option.map_eq_some_iff.mp hs
          by_cases hj : j = i
          · rw [hj, Function.update_self]
            exact hsees i
          · rw [Function.update_of_ne hj]
            exact hsees j
      -- only a poll moves a coordinator to a later point of the history
      | poll threshold =>
          obtain rfl := Option.some.inj hs
          simp only [Event.position]
          by_cases hj : j = i
          · rw [hj, Function.update_self, Function.update_self]
            exact ⟨(hf.node i).shows_.bound, ((hf.node i).poll hP he threshold).2.2⟩
          · rw [Function.update_of_ne hj, Function.update_of_ne hj]
            exact hsees j
  | send_snapshot i =>
      obtain rfl := Option.some.inj h
      exact hsees
  | install_snapshot i m data =>
      rw [Fleet.step] at h
      split at h
      · obtain rfl := Option.some.inj h
        intro j
        dsimp only
        by_cases hj : j = i
        · rw [hj, Function.update_self]
          exact hsees i
        · rw [Function.update_of_ne hj]
          exact hsees j
      · exact absurd h (by simp)

end FleetFollows

end NanoDB.Coord
