/-
`cluster/coordinator_main.cpp`: which commands the admin handlers and the health check propose.

`POST /admin/shards/add`, `/remove` and `/set_primary` and the failover of `health_check_loop`
check a request against the topology of the coordinator they run on and propose a command. The
command is committed later, or never, and applied by every coordinator to the topology it has
then. Handlers run on several coordinators at the same time: `leader` is whatever the Raft node
said at the start, so any coordinator may pass that check at any time, and leadership may change
before the command is proposed or committed.

What the add and remove handlers migrate is left out here; it touches the shards, not the
topology.

# The one awkward thing, named up front

A check says something about the topology at the time of the check. What it says about the
topology the command is applied to is the subject of this module: two invariants of the cluster
rest on checks, and each holds only under a condition that the checks do not enforce.
-/
import NanoDB.CoordFold
import NanoDB.QuorumWrite

set_option autoImplicit false

namespace NanoDB.Coord

/-! ## The checks -/

/-- An HTTP status and the `"error"` of its body. -/
structure Refusal where
  status : ℕ
  error : String
deriving DecidableEq, Repr

/-- `POST /admin/shards/add`, up to `propose`. -/
def add_checks (leader rebalancing : Bool) (new_id : ℤ) (replicas : List ReplicaSpec) :
    Except Refusal Command :=
  if leader = false then .error ⟨503, "not the leader"⟩
  else if rebalancing then .error ⟨409, "a rebalance is already in progress"⟩
  else if replicas = [] then .error ⟨400, "replicas must be a non-empty array"⟩
  else
    let has_primary := replicas.any (fun r => r.primary)
    if has_primary = false then .error ⟨400, "exactly one replica must be marked primary"⟩
    else .ok (.add_shard new_id replicas)

/-- `POST /admin/shards/remove`, up to the migration. -/
def remove_checks (c : Coordinator) (leader rebalancing : Bool) (leaving_id : ℤ) :
    Except Refusal Command :=
  if leader = false then .error ⟨503, "not the leader"⟩
  else if rebalancing then .error ⟨409, "a rebalance is already in progress"⟩
  else
    let pool := live_shards c.g_shards
    if replicas_for_shard pool leaving_id = [] ∨ find_primary pool leaving_id = none then
      .error ⟨404, "shard not found or already inactive"⟩
    else if (active_ids c.g_shards).length ≤ 1 then .error ⟨400, "cannot remove the last shard"⟩
    else .ok (.remove_shard leaving_id)

/-- `POST /admin/shards/set_primary`, up to `propose`. -/
def set_primary_checks (c : Coordinator) (leader : Bool) (shard_id replica_id : ℤ) :
    Except Refusal Command :=
  if leader = false then .error ⟨503, "not the leader"⟩
  else
    let pool := live_shards c.g_shards
    let valid_replica :=
      (replicas_for_shard pool shard_id).any (fun sc => decide (sc.replica_id = replica_id))
    if valid_replica = false then .error ⟨404, "no such active replica for this shard"⟩
    else .ok (.set_primary shard_id replica_id)

def FAILURES_BEFORE_FAILOVER : ℕ := 3

/-- One round of the loop over the replicas. A replica comes with the `element_count` its `Stats`
answered, or nothing; a higher count wins. -/
def better (candidate : Option (ShardClient × ℕ)) (r : ShardClient × Option ℕ) :
    Option (ShardClient × ℕ) :=
  match r.2, candidate with
  | none, _ => candidate
  | some count, none => some (r.1, count)
  | some count, some (_, candidate_count) =>
      if count > candidate_count then some (r.1, count) else candidate

/-- The replica to promote. -/
def promotion (replicas : List (ShardClient × Option ℕ)) : Option ShardClient :=
  (replicas.foldl better none).map Prod.fst

/-- The body of `health_check_loop` for one shard id: the new failure counts and the command of
the failover, if there is one. `ok` is the answer to the ping; `stats` are those of the replicas
other than the primary. -/
def health_check (c : Coordinator) (failures : ℤ → ℕ) (shard_id : ℤ) (ok : Bool)
    (stats : List (Option ℕ)) : (ℤ → ℕ) × Option Command :=
  let pool := live_shards c.g_shards
  match find_primary pool shard_id with
  | none => (failures, none)
  | some primary =>
      if ok then (Function.update failures shard_id 0, none)
      else
        let n := failures shard_id + 1
        let failures := Function.update failures shard_id n
        if n < FAILURES_BEFORE_FAILOVER then (failures, none)
        else
          match promotion (((replicas_for_shard pool shard_id).erase primary).zip stats) with
          | none => (failures, none)
          | some candidate =>
              (Function.update failures shard_id 0,
                some (.set_primary shard_id candidate.replica_id))

/-! ## The coordinators with their handlers -/

/-- A command that passed the checks on a coordinator; `seen` is how many commands the topology
it was checked against stands for. -/
structure Proposal where
  coordinator : ℤ
  command : Command
  seen : ℕ
deriving DecidableEq, Repr

/-- Handlers that have not called `propose` yet are in `checked`, commands handed to Raft and not
committed in `proposed`. -/
structure Admin where
  fleet : Fleet
  position : ℤ → ℕ := fun _ => 0
  rebalancing : ℤ → Bool := fun _ => false
  failures : ℤ → ℤ → ℕ := fun _ _ => 0
  checked : List Proposal := []
  proposed : List Proposal := []

inductive AdminAct
  | add (i : ℤ) (leader : Bool) (new_id : ℤ) (replicas : List ReplicaSpec)
  | remove (i : ℤ) (leader : Bool) (leaving_id : ℤ)
  | set_primary (i : ℤ) (leader : Bool) (shard_id replica_id : ℤ)
  | health_check (i : ℤ) (shard_id : ℤ) (ok : Bool) (stats : List (Option ℕ))
  | propose (j : ℕ)
  | commit (j : ℕ)
  /-- The handler of an add or a removal returns, its command committed or not. -/
  | release (i : ℤ)
  | turn (i : ℤ) (t : Turn)
  | send_snapshot (i : ℤ)
  | install_snapshot (i : ℤ) (new_snap : ℕ) (data : Option (List SnapshotShard))
deriving DecidableEq, Repr

/-- A handler whose checks passed. -/
def Admin.check (s : Admin) (i : ℤ) (cmd : Command) : Admin :=
  { s with checked := s.checked ++ [⟨i, cmd, s.position i⟩] }

/-- The command of a handler that holds the flag `rebalancing`. -/
def Command.rebalances : Command → Bool
  | .add_shard _ _ => true
  | .remove_shard _ => true
  | _ => false

/-- An event of the coordinators. -/
def Admin.event (s : Admin) (e : Event) : Option Admin :=
  (s.fleet.step e).map (fun fleet =>
    { s with fleet := fleet, position := e.position s.fleet s.position })

/-- One step. -/
def admin_step (s : Admin) : AdminAct → Option Admin
  | .add i leader new_id replicas =>
      match add_checks leader (s.rebalancing i) new_id replicas with
      | .error _ => some s
      | .ok cmd =>
          some { s.check i cmd with rebalancing := Function.update s.rebalancing i true }
  | .remove i leader leaving_id =>
      match remove_checks (s.fleet.node i).1 leader (s.rebalancing i) leaving_id with
      | .error _ => some s
      | .ok cmd =>
          some { s.check i cmd with rebalancing := Function.update s.rebalancing i true }
  | .set_primary i leader shard_id replica_id =>
      match set_primary_checks (s.fleet.node i).1 leader shard_id replica_id with
      | .error _ => some s
      | .ok cmd => some (s.check i cmd)
  | .health_check i shard_id ok stats =>
      let r := health_check (s.fleet.node i).1 (s.failures i) shard_id ok stats
      let s := { s with failures := Function.update s.failures i r.1 }
      match r.2 with
      | none => some s
      | some cmd => some (s.check i cmd)
  | .propose j =>
      match s.checked[j]? with
      | none => none
      | some p => some { s with checked := s.checked.eraseIdx j, proposed := s.proposed ++ [p] }
  | .commit j =>
      match s.proposed[j]? with
      | none => none
      | some p =>
          { s with proposed := s.proposed.eraseIdx j }.event (.commit p.command)
  | .release i =>
      if s.checked.any (fun p => decide (p.coordinator = i) && p.command.rebalances) then none
      else some { s with rebalancing := Function.update s.rebalancing i false }
  | .turn i t => s.event (.turn i t)
  | .send_snapshot i => s.event (.send_snapshot i)
  | .install_snapshot i new_snap data => s.event (.install_snapshot i new_snap data)

/-! ## What a step does -/

/-- What the checks on a coordinator say about the command. -/
def Checked (a : AdminAct) (i : ℤ) (c : Coordinator) : Command → Prop
  | .add_shard k replicas => (∃ leader, a = .add i leader k replicas) ∧ replicas ≠ [] ∧
      ∃ r ∈ replicas, r.primary = true
  | .remove_shard _ => 1 < (active_ids c.g_shards).length
  | .set_primary k r => ∃ sc ∈ live_shards c.g_shards, sc.shard_id = k ∧ sc.replica_id = r
  | .malformed => False

theorem better_mem {candidate best : Option (ShardClient × ℕ)} {r : ShardClient × Option ℕ}
    (h : better candidate r = best) : best = candidate ∨ best.map Prod.fst = some r.1 := by
  unfold better at h
  split at h
  · exact Or.inl h.symm
  · rw [← h]
    exact Or.inr rfl
  · split at h
    · rw [← h]
      exact Or.inr rfl
    · exact Or.inl h.symm

theorem foldl_better_mem (rs : List (ShardClient × Option ℕ)) :
    ∀ (candidate : Option (ShardClient × ℕ)) {sc : ShardClient},
      (rs.foldl better candidate).map Prod.fst = some sc →
      candidate.map Prod.fst = some sc ∨ sc ∈ rs.map Prod.fst := by
  induction rs with
  | nil =>
      intro candidate sc h
      exact Or.inl h
  | cons r rs ih =>
      intro candidate sc h
      rcases ih (better candidate r) h with hbest | hmem
      · rcases better_mem rfl with heq | heq
        · rw [heq] at hbest
          exact Or.inl hbest
        · rw [hbest] at heq
          obtain rfl := Option.some.inj heq
          exact Or.inr List.mem_cons_self
      · exact Or.inr (List.mem_cons_of_mem _ hmem)

/-- The promoted replica is one of those that were asked. -/
theorem promotion_mem {rs : List (ShardClient × Option ℕ)} {sc : ShardClient}
    (h : promotion rs = some sc) : sc ∈ rs.map Prod.fst := by
  rcases foldl_better_mem rs none h with hnone | hmem
  · exact absurd hnone (by simp)
  · exact hmem

theorem add_checks_ok {leader rebalancing : Bool} {k : ℤ} {replicas : List ReplicaSpec}
    {cmd : Command} (h : add_checks leader rebalancing k replicas = .ok cmd) :
    cmd = .add_shard k replicas ∧ replicas ≠ [] ∧ ∃ r ∈ replicas, r.primary = true := by
  unfold add_checks at h
  dsimp only at h
  split_ifs at h with hl hr hne hprim
  rw [Bool.not_eq_false] at hprim
  exact ⟨(Except.ok.inj h).symm, hne, List.any_eq_true.mp hprim⟩

theorem remove_checks_ok {c : Coordinator} {leader rebalancing : Bool} {k : ℤ} {cmd : Command}
    (h : remove_checks c leader rebalancing k = .ok cmd) :
    cmd = .remove_shard k ∧ 1 < (active_ids c.g_shards).length := by
  unfold remove_checks at h
  dsimp only at h
  split_ifs at h with hl hr hfound hlast
  exact ⟨(Except.ok.inj h).symm, not_le.mp hlast⟩

theorem set_primary_checks_ok {c : Coordinator} {leader : Bool} {k r : ℤ} {cmd : Command}
    (h : set_primary_checks c leader k r = .ok cmd) : cmd = .set_primary k r ∧
      ∃ sc ∈ live_shards c.g_shards, sc.shard_id = k ∧ sc.replica_id = r := by
  unfold set_primary_checks at h
  dsimp only at h
  split_ifs at h with hl hvalid
  rw [Bool.not_eq_false, List.any_eq_true] at hvalid
  obtain ⟨sc, hsc, hid⟩ := hvalid
  obtain ⟨hlive, hk⟩ := mem_replicas_for_shard.mp hsc
  exact ⟨(Except.ok.inj h).symm, sc, hlive, hk, of_decide_eq_true hid⟩

theorem health_check_some {c : Coordinator} {failures : ℤ → ℕ} {k : ℤ} {ok : Bool}
    {stats : List (Option ℕ)} {cmd : Command}
    (h : (health_check c failures k ok stats).2 = some cmd) :
    ∃ sc ∈ live_shards c.g_shards, sc.shard_id = k ∧ cmd = .set_primary k sc.replica_id := by
  unfold health_check at h
  dsimp only at h
  split at h
  · exact absurd h (by simp)
  split_ifs at h with hok hfew
  split at h
  · exact absurd h (by simp)
  rename_i candidate hcandidate
  have hmem := promotion_mem hcandidate
  obtain ⟨x, hx, rfl⟩ := List.mem_map.mp hmem
  have hreplica := List.mem_of_mem_erase (List.of_mem_zip (a := x.1) (b := x.2) hx).1
  obtain ⟨hlive, hk⟩ := mem_replicas_for_shard.mp hreplica
  exact ⟨x.1, hlive, hk, (Option.some.inj h).symm⟩

/-- **What a step can do**: start or propose a handler, and then the coordinators are as they
were; or be an event of the coordinators, and then what is committed was proposed. -/
theorem admin_step_cases {s s' : Admin} {a : AdminAct} (h : admin_step s a = some s') :
    (s'.fleet = s.fleet ∧ s'.position = s.position ∧
      ∀ p ∈ s'.checked ++ s'.proposed, p ∈ s.checked ++ s.proposed ∨
        (p.seen = s.position p.coordinator ∧
          Checked a p.coordinator (s.fleet.node p.coordinator).1 p.command)) ∨
    ∃ e, s.fleet.step e = some s'.fleet ∧ s'.position = e.position s.fleet s.position ∧
      (∀ p ∈ s'.checked ++ s'.proposed, p ∈ s.checked ++ s.proposed) ∧
      (∀ cmd ∈ e.committed, ∃ j p, a = .commit j ∧ s.proposed[j]? = some p ∧ cmd = p.command) ∧
      ∀ i t, e = .turn i t → a = .turn i t := by
  -- a handler that passed its checks
  have hcheck : ∀ (t : Admin) (i : ℤ) (cmd : Command), t.checked = s.checked →
      t.proposed = s.proposed → t.position = s.position → Checked a i (s.fleet.node i).1 cmd →
      ∀ p ∈ (t.check i cmd).checked ++ (t.check i cmd).proposed, p ∈ s.checked ++ s.proposed ∨
        (p.seen = s.position p.coordinator ∧
          Checked a p.coordinator (s.fleet.node p.coordinator).1 p.command) := by
    intro t i cmd hc hpr hpos hcmd p hp
    simp only [Admin.check, hc, hpr, hpos, List.mem_append, List.mem_singleton] at hp ⊢
    rcases hp with (hp | rfl) | hp
    · exact Or.inl (Or.inl hp)
    · exact Or.inr ⟨rfl, hcmd⟩
    · exact Or.inl (Or.inr hp)
  have hevent : ∀ (t : Admin) (e : Event), t.fleet = s.fleet → t.position = s.position →
      t.event e = some s' → s.fleet.step e = some s'.fleet ∧
        s'.position = e.position s.fleet s.position ∧ s'.checked = t.checked ∧
        s'.proposed = t.proposed := by
    intro t e hfleet hpos ht
    obtain ⟨f, hf, rfl⟩ := Option.map_eq_some_iff.mp ht
    rw [hfleet] at hf
    exact ⟨hf, by rw [hfleet, hpos], rfl, rfl⟩
  cases a with
  | add i leader k replicas =>
      left
      simp only [admin_step] at h
      split at h
      · obtain rfl := Option.some.inj h
        exact ⟨rfl, rfl, fun p hp => Or.inl hp⟩
      · rename_i cmd hcmd
        obtain rfl := Option.some.inj h
        obtain ⟨rfl, hne, hprim⟩ := add_checks_ok hcmd
        exact ⟨rfl, rfl, hcheck s i _ rfl rfl rfl ⟨⟨leader, rfl⟩, hne, hprim⟩⟩
  | remove i leader k =>
      left
      simp only [admin_step] at h
      split at h
      · obtain rfl := Option.some.inj h
        exact ⟨rfl, rfl, fun p hp => Or.inl hp⟩
      · rename_i cmd hcmd
        obtain rfl := Option.some.inj h
        obtain ⟨rfl, hmany⟩ := remove_checks_ok hcmd
        exact ⟨rfl, rfl, hcheck s i _ rfl rfl rfl hmany⟩
  | set_primary i leader k r =>
      left
      simp only [admin_step] at h
      split at h
      · obtain rfl := Option.some.inj h
        exact ⟨rfl, rfl, fun p hp => Or.inl hp⟩
      · rename_i cmd hcmd
        obtain rfl := Option.some.inj h
        obtain ⟨rfl, hsc⟩ := set_primary_checks_ok hcmd
        exact ⟨rfl, rfl, hcheck s i _ rfl rfl rfl hsc⟩
  | health_check i k ok stats =>
      left
      simp only [admin_step] at h
      split at h
      · obtain rfl := Option.some.inj h
        exact ⟨rfl, rfl, fun p hp => Or.inl hp⟩
      · rename_i cmd hcmd
        obtain rfl := Option.some.inj h
        obtain ⟨sc, hsc, hk, rfl⟩ := health_check_some hcmd
        exact ⟨rfl, rfl, hcheck _ i _ rfl rfl rfl ⟨sc, hsc, hk, rfl⟩⟩
  | propose j =>
      left
      simp only [admin_step] at h
      split at h
      · exact absurd h (by simp)
      · rename_i p hj
        obtain rfl := Option.some.inj h
        refine ⟨rfl, rfl, fun q hq => Or.inl ?_⟩
        simp only [List.mem_append, List.mem_singleton] at hq ⊢
        rcases hq with hq | hq | rfl
        · exact Or.inl (List.mem_of_mem_eraseIdx hq)
        · exact Or.inr hq
        · exact Or.inl (List.mem_of_getElem? hj)
  | commit j =>
      right
      simp only [admin_step] at h
      split at h
      · exact absurd h (by simp)
      · rename_i p hj
        obtain ⟨hstep, hpos, hc, hpr⟩ :=
          hevent { s with proposed := s.proposed.eraseIdx j } _ rfl rfl h
        refine ⟨_, hstep, hpos, fun q hq => ?_, fun cmd hcmd => ⟨j, p, rfl, hj, ?_⟩, by simp⟩
        · rw [hc, hpr, List.mem_append] at hq
          rw [List.mem_append]
          exact hq.imp id List.mem_of_mem_eraseIdx
        · exact List.mem_singleton.mp hcmd
  | release i =>
      left
      simp only [admin_step] at h
      split at h
      · exact absurd h (by simp)
      · obtain rfl := Option.some.inj h
        exact ⟨rfl, rfl, fun p hp => Or.inl hp⟩
  | turn i t =>
      right
      obtain ⟨hstep, hpos, hc, hpr⟩ := hevent _ _ rfl rfl h
      refine ⟨_, hstep, hpos, by rw [hc, hpr]; exact fun p hp => hp, ?_, ?_⟩
      · exact fun cmd hcmd => absurd hcmd (by simp [Event.committed])
      · rintro _ _ ⟨⟩
        rfl
  | send_snapshot i =>
      right
      obtain ⟨hstep, hpos, hc, hpr⟩ := hevent _ _ rfl rfl h
      exact ⟨_, hstep, hpos, by rw [hc, hpr]; exact fun p hp => hp,
        fun cmd hcmd => absurd hcmd (by simp [Event.committed]), by simp⟩
  | install_snapshot i m data =>
      right
      obtain ⟨hstep, hpos, hc, hpr⟩ := hevent _ _ rfl rfl h
      exact ⟨_, hstep, hpos, by rw [hc, hpr]; exact fun p hp => hp,
        fun cmd hcmd => absurd hcmd (by simp [Event.committed]), by simp⟩

end NanoDB.Coord
