/-
`health_check_loop` of `cluster/coordinator_main.cpp`: how many misses make a failover.

The thread of the health check goes through the shard ids one after the other. It pings the
primary of each, waits for the answer, counts the misses of the shard and proposes a failover
when there are enough of them. Meanwhile other threads apply `set_primary` commands, those of an
operator and those of earlier failovers, and the coordinator gains and loses leadership; the
thread looks at its role when a round starts. Shards are not added or removed here, so the pool
of a round is made of the same replicas all the time.

A ping and the question which replica is to be promoted take time, so they are steps of their
own. A replica is its position in `g_shards`: that list is append-only, and the source holds
pointers into it.

# The one awkward thing, named up front

The misses are counted by shard id. A command that changes the primary does not reset the count,
and the misses of the old primary are held against the new one. The same happens to a ping that
is on its way when the command is applied.
-/
import NanoDB.CoordAdmin
import NanoDB.Lib.Grouping
import NanoDB.Lib.Trace

set_option autoImplicit false

namespace NanoDB.Coord

/-! ## The thread -/

/-- Where the thread is. -/
inductive Waiting
  | sleeping
  | round (shard_ids : List ℤ)
  /-- `Ping` was sent to a replica. -/
  | pinging (shard_id : ℤ) (primary : ℕ) (rest : List ℤ)
  /-- `Stats` was sent to the other replicas of the shard. -/
  | asking (shard_id : ℤ) (primary : ℕ) (rest : List ℤ)
deriving DecidableEq, Repr

/-- The health check of a coordinator. `pings` has what was sent and how it ended, the last
first; it is not in the source. -/
structure Monitor where
  g_shards : List ShardClient
  leader : Bool := false
  failures : ℤ → ℕ := fun _ => 0
  thread : Waiting := .sleeping
  pings : List (ℤ × ℕ × Bool) := []

inductive MonitorAct
  | leadership (leader : Bool)
  /-- A `set_primary` command is applied. -/
  | set_primary (command_epoch : ℕ) (shard_id replica_id : ℤ)
  | wake
  | ping
  | answer (ok : Bool)
  | stats (answers : List (Option ℕ))
deriving DecidableEq, Repr

/-- `find_primary` on the live shards, as a position. -/
def primary_at (g_shards : List ShardClient) (shard_id : ℤ) : Option ℕ :=
  g_shards.findIdx? (fun sc => sc.active && (decide (sc.shard_id = shard_id) && sc.is_primary))

/-- `replicas_for_shard` without the replica that was pinged. -/
def candidates (g_shards : List ShardClient) (shard_id : ℤ) (primary : ℕ) : List ShardClient :=
  let out := g_shards.zipIdx.filter
    (fun p => p.1.active && decide (p.1.shard_id = shard_id))
  ((out.filter (fun p => p.1.is_primary) ++ out.filter (fun p => !p.1.is_primary)).filter
    (fun p => decide (p.2 ≠ primary))).map Prod.fst

/-- The `set_primary` of `apply_command`, on the replicas. -/
def set_primary (command_epoch : ℕ) (shard_id replica_id : ℤ) (g_shards : List ShardClient) :
    List ShardClient :=
  g_shards.map (fun sc =>
    if sc.shard_id ≠ shard_id then sc
    else { sc with is_primary := decide (sc.replica_id = replica_id), epoch := command_epoch })

/-- The answer to a ping. -/
def Monitor.answer (s : Monitor) (ok : Bool) : Option Monitor :=
  match s.thread with
  | .pinging shard_id primary rest =>
      let s := { s with pings := (shard_id, primary, ok) :: s.pings }
      if ok then
        some
          { s with failures := Function.update s.failures shard_id 0, thread := .round rest }
      else
        let failures := s.failures shard_id + 1
        let s := { s with failures := Function.update s.failures shard_id failures }
        if failures < FAILURES_BEFORE_FAILOVER then some { s with thread := .round rest }
        else some { s with thread := .asking shard_id primary rest }
  | _ => none

/-- What the thread proposes when `Stats` has been answered: the shard, the replica that loses
its role, and the command. -/
def Monitor.proposes (s : Monitor) (answers : List (Option ℕ)) : Option (ℤ × ℕ × Command) :=
  match s.thread with
  | .asking shard_id primary _ =>
      (promotion ((candidates s.g_shards shard_id primary).zip answers)).map
        (fun candidate => (shard_id, primary, .set_primary shard_id candidate.replica_id))
  | _ => none

def monitor_step (s : Monitor) : MonitorAct → Option Monitor
  | .leadership leader => some { s with leader := leader }
  | .set_primary command_epoch shard_id replica_id =>
      some { s with g_shards := set_primary command_epoch shard_id replica_id s.g_shards }
  | .wake =>
      match s.thread with
      | .sleeping =>
          if s.leader then
            some { s with
              thread := .round (Grouping.keys ShardClient.shard_id (live_shards s.g_shards)) }
          else some s
      | _ => none
  | .ping =>
      match s.thread with
      | .round [] => some { s with thread := .sleeping }
      | .round (shard_id :: rest) =>
          match primary_at s.g_shards shard_id with
          | none => some { s with thread := .round rest }
          | some primary => some { s with thread := .pinging shard_id primary rest }
      | _ => none
  | .answer ok => s.answer ok
  | .stats answers =>
      match s.thread with
      | .asking shard_id _ rest =>
          match s.proposes answers with
          | none => some { s with thread := .round rest }
          | some _ =>
              -- the command is proposed on a thread of its own
              some
                { s with
                  failures := Function.update s.failures shard_id 0
                  thread := .round rest }
      | _ => none

/-! ## The functions of the source -/

/-- A command that is applied is the step of the monitor. -/
theorem apply_command_set_primary (command_epoch : ℕ) (c : Coordinator)
    (shard_id replica_id : ℤ) :
    (apply_command command_epoch c (.set_primary shard_id replica_id)).g_shards
      = set_primary command_epoch shard_id replica_id c.g_shards := rfl

theorem find?_eq_findIdx? {α : Type*} (p : α → Bool) (l : List α) :
    l.find? p = (l.findIdx? p).bind (fun k => l[k]?) := by
  induction l with
  | nil => rfl
  | cons x l ih =>
      rw [List.find?_cons, List.findIdx?_cons]
      cases p x with
      | true => rfl
      | false => simp [ih, Option.bind_map]

/-- `find_primary` among the live shards is what `primary_at` points at. -/
theorem find_primary_eq (g_shards : List ShardClient) (shard_id : ℤ) :
    find_primary (live_shards g_shards) shard_id
      = (primary_at g_shards shard_id).bind (fun k => g_shards[k]?) := by
  rw [find_primary, live_shards, List.find?_filter, find?_eq_findIdx?]
  simp only [primary_at, Bool.decide_and, Bool.decide_eq_true]

/-- A command for one shard leaves the primaries of the others. -/
theorem primary_at_set_primary_ne (command_epoch : ℕ) {shard_id k : ℤ} (hk : k ≠ shard_id)
    (replica_id : ℤ) (g_shards : List ShardClient) :
    primary_at (set_primary command_epoch shard_id replica_id g_shards) k
      = primary_at g_shards k := by
  rw [primary_at, set_primary, List.findIdx?_map, primary_at]
  congr 1
  funext sc
  by_cases hsc : sc.shard_id = shard_id
  · simp [hsc, Ne.symm hk]
  · simp [hsc]

/-! ## Runs -/

/-- The pings of one shard, the last first. -/
def Monitor.pings_of (s : Monitor) (shard_id : ℤ) : List (ℕ × Bool) :=
  s.pings.filterMap (fun p => if p.1 = shard_id then some p.2 else none)

/-- The shard has misses, or a ping of it is on its way. -/
def Monitor.Watched (s : Monitor) (shard_id : ℤ) : Prop :=
  0 < s.failures shard_id ∨ ∃ primary rest, s.thread = .pinging shard_id primary rest

/-- No command changes the primary of a shard with misses, or with a ping on its way. -/
def Steady (s : Monitor) : MonitorAct → Prop
  | .set_primary command_epoch shard_id replica_id => s.Watched shard_id →
      primary_at (set_primary command_epoch shard_id replica_id s.g_shards) shard_id
        = primary_at s.g_shards shard_id
  | _ => True

/-- The last `n` pings of a shard went to its primary and failed. -/
def Missed (g_shards : List ShardClient) (shard_id : ℤ) (n : ℕ) (pings : List (ℕ × Bool)) : Prop :=
  n = 0 ∨ ∃ primary, primary_at g_shards shard_id = some primary ∧
    pings.take n = List.replicate n (primary, false)

/-- The misses of a shard are those of its primary. -/
structure Monitor.Inv (s : Monitor) : Prop where
  misses : ∀ k, Missed s.g_shards k (s.failures k) (s.pings_of k)
  pinging : ∀ k primary rest, s.thread = .pinging k primary rest →
    primary_at s.g_shards k = some primary
  asking : ∀ k primary rest, s.thread = .asking k primary rest →
    FAILURES_BEFORE_FAILOVER ≤ s.failures k ∧ primary_at s.g_shards k = some primary

/-- One miss more. -/
theorem missed_succ {g_shards : List ShardClient} {shard_id : ℤ} {n primary : ℕ}
    {pings : List (ℕ × Bool)} (h : Missed g_shards shard_id n pings)
    (hprimary : primary_at g_shards shard_id = some primary) :
    Missed g_shards shard_id (n + 1) ((primary, false) :: pings) := by
  refine Or.inr ⟨primary, hprimary, ?_⟩
  rw [List.take_succ_cons, List.replicate_succ]
  rcases h with rfl | ⟨p, hp, htake⟩
  · rfl
  · obtain rfl : p = primary := Option.some.inj (hp.symm.trans hprimary)
    rw [htake]

theorem pings_of_cons (s : Monitor) (shard_id : ℤ) (primary : ℕ) (ok : Bool) (k : ℤ) :
    Monitor.pings_of { s with pings := (shard_id, primary, ok) :: s.pings } k
      = if shard_id = k then (primary, ok) :: s.pings_of k else s.pings_of k := by
  unfold Monitor.pings_of
  rw [List.filterMap_cons]
  by_cases hk : shard_id = k <;> simp [hk]

/-- A command that is applied. -/
theorem inv_set_primary {s : Monitor} (h : s.Inv) {command_epoch : ℕ} {shard_id replica_id : ℤ}
    (hsteady : Steady s (.set_primary command_epoch shard_id replica_id)) :
    { s with g_shards := set_primary command_epoch shard_id replica_id s.g_shards }.Inv := by
  have hsame : ∀ k, s.Watched k →
      primary_at (set_primary command_epoch shard_id replica_id s.g_shards) k
        = primary_at s.g_shards k := by
    intro k hk
    by_cases hne : k = shard_id
    · subst hne
      exact hsteady hk
    · exact primary_at_set_primary_ne command_epoch hne replica_id s.g_shards
  constructor
  · intro k
    rcases h.misses k with hzero | ⟨primary, hprimary, htake⟩
    · exact Or.inl hzero
    · rcases Nat.eq_zero_or_pos (s.failures k) with hzero | hpos
      · exact Or.inl hzero
      · exact Or.inr ⟨primary, (hsame k (Or.inl hpos)).trans hprimary, htake⟩
  · intro k primary rest hthread
    exact (hsame k (Or.inr ⟨primary, rest, hthread⟩)).trans (h.pinging k primary rest hthread)
  · intro k primary rest hthread
    obtain ⟨henough, hprimary⟩ := h.asking k primary rest hthread
    have hpos : 0 < s.failures k := lt_of_lt_of_le (by decide) henough
    exact ⟨henough, (hsame k (Or.inl hpos)).trans hprimary⟩

/-- The answer to a ping. -/
theorem inv_answer {s s' : Monitor} (h : s.Inv) {ok : Bool} (hstep : s.answer ok = some s') :
    s'.Inv := by
  unfold Monitor.answer at hstep
  split at hstep
  · rename_i shard_id primary rest hthread
    have hprimary := h.pinging shard_id primary rest hthread
    dsimp only at hstep
    -- whatever the count of the pinged shard becomes, those of the others stay
    have hmisses : ∀ n, Missed s.g_shards shard_id n ((primary, ok) :: s.pings_of shard_id) →
        ∀ k, Missed s.g_shards k (Function.update s.failures shard_id n k)
          (Monitor.pings_of { s with pings := (shard_id, primary, ok) :: s.pings } k) := by
      intro n hn k
      rw [pings_of_cons]
      by_cases hk : k = shard_id
      · subst hk
        rw [Function.update_self, if_pos rfl]
        exact hn
      · rw [Function.update_of_ne hk, if_neg (Ne.symm hk)]
        exact h.misses k
    cases ok with
    | true =>
        obtain rfl := Option.some.inj hstep
        exact ⟨hmisses 0 (Or.inl rfl), by simp, by simp⟩
    | false =>
        have hmissed := hmisses _ (missed_succ (h.misses shard_id) hprimary)
        rw [if_neg (by simp)] at hstep
        split at hstep
        · obtain rfl := Option.some.inj hstep
          exact ⟨hmissed, by simp, by simp⟩
        · rename_i henough
          obtain rfl := Option.some.inj hstep
          refine ⟨hmissed, by simp, ?_⟩
          rintro k p r heq
          obtain ⟨rfl, rfl, -⟩ := Waiting.asking.inj heq
          dsimp only
          rw [Function.update_self]
          exact ⟨not_lt.mp henough, hprimary⟩
  · simp at hstep

/-- **Every step** keeps the invariant, if it is steady. -/
theorem inv_step {s s' : Monitor} {a : MonitorAct} (h : s.Inv) (hsteady : Steady s a)
    (hstep : monitor_step s a = some s') : s'.Inv := by
  cases a with
  | leadership leader =>
      obtain rfl := Option.some.inj hstep
      exact ⟨h.misses, h.pinging, h.asking⟩
  | set_primary command_epoch shard_id replica_id =>
      obtain rfl := Option.some.inj hstep
      exact inv_set_primary h hsteady
  | wake =>
      rw [monitor_step] at hstep
      split at hstep
      · split at hstep
        · obtain rfl := Option.some.inj hstep
          exact ⟨h.misses, by simp, by simp⟩
        · obtain rfl := Option.some.inj hstep
          exact h
      · simp at hstep
  | ping =>
      rw [monitor_step] at hstep
      split at hstep
      · obtain rfl := Option.some.inj hstep
        exact ⟨h.misses, by simp, by simp⟩
      · split at hstep
        · obtain rfl := Option.some.inj hstep
          exact ⟨h.misses, by simp, by simp⟩
        · rename_i primary hprimary
          obtain rfl := Option.some.inj hstep
          refine ⟨h.misses, ?_, by simp⟩
          rintro k p r heq
          obtain ⟨rfl, rfl, -⟩ := Waiting.pinging.inj heq
          exact hprimary
      · simp at hstep
  | answer ok => exact inv_answer h hstep
  | stats answers =>
      rw [monitor_step] at hstep
      split at hstep
      · rename_i shard_id primary rest hthread
        split at hstep
        · obtain rfl := Option.some.inj hstep
          exact ⟨h.misses, by simp, by simp⟩
        · obtain rfl := Option.some.inj hstep
          refine ⟨fun k => ?_, by simp, by simp⟩
          dsimp only
          by_cases hk : k = shard_id
          · subst hk
            rw [Function.update_self]
            exact Or.inl rfl
          · rw [Function.update_of_ne hk]
            exact h.misses k
      · simp at hstep

/-- A coordinator that has just started. -/
def Monitor.start (g_shards : List ShardClient) (leader : Bool) : Monitor :=
  { g_shards := g_shards, leader := leader }

theorem inv_start (g_shards : List ShardClient) (leader : Bool) :
    (Monitor.start g_shards leader).Inv :=
  ⟨fun _ => Or.inl rfl, by simp [Monitor.start], by simp [Monitor.start]⟩

/-- **A failover needs three misses of the same primary**, in every run in which no command
changes the primary of a shard that has misses or a ping on its way: when the thread proposes a
failover away from a replica, the last three pings of the shard went to it and failed. -/
theorem failover_after_three_misses {g_shards : List ShardClient} {leader : Bool}
    {acts : List MonitorAct} {s : Monitor}
    (hrun : Trace.run monitor_step (.start g_shards leader) acts = some s)
    (hsteady : Trace.Along monitor_step Steady (.start g_shards leader) acts)
    {answers : List (Option ℕ)} {shard_id : ℤ} {primary : ℕ} {cmd : Command}
    (hproposes : s.proposes answers = some (shard_id, primary, cmd)) :
    (s.pings_of shard_id).take FAILURES_BEFORE_FAILOVER
      = List.replicate FAILURES_BEFORE_FAILOVER (primary, false) := by
  have hinv := Trace.run_invariant_along (fun _ _ _ h hok hs => inv_step h hok hs)
    (inv_start g_shards leader) hsteady hrun
  unfold Monitor.proposes at hproposes
  split at hproposes
  · rename_i k p rest hthread
    obtain ⟨candidate, -, heq⟩ := Option.map_eq_some_iff.mp hproposes
    obtain ⟨rfl, hrest⟩ := Prod.mk.inj heq
    obtain ⟨rfl, -⟩ := Prod.mk.inj hrest
    obtain ⟨henough, hprimary⟩ := hinv.asking k p rest hthread
    rcases hinv.misses k with hzero | ⟨p', hp', htake⟩
    · rw [hzero] at henough
      exact absurd henough (by decide)
    · obtain rfl : p' = p := Option.some.inj (hp'.symm.trans hprimary)
      have hshort := congrArg (List.take FAILURES_BEFORE_FAILOVER) htake
      rwa [List.take_take, List.take_replicate, Nat.min_eq_left henough] at hshort
  · simp at hproposes

/-- A shard with two replicas, the first of them the primary. -/
def pair : List ShardClient :=
  [⟨0, 0, "a", 1, true, true, 0⟩, ⟨0, 1, "b", 1, true, false, 0⟩]

/-- A round with one answer. -/
def round (ok : Bool) : List MonitorAct :=
  [.wake, .ping, .answer ok, .ping]

/-- Three lost pings of replica `0`. -/
theorem failover_of_silent_primary :
    ∃ s : Monitor, Trace.run monitor_step (.start pair true)
        (round false ++ round false ++ [.wake, .ping, .answer false]) = some s ∧
      s.proposes [some 5] = some (0, 0, .set_primary 0 1) ∧
      (s.pings_of 0).take FAILURES_BEFORE_FAILOVER
        = List.replicate FAILURES_BEFORE_FAILOVER (0, false) := by
  obtain ⟨s, hrun, hs⟩ : ∃ s : Monitor, Trace.run monitor_step (.start pair true)
        (round false ++ round false ++ [.wake, .ping, .answer false]) = some s ∧
      s.proposes [some 5] = some (0, 0, .set_primary 0 1) :=
    Trace.exists_run (by decide +kernel)
  refine ⟨s, hrun, hs, failover_after_three_misses hrun ?_ hs⟩
  simp [Trace.Along, round, Steady]

/-- Two misses of replica `0`, a command that makes replica `1` the primary, and the first ping
of replica `1` is lost: it is demoted after one miss. -/
theorem failover_after_one_miss :
    ∃ s : Monitor, Trace.run monitor_step (.start pair true)
        (round false ++ round false ++ [.set_primary 1 0 1, .wake, .ping, .answer false]) = some s ∧
      s.proposes [some 5] = some (0, 1, .set_primary 0 0) ∧
      (s.pings_of 0).take FAILURES_BEFORE_FAILOVER = [(1, false), (0, false), (0, false)] :=
  Trace.exists_run (by decide +kernel)

end NanoDB.Coord
