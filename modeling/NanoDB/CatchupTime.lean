/-
`research/qdrant_kill_scheduler/derive_catchup_time.py`: how long a killed node takes to catch up.

The samples of a run are grouped into rounds. After a kill the rounds are looked at in order of
time: the node has caught up in the first round in which each of its replicas is within `eps` of
the best other replica of its shard. The number that comes out separates short from long gaps
between kills in later experiments.

# The one awkward thing, named up front

The definition in the docstring speaks of every shard that the node hosts. The loop looks at the
replicas of the node that were sampled in the round, and skips those whose shard has no other
replica in it. A round in which most of the samples are missing can pass for a catch-up.

Times and completeness are exact numbers here.
-/
import Mathlib.Algebra.Order.Field.Rat
import Mathlib.Tactic.Linarith
import NanoDB.Lib.Grouping

set_option autoImplicit false

namespace NanoDB.Experiment

/-! ## Data -/

/-- A line of `samples.csv`, as far as it is read. -/
structure SampleRow where
  t_rel : ℚ
  shard : ℤ
  replica : ℤ
  reachable : Bool
  completeness : Option ℚ
deriving DecidableEq, Repr

/-- One replica in a round. -/
structure Sample where
  shard : ℤ
  replica : ℤ
  completeness : ℚ
deriving DecidableEq, Repr

structure Kill where
  node : ℤ
  t_rel : ℚ
deriving DecidableEq, Repr

inductive Status
  | ok
  | censored
deriving DecidableEq, Repr

/-! ## Rounds -/

/-- What a line contributes to the round of its time. -/
def SampleRow.sample (r : SampleRow) : Option (ℚ × Sample) :=
  if r.reachable then r.completeness.map (fun c => (r.t_rel, ⟨r.shard, r.replica, c⟩)) else none

/-- `rounds_by_time`: the rounds, by ascending time. -/
def rounds_by_time (samples : List SampleRow) : List (ℚ × List Sample) :=
  (Grouping.groups Prod.fst (samples.filterMap SampleRow.sample)).map
    (fun g => (g.1, g.2.map Prod.snd))

/-- The times of the rounds ascend. -/
theorem rounds_ascending (samples : List SampleRow) :
    (rounds_by_time samples).Pairwise (fun a b => a.1 < b.1) :=
  List.pairwise_map.mpr (Grouping.groups_ascending _)

/-- What is in a round was in the samples. -/
theorem mem_rounds {samples : List SampleRow} {round : ℚ × List Sample}
    (hround : round ∈ rounds_by_time samples) {r : Sample} (hr : r ∈ round.2) :
    ∃ row ∈ samples, row.shard = r.shard ∧ row.replica = r.replica := by
  obtain ⟨g, hg, rfl⟩ := List.mem_map.mp hround
  obtain ⟨p, hp, rfl⟩ := List.mem_map.mp hr
  rw [(Grouping.mem_groups.mp hg).2, Grouping.mem_group] at hp
  obtain ⟨row, hrow, hsample⟩ := List.mem_filterMap.mp hp.1
  unfold SampleRow.sample at hsample
  split at hsample
  · obtain ⟨c, -, rfl⟩ := Option.map_eq_some_iff.mp hsample
    exact ⟨row, hrow, rfl, rfl⟩
  · simp at hsample

/-! ## The loop -/

/-- `peers`: the other replicas of a shard. -/
def peers (node : ℤ) (rows : List Sample) (shard : ℤ) : List ℚ :=
  (rows.filter (fun p => decide (p.shard = shard) && decide (p.replica ≠ node))).map
    Sample.completeness

/-- The body of the loop over the rounds: some replica of the node was sampled, and each of those
is level with its peers, if there are any. -/
def level (node : ℤ) (eps : ℚ) (rows : List Sample) : Bool :=
  let mine := rows.filter (fun r => decide (r.replica = node))
  !mine.isEmpty && mine.all (fun r =>
    match (peers node rows r.shard).max? with
    | none => true
    | some best => !decide (r.completeness < best - eps))

def catchup_loop (kill : Kill) (next_same_node_kill_t : Option ℚ) (eps : ℚ) :
    ℚ → List (ℚ × List Sample) → ℚ × Status
  | last_seen, [] => (last_seen - kill.t_rel, .censored)
  | last_seen, (t, rows) :: rounds =>
      if t ≤ kill.t_rel then catchup_loop kill next_same_node_kill_t eps last_seen rounds
      else if next_same_node_kill_t.any (fun next => decide (next ≤ t)) then
        (last_seen - kill.t_rel, .censored)
      else if level kill.node eps rows then (t - kill.t_rel, .ok)
      else catchup_loop kill next_same_node_kill_t eps t rounds

def catchup_for_kill (kill : Kill) (next_same_node_kill_t : Option ℚ)
    (rounds : List (ℚ × List Sample)) (eps : ℚ) : ℚ × Status :=
  catchup_loop kill next_same_node_kill_t eps kill.t_rel rounds

/-! ## The definition of a catch-up -/

/-- After the kill, and before the next one. -/
def InWindow (kill : Kill) (next : Option ℚ) (t : ℚ) : Prop :=
  kill.t_rel < t ∧ ∀ n ∈ next, t < n

/-- Every hosted shard has the node's replica and another one in the round. -/
def Complete (hosts : List ℤ) (node : ℤ) (rows : List Sample) : Prop :=
  ∀ s ∈ hosts, (∃ r ∈ rows, r.shard = s ∧ r.replica = node) ∧
    ∃ p ∈ rows, p.shard = s ∧ p.replica ≠ node

/-- **Caught up**: every hosted shard has both in the round, and the node is within `eps` of the
best other replica. -/
def Caught (hosts : List ℤ) (node : ℤ) (eps : ℚ) (rows : List Sample) : Prop :=
  Complete hosts node rows ∧ ∀ s ∈ hosts, ∀ r ∈ rows, r.shard = s → r.replica = node →
    ∀ p ∈ rows, p.shard = s → p.replica ≠ node → p.completeness - eps ≤ r.completeness

instance decidableInWindow (kill : Kill) (next : Option ℚ) (t : ℚ) :
    Decidable (InWindow kill next t) := by
  unfold InWindow
  infer_instance

instance decidableComplete (hosts : List ℤ) (node : ℤ) (rows : List Sample) :
    Decidable (Complete hosts node rows) := by
  unfold Complete
  infer_instance

instance decidableCaught (hosts : List ℤ) (node : ℤ) (eps : ℚ) (rows : List Sample) :
    Decidable (Caught hosts node eps rows) := by
  unfold Caught
  infer_instance

/-- The first round of the window with a property. -/
def first_round (kill : Kill) (next : Option ℚ) (p : List Sample → Bool)
    (rounds : List (ℚ × List Sample)) : Option (ℚ × List Sample) :=
  rounds.find? (fun round => decide (InWindow kill next round.1) && p round.2)

/-! ## What the loop returns -/

theorem mem_peers {node : ℤ} {rows : List Sample} {shard : ℤ} {c : ℚ} :
    c ∈ peers node rows shard ↔
      ∃ p ∈ rows, p.shard = shard ∧ p.replica ≠ node ∧ p.completeness = c := by
  simp [peers, and_assoc]

/-- The body of the loop in terms of the rows of the round. -/
theorem level_iff {node : ℤ} {eps : ℚ} {rows : List Sample} :
    level node eps rows = true ↔ (∃ r ∈ rows, r.replica = node) ∧
      ∀ r ∈ rows, r.replica = node → ∀ p ∈ rows, p.shard = r.shard → p.replica ≠ node →
        p.completeness - eps ≤ r.completeness := by
  have hbest : ∀ r : Sample, (match (peers node rows r.shard).max? with
      | none => true
      | some best => !decide (r.completeness < best - eps)) = true ↔
      ∀ p ∈ rows, p.shard = r.shard → p.replica ≠ node →
        p.completeness - eps ≤ r.completeness := by
    intro r
    cases hmax : (peers node rows r.shard).max? with
    | none =>
        have hnil := List.max?_eq_none_iff.mp hmax
        refine iff_of_true rfl fun p hp hshard hreplica => ?_
        have hmem : p.completeness ∈ peers node rows r.shard :=
          mem_peers.mpr ⟨p, hp, hshard, hreplica, rfl⟩
        rw [hnil] at hmem
        simp at hmem
    | some best =>
        obtain ⟨hmem, hle⟩ := List.max?_eq_some_iff.mp hmax
        rw [Bool.not_eq_true', decide_eq_false_iff_not, not_lt]
        constructor
        · intro h p hp hshard hreplica
          have := hle p.completeness (mem_peers.mpr ⟨p, hp, hshard, hreplica, rfl⟩)
          linarith
        · intro h
          obtain ⟨p, hp, hshard, hreplica, rfl⟩ := mem_peers.mp hmem
          exact h p hp hshard hreplica
  unfold level
  simp only [Bool.and_eq_true, List.all_eq_true, hbest, List.mem_filter, decide_eq_true_eq,
    and_imp]
  refine and_congr_left fun _ => ?_
  rw [Bool.not_eq_true', List.isEmpty_eq_false_iff_exists_mem]
  simp

/-- **Caught up is level and complete**, for a node that hosts a shard and is sampled only for
shards it hosts. -/
theorem caught_iff {hosts : List ℤ} (hne : hosts ≠ []) {node : ℤ} {eps : ℚ} {rows : List Sample}
    (hhosts : ∀ r ∈ rows, r.replica = node → r.shard ∈ hosts) :
    Caught hosts node eps rows ↔ Complete hosts node rows ∧ level node eps rows = true := by
  rw [level_iff]
  constructor
  · rintro ⟨hcomplete, hwithin⟩
    obtain ⟨s, hs⟩ := List.exists_mem_of_ne_nil hosts hne
    obtain ⟨r, hr, -, hreplica⟩ := (hcomplete s hs).1
    refine ⟨hcomplete, ⟨r, hr, hreplica⟩, fun r hr hreplica => ?_⟩
    exact hwithin r.shard (hhosts r hr hreplica) r hr rfl hreplica
  · rintro ⟨hcomplete, -, hwithin⟩
    refine ⟨hcomplete, ?_⟩
    rintro s - r hr rfl hreplica
    exact hwithin r hr hreplica

/-- The two tests with which the loop looks for the window. -/
theorem inWindow_iff {kill : Kill} {next : Option ℚ} {t : ℚ} :
    InWindow kill next t ↔
      ¬ t ≤ kill.t_rel ∧ ¬ next.any (fun next => decide (next ≤ t)) = true := by
  rw [InWindow, Option.any_eq_true]
  simp

/-- What comes behind the next kill stays out of the window. -/
theorem any_next_mono {next : Option ℚ} {t t' : ℚ} (htt' : t ≤ t')
    (h : next.any (fun next => decide (next ≤ t)) = true) :
    next.any (fun next => decide (next ≤ t')) = true := by
  obtain ⟨n, hn, hle⟩ := (Option.any_eq_true _ _).mp h
  exact (Option.any_eq_true _ _).mpr
    ⟨n, hn, decide_eq_true ((of_decide_eq_true hle).trans htt')⟩

/-- **The loop** stops at the first round of the window whose rows pass. -/
theorem catchup_loop_eq (kill : Kill) (next : Option ℚ) (eps : ℚ)
    (rounds : List (ℚ × List Sample)) (hasc : rounds.Pairwise (fun a b => a.1 < b.1)) :
    ∀ last_seen : ℚ,
      (∀ round, first_round kill next (level kill.node eps) rounds = some round →
        catchup_loop kill next eps last_seen rounds = (round.1 - kill.t_rel, .ok)) ∧
      (first_round kill next (level kill.node eps) rounds = none →
        (catchup_loop kill next eps last_seen rounds).2 = .censored) := by
  induction rounds with
  | nil =>
      intro last_seen
      exact ⟨by simp [first_round], fun _ => rfl⟩
  | cons round rounds ih =>
      intro last_seen
      obtain ⟨t, rows⟩ := round
      obtain ⟨hfirst, hrest⟩ := List.pairwise_cons.mp hasc
      rw [catchup_loop, first_round, List.find?_cons]
      by_cases hbefore : t ≤ kill.t_rel
      · have hout : ¬ InWindow kill next t := fun h => (inWindow_iff.mp h).1 hbefore
        rw [if_pos hbefore, decide_eq_false hout]
        exact ih hrest last_seen
      rw [if_neg hbefore]
      by_cases hnext : next.any (fun next => decide (next ≤ t)) = true
      · -- the later rounds are behind the next kill too
        rw [if_pos hnext]
        have hout : ∀ t', t ≤ t' → ¬ InWindow kill next t' :=
          fun t' ht' h => (inWindow_iff.mp h).2 (any_next_mono ht' hnext)
        rw [decide_eq_false (hout t le_rfl)]
        have hnone : rounds.find? (fun round =>
            decide (InWindow kill next round.1) && level kill.node eps round.2) = none := by
          apply List.find?_eq_none.mpr
          intro round hround
          rw [decide_eq_false (hout round.1 (hfirst round hround).le)]
          simp
        simp [hnone]
      rw [if_neg hnext]
      rw [decide_eq_true (inWindow_iff.mpr ⟨hbefore, hnext⟩), Bool.true_and]
      cases hlevel : level kill.node eps rows with
      | true => simp
      | false => simpa [hlevel, first_round] using ih hrest t

/-! ## When a catch-up is declared as defined -/

/-- The result is as defined: the time of the first round in which the node has caught up, or
censored. -/
def Declared (hosts : List ℤ) (kill : Kill) (next : Option ℚ) (rounds : List (ℚ × List Sample))
    (eps : ℚ) : Prop :=
  match first_round kill next (fun rows => decide (Caught hosts kill.node eps rows)) rounds with
  | some round => catchup_for_kill kill next rounds eps = (round.1 - kill.t_rel, .ok)
  | none => (catchup_for_kill kill next rounds eps).2 = .censored

theorem first_round_eq_some {kill : Kill} {next : Option ℚ} {p : List Sample → Bool}
    {rounds : List (ℚ × List Sample)} {round : ℚ × List Sample} :
    first_round kill next p rounds = some round ↔
      (InWindow kill next round.1 ∧ p round.2 = true) ∧ ∃ pre post,
        rounds = pre ++ round :: post ∧
          ∀ r ∈ pre, InWindow kill next r.1 → p r.2 = false := by
  rw [first_round, List.find?_eq_some_iff_append]
  simp [imp_iff_not_or]

theorem first_round_eq_none {kill : Kill} {next : Option ℚ} {p : List Sample → Bool}
    {rounds : List (ℚ × List Sample)} :
    first_round kill next p rounds = none ↔
      ∀ r ∈ rounds, InWindow kill next r.1 → p r.2 = false := by
  rw [first_round, List.find?_eq_none]
  simp

section Declared

variable {hosts : List ℤ} {kill : Kill} {next : Option ℚ} {rounds : List (ℚ × List Sample)}
  {eps : ℚ}

/-- The times tell the rounds apart, so the result is as defined if the loop and the definition
have the same first round. -/
theorem declared_iff (hasc : rounds.Pairwise (fun a b => a.1 < b.1)) :
    Declared hosts kill next rounds eps ↔
      first_round kill next (level kill.node eps) rounds
        = first_round kill next (fun rows => decide (Caught hosts kill.node eps rows)) rounds := by
  obtain ⟨hok, hcensored⟩ := catchup_loop_eq kill next eps rounds hasc kill.t_rel
  unfold Declared catchup_for_kill
  cases hlevel : first_round kill next (level kill.node eps) rounds with
  | none =>
      have hloop := hcensored hlevel
      cases first_round kill next (fun rows => decide (Caught hosts kill.node eps rows)) rounds with
      | none => exact iff_of_true hloop rfl
      | some round =>
          refine iff_of_false (fun h => ?_) (by simp)
          rw [h] at hloop
          simp at hloop
  | some stop =>
      rw [hok stop hlevel]
      cases hfirst : first_round kill next
          (fun rows => decide (Caught hosts kill.node eps rows)) rounds with
      | none => simp
      | some round =>
          have hnodup : (rounds.map Prod.fst).Nodup :=
            List.pairwise_map.mpr (hasc.imp fun h => ne_of_lt h)
          have hinj := List.inj_on_of_nodup_map hnodup (List.mem_of_find?_eq_some hlevel)
            (List.mem_of_find?_eq_some hfirst)
          simp only [Prod.mk.injEq, and_true, sub_left_inj, Option.some.injEq]
          exact ⟨fun h => hinj h, fun h => congrArg Prod.fst h⟩

/-- A node that hosts nothing has caught up at once by the definition, and never in the loop. -/
theorem declared_of_nothing_hosted (hasc : rounds.Pairwise (fun a b => a.1 < b.1))
    (hrows : ∀ round ∈ rounds, ∀ r ∈ round.2, r.replica ≠ kill.node) :
    Declared [] kill next rounds eps ↔ ∀ round ∈ rounds, ¬ InWindow kill next round.1 := by
  have hlevel : first_round kill next (level kill.node eps) rounds = none := by
    apply first_round_eq_none.mpr
    intro round hround _
    rw [← Bool.not_eq_true, level_iff]
    rintro ⟨⟨r, hr, hreplica⟩, -⟩
    exact hrows round hround r hr hreplica
  have hcaught : ∀ rows, Caught [] kill.node eps rows := fun rows => by simp [Caught, Complete]
  rw [declared_iff hasc, hlevel, eq_comm, first_round_eq_none]
  simp [hcaught]

/-- The loop stops at one round, and the definition holds there or not. -/
theorem declared_of_hosted (hne : hosts ≠ []) (hasc : rounds.Pairwise (fun a b => a.1 < b.1))
    (hrows : ∀ round ∈ rounds, ∀ r ∈ round.2, r.replica = kill.node → r.shard ∈ hosts) :
    Declared hosts kill next rounds eps ↔
      ∀ round, first_round kill next (level kill.node eps) rounds = some round →
        Complete hosts kill.node round.2 := by
  have hcaught : ∀ round ∈ rounds, Caught hosts kill.node eps round.2 ↔
      Complete hosts kill.node round.2 ∧ level kill.node eps round.2 = true :=
    fun round hround => caught_iff hne (hrows round hround)
  -- a round that does not pass the test of the loop is not one of the definition either
  have hfails : ∀ round ∈ rounds, level kill.node eps round.2 = false →
      decide (Caught hosts kill.node eps round.2) = false := by
    intro round hround hlevel
    apply decide_eq_false
    rw [hcaught round hround, hlevel]
    simp
  rw [declared_iff hasc]
  constructor
  · intro hsame round hround
    rw [hround] at hsame
    obtain ⟨⟨-, hpass⟩, -⟩ := first_round_eq_some.mp hsame.symm
    exact ((hcaught round (List.mem_of_find?_eq_some hround)).mp (of_decide_eq_true hpass)).1
  · intro h
    symm
    cases hlevel : first_round kill next (level kill.node eps) rounds with
    | none =>
        apply first_round_eq_none.mpr
        intro round hround hin
        exact hfails round hround (first_round_eq_none.mp hlevel round hround hin)
    | some stop =>
        have hcomplete := h stop hlevel
        have hstop := List.mem_of_find?_eq_some hlevel
        obtain ⟨⟨hin, hpass⟩, pre, post, rfl, hpre⟩ := first_round_eq_some.mp hlevel
        refine first_round_eq_some.mpr ⟨⟨hin, decide_eq_true ?_⟩, pre, post, rfl, ?_⟩
        · exact (hcaught stop hstop).mpr ⟨hcomplete, hpass⟩
        · intro r hr hrin
          exact hfails r (List.mem_append_left _ hr) (hpre r hr hrin)

end Declared

/-- **When the catch-up is declared as defined**: if and only if the first round of the window
that passes the test of the loop has samples of every hosted shard, of the node and of another
replica; and a node that hosts nothing has no round in its window. -/
theorem catchup_declared_iff (hosts : List ℤ) (kill : Kill) (next : Option ℚ)
    (samples : List SampleRow) (eps : ℚ)
    (hhosts : ∀ row ∈ samples, row.replica = kill.node → row.shard ∈ hosts) :
    Declared hosts kill next (rounds_by_time samples) eps ↔
      (hosts = [] → ∀ round ∈ rounds_by_time samples, ¬ InWindow kill next round.1) ∧
      ∀ pre round post, rounds_by_time samples = pre ++ round :: post →
        InWindow kill next round.1 → level kill.node eps round.2 = true →
        (∀ r ∈ pre, InWindow kill next r.1 → level kill.node eps r.2 = false) →
        Complete hosts kill.node round.2 := by
  have hrows : ∀ round ∈ rounds_by_time samples, ∀ r ∈ round.2, r.replica = kill.node →
      r.shard ∈ hosts := by
    intro round hround r hr hreplica
    obtain ⟨row, hrow, hshard, hreplica'⟩ := mem_rounds hround hr
    rw [← hshard]
    exact hhosts row hrow (hreplica'.trans hreplica)
  by_cases hne : hosts = []
  · subst hne
    rw [declared_of_nothing_hosted (rounds_ascending samples)
      (fun round hround r hr hreplica => by simpa using hrows round hround r hr hreplica)]
    refine ⟨fun h => ⟨fun _ => h, fun _ round _ _ _ _ _ => ?_⟩, fun h => h.1 rfl⟩
    simp [Complete]
  · rw [declared_of_hosted hne (rounds_ascending samples) hrows]
    constructor
    · intro h
      refine ⟨fun h => absurd h hne, fun pre round post hsplit hin hlevel hpre => ?_⟩
      exact h round (first_round_eq_some.mpr ⟨⟨hin, hlevel⟩, pre, post, hsplit, hpre⟩)
    · rintro ⟨-, h⟩ round hround
      obtain ⟨⟨hin, hlevel⟩, pre, post, hsplit, hpre⟩ := first_round_eq_some.mp hround
      exact h pre round post hsplit hin hlevel hpre

/-- Two shards, three replicas. At time 5 the node is behind on shard 1, at time 9 it is level
with its best peer on both. -/
def two_shards : List SampleRow :=
  [⟨5, 0, 2, true, some 1⟩, ⟨5, 0, 0, true, some 1⟩,
    ⟨5, 1, 2, true, some (1 / 2)⟩, ⟨5, 1, 1, true, some 1⟩,
    ⟨9, 0, 2, true, some 1⟩, ⟨9, 0, 1, true, some 1⟩,
    ⟨9, 1, 2, true, some 1⟩, ⟨9, 1, 0, true, some 1⟩]

/-- All rounds are complete, so the catch-up is the one that is defined, after 9 - 1 seconds. -/
theorem catchup_declared_iff_two_shards :
    Declared [0, 1] ⟨2, 1⟩ none (rounds_by_time two_shards) (1 / 200) ∧
      catchup_for_kill ⟨2, 1⟩ none (rounds_by_time two_shards) (1 / 200) = (8, .ok) := by
  refine ⟨(catchup_declared_iff [0, 1] ⟨2, 1⟩ none two_shards (1 / 200) (by decide)).mpr ?_,
    by decide +kernel⟩
  refine ⟨by simp, fun pre round post hsplit _ _ _ => ?_⟩
  have hall : ∀ round ∈ rounds_by_time two_shards, Complete [0, 1] 2 round.2 := by
    decide +kernel
  apply hall
  rw [hsplit]
  simp

/-- At time 1 only one replica answers. At time 2 all do, and node 2 is behind on both shards. -/
def lone_sample : List SampleRow :=
  [⟨1, 0, 2, true, some 0⟩, ⟨1, 0, 0, false, none⟩, ⟨1, 1, 2, false, none⟩,
    ⟨1, 1, 0, false, none⟩, ⟨2, 0, 2, true, some 0⟩, ⟨2, 0, 0, true, some 1⟩,
    ⟨2, 1, 2, true, some 0⟩, ⟨2, 1, 0, true, some 1⟩]

/-- Node 2 hosts shards 0 and 1 and is killed at time 0. The catch-up is declared in the round
with the lone sample, though there is no round in which the node has caught up. -/
theorem catchup_declared_too_early :
    catchup_for_kill ⟨2, 0⟩ none (rounds_by_time lone_sample) (1 / 200) = (1, .ok) ∧
      (∀ round ∈ rounds_by_time lone_sample, ¬ Caught [0, 1] 2 (1 / 200) round.2) ∧
      ¬ Declared [0, 1] ⟨2, 0⟩ none (rounds_by_time lone_sample) (1 / 200) := by
  have hcatchup : catchup_for_kill ⟨2, 0⟩ none (rounds_by_time lone_sample) (1 / 200)
      = (1, .ok) := by
    decide +kernel
  have hnever : ∀ round ∈ rounds_by_time lone_sample, ¬ Caught [0, 1] 2 (1 / 200) round.2 := by
    decide +kernel
  refine ⟨hcatchup, hnever, fun h => ?_⟩
  have hnone : first_round ⟨2, 0⟩ none (fun rows => decide (Caught [0, 1] 2 (1 / 200) rows))
      (rounds_by_time lone_sample) = none :=
    first_round_eq_none.mpr fun round hround _ => decide_eq_false (hnever round hround)
  rw [Declared, hnone, hcatchup] at h
  simp at h

end NanoDB.Experiment
