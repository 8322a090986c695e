/-
`check_and_advance_epoch` of `cluster/shard_service_impl.hpp`, with the atomic load and the
atomic store of `current_epoch_` as separate steps.

Insert and Delete handlers run on the threads of the gRPC server, so between one handler's
load and its store any number of other handlers may load and store. `ShardService` has the
check in one piece; `check_alone` says that a check nobody interrupts is that one.

# The one awkward thing, named up front

The store is unconditional. A handler that loaded an old mark writes its own epoch over
whatever the mark has become, so two overlapping checks can lower it, and a request with the
lower epoch is then accepted after a request with the higher one (`overlapping_checks`). The
positive result asks of every store that it does not lower the mark; a compare-exchange, which
tests that the mark still is the value the handler loaded, would be enough for that.
-/
import NanoDB.Lib.Trace
import NanoDB.ShardService

set_option autoImplicit false

namespace NanoDB.Shard

/-- How far a check has come. -/
inductive Outcome
  /-- Loaded `current`, below the request's epoch; the store is next. -/
  | storing (current : ℕ)
  | accepted
  | rejected (error : String)
deriving DecidableEq, Repr

/-- One call of `check_and_advance_epoch`. -/
structure Check where
  request_epoch : ℕ
  outcome : Outcome
deriving DecidableEq, Repr

/-- The mark and the calls so far, in the order of their loads. -/
structure Fence where
  current_epoch : ℕ := 0
  checks : List Check := []
deriving DecidableEq, Repr

/-- A new call loads the mark, or the `k`-th call stores. -/
inductive FenceAct
  | load (request_epoch : ℕ)
  | store (k : ℕ)
deriving DecidableEq, Repr

/-- What a call does with the value it loaded. -/
def compare (request_epoch current : ℕ) : Outcome :=
  if request_epoch < current then .rejected (stale_epoch request_epoch current)
  else if request_epoch > current then .storing current
  else .accepted

def fence_step (s : Fence) : FenceAct → Option Fence
  | .load request_epoch =>
      some { s with
        checks := s.checks ++ [⟨request_epoch, compare request_epoch s.current_epoch⟩] }
  | .store k =>
      match s.checks[k]? with
      | some ⟨request_epoch, .storing _⟩ =>
          some
            { current_epoch := request_epoch
              checks := s.checks.set k ⟨request_epoch, .accepted⟩ }
      | _ => none

/-! ## One check on its own -/

/-- A check that nobody interrupts is `check_and_advance_epoch`. -/
theorem check_alone {F : Type*} (sh : ShardServiceImpl F) (checks : List Check) (e : ℕ) :
    match sh.check_and_advance_epoch e with
    | .error err => fence_step ⟨sh.current_epoch, checks⟩ (.load e)
        = some ⟨sh.current_epoch, checks ++ [⟨e, .rejected err⟩]⟩
    | .ok sh' => ∃ stores, stores <+: [FenceAct.store checks.length] ∧
        Trace.run fence_step ⟨sh.current_epoch, checks⟩ (.load e :: stores)
          = some ⟨sh'.current_epoch, checks ++ [⟨e, .accepted⟩]⟩ := by
  unfold ShardServiceImpl.check_and_advance_epoch
  by_cases hlt : e < sh.current_epoch
  · rw [if_pos hlt]
    simp [fence_step, compare, hlt]
  rw [if_neg hlt]
  by_cases hgt : e > sh.current_epoch
  · rw [if_pos hgt]
    refine ⟨[.store checks.length], List.prefix_rfl, ?_⟩
    simp [Trace.run, fence_step, compare, hlt, hgt]
  · rw [if_neg hgt]
    refine ⟨[], List.nil_prefix, ?_⟩
    simp [Trace.run, fence_step, compare, hlt, hgt]

/-! ## Overlapping checks -/

/-- The mark has not gone past the epoch that is stored. -/
def Raises (s : Fence) : FenceAct → Prop
  | .load _ => True
  | .store k => ∀ c ∈ s.checks[k]?, s.current_epoch ≤ c.request_epoch

instance (s : Fence) : (a : FenceAct) → Decidable (Raises s a)
  | .load _ => isTrue trivial
  | .store k => by unfold Raises; infer_instance

/-- Two calls with epochs `1` and `2` load the mark `0`; the second stores and is done, then
the first stores. -/
def overlap : List FenceAct := [.load 1, .load 2, .store 1, .store 0]

/-- The mark goes from `2` back to `1`, and the next request with epoch `1` is accepted although
the check of epoch `2` was complete when it began. -/
theorem overlapping_checks :
    (Trace.run fence_step {} (overlap.take 3)).map (fun s => (s.current_epoch, s.checks[1]?))
        = some (2, some ⟨2, .accepted⟩) ∧
    (Trace.run fence_step {} (overlap ++ [.load 1])).map (fun s => (s.current_epoch, s.checks[2]?))
        = some (1, some ⟨1, .accepted⟩) :=
  ⟨rfl, rfl⟩

/-! ## Stores that raise the mark -/

/-- The mark covers every accepted epoch. -/
def Fenced (s : Fence) : Prop :=
  ∀ c ∈ s.checks, c.outcome = .accepted → c.request_epoch ≤ s.current_epoch

/-- What a comparison says. -/
theorem compare_spec (e current : ℕ) :
    (compare e current = .accepted → e = current) ∧
    (e < current → ∃ err, compare e current = .rejected err) := by
  unfold compare
  by_cases hlt : e < current
  · rw [if_pos hlt]
    exact ⟨fun h => absurd h (by simp), fun _ => ⟨_, rfl⟩⟩
  rw [if_neg hlt]
  by_cases hgt : e > current
  · rw [if_pos hgt]
    exact ⟨fun h => absurd h (by simp), fun h => absurd h hlt⟩
  · rw [if_neg hgt]
    exact ⟨fun _ => by omega, fun h => absurd h hlt⟩

/-- What a store does. -/
theorem store_cases {s s' : Fence} {k : ℕ} (h : fence_step s (.store k) = some s') :
    ∃ e current, s.checks[k]? = some ⟨e, .storing current⟩ ∧
      s' = ⟨e, s.checks.set k ⟨e, .accepted⟩⟩ := by
  simp only [fence_step] at h
  split at h
  · rename_i e current hk
    exact ⟨e, current, hk, (Option.some.inj h).symm⟩
  · simp at h

theorem fenced_step {s s' : Fence} {a : FenceAct} (hs : Fenced s) (hok : Raises s a)
    (h : fence_step s a = some s') : Fenced s' ∧ s.current_epoch ≤ s'.current_epoch := by
  cases a with
  | load e =>
      obtain rfl := Option.some.inj h
      refine ⟨fun c hc hout => ?_, le_refl _⟩
      rcases List.mem_append.mp hc with hc | hc
      · exact hs c hc hout
      · rw [List.mem_singleton.mp hc] at hout ⊢
        exact le_of_eq ((compare_spec e s.current_epoch).1 hout)
  | store k =>
      obtain ⟨e, current, hk, rfl⟩ := store_cases h
      have hup : s.current_epoch ≤ e := hok _ hk
      refine ⟨fun c hc hout => ?_, hup⟩
      rcases List.mem_or_eq_of_mem_set hc with hc | rfl
      · exact le_trans (hs c hc hout) hup
      · exact le_refl _

/-- From the `m`-th call on, every call that was not rejected has an epoch of at least `bound`,
and the mark is at least that. -/
structure Bounded (bound m : ℕ) (s : Fence) : Prop where
  mark : bound ≤ s.current_epoch
  length : m ≤ s.checks.length
  later : ∀ c ∈ s.checks.drop m, (∀ err, c.outcome ≠ .rejected err) → bound ≤ c.request_epoch

theorem bounded_step {s s' : Fence} {a : FenceAct} {bound m : ℕ} (hs : Fenced s)
    (hb : Bounded bound m s) (hok : Raises s a) (h : fence_step s a = some s') :
    Bounded bound m s' := by
  have hmark := le_trans hb.mark (fenced_step hs hok h).2
  cases a with
  | load e =>
      obtain rfl := Option.some.inj h
      refine ⟨hmark, ?_, fun c hc hout => ?_⟩
      · rw [List.length_append]
        exact Nat.le_add_right_of_le hb.length
      · rw [List.drop_append_of_le_length hb.length] at hc
        rcases List.mem_append.mp hc with hc | hc
        · exact hb.later c hc hout
        · -- the new call read a mark that is at least `bound`
          rw [List.mem_singleton.mp hc] at hout ⊢
          by_contra hlow
          obtain ⟨err, herr⟩ := (compare_spec e s.current_epoch).2
            (lt_of_lt_of_le (not_le.mp hlow) hb.mark)
          exact hout err herr
  | store k =>
      obtain ⟨e, current, hk, rfl⟩ := store_cases h
      refine ⟨hmark, by rw [List.length_set]; exact hb.length, fun c hc hout => ?_⟩
      rw [List.drop_set] at hc
      split_ifs at hc with hkm
      · exact hb.later c hc hout
      · rcases List.mem_or_eq_of_mem_set hc with hc | rfl
        · exact hb.later c hc hout
        · -- the call that stores was not rejected when it loaded
          have hold : (⟨e, .storing current⟩ : Check) ∈ s.checks.drop m :=
            Trace.mem_drop_of_le (not_lt.mp hkm) hk
          exact hb.later ⟨e, .storing current⟩ hold (fun err => by simp)

/-- **The fence under concurrent handlers.** In every run in which no store meets a mark above its
epoch, the mark never decreases, and a call that begins after another one has been accepted is
accepted only with an epoch that is not smaller. -/
theorem fence_holds (start : ℕ) {acts acts' : List FenceAct} {s s' : Fence}
    (hok : Trace.Along fence_step Raises { current_epoch := start } (acts ++ acts'))
    (hs : Trace.run fence_step { current_epoch := start } acts = some s)
    (hs' : Trace.run fence_step s acts' = some s') :
    s.current_epoch ≤ s'.current_epoch ∧
    ∀ c ∈ s.checks, c.outcome = .accepted → ∀ j c', s.checks.length ≤ j →
      s'.checks[j]? = some c' → c'.outcome = .accepted → c.request_epoch ≤ c'.request_epoch := by
  rw [Trace.along_append hs] at hok
  have hinit : Fenced { current_epoch := start } := fun c hc => absurd hc (by simp)
  have hfenced : Fenced s := Trace.run_invariant_along
    (fun t a t' ht ha hstep => (fenced_step ht ha hstep).1) hinit hok.1 hs
  -- everything loaded after `s` was compared with at least the mark of `s`
  have hbounded : Fenced s' ∧ Bounded s.current_epoch s.checks.length s' := by
    refine Trace.run_invariant_along
      (P := fun t => Fenced t ∧ Bounded s.current_epoch s.checks.length t)
      (fun t a t' ht ha hstep => ?_) ⟨hfenced, le_refl _, le_refl _, ?_⟩ hok.2 hs'
    · exact ⟨(fenced_step ht.1 ha hstep).1, bounded_step ht.1 ht.2 ha hstep⟩
    · rw [List.drop_length]
      exact fun c hc => absurd hc (by simp)
  refine ⟨hbounded.2.mark, fun c hc hacc j c' hj hc' hacc' => ?_⟩
  have hlater : c' ∈ s'.checks.drop s.checks.length := Trace.mem_drop_of_le hj hc'
  refine le_trans (hfenced c hc hacc) (hbounded.2.later c' hlater ?_)
  intro err
  rw [hacc']
  simp

/-- Two checks overlap, and the one with the lower epoch stores first; then epoch `1` is rejected
and `3` accepted. -/
theorem fence_holds_in_turn : ∃ s s',
    Trace.run fence_step { current_epoch := 0 } [.load 1, .load 2, .store 0, .store 1] = some s ∧
    Trace.run fence_step s [.load 1, .load 3, .store 3] = some s' ∧
    s.checks.map Check.outcome = [.accepted, .accepted] ∧
    s.current_epoch ≤ s'.current_epoch ∧ ∀ c ∈ s.checks, c.outcome = .accepted → ∀ c',
      s'.checks[3]? = some c' → c'.outcome = .accepted → c.request_epoch ≤ c'.request_epoch := by
  have hok : Trace.Along fence_step Raises { current_epoch := 0 }
      ([.load 1, .load 2, .store 0, .store 1] ++ [.load 1, .load 3, .store 3]) := by decide
  obtain ⟨hmark, hlater⟩ := fence_holds 0 hok rfl rfl
  exact ⟨_, _, rfl, rfl, rfl, hmark, fun c hc hacc c' => hlater c hc hacc 3 c' (by decide)⟩

end NanoDB.Shard
