/-
`ThreadPool` of `cluster/coordinator_main.cpp`: the workers behind every RPC fan-out.

A worker takes the mutex, tests `stop_ || !q_.empty()`, and sleeps in the condition variable,
returns, or leaves with a task; all of that is one lock scope and one move here. `submit` and the
destructor release the mutex before they notify, so the notification is a move of its own and
other threads get in between. Wake-ups may also be spurious.

# What could go wrong

A notification that finds nobody asleep is lost, and `notify_one` wakes a single worker. A queue
that relied on one notification a task could be left with work and sleeping workers. It is not,
because a worker only goes to sleep on an empty queue: as long as one sleeps, every queued task
has a notification under way or an awake worker that has yet to look (`Sound.awake`).

# Why it ends

`work` prices a queued task and a running one at two, a notification under way at two, an awake
worker at one. Every move of the pool itself costs something: taking a task moves it from the
queue (two) to a worker that was awake (one), finishing it leaves an awake worker, going to sleep
or returning gives the one back.
-/
import NanoDB.Lib.Progress
import NanoDB.Lib.Slots
import Mathlib.Data.Int.Order.Basic

set_option autoImplicit false

namespace NanoDB.Pool

/-- Where a worker thread is: at the mutex, whether at the top of its loop or woken up; asleep in
`cv_.wait`; in a task; returned. -/
inductive Worker (τ : Type*)
  | ready
  | waiting
  | running (task : τ)
  | exited
deriving DecidableEq, Repr

variable {τ : Type*}

def Worker.is_ready : Worker τ → Bool
  | .ready => true
  | _ => false

def Worker.is_waiting : Worker τ → Bool
  | .waiting => true
  | _ => false

def Worker.is_exited : Worker τ → Bool
  | .exited => true
  | _ => false

/-- The task a worker is in. -/
def Worker.task : Worker τ → Option τ
  | .running task => some task
  | _ => none

/-- `ThreadPool`. `notifying` counts the calls of `submit` between their lock scope and
`notify_one`, and `notifying_all` says that the destructor is between its own and `notify_all`.
`taken` and `finished` record the tasks in the order in which workers took and finished them. -/
structure ThreadPool (τ : Type*) where
  workers_ : List (Worker τ)
  q_ : List τ := []
  stop_ : Bool := false
  notifying : ℕ := 0
  notifying_all : Bool := false
  taken : List τ := []
  finished : List τ := []
deriving Repr

/-- The constructor. -/
def ThreadPool.start (n : ℕ) : ThreadPool τ := { workers_ := List.replicate n .ready }

/-- The size of `rpc_pool()`, from the number in `NANODB_RPC_POOL_THREADS` if it is set. -/
def rpc_pool_threads (env : Option ℤ) : ℕ :=
  match env with
  | none => 32
  | some n => (max 1 n).toNat

/-- `rpc_pool()` when it is first called. -/
def rpc_pool (env : Option ℤ) : ThreadPool τ := ThreadPool.start (rpc_pool_threads env)

/-- It has a worker, whatever the environment says. -/
theorem rpc_pool_threads_pos (env : Option ℤ) : 0 < rpc_pool_threads env := by
  cases env with
  | none => exact Nat.zero_lt_succ _
  | some n =>
      rw [rpc_pool_threads, Int.lt_toNat]
      exact lt_of_lt_of_le Int.zero_lt_one (le_max_left 1 n)

def ThreadPool.set (s : ThreadPool τ) (w : ℕ) (x : Worker τ) : ThreadPool τ :=
  { s with workers_ := s.workers_.set w x }

/-- The lock scope of the worker's loop: `wait` on an empty queue, `return` once stopped, or take
the front of the queue. -/
def ThreadPool.acquire (s : ThreadPool τ) (w : ℕ) : ThreadPool τ :=
  match s.q_ with
  | [] => s.set w (if s.stop_ then .exited else .waiting)
  | task :: rest => { s.set w (.running task) with q_ := rest, taken := s.taken ++ [task] }

/-- What `notify_all` does to a worker. -/
def Worker.wake : Worker τ → Worker τ
  | .waiting => .ready
  | x => x

/-- Which thread moves. `notify_one` names the sleeper it wakes; `notify_nobody` is the same call
when nobody sleeps. -/
inductive Act (τ : Type*)
  | submit (task : τ)
  | notify_one (w : ℕ)
  | notify_nobody
  | acquire (w : ℕ)
  | finish (w : ℕ)
  | spurious (w : ℕ)
  | destroy
  | notify_all
deriving DecidableEq, Repr

/-- The moves of the pool once work was handed to it: not a new task, not the destructor, and no
spurious wake-up, of which there may be any number. -/
def Act.own : Act τ → Prop
  | .submit _ | .spurious _ | .destroy => False
  | _ => True

def step (s : ThreadPool τ) : Act τ → Option (ThreadPool τ)
  | .submit task => some { s with q_ := s.q_ ++ [task], notifying := s.notifying + 1 }
  | .notify_one w =>
      match s.workers_[w]? with
      | some .waiting =>
          if 0 < s.notifying then some { s.set w .ready with notifying := s.notifying - 1 }
          else none
      | _ => none
  | .notify_nobody =>
      if 0 < s.notifying ∧ s.workers_.countP Worker.is_waiting = 0 then
        some { s with notifying := s.notifying - 1 }
      else none
  | .acquire w =>
      match s.workers_[w]? with
      | some .ready => some (s.acquire w)
      | _ => none
  | .finish w =>
      match s.workers_[w]? with
      | some (.running task) => some { s.set w .ready with finished := s.finished ++ [task] }
      | _ => none
  | .spurious w =>
      match s.workers_[w]? with
      | some .waiting => some (s.set w .ready)
      | _ => none
  | .destroy =>
      if s.stop_ = false then some { s with stop_ := true, notifying_all := true } else none
  | .notify_all =>
      if s.notifying_all = true then
        some { s with workers_ := s.workers_.map Worker.wake, notifying_all := false }
      else none

/-- The tasks handed over, in order. -/
def submitted (acts : List (Act τ)) : List τ :=
  acts.filterMap (fun a => match a with
    | .submit task => some task
    | _ => none)

/-! ## What a step does -/

/-- The moves, with what each needs and what it leaves behind. Taking the mutex is three moves,
after what the worker finds. -/
inductive Stepped (s : ThreadPool τ) : Act τ → ThreadPool τ → Prop
  | submit (task : τ) :
      Stepped s (.submit task) { s with q_ := s.q_ ++ [task], notifying := s.notifying + 1 }
  | notify_one {w : ℕ} (hw : s.workers_[w]? = some .waiting) (hpos : 0 < s.notifying) :
      Stepped s (.notify_one w) { s.set w .ready with notifying := s.notifying - 1 }
  | notify_nobody (hpos : 0 < s.notifying) (hnone : s.workers_.countP Worker.is_waiting = 0) :
      Stepped s .notify_nobody { s with notifying := s.notifying - 1 }
  | sleep {w : ℕ} (hw : s.workers_[w]? = some .ready) (hq : s.q_ = []) (hgo : s.stop_ = false) :
      Stepped s (.acquire w) (s.set w .waiting)
  | leave {w : ℕ} (hw : s.workers_[w]? = some .ready) (hq : s.q_ = []) (hstop : s.stop_ = true) :
      Stepped s (.acquire w) (s.set w .exited)
  | take {w : ℕ} {task : τ} {rest : List τ} (hw : s.workers_[w]? = some .ready)
      (hq : s.q_ = task :: rest) :
      Stepped s (.acquire w)
        { s.set w (.running task) with q_ := rest, taken := s.taken ++ [task] }
  | finish {w : ℕ} {task : τ} (hw : s.workers_[w]? = some (.running task)) :
      Stepped s (.finish w) { s.set w .ready with finished := s.finished ++ [task] }
  | spurious {w : ℕ} (hw : s.workers_[w]? = some .waiting) :
      Stepped s (.spurious w) (s.set w .ready)
  | destroy (hgo : s.stop_ = false) :
      Stepped s .destroy { s with stop_ := true, notifying_all := true }
  | notify_all (hall : s.notifying_all = true) :
      Stepped s .notify_all
        { s with workers_ := s.workers_.map Worker.wake, notifying_all := false }

theorem step_spec {s s' : ThreadPool τ} {a : Act τ} (hs : step s a = some s') :
    Stepped s a s' := by
  cases a with
  | submit task =>
      obtain rfl := Option.some.inj hs
      exact .submit task
  | notify_one w =>
      rw [step] at hs
      split at hs
      · rename_i hw
        split_ifs at hs with hpos
        obtain rfl := Option.some.inj hs
        exact .notify_one hw hpos
      · cases hs
  | notify_nobody =>
      rw [step] at hs
      split_ifs at hs with hg
      obtain rfl := Option.some.inj hs
      exact .notify_nobody hg.1 hg.2
  | acquire w =>
      rw [step] at hs
      split at hs
      · rename_i hw
        obtain rfl := Option.some.inj hs
        rw [ThreadPool.acquire]
        split
        · rename_i hq
          cases hstop : s.stop_ with
          | true => exact .leave hw hq hstop
          | false => exact .sleep hw hq hstop
        · rename_i task rest hq
          exact .take hw hq
      · cases hs
  | finish w =>
      rw [step] at hs
      split at hs
      · rename_i task hw
        obtain rfl := Option.some.inj hs
        exact .finish hw
      · cases hs
  | spurious w =>
      rw [step] at hs
      split at hs
      · rename_i hw
        obtain rfl := Option.some.inj hs
        exact .spurious hw
      · cases hs
  | destroy =>
      rw [step] at hs
      split_ifs at hs with hg
      obtain rfl := Option.some.inj hs
      exact .destroy hg
  | notify_all =>
      rw [step] at hs
      split_ifs at hs with hg
      obtain rfl := Option.some.inj hs
      exact .notify_all hg

/-! ## Every task once, in order -/

/-- The tasks the workers are in. -/
def ThreadPool.running (s : ThreadPool τ) : List τ := s.workers_.filterMap Worker.task

/-- A worker that was in no task and now is in none changes nothing. -/
theorem running_set {s : ThreadPool τ} {w : ℕ} {x y : Worker τ} (hw : s.workers_[w]? = some x)
    (hx : x.task = none) (hy : y.task = none) : (s.set w y).running.Perm s.running := by
  have hmoved := Slots.perm_filterMap_set Worker.task y hw
  rw [hx, hy] at hmoved
  exact hmoved

theorem running_take {s : ThreadPool τ} {w : ℕ} (task : τ) (hw : s.workers_[w]? = some .ready) :
    (s.set w (.running task)).running.Perm (task :: s.running) :=
  Slots.perm_filterMap_set Worker.task (.running task) hw

theorem running_finish {s : ThreadPool τ} {w : ℕ} {task : τ}
    (hw : s.workers_[w]? = some (.running task)) :
    (task :: (s.set w .ready).running).Perm s.running :=
  Slots.perm_filterMap_set Worker.task .ready hw

theorem running_wake (l : List (Worker τ)) :
    (l.map Worker.wake).filterMap Worker.task = l.filterMap Worker.task := by
  rw [List.filterMap_map]
  congr 1
  funext x
  cases x <;> rfl

/-- What was handed over is what was taken and then what is queued; what was taken is running or
finished. -/
structure Accounted (done : List τ) (s : ThreadPool τ) : Prop where
  order : s.taken ++ s.q_ = done
  once : (s.running ++ s.finished).Perm s.taken

theorem accounted_step {s s' : ThreadPool τ} {a : Act τ} {done : List τ} (h : Accounted done s)
    (hs : step s a = some s') : Accounted (done ++ submitted [a]) s' := by
  have hsame : done ++ [] = done := List.append_nil done
  cases step_spec hs with
  | submit task =>
      refine ⟨?_, h.once⟩
      change s.taken ++ (s.q_ ++ [task]) = done ++ [task]
      rw [← List.append_assoc, h.order]
  | notify_one hw hpos =>
      exact ⟨h.order.trans hsame.symm, ((running_set hw rfl rfl).append_right _).trans h.once⟩
  | notify_nobody hpos hnone => exact ⟨h.order.trans hsame.symm, h.once⟩
  | sleep hw hq hgo =>
      exact ⟨h.order.trans hsame.symm, ((running_set hw rfl rfl).append_right _).trans h.once⟩
  | leave hw hq hstop =>
      exact ⟨h.order.trans hsame.symm, ((running_set hw rfl rfl).append_right _).trans h.once⟩
  | take hw hq =>
      rename_i w task rest
      have horder := h.order
      rw [hq] at horder
      constructor
      · change (s.taken ++ [task]) ++ rest = done ++ []
        rw [hsame, ← horder, List.append_assoc, List.singleton_append]
      · change ((s.set w (.running task)).running ++ s.finished).Perm (s.taken ++ [task])
        calc ((s.set w (.running task)).running ++ s.finished).Perm
              (task :: (s.running ++ s.finished)) := (running_take _ hw).append_right _
          _ |>.Perm (task :: s.taken) := h.once.cons task
          _ |>.Perm (s.taken ++ [task]) := (List.perm_append_singleton task _).symm
  | finish hw =>
      rename_i w task
      refine ⟨h.order.trans hsame.symm, ?_⟩
      change ((s.set w .ready).running ++ (s.finished ++ [task])).Perm s.taken
      calc ((s.set w .ready).running ++ (s.finished ++ [task])).Perm
            (task :: ((s.set w .ready).running ++ s.finished)) := by
              rw [← List.append_assoc]
              exact List.perm_append_singleton task _
        _ |>.Perm (s.running ++ s.finished) := (running_finish hw).append_right _
        _ |>.Perm s.taken := h.once
  | spurious hw =>
      exact ⟨h.order.trans hsame.symm, ((running_set hw rfl rfl).append_right _).trans h.once⟩
  | destroy hgo => exact ⟨h.order.trans hsame.symm, h.once⟩
  | notify_all hall =>
      refine ⟨h.order.trans hsame.symm, ?_⟩
      rw [ThreadPool.running, running_wake]
      exact h.once

theorem accounted_run {acts : List (Act τ)} :
    ∀ {done : List τ} {s s' : ThreadPool τ}, Accounted done s →
      Trace.run step s acts = some s' → Accounted (done ++ submitted acts) s' := by
  induction acts with
  | nil =>
      intro done s s' h hrun
      obtain rfl : s = s' := Option.some.inj hrun
      rw [show submitted ([] : List (Act τ)) = [] from rfl, List.append_nil]
      exact h
  | cons a acts ih =>
      intro done s s' h hrun
      obtain ⟨m, hm, hrest⟩ := Trace.run_cons_some hrun
      have hnext := ih (accounted_step h hm) hrest
      have hsplit : submitted (a :: acts) = submitted [a] ++ submitted acts :=
        List.filterMap_append (l := [a])
      rw [hsplit, ← List.append_assoc]
      exact hnext

theorem start_accounted (n : ℕ) : Accounted [] (ThreadPool.start n : ThreadPool τ) := by
  refine ⟨rfl, ?_⟩
  have hidle : (ThreadPool.start n : ThreadPool τ).running = [] := by
    rw [ThreadPool.running, ThreadPool.start, List.filterMap_replicate_of_none rfl]
  rw [hidle]
  exact List.Perm.refl _

/-- **Every task once, in order.** In every interleaving, the tasks taken so far followed by those
still queued are the tasks submitted, in the order of their submission, and each task taken is in
exactly one worker or has been finished exactly once. -/
theorem tasks_taken_once_in_order {n : ℕ} {acts : List (Act τ)} {s : ThreadPool τ}
    (hs : Trace.run step (ThreadPool.start n) acts = some s) :
    s.taken ++ s.q_ = submitted acts ∧ (s.running ++ s.finished).Perm s.taken := by
  have h := accounted_run (start_accounted n) hs
  exact ⟨h.order, h.once⟩

/-- Two workers and three tasks: a notification finds both awake and is lost, a worker sleeps and
is woken for the last task. -/
def three_tasks : List (Act ℕ) :=
  [.submit 10, .notify_nobody, .acquire 0, .acquire 1, .submit 11, .submit 12, .notify_one 1,
    .notify_nobody, .finish 0, .acquire 0, .acquire 1]

theorem tasks_taken_once_in_order_three :
    ∃ s, Trace.run step (ThreadPool.start 2) three_tasks = some s ∧ s.taken = [10, 11, 12] ∧
      s.taken ++ s.q_ = submitted three_tasks ∧ (s.running ++ s.finished).Perm s.taken := by
  obtain ⟨s, hs, htaken⟩ : ∃ s, Trace.run step (ThreadPool.start 2) three_tasks = some s ∧
      s.taken = [10, 11, 12] := Trace.exists_run (by decide +kernel)
  exact ⟨s, hs, htaken, tasks_taken_once_in_order hs⟩

/-! ## How many workers are where -/

def ThreadPool.ready (s : ThreadPool τ) : ℕ := s.workers_.countP Worker.is_ready

def ThreadPool.sleeping (s : ThreadPool τ) : ℕ := s.workers_.countP Worker.is_waiting

def ThreadPool.returned (s : ThreadPool τ) : ℕ := s.workers_.countP Worker.is_exited

section Counts

variable {s : ThreadPool τ} {w : ℕ}

theorem counts_set {x : Worker τ} (y : Worker τ) (hw : s.workers_[w]? = some x) :
    (s.set w y).ready + (if x.is_ready then 1 else 0)
        = s.ready + (if y.is_ready then 1 else 0) ∧
      (s.set w y).sleeping + (if x.is_waiting then 1 else 0)
        = s.sleeping + (if y.is_waiting then 1 else 0) ∧
      (s.set w y).returned + (if x.is_exited then 1 else 0)
        = s.returned + (if y.is_exited then 1 else 0) :=
  ⟨Slots.countP_set _ y hw, Slots.countP_set _ y hw, Slots.countP_set _ y hw⟩

/-- Notified or woken spuriously. -/
theorem counts_woken (hw : s.workers_[w]? = some .waiting) :
    (s.set w .ready).ready = s.ready + 1 ∧ (s.set w .ready).sleeping + 1 = s.sleeping ∧
      (s.set w .ready).returned = s.returned :=
  counts_set .ready hw

theorem counts_sleep (hw : s.workers_[w]? = some .ready) :
    (s.set w .waiting).ready + 1 = s.ready ∧ (s.set w .waiting).sleeping = s.sleeping + 1 ∧
      (s.set w .waiting).returned = s.returned :=
  counts_set .waiting hw

theorem counts_leave (hw : s.workers_[w]? = some .ready) :
    (s.set w .exited).ready + 1 = s.ready ∧ (s.set w .exited).sleeping = s.sleeping ∧
      (s.set w .exited).returned = s.returned + 1 :=
  counts_set .exited hw

theorem counts_take (task : τ) (hw : s.workers_[w]? = some .ready) :
    (s.set w (.running task)).ready + 1 = s.ready ∧
      (s.set w (.running task)).sleeping = s.sleeping ∧
      (s.set w (.running task)).returned = s.returned :=
  counts_set (.running task) hw

theorem counts_finish {task : τ} (hw : s.workers_[w]? = some (.running task)) :
    (s.set w .ready).ready = s.ready + 1 ∧ (s.set w .ready).sleeping = s.sleeping ∧
      (s.set w .ready).returned = s.returned :=
  counts_set .ready hw

theorem counts_notify_all (l : List (Worker τ)) :
    (l.map Worker.wake).countP Worker.is_ready
        = l.countP Worker.is_ready + l.countP Worker.is_waiting ∧
      (l.map Worker.wake).countP Worker.is_waiting = 0 ∧
      (l.map Worker.wake).countP Worker.is_exited = l.countP Worker.is_exited := by
  induction l with
  | nil => exact ⟨rfl, rfl, rfl⟩
  | cons x l ih =>
      obtain ⟨hready, hsleeping, hreturned⟩ := ih
      rw [List.map_cons]
      simp only [List.countP_cons, hready, hsleeping, hreturned]
      cases x <;> simp [Worker.wake, Worker.is_ready, Worker.is_waiting, Worker.is_exited] <;> omega

end Counts

/-! ## No wake-up is lost -/

/-- The pool is used while it lives: nobody submits once the destructor has begun. -/
def Owned (s : ThreadPool τ) : Act τ → Prop
  | .submit _ => s.stop_ = false
  | _ => True

instance (s : ThreadPool τ) (a : Act τ) : Decidable (Owned s a) := by
  cases a <;> unfold Owned <;> infer_instance

/-- What keeps the queue moving. -/
structure Sound (s : ThreadPool τ) : Prop where
  /-- While a worker sleeps, every queued task has a notification or an awake worker coming. -/
  awake : 0 < s.sleeping → s.q_.length ≤ s.notifying + s.ready
  /-- Workers return only when everything is taken. -/
  drained : 0 < s.returned → s.stop_ = true ∧ s.q_ = []
  /-- Once the destructor has notified, nobody sleeps any more. -/
  stopped : s.stop_ = true → s.notifying_all = false → s.sleeping = 0

theorem sound_start (n : ℕ) : Sound (ThreadPool.start n : ThreadPool τ) := by
  refine ⟨fun _ => Nat.zero_le _, fun hgone => ?_, fun hstop _ => ?_⟩
  · have hnone : (ThreadPool.start n : ThreadPool τ).returned = 0 := by
      rw [ThreadPool.returned, ThreadPool.start, List.countP_replicate]
      rfl
    omega
  · cases hstop

theorem sound_step {s s' : ThreadPool τ} {a : Act τ} (h : Sound s) (hok : Owned s a)
    (hs : step s a = some s') : Sound s' := by
  cases step_spec hs with
  | submit task =>
      have hlive : s.stop_ = false := hok
      refine ⟨fun hsleep => ?_, fun hgone => ?_, h.stopped⟩
      · have hle := h.awake hsleep
        change (s.q_ ++ [task]).length ≤ s.notifying + 1 + s.ready
        rw [List.length_append, List.length_singleton]
        omega
      · rw [(h.drained hgone).1] at hlive
        cases hlive
  | notify_one hw hpos =>
      rename_i w
      obtain ⟨hready, hsleeping, hreturned⟩ := counts_woken hw
      refine ⟨fun _ => ?_, fun hgone => h.drained (hreturned ▸ hgone), fun hstop hall => ?_⟩
      · -- the notification turns into an awake worker
        have hle := h.awake (by omega)
        change s.q_.length ≤ s.notifying - 1 + (s.set w .ready).ready
        omega
      · have hnone := h.stopped hstop hall
        omega
  | notify_nobody hpos hnone =>
      refine ⟨fun hsleep => ?_, h.drained, h.stopped⟩
      change 0 < s.workers_.countP Worker.is_waiting at hsleep
      omega
  | sleep hw hq hgo =>
      obtain ⟨-, -, hreturned⟩ := counts_sleep hw
      refine ⟨fun _ => ?_, fun hgone => h.drained (hreturned ▸ hgone), fun hstop _ => ?_⟩
      · change s.q_.length ≤ _
        rw [hq]
        exact Nat.zero_le _
      · rw [show s.stop_ = true from hstop] at hgo
        cases hgo
  | leave hw hq hstop =>
      obtain ⟨-, hsleeping, -⟩ := counts_leave hw
      refine ⟨fun _ => ?_, fun _ => ⟨hstop, hq⟩, fun _ hall => ?_⟩
      · change s.q_.length ≤ _
        rw [hq]
        exact Nat.zero_le _
      · rw [hsleeping]
        exact h.stopped hstop hall
  | take hw hq =>
      rename_i w task rest
      obtain ⟨hready, hsleeping, hreturned⟩ := counts_take task hw
      refine ⟨fun hsleep => ?_, fun hgone => ?_, fun hstop hall => ?_⟩
      · -- one task less, one worker less that has yet to look
        have hle := h.awake (hsleeping ▸ hsleep)
        rw [hq, List.length_cons] at hle
        change rest.length ≤ s.notifying + (s.set w (.running task)).ready
        omega
      · -- nobody can have returned while a task was queued
        have hempty := (h.drained (hreturned ▸ hgone)).2
        rw [hq] at hempty
        cases hempty
      · exact hsleeping.trans (h.stopped hstop hall)
  | finish hw =>
      rename_i w task
      obtain ⟨hready, hsleeping, hreturned⟩ := counts_finish hw
      refine ⟨fun hsleep => ?_, fun hgone => h.drained (hreturned ▸ hgone), fun hstop hall => ?_⟩
      · have hle := h.awake (hsleeping ▸ hsleep)
        change s.q_.length ≤ s.notifying + (s.set w .ready).ready
        omega
      · exact hsleeping.trans (h.stopped hstop hall)
  | spurious hw =>
      rename_i w
      obtain ⟨hready, hsleeping, hreturned⟩ := counts_woken hw
      refine ⟨fun _ => ?_, fun hgone => h.drained (hreturned ▸ hgone), fun hstop hall => ?_⟩
      · have hle := h.awake (by omega)
        change s.q_.length ≤ s.notifying + (s.set w .ready).ready
        omega
      · have hnone := h.stopped hstop hall
        omega
  | destroy hgo =>
      refine ⟨h.awake, fun hgone => ⟨rfl, (h.drained hgone).2⟩, fun _ hall => ?_⟩
      cases hall
  | notify_all hall =>
      obtain ⟨-, hsleeping, hreturned⟩ := counts_notify_all s.workers_
      refine ⟨fun hsleep => ?_, fun hgone => h.drained ?_, fun _ _ => hsleeping⟩
      · change 0 < (s.workers_.map Worker.wake).countP Worker.is_waiting at hsleep
        omega
      · change 0 < (s.workers_.map Worker.wake).countP Worker.is_exited at hgone
        rw [hreturned] at hgone
        exact hgone

/-! ## The pool finishes what it was given -/

/-- What is left to do, as the header prices it. Waking everybody costs more than there are
workers. -/
def ThreadPool.work (s : ThreadPool τ) : ℕ :=
  2 * s.q_.length + 2 * s.notifying + (if s.notifying_all then s.workers_.length + 1 else 0)
    + s.ready + 2 * s.running.length

theorem work_step {s s' : ThreadPool τ} {a : Act τ} (hown : a.own) (hs : step s a = some s') :
    s'.work < s.work := by
  cases step_spec hs with
  | submit task => exact absurd hown id
  | spurious hw => exact absurd hown id
  | destroy hgo => exact absurd hown id
  | notify_one hw hpos =>
      rename_i w
      have hready := (counts_woken hw).1
      have hrunning := (running_set (y := .ready) hw rfl rfl).length_eq
      change 2 * s.q_.length + 2 * (s.notifying - 1)
          + (if s.notifying_all then (s.workers_.set w .ready).length + 1 else 0)
          + (s.set w .ready).ready + 2 * (s.set w .ready).running.length < s.work
      rw [List.length_set, hready, hrunning, ThreadPool.work]
      omega
  | notify_nobody hpos hnone =>
      change 2 * s.q_.length + 2 * (s.notifying - 1)
          + (if s.notifying_all then s.workers_.length + 1 else 0) + s.ready
          + 2 * s.running.length < s.work
      rw [ThreadPool.work]
      omega
  | sleep hw hq hgo =>
      rename_i w
      have hready := (counts_sleep hw).1
      have hrunning := (running_set (y := .waiting) hw rfl rfl).length_eq
      change 2 * s.q_.length + 2 * s.notifying
          + (if s.notifying_all then (s.workers_.set w .waiting).length + 1 else 0)
          + (s.set w .waiting).ready + 2 * (s.set w .waiting).running.length < s.work
      rw [List.length_set, hrunning, ThreadPool.work]
      omega
  | leave hw hq hstop =>
      rename_i w
      have hready := (counts_leave hw).1
      have hrunning := (running_set (y := .exited) hw rfl rfl).length_eq
      change 2 * s.q_.length + 2 * s.notifying
          + (if s.notifying_all then (s.workers_.set w .exited).length + 1 else 0)
          + (s.set w .exited).ready + 2 * (s.set w .exited).running.length < s.work
      rw [List.length_set, hrunning, ThreadPool.work]
      omega
  | take hw hq =>
      rename_i w task rest
      have hready := (counts_take task hw).1
      have hrunning := (running_take task hw).length_eq
      change 2 * rest.length + 2 * s.notifying
          + (if s.notifying_all then (s.workers_.set w (.running task)).length + 1 else 0)
          + (s.set w (.running task)).ready + 2 * (s.set w (.running task)).running.length < s.work
      rw [List.length_set, hrunning, List.length_cons, ThreadPool.work, hq, List.length_cons]
      omega
  | finish hw =>
      rename_i w task
      have hready := (counts_finish hw).1
      have hrunning := (running_finish hw).length_eq
      rw [List.length_cons] at hrunning
      change 2 * s.q_.length + 2 * s.notifying
          + (if s.notifying_all then (s.workers_.set w .ready).length + 1 else 0)
          + (s.set w .ready).ready + 2 * (s.set w .ready).running.length < s.work
      rw [List.length_set, hready, ThreadPool.work]
      omega
  | notify_all hall =>
      obtain ⟨hready, -, -⟩ := counts_notify_all s.workers_
      have hle : s.workers_.countP Worker.is_waiting ≤ s.workers_.length := List.countP_le_length
      change 2 * s.q_.length + 2 * s.notifying + 0
          + (s.workers_.map Worker.wake).countP Worker.is_ready
          + 2 * ((s.workers_.map Worker.wake).filterMap Worker.task).length < s.work
      rw [hready, running_wake, ThreadPool.work, if_pos hall, ThreadPool.ready, ThreadPool.running]
      omega

/-- In a stuck pool nothing is being notified and every worker sleeps or has returned. -/
theorem stuck_workers {s : ThreadPool τ} (h : Progress.Stuck step Act.own s) :
    s.notifying = 0 ∧ s.notifying_all = false ∧ ∀ x ∈ s.workers_, x = .waiting ∨ x = .exited := by
  refine ⟨?_, ?_, fun x hx => ?_⟩
  · -- a notification under way would find a sleeper, or nobody
    by_contra hne
    have hpos : 0 < s.notifying := Nat.pos_of_ne_zero hne
    by_cases hnone : s.workers_.countP Worker.is_waiting = 0
    · have hnobody := h .notify_nobody trivial
      rw [step, if_pos ⟨hpos, hnone⟩] at hnobody
      cases hnobody
    · obtain ⟨x, hx, hsleeps⟩ := List.countP_pos_iff.mp (Nat.pos_of_ne_zero hnone)
      obtain ⟨w, hw⟩ := List.getElem?_of_mem hx
      have hone := h (.notify_one w) trivial
      cases x with
      | waiting =>
          rw [step, hw] at hone
          dsimp only at hone
          rw [if_pos hpos] at hone
          cases hone
      | _ => cases hsleeps
  · cases hall : s.notifying_all with
    | false => rfl
    | true =>
        have hnone := h .notify_all trivial
        rw [step, if_pos hall] at hnone
        cases hnone
  · obtain ⟨w, hw⟩ := List.getElem?_of_mem hx
    cases x with
    | waiting => exact Or.inl rfl
    | exited => exact Or.inr rfl
    | ready =>
        have hnone := h (.acquire w) trivial
        rw [step, hw] at hnone
        cases hnone
    | running task =>
        have hnone := h (.finish w) trivial
        rw [step, hw] at hnone
        cases hnone

/-- A stuck pool has nothing left to do. -/
theorem stuck_idle {s : ThreadPool τ} (hsound : Sound s) (hsome : s.workers_ ≠ [])
    (h : Progress.Stuck step Act.own s) :
    s.q_ = [] ∧ s.running = [] ∧ (s.stop_ = true → ∀ x ∈ s.workers_, x = .exited) := by
  obtain ⟨hnotifying, hall, hwhere⟩ := stuck_workers h
  have hready : s.ready = 0 := by
    rw [ThreadPool.ready, List.countP_eq_zero]
    intro x hx
    rcases hwhere x hx with rfl | rfl <;> exact Bool.false_ne_true
  refine ⟨?_, ?_, fun hstop x hx => ?_⟩
  · obtain ⟨x, hx⟩ := List.exists_mem_of_ne_nil _ hsome
    rcases hwhere x hx with rfl | rfl
    · have hsleep : 0 < s.sleeping := List.countP_pos_iff.mpr ⟨_, hx, rfl⟩
      have hle := hsound.awake hsleep
      exact List.eq_nil_of_length_eq_zero (by omega)
    · exact (hsound.drained (List.countP_pos_iff.mpr ⟨_, hx, rfl⟩)).2
  · rw [ThreadPool.running, List.filterMap_eq_nil_iff]
    intro x hx
    rcases hwhere x hx with rfl | rfl <;> rfl
  · rcases hwhere x hx with rfl | rfl
    · have hsleep : 0 < s.sleeping := List.countP_pos_iff.mpr ⟨_, hx, rfl⟩
      have hnone := hsound.stopped hstop hall
      omega
    · rfl

theorem workers_length_step {s s' : ThreadPool τ} {a : Act τ} (hs : step s a = some s') :
    s'.workers_.length = s.workers_.length := by
  cases step_spec hs with
  | submit task => rfl
  | notify_nobody hpos hnone => rfl
  | destroy hgo => rfl
  | notify_all hall => exact List.length_map _
  | _ => exact List.length_set

/-- **No wake-up is lost and the pool finishes its work.** Take any state of the pool, in any
interleaving in which nobody submits during destruction. While a worker sleeps, every queued task
has a notification under way or an awake worker that has yet to look. Left to itself the pool
moves at most `work` more times; and wherever it can move no further, every task submitted has
been finished exactly once and, if it is being destroyed, every worker has returned, so that the
joins of the destructor end. -/
theorem pool_finishes {env : Option ℤ} {acts : List (Act τ)} {s : ThreadPool τ}
    (hok : Trace.Along step Owned (rpc_pool env) acts)
    (hs : Trace.run step (rpc_pool env) acts = some s) :
    (0 < s.sleeping → s.q_.length ≤ s.notifying + s.ready) ∧
    ∀ own t, (∀ a ∈ own, a.own) → Trace.run step s own = some t →
      own.length ≤ s.work ∧
      ((∃ a, a.own ∧ step t a ≠ none) ∨
        t.finished.Perm (submitted acts) ∧ t.q_ = [] ∧
          (t.stop_ = true → ∀ x ∈ t.workers_, x = .exited)) := by
  have hsound := Trace.run_invariant_along (P := Sound)
    (fun _ _ _ hP hok hstep => sound_step hP hok hstep) (sound_start _) hok hs
  have hlen : ∀ {u v : ThreadPool τ} {as : List (Act τ)},
      u.workers_.length = rpc_pool_threads env → Trace.run step u as = some v →
      v.workers_.length = rpc_pool_threads env := by
    intro u v as hu
    exact Trace.run_invariant (P := fun u : ThreadPool τ => u.workers_.length = _)
      (fun _ _ _ hP hstep => (workers_length_step hstep).trans hP) hu
  refine ⟨hsound.awake, fun own t hown ht => ?_⟩
  -- the pool's own moves submit nothing, so they meet the obligation and leave the account alone
  have howned : ∀ u a, a.own → Owned (τ := τ) u a := by
    intro u a ha
    cases a with
    | submit task => exact absurd ha id
    | _ => trivial
  obtain ⟨htsound, hle⟩ := Progress.length_le (P := Sound)
    (fun u a v hP ha hstep => ⟨sound_step hP (howned u a ha) hstep, work_step ha hstep⟩)
    hsound hown ht
  refine ⟨by omega, ?_⟩
  by_cases hstuck : Progress.Stuck step Act.own t
  · right
    have hsome : t.workers_ ≠ [] := by
      intro hnil
      have hcount := hlen (hlen (List.length_replicate ..) hs) ht
      have hpos := rpc_pool_threads_pos env
      rw [hnil, List.length_nil] at hcount
      omega
    obtain ⟨hq, hrunning, hgone⟩ := stuck_idle htsound hsome hstuck
    have hsubmitted : submitted own = [] := by
      rw [submitted, List.filterMap_eq_nil_iff]
      intro a ha
      cases a with
      | submit task => exact absurd (hown _ ha) id
      | _ => rfl
    have haccount := accounted_run (accounted_run (start_accounted _) hs) ht
    have honce := haccount.once
    have horder := haccount.order
    rw [hrunning, List.nil_append] at honce
    rw [hq, hsubmitted, List.append_nil, List.append_nil, List.nil_append] at horder
    exact ⟨horder ▸ honce, hq, hgone⟩
  · left
    rw [Progress.Stuck, not_forall] at hstuck
    obtain ⟨a, ha⟩ := hstuck
    exact ⟨a, Classical.not_imp.mp ha⟩

/-- The same pool, destroyed with one task running and one queued. -/
def destroyed : List (Act ℕ) :=
  [.submit 10, .notify_nobody, .acquire 0, .acquire 1, .submit 11, .submit 12, .notify_one 1,
    .notify_nobody, .acquire 1, .destroy]

theorem pool_finishes_destroyed :
    ∃ s, Trace.run step (rpc_pool (some 2)) destroyed = some s ∧
      (s.taken, s.q_, s.work) = ([10, 11], [12], 9) ∧
      ∀ own t, (∀ a ∈ own, a.own) → Trace.run step s own = some t →
        own.length ≤ s.work ∧
        ((∃ a, a.own ∧ step t a ≠ none) ∨
          t.finished.Perm (submitted destroyed) ∧ t.q_ = [] ∧
            (t.stop_ = true → ∀ x ∈ t.workers_, x = .exited)) := by
  obtain ⟨s, hs, hmid⟩ : ∃ s, Trace.run step (rpc_pool (some 2)) destroyed = some s ∧
      (s.taken, s.q_, s.work) = ([10, 11], [12], 9) := Trace.exists_run (by decide +kernel)
  exact ⟨s, hs, hmid, (pool_finishes (by decide +kernel) hs).2⟩

end NanoDB.Pool
