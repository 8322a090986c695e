/-
Runs of a partial step function.

A system is a function `step : σ → α → Option σ`: the second argument says which
thread, message or process moves, and `none` means that this move is not enabled.
A run is a list of moves, so "every interleaving" is "every list", and an
invariant is proved by one lemma about `step`.

`run_invariant` is the induction rule. The guarded version carries a condition on each
step taken; `Along` is the statement that a run meets it.
-/
import Mathlib.Data.List.Basic
import Mathlib.Logic.Basic

set_option autoImplicit false

namespace Trace

variable {σ α : Type*}

/-- The state after a list of moves, or `none` when one of them is not enabled. -/
def run (step : σ → α → Option σ) : σ → List α → Option σ
  | s, [] => some s
  | s, a :: as => (step s a).bind (fun s' => run step s' as)

/-- Every step of the run from `s` along `as` meets `ok`, evaluated in the state
before that step. Vacuous past the first move that is not enabled. -/
def Along (step : σ → α → Option σ) (ok : σ → α → Prop) : σ → List α → Prop
  | _, [] => True
  | s, a :: as => ok s a ∧ ∀ s', step s a = some s' → Along step ok s' as

variable {step : σ → α → Option σ} {ok : σ → α → Prop}

theorem run_cons (s : σ) (a : α) (as : List α) :
    run step s (a :: as) = (step s a).bind (fun s' => run step s' as) := rfl

/-- A run goes on from where its first step leads. -/
theorem run_step {s t : σ} {a : α} (h : step s a = some t) (as : List α) :
    run step s (a :: as) = run step t as := by
  rw [run_cons, h]
  rfl

/-- The first step of a non-empty run that goes through. -/
theorem run_cons_some {s s' : σ} {a : α} {as : List α} (h : run step s (a :: as) = some s') :
    ∃ m, step s a = some m ∧ run step m as = some s' := by
  rw [run_cons, Option.bind_eq_some_iff] at h
  exact h

theorem run_append (s : σ) (as bs : List α) :
    run step s (as ++ bs) = (run step s as).bind (fun s' => run step s' bs) := by
  induction as generalizing s with
  | nil => rfl
  | cons a as ih =>
      rw [List.cons_append, run_cons, run_cons, Option.bind_assoc]
      exact congrArg _ (funext fun m => ih m)

/-- A condition that can be decided in a state can be decided along a run. -/
instance decidableAlong [∀ s a, Decidable (ok s a)] :
    ∀ (s : σ) (as : List α), Decidable (Along step ok s as)
  | _, [] => isTrue trivial
  | s, a :: as =>
      match h : step s a with
      | none => decidable_of_iff (ok s a) (by simp [Along, h])
      | some m =>
          have : Decidable (Along step ok m as) := decidableAlong m as
          decidable_of_iff (ok s a ∧ Along step ok m as) (by simp [Along, h])

/-- A run on a fixed input can be evaluated. -/
theorem exists_run {s : σ} {as : List α} {P : σ → Prop} [DecidablePred P]
    (h : (run step s as).any (fun t => decide (P t)) = true) :
    ∃ t, run step s as = some t ∧ P t := by
  obtain ⟨t, ht, hP⟩ := (Option.any_eq_true _ _).mp h
  exact ⟨t, ht, of_decide_eq_true hP⟩

@[simp] theorem along_nil (s : σ) : Along step ok s [] := trivial

/-- A condition on the moves alone is met by every run of such moves. -/
theorem along_of_forall {Q : α → Prop} {as : List α} (h : ∀ a ∈ as, Q a) :
    ∀ s : σ, Along step (fun _ => Q) s as := by
  induction as with
  | nil =>
      intro s
      trivial
  | cons a as ih =>
      intro s
      exact ⟨h a List.mem_cons_self,
        fun s' _ => ih (fun b hb => h b (List.mem_cons_of_mem a hb)) s'⟩

/-- Systems that agree on the steps of a run agree on the run. -/
theorem run_congr {step' : σ → α → Option σ} {same : σ → α → Prop}
    (h : ∀ s a, same s a → step s a = step' s a) {as : List α} {s : σ}
    (hsame : Along step' same s as) :
    run step s as = run step' s as ∧ (Along step ok s as ↔ Along step' ok s as) := by
  induction as generalizing s with
  | nil => exact ⟨rfl, Iff.rfl⟩
  | cons a as ih =>
      have hstep := h s a hsame.1
      refine ⟨?_, and_congr_right fun _ => ?_⟩
      · rw [run_cons, run_cons, hstep]
        cases hs' : step' s a with
        | none => rfl
        | some m => exact (ih (hsame.2 m hs')).1
      · rw [hstep]
        exact forall_congr' fun m => imp_congr_right fun hm => (ih (hsame.2 m hm)).2

/-- A run that meets the condition meets it on its first part and, from the state
reached there, on the rest. -/
theorem along_append {s m : σ} {as bs : List α} (hm : run step s as = some m) :
    Along step ok s (as ++ bs) ↔ Along step ok s as ∧ Along step ok m bs := by
  induction as generalizing s with
  | nil =>
      obtain rfl : s = m := Option.some.inj hm
      simp
  | cons a as ih =>
      obtain ⟨k, hk, hkm⟩ := run_cons_some hm
      simp only [List.cons_append, Along, hk, Option.some.injEq, forall_eq', ih hkm, and_assoc]

/-- **The guarded invariant rule.** What holds at the start and is kept by every
step that meets `ok` holds after every run that meets `ok`. -/
theorem run_invariant_along {P : σ → Prop}
    (hstep : ∀ s a s', P s → ok s a → step s a = some s' → P s') :
    ∀ {s s' : σ} {as : List α}, P s → Along step ok s as → run step s as = some s' → P s' := by
  intro s s' as
  induction as generalizing s with
  | nil =>
      intro hs _ hr
      obtain rfl : s = s' := Option.some.inj hr
      exact hs
  | cons a as ih =>
      intro hs hok hr
      obtain ⟨m, hm, hms⟩ := run_cons_some hr
      exact ih (hstep s a m hs hok.1 hm) (hok.2 m hm) hms

/-- **The invariant rule** for runs without a condition. -/
theorem run_invariant {P : σ → Prop} (hstep : ∀ s a s', P s → step s a = some s' → P s')
    {s s' : σ} {as : List α} (hs : P s) (hr : run step s as = some s') : P s' := by
  exact run_invariant_along (fun s a s' hP _ => hstep s a s' hP) hs
    (along_of_forall (fun _ _ => trivial) s) hr

/-- **The exact rule.** Suppose that in the states that meet an invariant every move is enabled
and keeps it, and that a step from a state with `P` leads to one exactly if it meets `ok`. Then
`P` holds throughout a run exactly if every step of it meets `ok`. -/
theorem throughout_iff_along {I P : σ → Prop}
    (hstep : ∀ s a, I s → P s → ∃ s', step s a = some s' ∧ I s' ∧ (P s' ↔ ok s a))
    (as : List α) : ∀ {s : σ}, I s → P s →
      ((∀ n, ∃ s', run step s (as.take n) = some s' ∧ P s') ↔ Along step ok s as) := by
  induction as with
  | nil =>
      intro s _ hP
      exact ⟨fun _ => trivial, fun _ n => ⟨s, by rw [List.take_nil]; rfl, hP⟩⟩
  | cons a as ih =>
      intro s hI hP
      obtain ⟨m, hm, hIm, hiff⟩ := hstep s a hI hP
      have hcons : ∀ n, run step s ((a :: as).take (n + 1)) = run step m (as.take n) := by
        intro n
        rw [List.take_succ_cons, run_step hm]
      constructor
      · intro h
        -- the first step alone
        have hPm : P m := by
          obtain ⟨s', hs', hP'⟩ := h 1
          rw [hcons 0] at hs'
          exact Option.some.inj hs' ▸ hP'
        refine ⟨hiff.mp hPm, fun s' hs' => ?_⟩
        obtain rfl : m = s' := Option.some.inj (hm.symm.trans hs')
        exact (ih hIm hPm).mp (fun n => hcons n ▸ h (n + 1))
      · rintro ⟨hok, hrest⟩ n
        cases n with
        | zero => exact ⟨s, rfl, hP⟩
        | succ n =>
            rw [hcons n]
            exact (ih hIm (hiff.mpr hok)).mpr (hrest m hm) n

/-! ## What a run recorded since

A state often carries a list that only grows at its end, such as the calls made so far.
What was recorded after a given moment is that list without the part it had then. -/

theorem mem_drop_of_le {β : Type*} {l : List β} {m j : ℕ} {x : β} (hm : m ≤ j)
    (h : l[j]? = some x) : x ∈ l.drop m := by
  apply List.mem_of_getElem? (i := j - m)
  rw [List.getElem?_drop, Nat.add_sub_cancel' hm]
  exact h

end Trace
