/-
Runs that have to end.

A move of a system is of one of two kinds: those the environment makes, and the system's own,
picked out by a predicate on moves. If every own move lowers a measure, then without the
environment the system runs for at most that many steps (`length_le`). What is left to say about
a system is then what a state looks like in which none of its own moves is enabled.
-/
import NanoDB.Lib.Trace

set_option autoImplicit false

namespace Progress

variable {σ α : Type*} (step : σ → α → Option σ) (own : α → Prop)

/-- None of the system's own moves is enabled. -/
def Stuck (s : σ) : Prop := ∀ a, own a → step s a = none

variable {step own} {P : σ → Prop} {measure : σ → ℕ}

/-- A run of own moves is paid for by the measure. -/
theorem length_le
    (hstep : ∀ s a s', P s → own a → step s a = some s' → P s' ∧ measure s' < measure s) :
    ∀ {as : List α} {s s' : σ}, P s → (∀ a ∈ as, own a) → Trace.run step s as = some s' →
      P s' ∧ measure s' + as.length ≤ measure s := by
  intro as
  induction as with
  | nil =>
      intro s s' hP _ hrun
      obtain rfl : s = s' := Option.some.inj hrun
      exact ⟨hP, Nat.le_refl _⟩
  | cons a as ih =>
      intro s s' hP hown hrun
      obtain ⟨m, hm, hrest⟩ := Trace.run_cons_some hrun
      obtain ⟨hPm, hlower⟩ := hstep s a m hP (hown a List.mem_cons_self) hm
      obtain ⟨hP', hle⟩ := ih hPm (fun b hb => hown b (List.mem_cons_of_mem a hb)) hrest
      refine ⟨hP', ?_⟩
      rw [List.length_cons]
      omega

end Progress
