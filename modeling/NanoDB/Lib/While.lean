/-
While loops.

`run cond body fuel s` evaluates the body as long as the condition holds, and is `none` when the
fuel is used up before that. Fuel is only there to write the loop down: `run_of_le` says that more
of it changes nothing, and `total`, the rule for a measure and an invariant, says how much is
enough.
-/
import Mathlib.Data.Nat.Basic

set_option autoImplicit false

namespace While

variable {σ : Type*} (cond : σ → Bool) (body : σ → σ)

/-- The loop. Every test of the condition takes one unit of fuel. -/
def run : ℕ → σ → Option σ
  | 0, _ => none
  | fuel + 1, s => if cond s then run fuel (body s) else some s

variable {cond body}

/-- More fuel changes nothing. -/
theorem run_of_le {fuel : ℕ} :
    ∀ {s t : σ}, run cond body fuel s = some t → ∀ {fuel'}, fuel ≤ fuel' →
      run cond body fuel' s = some t := by
  induction fuel with
  | zero =>
      intro s t h
      simp [run] at h
  | succ fuel ih =>
      intro s t h fuel' hle
      obtain ⟨n, rfl⟩ : ∃ n, fuel' = n + 1 := ⟨fuel' - 1, by omega⟩
      rw [run] at h ⊢
      split at h
      · rename_i hcond
        rw [if_pos hcond]
        exact ih h (by omega)
      · rename_i hcond
        rw [if_neg hcond]
        exact h

/-- **The rule for total correctness.** If the body keeps `P` and lowers the measure, then the loop
ends, in a state with `P` in which the condition fails. -/
theorem total {P : σ → Prop} (measure : σ → ℕ)
    (hbody : ∀ s, P s → cond s = true → P (body s) ∧ measure (body s) < measure s) (fuel : ℕ) :
    ∀ s, P s → measure s < fuel →
      ∃ t, run cond body fuel s = some t ∧ P t ∧ cond t = false := by
  induction fuel with
  | zero =>
      intro s _ h
      omega
  | succ fuel ih =>
      intro s hs hfuel
      rw [run]
      by_cases hcond : cond s = true
      · obtain ⟨hP, hlower⟩ := hbody s hs hcond
        rw [if_pos hcond]
        exact ih (body s) hP (by omega)
      · rw [if_neg hcond]
        exact ⟨s, rfl, hs, by simpa using hcond⟩

end While
