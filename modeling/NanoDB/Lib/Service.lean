/-
Services that answer requests, and what it means that one behaves like another.

An implementation is a function from a state and a request to the next state and an answer,
or `none` when it does not answer. A specification is a relation: which answers, and which
next abstract states, are right. `simulates` is the rule: a relation between the two states
that every request keeps, with an answer the specification allows, gives that every run is
answered as the specification has it.
-/
import NanoDB.Lib.Trace

set_option autoImplicit false

namespace Service

variable {σ μ ρ α : Type*}

/-- Answer requests one after the other. -/
def serve_all (serve : σ → ρ → Option (σ × α)) : σ → List ρ → Option (σ × List α)
  | s, [] => some (s, [])
  | s, r :: rs =>
      (serve s r).bind (fun p => (serve_all serve p.1 rs).map (fun q => (q.1, p.2 :: q.2)))

/-- The state after one request. -/
def next (serve : σ → ρ → Option (σ × α)) (s : σ) (r : ρ) : Option σ := (serve s r).map Prod.fst

/-- The answers are right, one after the other, from the abstract state `m`. -/
def Answers (spec : μ → ρ → α → μ → Prop) : μ → List ρ → List α → Prop
  | _, [], [] => True
  | m, r :: rs, a :: as => ∃ m', spec m r a m' ∧ Answers spec m' rs as
  | _, _, _ => False

variable {serve : σ → ρ → Option (σ × α)} {spec : μ → ρ → α → μ → Prop}

/-- **The simulation rule.** -/
theorem simulates {R : σ → μ → Prop} {ok : σ → ρ → Prop}
    (hstep : ∀ s m r, R s m → ok s r →
      ∃ s' a m', serve s r = some (s', a) ∧ spec m r a m' ∧ R s' m') (rs : List ρ) :
    ∀ s m, R s m → Trace.Along (next serve) ok s rs →
      ∃ s' as, serve_all serve s rs = some (s', as) ∧ Answers spec m rs as := by
  induction rs with
  | nil =>
      intro s m _ _
      exact ⟨s, [], rfl, trivial⟩
  | cons r rs ih =>
      intro s m hs hok
      obtain ⟨s', a, m', hserve, hspec, hs'⟩ := hstep s m r hs hok.1
      have hnext : next serve s r = some s' := by
        rw [next, hserve]
        rfl
      obtain ⟨s'', as, hrest, hanswers⟩ := ih s' m' hs' (hok.2 s' hnext)
      refine ⟨s'', a :: as, ?_, m', hspec, hanswers⟩
      rw [serve_all, hserve]
      exact congrArg (Option.map (fun q => (q.1, a :: q.2))) hrest

/-- The answers to the last requests are right from some state. -/
theorem answers_append {rs rs' : List ρ} :
    ∀ {m : μ} {as : List α}, Answers spec m (rs ++ rs') as →
      ∃ m' as₁ as₂, as = as₁ ++ as₂ ∧ as₁.length = rs.length ∧ Answers spec m' rs' as₂ := by
  induction rs with
  | nil =>
      intro m as h
      exact ⟨m, [], as, rfl, rfl, h⟩
  | cons r rs ih =>
      intro m as h
      cases as with
      | nil => exact absurd h not_false
      | cons a as =>
          obtain ⟨m', -, hrest⟩ := h
          obtain ⟨m'', as₁, as₂, rfl, hlen, hlast⟩ := ih hrest
          exact ⟨m'', a :: as₁, as₂, rfl, congrArg Nat.succ hlen, hlast⟩

end Service
