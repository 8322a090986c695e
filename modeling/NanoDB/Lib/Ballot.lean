/-
Voting in numbered terms, without the messages.

The abstract machine keeps, for every member, its current term and the votes it
has ever cast, and for every term the member that won it. Four moves change it:
a member enters a later term, votes in its current one, wins a term some quorum
voted it into, or nothing happens. What an implementation owes is that each of its
handlers is one of these; what it gets back is `elect_unique` (a term has one
winner) and the monotonicity in `Le` (terms grow, votes and winners are never
taken back), which also relates states far apart in a run.
-/
import Mathlib.Data.Finset.Basic
import Mathlib.Logic.Function.Basic
import Mathlib.Order.Basic

set_option autoImplicit false

namespace Ballot

variable {ν : Type*} [DecidableEq ν]

/-- Current terms, all votes ever cast, and the winner of each term. -/
structure Votes (ν : Type*) where
  term : ν → ℕ
  vote : ν → ℕ → Option ν
  winner : ℕ → Option ν

/-- Nobody has voted and every member is in term `0`. -/
def Votes.init : Votes ν := ⟨fun _ => 0, fun _ _ => none, fun _ => none⟩

/-- Member `v` enters term `t`. -/
def Votes.enter (b : Votes ν) (v : ν) (t : ℕ) : Votes ν :=
  { b with term := Function.update b.term v t }

/-- Member `v` votes for `c` in its current term. -/
def Votes.cast (b : Votes ν) (v c : ν) : Votes ν :=
  { b with vote := Function.update b.vote v (Function.update (b.vote v) (b.term v) (some c)) }

/-- Member `c` wins term `t`. -/
def Votes.win (b : Votes ν) (c : ν) (t : ℕ) : Votes ν :=
  { b with winner := Function.update b.winner t (some c) }

@[simp] theorem enter_term_self (b : Votes ν) (v : ν) (t : ℕ) : (b.enter v t).term v = t := by
  simp [Votes.enter]

@[simp] theorem enter_term_ne (b : Votes ν) {v w : ν} (t : ℕ) (h : w ≠ v) :
    (b.enter v t).term w = b.term w := by
  simp [Votes.enter, h]

/-- Entering the current term is no move. -/
@[simp] theorem enter_self (b : Votes ν) (v : ν) : b.enter v (b.term v) = b := by
  simp [Votes.enter]

@[simp] theorem cast_term (b : Votes ν) (v c : ν) : (b.cast v c).term = b.term := rfl

@[simp] theorem cast_vote_self (b : Votes ν) (v c : ν) :
    (b.cast v c).vote v (b.term v) = some c := by
  simp [Votes.cast]

/-- A vote touches no other member and no other term. -/
theorem cast_vote_ne (b : Votes ν) {v w : ν} (c : ν) {t : ℕ} (h : w ≠ v ∨ t ≠ b.term v) :
    (b.cast v c).vote w t = b.vote w t := by
  by_cases hw : w = v
  · subst hw
    have ht : t ≠ b.term w := h.resolve_left (fun hne => hne rfl)
    simp [Votes.cast, ht]
  · simp [Votes.cast, hw]

omit [DecidableEq ν] in
@[simp] theorem win_winner_self (b : Votes ν) (c : ν) (t : ℕ) :
    (b.win c t).winner t = some c := by
  simp [Votes.win]

omit [DecidableEq ν] in
@[simp] theorem win_winner_ne (b : Votes ν) (c : ν) {t u : ℕ} (h : u ≠ t) :
    (b.win c t).winner u = b.winner u := by
  simp [Votes.win, h]

section Safety

variable (IsQuorum : Finset ν → Prop)

/-- What the machine keeps: nobody has voted in a term it has not entered, and
every winner has a quorum of votes behind it. -/
structure Wf (b : Votes ν) : Prop where
  future : ∀ v t, b.term v < t → b.vote v t = none
  backed : ∀ t c, b.winner t = some c → ∃ Q, IsQuorum Q ∧ ∀ v ∈ Q, b.vote v t = some c

/-- One move of the machine. A second vote in one term is only a repetition of the
first, and a win needs the votes of a quorum. -/
inductive Step : Votes ν → Votes ν → Prop
  | stay (b : Votes ν) : Step b b
  | enter (b : Votes ν) (v : ν) (t : ℕ) (h : b.term v ≤ t) : Step b (b.enter v t)
  | cast (b : Votes ν) (v c : ν)
      (h : b.vote v (b.term v) = none ∨ b.vote v (b.term v) = some c) : Step b (b.cast v c)
  | win (b : Votes ν) (c : ν) (t : ℕ) (Q : Finset ν) (hQ : IsQuorum Q)
      (h : ∀ v ∈ Q, b.vote v t = some c) : Step b (b.win c t)

/-- Nothing is taken back between `b` and `b'`. -/
structure Le (b b' : Votes ν) : Prop where
  term : ∀ v, b.term v ≤ b'.term v
  vote : ∀ v t c, b.vote v t = some c → b'.vote v t = some c
  winner : ∀ t c, b.winner t = some c → b'.winner t = some c

omit [DecidableEq ν] in
theorem Le.refl (b : Votes ν) : Le b b :=
  ⟨fun _ => le_refl _, fun _ _ _ h => h, fun _ _ h => h⟩

omit [DecidableEq ν] in
theorem Le.trans {a b c : Votes ν} (hab : Le a b) (hbc : Le b c) : Le a c :=
  ⟨fun v => le_trans (hab.term v) (hbc.term v),
    fun v t w h => hbc.vote v t w (hab.vote v t w h),
    fun t w h => hbc.winner t w (hab.winner t w h)⟩

variable {IsQuorum}

omit [DecidableEq ν] in
theorem wf_init : Wf IsQuorum (Votes.init : Votes ν) :=
  ⟨fun _ _ _ => rfl, fun _ _ h => by simp [Votes.init] at h⟩

omit [DecidableEq ν] in
/-- **A term has one winner.** Two quorums of votes in one term meet in a member,
and that member voted once. -/
theorem elect_unique (hinter : ∀ A B, IsQuorum A → IsQuorum B → ∃ v, v ∈ A ∧ v ∈ B)
    {b : Votes ν} (hb : Wf IsQuorum b) {t : ℕ} {c c' : ν} (hc : b.winner t = some c)
    {Q : Finset ν} (hQ : IsQuorum Q) (hvotes : ∀ v ∈ Q, b.vote v t = some c') : c = c' := by
  obtain ⟨Q₀, hQ₀, hback⟩ := hb.backed t c hc
  obtain ⟨v, hv₀, hv⟩ := hinter Q₀ Q hQ₀ hQ
  have h₁ := hback v hv₀
  rw [hvotes v hv] at h₁
  exact (Option.some.inj h₁).symm

/-- One move takes nothing back. -/
theorem Step.le (hinter : ∀ A B, IsQuorum A → IsQuorum B → ∃ v, v ∈ A ∧ v ∈ B)
    {b b' : Votes ν} (hb : Wf IsQuorum b) (h : Step IsQuorum b b') : Le b b' := by
  cases h with
  | stay => exact Le.refl b
  | enter v t ht =>
      refine ⟨fun w => ?_, fun _ _ _ h => h, fun _ _ h => h⟩
      by_cases hw : w = v
      · subst hw
        rw [enter_term_self]
        exact ht
      · rw [enter_term_ne b t hw]
  | cast v c hfree =>
      refine ⟨fun _ => le_refl _, fun w t c' hw => ?_, fun _ _ h => h⟩
      by_cases hsame : w = v ∧ t = b.term v
      · -- a vote already cast is only ever repeated
        obtain ⟨rfl, rfl⟩ := hsame
        rw [cast_vote_self]
        rw [hw] at hfree
        rcases hfree with hnone | hsome
        · exact absurd hnone (by simp)
        · exact hsome.symm
      · rw [cast_vote_ne b c (by tauto)]
        exact hw
  | win c t Q hQ hvotes =>
      refine ⟨fun _ => le_refl _, fun _ _ _ h => h, fun u c' hu => ?_⟩
      by_cases hut : u = t
      · -- a second winner of the term would need a second quorum
        subst hut
        rw [elect_unique hinter hb hu hQ hvotes, win_winner_self]
      · rw [win_winner_ne b c hut]
        exact hu

/-- One move keeps the machine well formed. -/
theorem Step.wf (hinter : ∀ A B, IsQuorum A → IsQuorum B → ∃ v, v ∈ A ∧ v ∈ B)
    {b b' : Votes ν} (hb : Wf IsQuorum b) (h : Step IsQuorum b b') : Wf IsQuorum b' := by
  have hle := Step.le hinter hb h
  cases h with
  | stay => exact hb
  | enter v t ht =>
      refine ⟨fun w u hu => ?_, hb.backed⟩
      exact hb.future w u (lt_of_le_of_lt (hle.term w) hu)
  | cast v c hfree =>
      refine ⟨fun w u hu => ?_, fun u c' hu => ?_⟩
      · rw [cast_term] at hu
        -- a member votes in its current term, so never in a future one
        have hne : w ≠ v ∨ u ≠ b.term v := by
          by_cases hw : w = v
          · subst hw
            exact Or.inr (Nat.ne_of_gt hu)
          · exact Or.inl hw
        rw [cast_vote_ne b c hne]
        exact hb.future w u hu
      · obtain ⟨Q, hQ, hback⟩ := hb.backed u c' hu
        exact ⟨Q, hQ, fun w hw => hle.vote w u c' (hback w hw)⟩
  | win c t Q hQ hvotes =>
      refine ⟨hb.future, fun u c' hu => ?_⟩
      by_cases hut : u = t
      · subst hut
        rw [win_winner_self] at hu
        obtain rfl : c = c' := Option.some.inj hu
        exact ⟨Q, hQ, hvotes⟩
      · rw [win_winner_ne b c hut] at hu
        exact hb.backed u c' hu

end Safety

end Ballot
