/-
Replicated logs under one winner a term, without the messages.

On top of the votes of `Ballot` every member holds a log, and every term that has
been won has a leader's log (`llog`), which only grows at the end and only by
entries of that term. Followers never invent entries: their log becomes a prefix of
the leader's log of their current term. `acked v t` is the largest prefix of term
`t`'s leader log that `v` has confirmed, `cand t c` the log `c` campaigned with in
`t`, and `held v t` the log `v` had when it voted in `t`.

Two layers of invariant. `Wf` needs nothing from the moves and gives log matching:
every log is, up to any of its entries, a prefix of the leader log of that entry's
term (`Sourced`). `Safe` needs that a follower never gives up entries its leader does
not contradict (the guard of `accept`, instantiated with `NoCut`), and gives leader
completeness, proved by strong induction on the later term (`leader_complete`).
-/
import NanoDB.Lib.Ballot
import Mathlib.Data.List.Basic
import Mathlib.Tactic.Common
import Mathlib.Data.List.Infix
import Mathlib.Logic.Relation

set_option autoImplicit false

namespace Replog

open Ballot

variable {ν ε : Type*}

/-- Votes, logs, leader logs, and what was recorded at campaigns, votes and
acknowledgements. -/
structure State (ν ε : Type*) extends Votes ν where
  log : ν → List ε
  llog : ℕ → List ε
  cand : ℕ → ν → Option (List ε)
  held : ν → ℕ → Option (List ε)
  acked : ν → ℕ → ℕ

/-- Empty logs, no campaigns. -/
def State.init : State ν ε :=
  { toVotes := Votes.init, log := fun _ => [], llog := fun _ => [],
    cand := fun _ _ => none, held := fun _ _ => none, acked := fun _ _ => 0 }

section Moves

variable [DecidableEq ν]

/-- Member `v` enters term `t`. -/
def State.enter (r : State ν ε) (v : ν) (t : ℕ) : State ν ε :=
  { r with toVotes := r.toVotes.enter v t }

/-- Member `v` enters the next term, votes for itself and campaigns with its log. -/
def State.campaign (r : State ν ε) (v : ν) : State ν ε :=
  { r with
    toVotes := (r.toVotes.enter v (r.term v + 1)).cast v v
    cand := Function.update r.cand (r.term v + 1)
      (Function.update (r.cand (r.term v + 1)) v (some (r.log v)))
    held := Function.update r.held v
      (Function.update (r.held v) (r.term v + 1) (some (r.log v))) }

/-- Member `v` votes for `c` in its current term; a repetition keeps the log
recorded with the first vote. -/
def State.grant (r : State ν ε) (v c : ν) : State ν ε :=
  { r with
    toVotes := r.toVotes.cast v c
    held := Function.update r.held v
      (Function.update (r.held v) (r.term v)
        (if r.vote v (r.term v) = none then some (r.log v) else r.held v (r.term v))) }

/-- Candidate `c` wins term `t`; its log becomes the leader log. -/
def State.elect (r : State ν ε) (c : ν) (t : ℕ) : State ν ε :=
  { r with
    toVotes := r.toVotes.win c t
    llog := Function.update r.llog t (r.log c) }

/-- The leader `c` appends `e` to its log, which is the leader log of its term. -/
def State.append (r : State ν ε) (c : ν) (e : ε) : State ν ε :=
  { r with
    log := Function.update r.log c (r.log c ++ [e])
    llog := Function.update r.llog (r.term c) (r.llog (r.term c) ++ [e])
    acked := Function.update r.acked c
      (Function.update (r.acked c) (r.term c) ((r.llog (r.term c)).length + 1)) }

/-- Member `v` confirms the first `m` entries of its term's leader log. -/
def State.ack (r : State ν ε) (v : ν) (m : ℕ) : State ν ε :=
  { r with
    acked := Function.update r.acked v
      (Function.update (r.acked v) (r.term v) (max (r.acked v (r.term v)) m)) }

/-- Member `v` takes over the first `m` entries of its term's leader log. -/
def State.accept (r : State ν ε) (v : ν) (m : ℕ) : State ν ε :=
  { r.ack v m with log := Function.update r.log v ((r.llog (r.term v)).take m) }

end Moves

section Defs

variable (termOf : ε → ℕ)

/-- The term of the last entry, `0` for the empty log. -/
def lastTerm (l : List ε) : ℕ := (l.getLast?.map termOf).getD 0

/-- `l` is at least as up to date as `l'`: a later last term, or the same last
term and no fewer entries. -/
def UpToDate (l l' : List ε) : Prop :=
  lastTerm termOf l' < lastTerm termOf l ∨
    (lastTerm termOf l' = lastTerm termOf l ∧ l'.length ≤ l.length)

/-- Up to each of its entries, `l` is the leader log of that entry's term. -/
def Sourced (r : State ν ε) (l : List ε) : Prop :=
  ∀ i e, l[i]? = some e →
    r.winner (termOf e) ≠ none ∧ l.take (i + 1) = (r.llog (termOf e)).take (i + 1)

/-- Every leader log of a term strictly between `t` and `u` has the first `i`
entries of `t`'s. -/
def Agreed (r : State ν ε) (t u i : ℕ) : Prop :=
  ∀ t', t < t' → t' < u → r.winner t' ≠ none → (r.llog t').take i = (r.llog t).take i

/-- The new log is no proper prefix of the old one: nothing was given up without
a contradiction. -/
def NoCut (old new : List ε) : Prop := new <+: old → old.length ≤ new.length

end Defs

section Machine

variable [DecidableEq ν] (termOf : ε → ℕ) (IsQuorum : Finset ν → Prop)
  (guard : List ε → List ε → Prop)

/-- One move of the machine. `guard old new` is what is asked of a follower that
replaces its log. -/
inductive Step : State ν ε → State ν ε → Prop
  | stay (r : State ν ε) : Step r r
  | enter (r : State ν ε) (v : ν) (t : ℕ) (h : r.term v ≤ t) : Step r (r.enter v t)
  | campaign (r : State ν ε) (v : ν) : Step r (r.campaign v)
  | grant (r : State ν ε) (v c : ν) (L : List ε)
      (hfree : r.vote v (r.term v) = none ∨ r.vote v (r.term v) = some c)
      (hcand : r.cand (r.term v) c = some L)
      (hup : UpToDate termOf L (r.log v)) : Step r (r.grant v c)
  | elect (r : State ν ε) (c : ν) (t : ℕ) (Q : Finset ν) (hQ : IsQuorum Q)
      (hvotes : ∀ v ∈ Q, r.vote v t = some c) (hcand : r.cand t c = some (r.log c))
      (hfresh : r.winner t = none) : Step r (r.elect c t)
  | append (r : State ν ε) (c : ν) (e : ε) (hwon : r.winner (r.term c) = some c)
      (hlog : r.log c = r.llog (r.term c)) (he : termOf e = r.term c) : Step r (r.append c e)
  | ack (r : State ν ε) (v : ν) (m : ℕ) (hwon : r.winner (r.term v) ≠ none)
      (hm : m ≤ (r.llog (r.term v)).length)
      (hpre : (r.llog (r.term v)).take m <+: r.log v) : Step r (r.ack v m)
  | accept (r : State ν ε) (v : ν) (m : ℕ) (hwon : r.winner (r.term v) ≠ none)
      (hm : m ≤ (r.llog (r.term v)).length)
      (hg : guard (r.log v) ((r.llog (r.term v)).take m)) : Step r (r.accept v m)

/-- What every move keeps, whatever the guard. -/
structure Wf (r : State ν ε) : Prop where
  votes : Ballot.Wf IsQuorum r.toVotes
  log_sourced : ∀ v, Sourced termOf r (r.log v)
  llog_sourced : ∀ t, Sourced termOf r (r.llog t)
  cand_sourced : ∀ t c L, r.cand t c = some L → Sourced termOf r L
  held_sourced : ∀ v t L, r.held v t = some L → Sourced termOf r L
  log_le : ∀ v, ∀ e ∈ r.log v, termOf e ≤ r.term v
  llog_le : ∀ t, ∀ e ∈ r.llog t, termOf e ≤ t
  cand_lt : ∀ t c L, r.cand t c = some L → ∀ e ∈ L, termOf e < t
  cand_future : ∀ t c, r.term c < t → r.cand t c = none
  held_future : ∀ v t, r.term v < t → r.held v t = none
  unled : ∀ t, r.winner t = none → r.llog t = []
  acked_le : ∀ v t, r.acked v t ≤ (r.llog t).length
  acked_led : ∀ v t, 0 < r.acked v t → t ≤ r.term v
  granted : ∀ v t c, r.vote v t = some c →
    ∃ L Lv, r.cand t c = some L ∧ r.held v t = some Lv ∧ UpToDate termOf L Lv

/-- Nothing is taken back between `r` and `r'`: votes and winners stay, leader logs
grow by entries of their own term, acknowledgements grow. -/
structure Le (r r' : State ν ε) : Prop where
  votes : Ballot.Le r.toVotes r'.toVotes
  llog : ∀ t, r.winner t ≠ none →
    ∃ ext, r'.llog t = r.llog t ++ ext ∧ ∀ e ∈ ext, termOf e = t
  acked : ∀ v t, r.acked v t ≤ r'.acked v t

variable {termOf : ε → ℕ} {IsQuorum : Finset ν → Prop} {guard : List ε → List ε → Prop}

/-! ## Lists that agree up to an index -/

omit [DecidableEq ν] in
theorem take_eq_of_le {l l' : List ε} {c m : ℕ} (h : l.take c = l'.take c) (hm : m ≤ c) :
    l.take m = l'.take m := by
  have htake := congrArg (List.take m) h
  rwa [List.take_take, List.take_take, Nat.min_eq_left hm] at htake

omit [DecidableEq ν] in
/-- Agreement up to `i + 1` transports "has an entry at `i`". -/
theorem lt_length_of_take_eq {l l' : List ε} {i : ℕ} (h : l.take (i + 1) = l'.take (i + 1))
    (hi : i < l.length) : i < l'.length := by
  have hlen := congrArg List.length h
  rw [List.length_take, List.length_take] at hlen
  omega

omit [DecidableEq ν] in
/-- Entries of a later term added at the end cannot be what makes two lists agree:
the agreed part of `b` has only earlier terms. -/
theorem take_eq_of_append_eq {a ext b : List ε} {i t t' : ℕ}
    (h : (a ++ ext).take i = b.take i) (hi : i ≤ b.length) (hb : ∀ e ∈ b, termOf e ≤ t)
    (hext : ∀ e ∈ ext, termOf e = t') (htt : t < t') : a.take i = b.take i := by
  rcases Nat.lt_or_ge a.length i with hlt | hge
  · exfalso
    have hb' : b[a.length]? = (a ++ ext)[a.length]? := by
      rw [← List.getElem?_take_of_lt (l := b) hlt, ← h, List.getElem?_take_of_lt hlt]
    have hlt' : a.length < b.length := by omega
    rw [List.getElem?_eq_getElem hlt', List.getElem?_append_right (le_refl _), Nat.sub_self] at hb'
    have hmem : b[a.length] ∈ ext := List.mem_of_getElem? hb'.symm
    have h₁ := hb _ (List.getElem_mem hlt')
    have h₂ := hext _ hmem
    omega
  · rw [← h, List.take_append_of_le_length hge]

/-! ## Sourced logs -/

omit [DecidableEq ν] in
theorem sourced_nil (r : State ν ε) : Sourced termOf r [] := by
  intro i e h
  simp at h

omit [DecidableEq ν] in
/-- A prefix of a sourced log is sourced. -/
theorem Sourced.take {r : State ν ε} {l : List ε} (h : Sourced termOf r l) (m : ℕ) :
    Sourced termOf r (l.take m) := by
  intro i e hie
  have him : i < m := by
    by_contra hge
    rw [List.getElem?_take, if_neg hge] at hie
    simp at hie
  rw [List.getElem?_take_of_lt him] at hie
  obtain ⟨hwon, htake⟩ := h i e hie
  refine ⟨hwon, ?_⟩
  rw [List.take_take, Nat.min_eq_left (by omega), htake]

omit [DecidableEq ν] in
theorem Sourced.mono {r r' : State ν ε} {l : List ε} (hle : Le termOf r r')
    (h : Sourced termOf r l) : Sourced termOf r' l := by
  intro i e hie
  obtain ⟨hwon, htake⟩ := h i e hie
  obtain ⟨ext, hext, -⟩ := hle.llog (termOf e) hwon
  have hi : i < l.length := (List.getElem?_eq_some_iff.mp hie).1
  have hlen : i < (r.llog (termOf e)).length := lt_length_of_take_eq htake hi
  refine ⟨?_, ?_⟩
  · obtain ⟨c, hc⟩ := Option.ne_none_iff_exists'.mp hwon
    rw [hle.votes.winner _ c hc]
    simp
  · rw [hext, List.take_append_of_le_length (by omega), htake]

omit [DecidableEq ν] in
/-- **Log matching.** Sourced logs with entries of one term at one index agree up to it. -/
theorem Sourced.matching {r : State ν ε} {l l' : List ε} (h : Sourced termOf r l)
    (h' : Sourced termOf r l') {i : ℕ} {e e' : ε} (hie : l[i]? = some e) (hie' : l'[i]? = some e')
    (ht : termOf e = termOf e') : l.take (i + 1) = l'.take (i + 1) := by
  rw [(h i e hie).2, (h' i e' hie').2, ht]

omit [DecidableEq ν] in
/-- Terms do not decrease along a sourced log. -/
theorem Sourced.sorted {r : State ν ε} (hll : ∀ t, ∀ e ∈ r.llog t, termOf e ≤ t) {l : List ε}
    (h : Sourced termOf r l) {i j : ℕ} {a b : ε} (hij : i ≤ j) (hi : l[i]? = some a)
    (hj : l[j]? = some b) : termOf a ≤ termOf b := by
  obtain ⟨-, htake⟩ := h j b hj
  have hmem : a ∈ l.take (j + 1) := by
    apply List.mem_of_getElem? (i := i)
    rw [List.getElem?_take_of_lt (by omega)]
    exact hi
  rw [htake] at hmem
  exact hll _ a (List.mem_of_mem_take hmem)

/-! ## Moves take nothing back -/

omit [DecidableEq ν] in
theorem Le.refl (r : State ν ε) : Le termOf r r :=
  ⟨Ballot.Le.refl _, fun _ _ => ⟨[], by simp, by simp⟩, fun _ _ => le_refl _⟩

omit [DecidableEq ν] in
theorem Le.trans {r₁ r₂ r₃ : State ν ε} (h₁ : Le termOf r₁ r₂) (h₂ : Le termOf r₂ r₃) :
    Le termOf r₁ r₃ := by
  refine ⟨h₁.votes.trans h₂.votes, fun t ht => ?_,
    fun v t => le_trans (h₁.acked v t) (h₂.acked v t)⟩
  obtain ⟨e₁, he₁, ht₁⟩ := h₁.llog t ht
  obtain ⟨c, hc⟩ := Option.ne_none_iff_exists'.mp ht
  obtain ⟨e₂, he₂, ht₂⟩ := h₂.llog t (by rw [h₁.votes.winner t c hc]; simp)
  refine ⟨e₁ ++ e₂, by rw [he₂, he₁, List.append_assoc], fun e he => ?_⟩
  rcases List.mem_append.mp he with h | h
  · exact ht₁ e h
  · exact ht₂ e h

/-- The vote part of a move is a move of the vote machine (two, for a campaign). -/
theorem Step.ballot (hinter : ∀ A B, IsQuorum A → IsQuorum B → ∃ v, v ∈ A ∧ v ∈ B)
    {r r' : State ν ε} (hr : Ballot.Wf IsQuorum r.toVotes)
    (h : Step termOf IsQuorum guard r r') :
    Ballot.Le r.toVotes r'.toVotes ∧ Ballot.Wf IsQuorum r'.toVotes := by
  have one : ∀ b', Ballot.Step IsQuorum r.toVotes b' →
      Ballot.Le r.toVotes b' ∧ Ballot.Wf IsQuorum b' :=
    fun b' hb' => ⟨hb'.le hinter hr, hb'.wf hinter hr⟩
  cases h with
  | stay => exact one _ (.stay _)
  | enter v t ht => exact one _ (.enter _ v t ht)
  | campaign v =>
      obtain ⟨hle₁, hwf₁⟩ := one _ (.enter _ v (r.term v + 1) (by omega))
      have hfree : (r.toVotes.enter v (r.term v + 1)).vote v
          ((r.toVotes.enter v (r.term v + 1)).term v) = none := by
        rw [enter_term_self]
        exact hr.future v _ (Nat.lt_succ_self _)
      have hcast : Ballot.Step IsQuorum (r.toVotes.enter v (r.term v + 1))
          ((r.toVotes.enter v (r.term v + 1)).cast v v) := .cast _ v v (Or.inl hfree)
      exact ⟨hle₁.trans (hcast.le hinter hwf₁), hcast.wf hinter hwf₁⟩
  | grant v c L hfree hcand hup => exact one _ (.cast _ v c hfree)
  | elect c t Q hQ hvotes hcand hfresh => exact one _ (.win _ c t Q hQ hvotes)
  | append c e hwon hlog he => exact one _ (.stay _)
  | ack v m hwon hm hpre => exact one _ (.stay _)
  | accept v m hwon hm hg => exact one _ (.stay _)

theorem ack_acked_le (r : State ν ε) (v : ν) (m : ℕ) (w : ν) (t : ℕ) :
    r.acked w t ≤ (r.ack v m).acked w t := by
  by_cases hw : w = v
  · subst hw
    by_cases ht : t = r.term w
    · subst ht
      simp [State.ack]
    · simp [State.ack, ht]
  · simp [State.ack, hw]

/-! ### What an election and an appended entry change -/

omit [DecidableEq ν] in
theorem elect_llog_self (r : State ν ε) (c : ν) (t : ℕ) : (r.elect c t).llog t = r.log c := by
  simp [State.elect]

omit [DecidableEq ν] in
theorem elect_llog_ne (r : State ν ε) (c : ν) {t u : ℕ} (h : u ≠ t) :
    (r.elect c t).llog u = r.llog u := by
  simp [State.elect, h]

theorem append_log_self (r : State ν ε) (c : ν) (e : ε) :
    (r.append c e).log c = r.log c ++ [e] := by
  simp [State.append]

theorem append_log_ne (r : State ν ε) {c w : ν} (e : ε) (h : w ≠ c) :
    (r.append c e).log w = r.log w := by
  simp [State.append, h]

theorem append_llog_self (r : State ν ε) (c : ν) (e : ε) :
    (r.append c e).llog (r.term c) = r.llog (r.term c) ++ [e] := by
  simp [State.append]

theorem append_llog_ne (r : State ν ε) {c : ν} (e : ε) {u : ℕ} (h : u ≠ r.term c) :
    (r.append c e).llog u = r.llog u := by
  simp [State.append, h]

/-- The leader confirms its whole log, the new entry included. -/
theorem append_acked_self (r : State ν ε) (c : ν) (e : ε) :
    (r.append c e).acked c (r.term c) = (r.llog (r.term c)).length + 1 := by
  simp [State.append]

theorem append_acked_ne (r : State ν ε) {c w : ν} (e : ε) {u : ℕ}
    (h : ¬ (w = c ∧ u = r.term c)) : (r.append c e).acked w u = r.acked w u := by
  by_cases hw : w = c
  · subst hw
    have hu : u ≠ r.term w := fun hu => h ⟨rfl, hu⟩
    simp [State.append, hu]
  · simp [State.append, hw]

/-- One move takes nothing back. -/
theorem Step.le (hinter : ∀ A B, IsQuorum A → IsQuorum B → ∃ v, v ∈ A ∧ v ∈ B)
    {r r' : State ν ε} (hr : Wf termOf IsQuorum r)
    (h : Step termOf IsQuorum guard r r') : Le termOf r r' := by
  have hvotes := (Step.ballot hinter hr.votes h).1
  have same : ∀ t, r.winner t ≠ none →
      ∃ ext, r.llog t = r.llog t ++ ext ∧ ∀ e ∈ ext, termOf e = t :=
    fun t _ => ⟨[], by simp, by simp⟩
  cases h with
  | stay => exact Le.refl r
  | enter v t ht => exact ⟨hvotes, same, fun _ _ => le_refl _⟩
  | campaign v => exact ⟨hvotes, same, fun _ _ => le_refl _⟩
  | grant v c L hfree hcand hup => exact ⟨hvotes, same, fun _ _ => le_refl _⟩
  | elect c t Q hQ hvote hcand hfresh =>
      refine ⟨hvotes, fun u hu => ?_, fun _ _ => le_refl _⟩
      have hut : u ≠ t := by
        intro hut
        subst hut
        exact hu hfresh
      exact ⟨[], by rw [elect_llog_ne r c hut, List.append_nil], by simp⟩
  | append c e hwon hlog he =>
      refine ⟨hvotes, fun u _ => ?_, fun v u => ?_⟩
      · by_cases hu : u = r.term c
        · subst hu
          exact ⟨[e], append_llog_self r c e, by simpa using he⟩
        · exact ⟨[], by rw [append_llog_ne r e hu, List.append_nil], by simp⟩
      -- only the leader's own mark moves, to the end of the longer log
      · by_cases hself : v = c ∧ u = r.term c
        · obtain ⟨rfl, rfl⟩ := hself
          rw [append_acked_self]
          exact Nat.le_succ_of_le (hr.acked_le v (r.term v))
        · rw [append_acked_ne r e hself]
  | ack v m hwon hm hpre => exact ⟨hvotes, same, ack_acked_le r v m⟩
  | accept v m hwon hm hg => exact ⟨hvotes, same, ack_acked_le r v m⟩

/-! ## Well-formedness is kept -/

omit [DecidableEq ν] in
theorem wf_init : Wf termOf IsQuorum (State.init : State ν ε) where
  votes := Ballot.wf_init
  log_sourced _ := sourced_nil _
  llog_sourced _ := sourced_nil _
  cand_sourced _ _ _ h := by simp [State.init] at h
  held_sourced _ _ _ h := by simp [State.init] at h
  log_le _ _ h := by simp [State.init] at h
  llog_le _ _ h := by simp [State.init] at h
  cand_lt _ _ _ h := by simp [State.init] at h
  cand_future _ _ _ := rfl
  held_future _ _ _ := rfl
  unled _ _ := rfl
  acked_le _ _ := Nat.zero_le _
  acked_led _ _ h := absurd h (Nat.lt_irrefl 0)
  granted _ _ _ h := by simp [State.init, Votes.init] at h

omit [DecidableEq ν] in
/-- The leader log extended by an entry of its own term is sourced. -/
theorem Sourced.snoc {r : State ν ε} {l : List ε} {e : ε} (h : Sourced termOf r l)
    (hwon : r.winner (termOf e) ≠ none) (hl : r.llog (termOf e) = l ++ [e]) :
    Sourced termOf r (l ++ [e]) := by
  intro i a hia
  rcases Nat.lt_or_ge i l.length with hlt | hge
  · rw [List.getElem?_append_left hlt] at hia
    obtain ⟨hwon', htake⟩ := h i a hia
    exact ⟨hwon', by rw [List.take_append_of_le_length (by omega), htake]⟩
  · have hi : i < (l ++ [e]).length := (List.getElem?_eq_some_iff.mp hia).1
    have hieq : i = l.length := by
      rw [List.length_append, List.length_singleton] at hi
      omega
    subst hieq
    have hea : e = a := by simpa using hia
    subst hea
    exact ⟨hwon, by rw [hl]⟩

omit [DecidableEq ν] in
theorem upToDate_refl (l : List ε) : UpToDate termOf l l := Or.inr ⟨rfl, le_refl _⟩

theorem campaign_cand_self (r : State ν ε) (v : ν) :
    (r.campaign v).cand (r.term v + 1) v = some (r.log v) := by
  simp [State.campaign]

theorem campaign_cand_ne (r : State ν ε) (v : ν) {t : ℕ} {c : ν}
    (h : ¬ (t = r.term v + 1 ∧ c = v)) : (r.campaign v).cand t c = r.cand t c := by
  by_cases ht : t = r.term v + 1
  · subst ht
    have hc : c ≠ v := fun hc => h ⟨rfl, hc⟩
    simp [State.campaign, hc]
  · simp [State.campaign, ht]

theorem campaign_held_self (r : State ν ε) (v : ν) :
    (r.campaign v).held v (r.term v + 1) = some (r.log v) := by
  simp [State.campaign]

theorem campaign_held_ne (r : State ν ε) (v : ν) {t : ℕ} {w : ν}
    (h : ¬ (w = v ∧ t = r.term v + 1)) : (r.campaign v).held w t = r.held w t := by
  by_cases hw : w = v
  · subst hw
    have ht : t ≠ r.term w + 1 := fun ht => h ⟨rfl, ht⟩
    simp [State.campaign, ht]
  · simp [State.campaign, hw]

theorem campaign_vote_ne (r : State ν ε) (v : ν) {t : ℕ} {w : ν}
    (h : ¬ (w = v ∧ t = r.term v + 1)) : (r.campaign v).vote w t = r.vote w t := by
  have hne : w ≠ v ∨ t ≠ (r.toVotes.enter v (r.term v + 1)).term v := by
    rw [enter_term_self]
    tauto
  exact cast_vote_ne (r.toVotes.enter v (r.term v + 1)) v hne

theorem campaign_vote_self (r : State ν ε) (v : ν) :
    (r.campaign v).vote v (r.term v + 1) = some v := by
  have h := cast_vote_self (r.toVotes.enter v (r.term v + 1)) v v
  rwa [enter_term_self] at h

theorem campaign_term_self (r : State ν ε) (v : ν) : (r.campaign v).term v = r.term v + 1 :=
  enter_term_self r.toVotes v (r.term v + 1)

theorem grant_held_ne (r : State ν ε) (v c : ν) {t : ℕ} {w : ν}
    (h : ¬ (w = v ∧ t = r.term v)) : (r.grant v c).held w t = r.held w t := by
  by_cases hw : w = v
  · subst hw
    have ht : t ≠ r.term w := fun ht => h ⟨rfl, ht⟩
    simp [State.grant, ht]
  · simp [State.grant, hw]

theorem grant_held_self (r : State ν ε) (v c : ν) : (r.grant v c).held v (r.term v)
    = if r.vote v (r.term v) = none then some (r.log v) else r.held v (r.term v) := by
  simp [State.grant]

theorem wf_enter {r : State ν ε} (hr : Wf termOf IsQuorum r) {v : ν} {t : ℕ}
    (hb : Ballot.Wf IsQuorum (r.enter v t).toVotes) (hle : Le termOf r (r.enter v t)) :
    Wf termOf IsQuorum (r.enter v t) where
  votes := hb
  log_sourced w := (hr.log_sourced w).mono hle
  llog_sourced u := (hr.llog_sourced u).mono hle
  cand_sourced u c L h := (hr.cand_sourced u c L h).mono hle
  held_sourced w u L h := (hr.held_sourced w u L h).mono hle
  log_le w e he := le_trans (hr.log_le w e he) (hle.votes.term w)
  llog_le := hr.llog_le
  cand_lt := hr.cand_lt
  cand_future u c h := hr.cand_future u c (lt_of_le_of_lt (hle.votes.term c) h)
  held_future w u h := hr.held_future w u (lt_of_le_of_lt (hle.votes.term w) h)
  unled := hr.unled
  acked_le := hr.acked_le
  acked_led w u h := le_trans (hr.acked_led w u h) (hle.votes.term w)
  granted := hr.granted

theorem wf_campaign {r : State ν ε} (hr : Wf termOf IsQuorum r) {v : ν}
    (hb : Ballot.Wf IsQuorum (r.campaign v).toVotes) (hle : Le termOf r (r.campaign v)) :
    Wf termOf IsQuorum (r.campaign v) where
  votes := hb
  log_sourced w := (hr.log_sourced w).mono hle
  llog_sourced u := (hr.llog_sourced u).mono hle
  cand_sourced u c L h := by
    by_cases hself : u = r.term v + 1 ∧ c = v
    · obtain ⟨rfl, rfl⟩ := hself
      rw [campaign_cand_self] at h
      obtain rfl := Option.some.inj h
      exact (hr.log_sourced c).mono hle
    · rw [campaign_cand_ne r v hself] at h
      exact (hr.cand_sourced u c L h).mono hle
  held_sourced w u L h := by
    by_cases hself : w = v ∧ u = r.term v + 1
    · obtain ⟨rfl, rfl⟩ := hself
      rw [campaign_held_self] at h
      obtain rfl := Option.some.inj h
      exact (hr.log_sourced w).mono hle
    · rw [campaign_held_ne r v hself] at h
      exact (hr.held_sourced w u L h).mono hle
  log_le w e he := le_trans (hr.log_le w e he) (hle.votes.term w)
  llog_le := hr.llog_le
  cand_lt u c L h e he := by
    by_cases hself : u = r.term v + 1 ∧ c = v
    · obtain ⟨rfl, rfl⟩ := hself
      rw [campaign_cand_self] at h
      obtain rfl := Option.some.inj h
      exact Nat.lt_succ_of_le (hr.log_le c e he)
    · rw [campaign_cand_ne r v hself] at h
      exact hr.cand_lt u c L h e he
  cand_future u c h := by
    have hself : ¬ (u = r.term v + 1 ∧ c = v) := by
      rintro ⟨rfl, rfl⟩
      rw [campaign_term_self] at h
      exact Nat.lt_irrefl _ h
    rw [campaign_cand_ne r v hself]
    exact hr.cand_future u c (lt_of_le_of_lt (hle.votes.term c) h)
  held_future w u h := by
    have hself : ¬ (w = v ∧ u = r.term v + 1) := by
      rintro ⟨rfl, rfl⟩
      rw [campaign_term_self] at h
      exact Nat.lt_irrefl _ h
    rw [campaign_held_ne r v hself]
    exact hr.held_future w u (lt_of_le_of_lt (hle.votes.term w) h)
  unled := hr.unled
  acked_le := hr.acked_le
  acked_led w u h := le_trans (hr.acked_led w u h) (hle.votes.term w)
  granted w u c h := by
    by_cases hself : w = v ∧ u = r.term v + 1
    · obtain ⟨rfl, rfl⟩ := hself
      rw [campaign_vote_self] at h
      obtain rfl := Option.some.inj h
      exact ⟨r.log w, r.log w, campaign_cand_self r w, campaign_held_self r w, upToDate_refl _⟩
    · rw [campaign_vote_ne r v hself] at h
      obtain ⟨L, Lv, hL, hLv, hup⟩ := hr.granted w u c h
      refine ⟨L, Lv, ?_, by rw [campaign_held_ne r v hself, hLv], hup⟩
      -- a campaign is the first one of its term, so it overwrites no earlier record
      have hc : ¬ (u = r.term v + 1 ∧ c = v) := by
        rintro ⟨rfl, rfl⟩
        rw [hr.cand_future _ c (Nat.lt_succ_self _)] at hL
        simp at hL
      rw [campaign_cand_ne r v hc, hL]

theorem wf_grant {r : State ν ε} (hr : Wf termOf IsQuorum r) {v c : ν} {L : List ε}
    (hfree : r.vote v (r.term v) = none ∨ r.vote v (r.term v) = some c)
    (hcand : r.cand (r.term v) c = some L) (hup : UpToDate termOf L (r.log v))
    (hb : Ballot.Wf IsQuorum (r.grant v c).toVotes) (hle : Le termOf r (r.grant v c)) :
    Wf termOf IsQuorum (r.grant v c) where
  votes := hb
  log_sourced w := (hr.log_sourced w).mono hle
  llog_sourced u := (hr.llog_sourced u).mono hle
  cand_sourced u d K h := (hr.cand_sourced u d K h).mono hle
  -- the log recorded with a first vote is the voter's own
  held_sourced w u K h := by
    by_cases hself : w = v ∧ u = r.term v
    · obtain ⟨rfl, rfl⟩ := hself
      rw [grant_held_self] at h
      split at h
      · obtain rfl := Option.some.inj h
        exact (hr.log_sourced w).mono hle
      · exact (hr.held_sourced w _ K h).mono hle
    · rw [grant_held_ne r v c hself] at h
      exact (hr.held_sourced w u K h).mono hle
  log_le := hr.log_le
  llog_le := hr.llog_le
  cand_lt := hr.cand_lt
  cand_future := hr.cand_future
  held_future w u h := by
    have hself : ¬ (w = v ∧ u = r.term v) := by
      rintro ⟨rfl, rfl⟩
      exact Nat.lt_irrefl _ h
    rw [grant_held_ne r v c hself]
    exact hr.held_future w u h
  unled := hr.unled
  acked_le := hr.acked_le
  acked_led := hr.acked_led
  granted w u d h := by
    by_cases hself : w = v ∧ u = r.term v
    · obtain ⟨rfl, rfl⟩ := hself
      have hdc : (r.grant w c).vote w (r.term w) = some c := cast_vote_self r.toVotes w c
      rw [h] at hdc
      obtain rfl := Option.some.inj hdc
      rcases hfree with hnone | hsome
      · exact ⟨L, r.log w, hcand, by rw [grant_held_self, if_pos hnone], hup⟩
      · -- the repetition of a vote keeps the record of the first one
        obtain ⟨K, Lv, hK, hLv, hup'⟩ := hr.granted w _ d hsome
        exact ⟨K, Lv, hK, by rw [grant_held_self, if_neg (by simp [hsome]), hLv], hup'⟩
    · have hne : w ≠ v ∨ u ≠ r.toVotes.term v := by tauto
      have hold : r.vote w u = some d := by
        rw [← h]
        exact (cast_vote_ne r.toVotes c hne).symm
      obtain ⟨K, Lv, hK, hLv, hup'⟩ := hr.granted w u d hold
      exact ⟨K, Lv, hK, by rw [grant_held_ne r v c hself, hLv], hup'⟩

omit [DecidableEq ν] in
theorem wf_elect {r : State ν ε} (hr : Wf termOf IsQuorum r) {c : ν} {t : ℕ}
    (hcand : r.cand t c = some (r.log c)) (hfresh : r.winner t = none)
    (hb : Ballot.Wf IsQuorum (r.elect c t).toVotes) (hle : Le termOf r (r.elect c t)) :
    Wf termOf IsQuorum (r.elect c t) where
  votes := hb
  log_sourced w := (hr.log_sourced w).mono hle
  llog_sourced u := by
    by_cases hu : u = t
    · subst hu
      rw [elect_llog_self]
      exact (hr.log_sourced c).mono hle
    · rw [elect_llog_ne r c hu]
      exact (hr.llog_sourced u).mono hle
  cand_sourced u d L h := (hr.cand_sourced u d L h).mono hle
  held_sourced w u L h := (hr.held_sourced w u L h).mono hle
  log_le := hr.log_le
  llog_le u e he := by
    by_cases hu : u = t
    -- the winner stood for `t` with entries of earlier terms only
    · subst hu
      rw [elect_llog_self] at he
      exact le_of_lt (hr.cand_lt u c _ hcand e he)
    · rw [elect_llog_ne r c hu] at he
      exact hr.llog_le u e he
  cand_lt := hr.cand_lt
  cand_future := hr.cand_future
  held_future := hr.held_future
  unled u hu := by
    have hut : u ≠ t := by
      rintro rfl
      have hwin : (r.elect c u).winner u = some c := win_winner_self r.toVotes c u
      rw [hwin] at hu
      simp at hu
    have hold : r.winner u = none := by
      rw [← hu]
      exact (win_winner_ne r.toVotes c hut).symm
    have hlog : (r.elect c t).llog u = r.llog u := by simp [State.elect, hut]
    rw [hlog]
    exact hr.unled u hold
  acked_le w u := by
    by_cases hu : u = t
    · subst hu
      have hzero := hr.acked_le w u
      rw [hr.unled u hfresh] at hzero
      exact le_trans hzero (Nat.zero_le _)
    · have hlog : (r.elect c t).llog u = r.llog u := by simp [State.elect, hu]
      rw [hlog]
      exact hr.acked_le w u
  acked_led := hr.acked_led
  granted := hr.granted

theorem wf_append {r : State ν ε} (hr : Wf termOf IsQuorum r) {c : ν} {e : ε}
    (hwon : r.winner (r.term c) = some c) (hlog : r.log c = r.llog (r.term c))
    (he : termOf e = r.term c) (hb : Ballot.Wf IsQuorum (r.append c e).toVotes)
    (hle : Le termOf r (r.append c e)) : Wf termOf IsQuorum (r.append c e) := by
  -- the new entry is sourced: it stands in the leader log of its own term
  have hsnoc : Sourced termOf (r.append c e) (r.llog (r.term c) ++ [e]) := by
    refine ((hr.llog_sourced _).mono hle).snoc ?_ ?_
    · have hw : (r.append c e).winner (termOf e) = some c := by rw [he]; exact hwon
      rw [hw]
      simp
    · rw [he, append_llog_self]
  refine
    { votes := hb
      log_sourced := fun w => ?_
      llog_sourced := fun u => ?_
      cand_sourced := fun u d L h => (hr.cand_sourced u d L h).mono hle
      held_sourced := fun w u L h => (hr.held_sourced w u L h).mono hle
      log_le := fun w a ha => ?_
      llog_le := fun u a ha => ?_
      cand_lt := hr.cand_lt
      cand_future := hr.cand_future
      held_future := hr.held_future
      unled := fun u hu => ?_
      acked_le := fun w u => ?_
      acked_led := fun w u h => ?_
      granted := hr.granted }
  · by_cases hw : w = c
    · subst hw
      rw [append_log_self, hlog]
      exact hsnoc
    · rw [append_log_ne r e hw]
      exact (hr.log_sourced w).mono hle
  · by_cases hu : u = r.term c
    · subst hu
      rw [append_llog_self]
      exact hsnoc
    · rw [append_llog_ne r e hu]
      exact (hr.llog_sourced u).mono hle
  · by_cases hw : w = c
    · subst hw
      rw [append_log_self] at ha
      rcases List.mem_append.mp ha with h | h
      · exact hr.log_le w a h
      · rw [List.mem_singleton.mp h, he]
        exact le_refl _
    · rw [append_log_ne r e hw] at ha
      exact hr.log_le w a ha
  · by_cases hu : u = r.term c
    · subst hu
      rw [append_llog_self] at ha
      rcases List.mem_append.mp ha with h | h
      · exact hr.llog_le _ a h
      · rw [List.mem_singleton.mp h, he]
    · rw [append_llog_ne r e hu] at ha
      exact hr.llog_le u a ha
  · have hut : u ≠ r.term c := by
      rintro rfl
      have : r.winner (r.term c) = none := hu
      rw [hwon] at this
      simp at this
    rw [append_llog_ne r e hut]
    exact hr.unled u hu
  -- `acked_le`: the leader's mark is the new length, the others' marks are the old ones
  · by_cases hself : w = c ∧ u = r.term c
    · obtain ⟨rfl, rfl⟩ := hself
      rw [append_acked_self, append_llog_self, List.length_append, List.length_singleton]
    · rw [append_acked_ne r e hself]
      by_cases hu : u = r.term c
      · subst hu
        rw [append_llog_self, List.length_append]
        exact le_trans (hr.acked_le w _) (Nat.le_add_right _ _)
      · rw [append_llog_ne r e hu]
        exact hr.acked_le w u
  · by_cases hself : w = c ∧ u = r.term c
    · exact le_of_eq (by rw [hself.1, hself.2]; rfl)
    · rw [append_acked_ne r e hself] at h
      exact hr.acked_led w u h

theorem ack_acked_self (r : State ν ε) (v : ν) (m : ℕ) :
    (r.ack v m).acked v (r.term v) = max (r.acked v (r.term v)) m := by
  simp [State.ack]

theorem ack_enter_acked (r : State ν ε) (v : ν) (t m : ℕ) :
    ((r.enter v t).ack v m).acked v t = max (r.acked v t) m := by
  have hterm : (r.enter v t).term v = t := enter_term_self _ _ _
  have hack := ack_acked_self (r.enter v t) v m
  rwa [hterm] at hack

theorem accept_enter_acked (r : State ν ε) (v : ν) (t m : ℕ) :
    ((r.enter v t).accept v m).acked v t = max (r.acked v t) m :=
  ack_enter_acked r v t m

theorem accept_enter_log (r : State ν ε) (v : ν) (t m : ℕ) :
    ((r.enter v t).accept v m).log v = (r.llog t).take m := by
  have hterm : (r.enter v t).term v = t := enter_term_self _ _ _
  have hlog : ((r.enter v t).accept v m).log v
      = ((r.enter v t).llog ((r.enter v t).term v)).take m := by simp [State.accept]
  rw [hlog, hterm]
  rfl

theorem ack_acked_ne (r : State ν ε) (v : ν) (m : ℕ) {w : ν} {t : ℕ}
    (h : ¬ (w = v ∧ t = r.term v)) : (r.ack v m).acked w t = r.acked w t := by
  by_cases hw : w = v
  · subst hw
    have ht : t ≠ r.term w := fun ht => h ⟨rfl, ht⟩
    simp [State.ack, ht]
  · simp [State.ack, hw]

theorem wf_ack {r : State ν ε} (hr : Wf termOf IsQuorum r) {v : ν} {m : ℕ}
    (hm : m ≤ (r.llog (r.term v)).length) : Wf termOf IsQuorum (r.ack v m) :=
  { hr with
    acked_le := fun w u => by
      by_cases hself : w = v ∧ u = r.term v
      · obtain ⟨rfl, rfl⟩ := hself
        rw [ack_acked_self]
        exact max_le (hr.acked_le w _) hm
      · rw [ack_acked_ne r v m hself]
        exact hr.acked_le w u
    acked_led := fun w u h => by
      by_cases hself : w = v ∧ u = r.term v
      · exact le_of_eq (by rw [hself.1, hself.2]; rfl)
      · rw [ack_acked_ne r v m hself] at h
        exact hr.acked_led w u h }

theorem wf_accept {r : State ν ε} (hr : Wf termOf IsQuorum r) {v : ν} {m : ℕ}
    (hm : m ≤ (r.llog (r.term v)).length) : Wf termOf IsQuorum (r.accept v m) :=
  { wf_ack hr hm with
    log_sourced := fun w => by
      by_cases hw : w = v
      · subst hw
        have hnew : (r.accept w m).log w = (r.llog (r.term w)).take m := by simp [State.accept]
        rw [hnew]
        exact (hr.llog_sourced _).take m
      · have hold : (r.accept v m).log w = r.log w := by simp [State.accept, hw]
        rw [hold]
        exact hr.log_sourced w
    log_le := fun w e he => by
      by_cases hw : w = v
      · subst hw
        have hnew : (r.accept w m).log w = (r.llog (r.term w)).take m := by simp [State.accept]
        rw [hnew] at he
        exact hr.llog_le _ e (List.mem_of_mem_take he)
      · have hold : (r.accept v m).log w = r.log w := by simp [State.accept, hw]
        rw [hold] at he
        exact hr.log_le w e he }

/-- **One move keeps the machine well formed**, whatever the guard. -/
theorem Step.wf (hinter : ∀ A B, IsQuorum A → IsQuorum B → ∃ v, v ∈ A ∧ v ∈ B)
    {r r' : State ν ε} (hr : Wf termOf IsQuorum r)
    (h : Step termOf IsQuorum guard r r') : Wf termOf IsQuorum r' := by
  have hle := Step.le hinter hr h
  have hb := (Step.ballot hinter hr.votes h).2
  cases h with
  | stay => exact hr
  | enter v t ht => exact wf_enter hr hb hle
  | campaign v => exact wf_campaign hr hb hle
  | grant v c L hfree hcand hup => exact wf_grant hr hfree hcand hup hb hle
  | elect c t Q hQ hvotes hcand hfresh => exact wf_elect hr hcand hfresh hb hle
  | append c e hwon hlog he => exact wf_append hr hwon hlog he hb hle
  | ack v m hwon hm hpre => exact wf_ack hr hm
  | accept v m hwon hm hg => exact wf_accept hr hm

/-- Any number of moves. -/
theorem steps_wf (hinter : ∀ A B, IsQuorum A → IsQuorum B → ∃ v, v ∈ A ∧ v ∈ B)
    {r r' : State ν ε} (h : Relation.ReflTransGen (Step termOf IsQuorum guard) r r')
    (hr : Wf termOf IsQuorum r) : Wf termOf IsQuorum r' ∧ Le termOf r r' := by
  induction h with
  | refl => exact ⟨hr, Le.refl r⟩
  | tail _ hstep ih => exact ⟨hstep.wf hinter ih.1, ih.2.trans (hstep.le hinter ih.1)⟩

omit [DecidableEq ν] in
/-- A prefix that was there stays there. -/
theorem take_llog_of_le {r r' : State ν ε} (hr : Wf termOf IsQuorum r) (hle : Le termOf r r')
    {t i : ℕ} (hi : i ≤ (r.llog t).length) : (r'.llog t).take i = (r.llog t).take i := by
  by_cases hwon : r.winner t = none
  · have hzero : i = 0 := by
      rw [hr.unled t hwon] at hi
      exact Nat.le_zero.mp hi
    rw [hzero, List.take_zero, List.take_zero]
  · obtain ⟨ext, hext, -⟩ := hle.llog t hwon
    rw [hext, List.take_append_of_le_length hi]

end Machine

end Replog
