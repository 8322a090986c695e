/-
Leader completeness for replicated logs whose followers give up nothing without a
contradiction.

An entry is chosen in term `t` when a quorum has acknowledged a prefix of `t`'s
leader log that ends in it and it is an entry of term `t`. The theorem is that every
later leader log has that prefix (`leader_complete`), hence two chosen prefixes are
comparable (`chosen_agree`).

The difficulty is that "chosen" can become true after a later leader is already
elected, so no invariant can mention it. What is kept instead is conditional: a
member still holds what it acknowledged in `t`, *provided* every leader log between
`t` and the member's current term has it (`Safe.keeps`), and the same for the logs
recorded with votes. The strong induction over terms then discharges the proviso.
-/
import NanoDB.Lib.Replog

set_option autoImplicit false

namespace Replog

open Ballot

variable {ν ε : Type*} [DecidableEq ν] {termOf : ε → ℕ} {IsQuorum : Finset ν → Prop}

section Defs

variable (termOf IsQuorum)

/-- What the election of term `u` left behind: a quorum of voters, each with the log
it held at its vote, none more up to date than the log the winner started from. -/
def Elected (r : State ν ε) (u : ℕ) : Prop :=
  ∃ (L : List ε) (Q : Finset ν), IsQuorum Q ∧ L <+: r.llog u ∧ Sourced termOf r L ∧
    (∀ e ∈ L, termOf e < u) ∧
    ∀ v ∈ Q, u ≤ r.term v ∧ ∃ Lv, Sourced termOf r Lv ∧ UpToDate termOf L Lv ∧
      ∀ t < u, ∀ i ≤ r.acked v t, Agreed r t u i → Lv.take i = (r.llog t).take i

/-- What is kept when no follower gives up uncontradicted entries. -/
structure Safe (r : State ν ε) : Prop where
  keeps : ∀ v t i, i ≤ r.acked v t → Agreed r t (r.term v + 1) i →
    (r.log v).take i = (r.llog t).take i
  held_keeps : ∀ v u L, r.held v u = some L → ∀ t < u, ∀ i ≤ r.acked v t,
    Agreed r t (u + 1) i → L.take i = (r.llog t).take i
  elected : ∀ u, r.winner u ≠ none → Elected termOf IsQuorum r u

/-- Position `i` of term `t`'s leader log is chosen: acknowledged by a quorum, and an
entry of term `t` itself. -/
def Chosen (r : State ν ε) (t i : ℕ) : Prop :=
  (∃ e, (r.llog t)[i]? = some e ∧ termOf e = t) ∧
    ∃ Q, IsQuorum Q ∧ ∀ v ∈ Q, i + 1 ≤ r.acked v t

end Defs

/-! ## Leader completeness -/

omit [DecidableEq ν] in
theorem lastTerm_of_getElem {l : List ε} {i : ℕ} {e : ε} (hi : l[i]? = some e)
    (hlast : i + 1 = l.length) : lastTerm termOf l = termOf e := by
  have hlen : l.length - 1 = i := by omega
  rw [lastTerm, List.getLast?_eq_getElem?, hlen, hi]
  rfl

omit [DecidableEq ν] in
/-- A log with a last term of at least one has a last entry, of that term. -/
theorem exists_last_of_lastTerm {l : List ε} (h : 0 < lastTerm termOf l) :
    ∃ i e, l[i]? = some e ∧ i + 1 = l.length ∧ termOf e = lastTerm termOf l := by
  cases hl : l.getLast? with
  | none =>
      rw [lastTerm, hl] at h
      exact absurd h (Nat.lt_irrefl 0)
  | some e =>
      have hne : l ≠ [] := by
        intro hnil
        rw [hnil] at hl
        simp at hl
      have hpos : 0 < l.length := List.length_pos_iff.mpr hne
      rw [List.getLast?_eq_getElem?] at hl
      have hlast : l.length - 1 + 1 = l.length := by omega
      exact ⟨l.length - 1, e, hl, hlast, (lastTerm_of_getElem hl hlast).symm⟩

omit [DecidableEq ν] in
/-- **The vote check carries a chosen prefix over.** `Lv` has the chosen prefix of
term `t`; a log `L` at least as up to date has it too, provided the leader logs of
the terms between `t` and `u` do. Either `L` ends in a later term, whose leader log
has the prefix and puts its own entries behind it, or both end in the same term and
are prefixes of one leader log. -/
theorem upToDate_carries {r : State ν ε} (hr : Wf termOf IsQuorum r) {t u i : ℕ} {e : ε}
    (ht : 0 < t) (he : (r.llog t)[i]? = some e) (het : termOf e = t) {L Lv : List ε}
    (hL : Sourced termOf r L) (hLv : Sourced termOf r Lv) (hLu : ∀ a ∈ L, termOf a < u)
    (hup : UpToDate termOf L Lv) (hagree : Agreed r t u (i + 1))
    (hv : Lv.take (i + 1) = (r.llog t).take (i + 1)) :
    L.take (i + 1) = (r.llog t).take (i + 1) := by
  have hit : i < (r.llog t).length := (List.getElem?_eq_some_iff.mp he).1
  have hiv : i < Lv.length := lt_length_of_take_eq hv.symm hit
  have hev : Lv[i]? = some e := by
    rw [← List.getElem?_take_of_lt (l := Lv) (Nat.lt_succ_self i), hv,
      List.getElem?_take_of_lt (Nat.lt_succ_self i), he]
  -- the voter's last term is at least `t`
  obtain ⟨b, hb⟩ : ∃ b, Lv[Lv.length - 1]? = some b :=
    ⟨_, List.getElem?_eq_getElem (by omega)⟩
  have hbt : lastTerm termOf Lv = termOf b := lastTerm_of_getElem hb (by omega)
  have htb : t ≤ termOf b := by
    rw [← het]
    exact hLv.sorted hr.llog_le (by omega) hev hb
  have hLpos : 0 < lastTerm termOf L := by
    rcases hup with hlt | ⟨heq, -⟩ <;> omega
  obtain ⟨j, a, hja, hjlen, hat⟩ := exists_last_of_lastTerm hLpos
  have hLall : L = (r.llog (termOf a)).take (j + 1) := by
    rw [← (hL j a hja).2, List.take_of_length_le (by omega)]
  rcases hup with hlt | ⟨heq, hlen⟩
  · have hta : t < termOf a := by omega
    have hau : termOf a < u := hLu a (List.mem_of_getElem? hja)
    have hla := hagree (termOf a) hta hau (hL j a hja).1
    have hij : i < j := by
      by_contra hge
      have hja' : (r.llog (termOf a))[j]? = some a := by
        rw [← List.getElem?_take_of_lt (Nat.lt_succ_self j), ← hLall]
        exact hja
      have hie' : (r.llog (termOf a))[i]? = some e := by
        rw [← List.getElem?_take_of_lt (Nat.lt_succ_self i), hla,
          List.getElem?_take_of_lt (Nat.lt_succ_self i), he]
      have := (hr.llog_sourced (termOf a)).sorted hr.llog_le (by omega : j ≤ i) hja' hie'
      omega
    rw [hLall, List.take_take, Nat.min_eq_left (by omega), hla]
  · have hab : termOf a = termOf b := by omega
    have hLvall : Lv = (r.llog (termOf b)).take Lv.length := by
      have h := (hLv _ b hb).2
      rw [show Lv.length - 1 + 1 = Lv.length by omega, List.take_length] at h
      exact h
    rw [← hv, hLall, hab, List.take_take, Nat.min_eq_left (by omega)]
    conv_rhs => rw [hLvall]
    rw [List.take_take, Nat.min_eq_left (by omega)]

omit [DecidableEq ν] in
/-- **Leader completeness.** Every leader log of a later term has the chosen prefix. -/
theorem leader_complete (hinter : ∀ A B, IsQuorum A → IsQuorum B → ∃ v, v ∈ A ∧ v ∈ B)
    {r : State ν ε} (hr : Wf termOf IsQuorum r) (hs : Safe termOf IsQuorum r) {t i : ℕ}
    (ht : 0 < t) (hch : Chosen termOf IsQuorum r t i) :
    ∀ u, t < u → r.winner u ≠ none → (r.llog u).take (i + 1) = (r.llog t).take (i + 1) := by
  obtain ⟨⟨e, he, het⟩, Q, hQ, hacked⟩ := hch
  intro u
  induction u using Nat.strong_induction_on with
  | _ u ih =>
      intro htu hwon
      obtain ⟨L, Q', hQ', hpre, hL, hLu, hvoters⟩ := hs.elected u hwon
      obtain ⟨v, hvQ, hvQ'⟩ := hinter Q Q' hQ hQ'
      obtain ⟨-, Lv, hLv, hup, hkept⟩ := hvoters v hvQ'
      have hagree : Agreed r t u (i + 1) := fun t' htt' ht'u hw => ih t' ht'u htt' hw
      have hv := hkept t htu (i + 1) (hacked v hvQ) hagree
      have hLt := upToDate_carries hr ht he het hL hLv hLu hup hagree hv
      have hit : i < (r.llog t).length := (List.getElem?_eq_some_iff.mp he).1
      have hiL : i < L.length := lt_length_of_take_eq hLt.symm hit
      obtain ⟨ext, hext⟩ := hpre
      rw [← hext, List.take_append_of_le_length (by omega), hLt]

omit [DecidableEq ν] in
/-- Two chosen positions lie on one log: the shorter prefix is a prefix of the longer. -/
theorem chosen_agree (hinter : ∀ A B, IsQuorum A → IsQuorum B → ∃ v, v ∈ A ∧ v ∈ B)
    {r : State ν ε} (hr : Wf termOf IsQuorum r) (hs : Safe termOf IsQuorum r) {t u i j k : ℕ}
    (ht : 0 < t) (hu : 0 < u) (hi : Chosen termOf IsQuorum r t i)
    (hj : Chosen termOf IsQuorum r u j) (hki : k ≤ i + 1) (hkj : k ≤ j + 1) :
    (r.llog t).take k = (r.llog u).take k := by
  have shrink : ∀ {l l' : List ε} {m : ℕ}, k ≤ m → l.take m = l'.take m →
      l.take k = l'.take k := by
    intro l l' m hkm h
    have h' := congrArg (List.take k) h
    rwa [List.take_take, List.take_take, Nat.min_eq_left hkm] at h'
  have won : ∀ {t' m : ℕ}, Chosen termOf IsQuorum r t' m → r.winner t' ≠ none := by
    rintro t' m ⟨⟨e, he, -⟩, -⟩ hnone
    rw [hr.unled t' hnone] at he
    simp at he
  rcases Nat.lt_trichotomy t u with htu | rfl | hut
  · exact shrink hki (leader_complete hinter hr hs ht hi u htu (won hj)).symm
  · rfl
  · exact shrink hkj (leader_complete hinter hr hs hu hj t hut (won hi))

/-! ## The conditional invariant is kept -/

omit [DecidableEq ν] in
/-- Agreement of the leader logs, once it holds, held before: what was added since
belongs to later terms than the agreed entries. -/
theorem Agreed.back {r r' : State ν ε} (hr : Wf termOf IsQuorum r) (hle : Le termOf r r')
    {t u i : ℕ} (hi : i ≤ (r.llog t).length) (h : Agreed r' t u i) : Agreed r t u i := by
  intro t' htt' ht'u hwon
  obtain ⟨c, hc⟩ := Option.ne_none_iff_exists'.mp hwon
  have h' := h t' htt' ht'u (by rw [hle.votes.winner t' c hc]; simp)
  obtain ⟨ext, hext, hterm⟩ := hle.llog t' hwon
  rw [take_llog_of_le hr hle hi, hext] at h'
  exact take_eq_of_append_eq h' hi (hr.llog_le t) hterm htt'

omit [DecidableEq ν] in
theorem Agreed.anti {r : State ν ε} {t u u' i : ℕ} (huu : u ≤ u') (h : Agreed r t u' i) :
    Agreed r t u i :=
  fun t' htt' ht'u hwon => h t' htt' (lt_of_lt_of_le ht'u huu) hwon

/-- A member acknowledges only in its current term. -/
theorem Step.acked_frozen {guard : List ε → List ε → Prop} {r r' : State ν ε}
    (h : Step termOf IsQuorum guard r r') {v : ν} {t : ℕ} (ht : t < r.term v) :
    r'.acked v t = r.acked v t := by
  have hself : ∀ w, ¬ (v = w ∧ t = r.term w) := by
    rintro w ⟨rfl, rfl⟩
    exact Nat.lt_irrefl _ ht
  cases h with
  | stay => rfl
  | enter w u hu => rfl
  | campaign w => rfl
  | grant w c L hfree hcand hup => rfl
  | elect c u Q hQ hvotes hcand hfresh => rfl
  | append c e hwon hlog he =>
      exact append_acked_ne r e (hself c)
  | ack w m hwon hm hpre => exact ack_acked_ne r w m (hself w)
  | accept w m hwon hm hg => exact ack_acked_ne r w m (hself w)

omit [DecidableEq ν] in
/-- A member whose log and acknowledgements did not move still keeps them. -/
theorem keeps_frame {r r' : State ν ε} (hr : Wf termOf IsQuorum r) (hs : Safe termOf IsQuorum r)
    (hle : Le termOf r r') {v : ν} {t i : ℕ} (hlog : r'.log v = r.log v)
    (hi : i ≤ r.acked v t) (hagree : Agreed r' t (r'.term v + 1) i) :
    (r'.log v).take i = (r'.llog t).take i := by
  have hlen : i ≤ (r.llog t).length := le_trans hi (hr.acked_le v t)
  have hbefore : Agreed r t (r.term v + 1) i :=
    (hagree.anti (Nat.succ_le_succ (hle.votes.term v))).back hr hle hlen
  rw [hlog, take_llog_of_le hr hle hlen]
  exact hs.keeps v t i hi hbefore

/-- A log recorded with a vote still keeps what its owner had acknowledged by then:
the acknowledgements of terms before the vote no longer change. -/
theorem held_keeps_frame {guard : List ε → List ε → Prop} {r r' : State ν ε}
    (hr : Wf termOf IsQuorum r) (hs : Safe termOf IsQuorum r) (hle : Le termOf r r')
    (hstep : Step termOf IsQuorum guard r r') {v : ν} {u : ℕ} {L : List ε}
    (hL : r.held v u = some L) {t i : ℕ} (htu : t < u) (hi : i ≤ r'.acked v t)
    (hagree : Agreed r' t (u + 1) i) : L.take i = (r'.llog t).take i := by
  have huv : u ≤ r.term v := by
    by_contra hlt
    rw [hr.held_future v u (by omega)] at hL
    simp at hL
  rw [hstep.acked_frozen (lt_of_lt_of_le htu huv)] at hi
  have hlen : i ≤ (r.llog t).length := le_trans hi (hr.acked_le v t)
  rw [take_llog_of_le hr hle hlen]
  exact hs.held_keeps v u L hL t htu i hi (hagree.back hr hle hlen)

/-- What an election left behind stays. -/
theorem Elected.mono {guard : List ε → List ε → Prop} {r r' : State ν ε}
    (hr : Wf termOf IsQuorum r) (hle : Le termOf r r')
    (hstep : Step termOf IsQuorum guard r r') {u : ℕ} (hwon : r.winner u ≠ none)
    (h : Elected termOf IsQuorum r u) : Elected termOf IsQuorum r' u := by
  obtain ⟨L, Q, hQ, hpre, hL, hLu, hvoters⟩ := h
  obtain ⟨ext, hext, -⟩ := hle.llog u hwon
  refine ⟨L, Q, hQ, ?_, hL.mono hle, hLu, fun v hv => ?_⟩
  · rw [hext]
    exact hpre.trans (List.prefix_append _ _)
  · obtain ⟨huv, Lv, hLv, hup, hkept⟩ := hvoters v hv
    refine ⟨le_trans huv (hle.votes.term v), Lv, hLv.mono hle, hup, fun t htu i hi hagree => ?_⟩
    rw [hstep.acked_frozen (lt_of_lt_of_le htu huv)] at hi
    have hlen : i ≤ (r.llog t).length := le_trans hi (hr.acked_le v t)
    rw [take_llog_of_le hr hle hlen]
    exact hkept t htu i hi (hagree.back hr hle hlen)

omit [DecidableEq ν] in
/-- The election itself: the votes it counts were cast before anybody won the term,
so the recorded logs keep what was acknowledged under agreement below that term. -/
theorem elected_elect {r : State ν ε} (hr : Wf termOf IsQuorum r) (hs : Safe termOf IsQuorum r)
    {c : ν} {t : ℕ} {Q : Finset ν} (hQ : IsQuorum Q) (hvotes : ∀ v ∈ Q, r.vote v t = some c)
    (hcand : r.cand t c = some (r.log c)) (hfresh : r.winner t = none)
    (hle : Le termOf r (r.elect c t)) : Elected termOf IsQuorum (r.elect c t) t := by
  refine ⟨r.log c, Q, hQ, ?_, (hr.log_sourced c).mono hle, hr.cand_lt t c _ hcand,
    fun v hv => ?_⟩
  · rw [elect_llog_self]
  · -- each voter was in term `t` already, so its record of that vote speaks for it
    have htv : t ≤ r.term v := by
      by_contra hlt
      have := hr.votes.future v t (by omega)
      rw [hvotes v hv] at this
      simp at this
    obtain ⟨L, Lv, hL, hLv, hup⟩ := hr.granted v t c (hvotes v hv)
    rw [hcand] at hL
    obtain rfl := Option.some.inj hL
    refine ⟨htv, Lv, (hr.held_sourced v t Lv hLv).mono hle, hup, fun t' ht' i hi hagree => ?_⟩
    have hlen : i ≤ (r.llog t').length := le_trans hi (hr.acked_le v t')
    rw [take_llog_of_le hr hle hlen]
    refine hs.held_keeps v t Lv hLv t' ht' i hi ?_
    intro t'' h₁ h₂ hwon
    -- term `t` itself had no winner before, so the agreement is about earlier terms
    rcases Nat.lt_or_ge t'' t with hlt | hge
    · exact hagree.back hr hle hlen t'' h₁ hlt hwon
    · have heq : t'' = t := by omega
      subst heq
      exact absurd hfresh hwon

omit [DecidableEq ν] in
/-- The only use of the guard. A member that holds the first `i` entries of a log `K`
and replaces its log by the first `m` entries of `K` still holds them: otherwise the
new log would be a proper prefix of the old one. -/
theorem take_of_noCut {old K : List ε} {m i : ℕ} (hcut : NoCut old (K.take m))
    (hold : old.take i = K.take i) (hiK : i ≤ K.length) :
    (K.take m).take i = K.take i := by
  rcases Nat.lt_or_ge m i with hlt | hge
  · exfalso
    have hpre : K.take m <+: old := by
      have h : K.take m = (old.take i).take m := by
        rw [hold, List.take_take, Nat.min_eq_left (le_of_lt hlt)]
      rw [h, List.take_take]
      exact List.take_prefix _ _
    have hlen := hcut hpre
    have hi : i ≤ old.length := by
      have h := congrArg List.length hold
      rw [List.length_take, List.length_take] at h
      omega
    rw [List.length_take] at hlen
    omega
  · rw [List.take_take, Nat.min_eq_left hge]

theorem keeps_append {r : State ν ε} (hr : Wf termOf IsQuorum r) (hs : Safe termOf IsQuorum r)
    {c : ν} {e : ε} (hwon : r.winner (r.term c) = some c) (hlog : r.log c = r.llog (r.term c))
    (hwf : Wf termOf IsQuorum (r.append c e)) (hle : Le termOf r (r.append c e)) (v : ν)
    (t i : ℕ) (hi : i ≤ (r.append c e).acked v t)
    (hagree : Agreed (r.append c e) t ((r.append c e).term v + 1) i) :
    ((r.append c e).log v).take i = ((r.append c e).llog t).take i := by
  by_cases hv : v = c
  · subst hv
    have hself : (r.append v e).log v = (r.append v e).llog (r.term v) := by
      rw [append_log_self, append_llog_self, hlog]
    rw [hself]
    -- the leader's log is the leader log of its term; compare that with the one of `t`
    rcases Nat.lt_trichotomy t (r.term v) with hlt | rfl | hgt
    · have hw : (r.append v e).winner (r.term v) ≠ none := by
        have h : (r.append v e).winner (r.term v) = some v := hwon
        rw [h]
        simp
      exact hagree (r.term v) hlt (Nat.lt_succ_self _) hw
    · rfl
    · rcases Nat.eq_zero_or_pos i with rfl | hpos
      · simp
      · have h := hwf.acked_led v t (lt_of_lt_of_le hpos hi)
        exact absurd h (Nat.not_le_of_gt hgt)
  · rw [append_acked_ne r e (fun h => hv h.1)] at hi
    exact keeps_frame hr hs hle (append_log_ne r e hv) hi hagree

theorem keeps_ack {r : State ν ε} (hr : Wf termOf IsQuorum r) (hs : Safe termOf IsQuorum r)
    {v : ν} {m : ℕ} (hm : m ≤ (r.llog (r.term v)).length)
    (hpre : (r.llog (r.term v)).take m <+: r.log v) (hle : Le termOf r (r.ack v m)) (w : ν)
    (t i : ℕ) (hi : i ≤ (r.ack v m).acked w t) (hagree : Agreed (r.ack v m) t (r.term w + 1) i) :
    ((r.ack v m).log w).take i = ((r.ack v m).llog t).take i := by
  by_cases hself : w = v ∧ t = r.term v
  · obtain ⟨rfl, rfl⟩ := hself
    rw [ack_acked_self] at hi
    rcases Nat.lt_or_ge m i with hlt | hge
    · exact hs.keeps w _ i (by omega) hagree
    · obtain ⟨ext, hext⟩ := hpre
      have hlog : (r.ack w m).log w = (r.llog (r.term w)).take m ++ ext := hext.symm
      have hlen : ((r.llog (r.term w)).take m).length = m := by
        rw [List.length_take]
        omega
      rw [hlog, List.take_append_of_le_length (by omega), List.take_take, Nat.min_eq_left hge]
      rfl
  · rw [ack_acked_ne r v m hself] at hi
    exact keeps_frame hr hs hle rfl hi hagree

theorem keeps_accept {r : State ν ε} (hr : Wf termOf IsQuorum r) (hs : Safe termOf IsQuorum r)
    {v : ν} {m : ℕ} (hwon : r.winner (r.term v) ≠ none)
    (hg : NoCut (r.log v) ((r.llog (r.term v)).take m)) (hle : Le termOf r (r.accept v m))
    (w : ν) (t i : ℕ) (hi : i ≤ (r.accept v m).acked w t)
    (hagree : Agreed (r.accept v m) t (r.term w + 1) i) :
    ((r.accept v m).log w).take i = ((r.accept v m).llog t).take i := by
  by_cases hw : w = v
  · subst hw
    have hnew : (r.accept w m).log w = (r.llog (r.term w)).take m := by simp [State.accept]
    rw [hnew]
    change ((r.llog (r.term w)).take m).take i = (r.llog t).take i
    change Agreed r t (r.term w + 1) i at hagree
    -- marks of the current term may grow with the accepted prefix, older ones do not
    by_cases ht : t = r.term w
    · subst ht
      change i ≤ (r.ack w m).acked w (r.term w) at hi
      rw [ack_acked_self] at hi
      rcases Nat.lt_or_ge m i with hlt | hge
      · have hi' : i ≤ r.acked w (r.term w) := by omega
        exact take_of_noCut hg (hs.keeps w _ i hi' hagree)
          (le_trans hi' (hr.acked_le w _))
      · rw [List.take_take, Nat.min_eq_left hge]
    · change i ≤ (r.ack w m).acked w t at hi
      rw [ack_acked_ne r w m (fun h => ht h.2)] at hi
      have hold := hs.keeps w t i hi hagree
      rcases Nat.lt_or_ge (r.term w) t with hgt | hge
      · rcases Nat.eq_zero_or_pos i with rfl | hpos
        · simp
        · exact absurd (hr.acked_led w t (lt_of_lt_of_le hpos hi)) (Nat.not_le_of_gt hgt)
      · -- the leader of the current term is one of those that agree
        have hcur := hagree (r.term w) (by omega) (Nat.lt_succ_self _) hwon
        have hlen : i ≤ (r.llog (r.term w)).length := by
          have h := congrArg List.length hcur
          have := hr.acked_le w t
          rw [List.length_take, List.length_take] at h
          omega
        rw [take_of_noCut hg (hold.trans hcur.symm) hlen, hcur]
  · have hack : (r.accept v m).acked w t = r.acked w t :=
      ack_acked_ne r v m (fun h => hw h.1)
    rw [hack] at hi
    exact keeps_frame hr hs hle (by simp [State.accept, hw]) hi hagree

omit [DecidableEq ν] in
theorem safe_init : Safe termOf IsQuorum (State.init : State ν ε) where
  keeps _ _ i _ _ := by simp [State.init]
  held_keeps _ _ _ h := by simp [State.init] at h
  elected _ h := absurd rfl h

/-- A move that leaves leader logs, winners and acknowledgements alone only has to
account for the logs it records with votes. -/
theorem safe_of_quiet {guard : List ε → List ε → Prop} {r r' : State ν ε}
    (hr : Wf termOf IsQuorum r) (hs : Safe termOf IsQuorum r) (hle : Le termOf r r')
    (hstep : Step termOf IsQuorum guard r r') (hlog : r'.log = r.log)
    (hacked : r'.acked = r.acked) (hwinner : r'.winner = r.winner)
    (hheld : ∀ v u L, r'.held v u = some L →
      r.held v u = some L ∨ (L = r.log v ∧ r.term v ≤ u)) :
    Safe termOf IsQuorum r' where
  keeps v t i hi hagree := by
    rw [hacked] at hi
    exact keeps_frame hr hs hle (by rw [hlog]) hi hagree
  held_keeps v u L hL t htu i hi hagree := by
    rcases hheld v u L hL with hold | ⟨rfl, huv⟩
    · exact held_keeps_frame hr hs hle hstep hold htu hi hagree
    · rw [hacked] at hi
      have hlen : i ≤ (r.llog t).length := le_trans hi (hr.acked_le v t)
      rw [take_llog_of_le hr hle hlen]
      exact hs.keeps v t i hi
        ((hagree.anti (Nat.succ_le_succ huv)).back hr hle hlen)
  elected u hu := by
    rw [hwinner] at hu
    exact (hs.elected u hu).mono hr hle hstep hu

/-- **One guarded move keeps the conditional invariant.** -/
theorem Step.safe (hinter : ∀ A B, IsQuorum A → IsQuorum B → ∃ v, v ∈ A ∧ v ∈ B)
    {r r' : State ν ε} (hr : Wf termOf IsQuorum r) (hs : Safe termOf IsQuorum r)
    (h : Step termOf IsQuorum NoCut r r') : Safe termOf IsQuorum r' := by
  have hle := Step.le hinter hr h
  have hwf := Step.wf hinter hr h
  have hstep := h
  cases h with
  | stay => exact hs
  | enter v t ht =>
      exact safe_of_quiet hr hs hle hstep rfl rfl rfl (fun _ _ _ hL => Or.inl hL)
  | campaign v =>
      refine safe_of_quiet hr hs hle hstep rfl rfl rfl (fun w u L hL => ?_)
      by_cases hself : w = v ∧ u = r.term v + 1
      · obtain ⟨rfl, rfl⟩ := hself
        rw [campaign_held_self] at hL
        exact Or.inr ⟨(Option.some.inj hL).symm, Nat.le_succ _⟩
      · rw [campaign_held_ne r v hself] at hL
        exact Or.inl hL
  | grant v c L hfree hcand hup =>
      refine safe_of_quiet hr hs hle hstep rfl rfl rfl (fun w u K hK => ?_)
      by_cases hself : w = v ∧ u = r.term v
      · obtain ⟨rfl, rfl⟩ := hself
        rw [grant_held_self] at hK
        split at hK
        · exact Or.inr ⟨(Option.some.inj hK).symm, le_refl _⟩
        · exact Or.inl hK
      · rw [grant_held_ne r v c hself] at hK
        exact Or.inl hK
  | elect c t Q hQ hvotes hcand hfresh =>
      -- a fresh leader log is the only new thing to compare with
      refine ⟨fun v u i hi hagree => keeps_frame hr hs hle rfl hi hagree,
        fun v u L hL u' hu i hi hagree => held_keeps_frame hr hs hle hstep hL hu hi hagree,
        fun u hu => ?_⟩
      by_cases hut : u = t
      · subst hut
        exact elected_elect hr hs hQ hvotes hcand hfresh hle
      · have hold : r.winner u ≠ none := by
          have h : (r.elect c t).winner u = r.winner u := win_winner_ne r.toVotes c hut
          rwa [h] at hu
        exact (hs.elected u hold).mono hr hle hstep hold
  | append c e hwon hlog he =>
      exact ⟨keeps_append hr hs hwon hlog hwf hle,
        fun v u L hL t ht i hi hagree => held_keeps_frame hr hs hle hstep hL ht hi hagree,
        fun u hu => (hs.elected u hu).mono hr hle hstep hu⟩
  | ack v m hwon hm hpre =>
      exact ⟨keeps_ack hr hs hm hpre hle,
        fun w u L hL t ht i hi hagree => held_keeps_frame hr hs hle hstep hL ht hi hagree,
        fun u hu => (hs.elected u hu).mono hr hle hstep hu⟩
  | accept v m hwon hm hg =>
      exact ⟨keeps_accept hr hs hwon hg hle,
        fun w u L hL t ht i hi hagree => held_keeps_frame hr hs hle hstep hL ht hi hagree,
        fun u hu => (hs.elected u hu).mono hr hle hstep hu⟩

omit [DecidableEq ν] in
/-- What is chosen stays chosen. -/
theorem Chosen.mono {r r' : State ν ε} (hr : Wf termOf IsQuorum r) (hle : Le termOf r r')
    {t i : ℕ} (h : Chosen termOf IsQuorum r t i) : Chosen termOf IsQuorum r' t i := by
  obtain ⟨⟨e, he, het⟩, Q, hQ, hacked⟩ := h
  have hi : i < (r.llog t).length := (List.getElem?_eq_some_iff.mp he).1
  refine ⟨⟨e, ?_, het⟩, Q, hQ, fun v hv => le_trans (hacked v hv) (hle.acked v t)⟩
  rw [← List.getElem?_take_of_lt (Nat.lt_succ_self i), take_llog_of_le hr hle hi,
    List.getElem?_take_of_lt (Nat.lt_succ_self i), he]

theorem steps_safe (hinter : ∀ A B, IsQuorum A → IsQuorum B → ∃ v, v ∈ A ∧ v ∈ B)
    {r r' : State ν ε} (h : Relation.ReflTransGen (Step termOf IsQuorum NoCut) r r')
    (hr : Wf termOf IsQuorum r) (hs : Safe termOf IsQuorum r) : Safe termOf IsQuorum r' := by
  induction h with
  | refl => exact hs
  | tail hsteps hstep ih => exact hstep.safe hinter (steps_wf hinter hsteps hr).1 ih

end Replog
