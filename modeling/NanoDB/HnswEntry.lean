/-
The entry point of the index under concurrent insertions (`include/index/hnsw.hpp`).

`entry_point_id_` and `current_max_layer_` are two atomics that every insertion reads without a
lock, first to see whether the index is empty and then to see whether the new node is higher than
all others. Both updates are double-checked: the test is repeated under `init_lock_` before the
two stores. Here `insert` is the sequence of its accesses to these variables, to the lock and to
`element_count_`, and any number of insertions interleave access by access. Searching and linking
touch none of them and are one move; the file header, which every insertion writes after its
count, is left out.

One thread at most is under the lock. `Ok` says what each place in the code knows: whoever has
passed the first test knows that there is an entry point, whoever has passed the second that the
maximum is at least its level. Knowledge of this kind is not lost when somebody else moves,
because an entry point never disappears and the maximum never falls.
-/
import NanoDB.Lib.Slots
import NanoDB.Lib.Trace
import NanoDB.Hnsw

set_option autoImplicit false

namespace NanoDB.Index

/-! ## The code -/

/-- Where an insertion is: the access it makes next. -/
inductive EntryPc
  /-- `if (entry_point_id_ == NO_ENTRY)`, then the lock and the same test again. -/
  | first_test
  | first_lock
  | first_retest
  /-- The stores for the first element, its count, and the return that releases the lock. -/
  | first_entry
  | first_layer
  | first_count
  | first_return
  | returned_first
  /-- Somebody else was first. -/
  | first_leave
  /-- Searching and linking. -/
  | linking
  /-- `if (level > current_max_layer_)`, then the lock and the same test again. -/
  | level_test
  | level_lock
  | level_retest
  | level_entry
  | level_layer
  | level_leave
  /-- `element_count_++`. -/
  | count
  | returned
deriving DecidableEq, Repr

/-- One call of `insert`. -/
structure Inserter where
  id : ℕ
  level : ℕ
  pc : EntryPc := .first_test
deriving DecidableEq, Repr

/-- What the calls share. `held`: `init_lock_` is taken. -/
structure EntryVars where
  entry_point_id : ℕ := NO_ENTRY
  current_max_layer : ℤ := -1
  element_count : ℕ := 0
  held : Bool := false
deriving DecidableEq, Repr

/-- The next access of a call; `none` when it waits for the lock or has returned. -/
def entry_next (v : EntryVars) (x : Inserter) : Option (EntryVars × EntryPc) :=
  match x.pc with
  | .first_test => some (v, if v.entry_point_id = NO_ENTRY then .first_lock else .linking)
  | .first_lock => if v.held then none else some ({ v with held := true }, .first_retest)
  | .first_retest => some (v, if v.entry_point_id = NO_ENTRY then .first_entry else .first_leave)
  | .first_entry => some ({ v with entry_point_id := x.id }, .first_layer)
  | .first_layer => some ({ v with current_max_layer := x.level }, .first_count)
  | .first_count => some ({ v with element_count := increment v.element_count }, .first_return)
  | .first_return => some ({ v with held := false }, .returned_first)
  | .returned_first => none
  | .first_leave => some ({ v with held := false }, .linking)
  | .linking => some (v, .level_test)
  | .level_test => some (v, if (x.level : ℤ) > v.current_max_layer then .level_lock else .count)
  | .level_lock => if v.held then none else some ({ v with held := true }, .level_retest)
  | .level_retest =>
      some (v, if (x.level : ℤ) > v.current_max_layer then .level_entry else .level_leave)
  | .level_entry => some ({ v with entry_point_id := x.id }, .level_layer)
  | .level_layer => some ({ v with current_max_layer := x.level }, .level_leave)
  | .level_leave => some ({ v with held := false }, .count)
  | .count => some ({ v with element_count := increment v.element_count }, .returned)
  | .returned => none

structure EntryState where
  vars : EntryVars := {}
  calls : List Inserter
deriving DecidableEq, Repr

/-- Call `t` makes its next access. -/
def entry_step (s : EntryState) (t : ℕ) : Option EntryState :=
  s.calls[t]?.bind (fun x => (entry_next s.vars x).map (fun r =>
    { vars := r.1, calls := s.calls.set t { x with pc := r.2 } }))

theorem entry_step_spec {s s' : EntryState} {t : ℕ} (hs : entry_step s t = some s') :
    ∃ x v pc, s.calls[t]? = some x ∧ entry_next s.vars x = some (v, pc) ∧
      s' = { vars := v, calls := s.calls.set t { x with pc := pc } } := by
  obtain ⟨x, hx, hnext⟩ := Option.bind_eq_some_iff.mp hs
  obtain ⟨⟨v, pc⟩, hv, rfl⟩ := Option.map_eq_some_iff.mp hnext
  exact ⟨x, v, pc, hx, hv, rfl⟩

/-! ## Who is where -/

/-- Under the lock. -/
def EntryPc.locked : EntryPc → Bool
  | .first_retest | .first_entry | .first_layer | .first_count | .first_return | .first_leave
  | .level_retest | .level_entry | .level_layer | .level_leave => true
  | _ => false

/-- Between the two stores. -/
def EntryPc.torn : EntryPc → Bool
  | .first_layer | .level_layer => true
  | _ => false

/-- Made the first element. -/
def EntryPc.was_first : EntryPc → Bool
  | .first_layer | .first_count | .first_return | .returned_first => true
  | _ => false

/-- Counted. -/
def EntryPc.counted : EntryPc → Bool
  | .first_return | .returned_first | .returned => true
  | _ => false

theorem EntryPc.locked_of_torn {pc : EntryPc} (h : pc.torn = true) : pc.locked = true := by
  cases pc <;> first | rfl | cases h

/-- What a call knows at each place. -/
def Ok (v : EntryVars) (x : Inserter) : Prop :=
  match x.pc with
  | .first_test | .first_lock | .first_retest => True
  | .first_entry => v.entry_point_id = NO_ENTRY ∧ v.current_max_layer = -1
  | .first_layer => v.entry_point_id = x.id ∧ v.current_max_layer = -1
  | .first_leave | .linking | .level_test | .level_lock | .level_retest =>
      v.entry_point_id ≠ NO_ENTRY
  | .level_entry => v.entry_point_id ≠ NO_ENTRY ∧ v.current_max_layer < x.level
  | .level_layer => v.entry_point_id = x.id ∧ v.current_max_layer < x.level
  | .first_count | .first_return | .returned_first | .level_leave | .count | .returned =>
      v.entry_point_id ≠ NO_ENTRY ∧ x.level ≤ v.current_max_layer

/-- Outside the lock, what is known lasts. -/
theorem Ok.mono {v v' : EntryVars} {x : Inserter} (h : Ok v x) (hout : x.pc.locked = false)
    (hentry : v.entry_point_id ≠ NO_ENTRY → v'.entry_point_id ≠ NO_ENTRY)
    (hlayer : v.current_max_layer ≤ v'.current_max_layer) : Ok v' x := by
  unfold Ok at h ⊢
  cases hpc : x.pc <;> rw [hpc] at hout h <;> dsimp only at h ⊢ <;>
    first
    | trivial
    | exact hentry h
    | exact ⟨hentry h.1, le_trans h.2 hlayer⟩

/-! ## One access -/

/-- What an access does to the variables, given what the call knows. -/
structure Accessed (v : EntryVars) (x : Inserter) (v' : EntryVars) (pc : EntryPc) : Prop where
  /-- The lock is taken by going in and free again by coming out. -/
  lock : (if v'.held then 1 else 0) + (if x.pc.locked then 1 else 0)
    = (if v.held then 1 else 0) + (if pc.locked then 1 else 0)
  entry : v.entry_point_id ≠ NO_ENTRY → v'.entry_point_id ≠ NO_ENTRY
  layer : v.current_max_layer ≤ v'.current_max_layer
  /-- The entry point appears when somebody is first. -/
  first : (if v'.entry_point_id = NO_ENTRY then 0 else 1) + (if x.pc.was_first then 1 else 0)
    = (if v.entry_point_id = NO_ENTRY then 0 else 1) + (if pc.was_first then 1 else 0)
  count : (v'.element_count = v.element_count ∧ pc.counted = x.pc.counted) ∨
    (v'.element_count = increment v.element_count ∧ x.pc.counted = false ∧ pc.counted = true)
  ok : Ok v' { x with pc := pc }
  /-- Only under the lock are there stores to the two variables. -/
  torn : pc.torn = true → x.pc.locked = true
  /-- After the second store both are of this call. -/
  stored : x.pc.torn = true → v'.entry_point_id = x.id ∧ v'.current_max_layer = x.level
  same : x.pc.torn = false → pc.torn = false →
    v'.entry_point_id = v.entry_point_id ∧ v'.current_max_layer = v.current_max_layer
  empty : v'.entry_point_id = NO_ENTRY → v'.current_max_layer = v.current_max_layer

variable {v v' : EntryVars} {x : Inserter} {pc : EntryPc}

/-- An access to the lock. -/
theorem Accessed.of_lock {held : Bool} (hlock : (if held then 1 else 0)
      + (if x.pc.locked then 1 else 0) = (if v.held then 1 else 0) + (if pc.locked then 1 else 0))
    (hfirst : pc.was_first = x.pc.was_first) (hcount : pc.counted = x.pc.counted)
    (htorn : x.pc.torn = false) (htorn' : pc.torn = false)
    (hok : Ok { v with held := held } { x with pc := pc }) :
    Accessed v x { v with held := held } pc where
  lock := hlock
  entry := fun h => h
  layer := le_refl _
  first := by rw [hfirst]
  count := .inl ⟨rfl, hcount⟩
  ok := hok
  torn := fun h => absurd (h.symm.trans htorn') (by decide)
  stored := fun h => absurd (h.symm.trans htorn) (by decide)
  same := fun _ _ => ⟨rfl, rfl⟩
  empty := fun _ => rfl

/-- An access that only reads. -/
theorem Accessed.of_read (hlock : pc.locked = x.pc.locked) (hfirst : pc.was_first = x.pc.was_first)
    (hcount : pc.counted = x.pc.counted) (htorn : x.pc.torn = false) (htorn' : pc.torn = false)
    (hok : Ok v { x with pc := pc }) : Accessed v x { v with held := v.held } pc :=
  .of_lock (by rw [hlock]) hfirst hcount htorn htorn' hok

/-- Outside the lock the two variables are only read. -/
theorem Accessed.outside (h : Accessed v x v' pc) (hout : x.pc.locked = false) :
    v'.entry_point_id = v.entry_point_id ∧ v'.current_max_layer = v.current_max_layer := by
  apply h.same
  · by_contra htorn
    exact absurd (hout.symm.trans (EntryPc.locked_of_torn (by simpa using htorn))) (by decide)
  · by_contra htorn
    exact absurd (hout.symm.trans (h.torn (by simpa using htorn))) (by decide)

theorem accessed (hid : x.id ≠ NO_ENTRY) (hok : Ok v x)
    (hin : x.pc.locked = true → v.held = true)
    (hempty : v.entry_point_id = NO_ENTRY → v.current_max_layer = -1)
    (hnext : entry_next v x = some (v', pc)) : Accessed v x v' pc := by
  obtain ⟨id, level, at_⟩ := x
  unfold entry_next at hnext
  unfold Ok at hok
  cases at_ <;> dsimp only at hnext hok hid hin
  case first_test =>
    obtain ⟨rfl, rfl⟩ := Prod.mk.inj (Option.some.inj hnext)
    by_cases hv : v.entry_point_id = NO_ENTRY
    · rw [if_pos hv]
      exact .of_read rfl rfl rfl rfl rfl trivial
    · rw [if_neg hv]
      exact .of_read rfl rfl rfl rfl rfl hv
  case first_lock =>
    split_ifs at hnext with hheld
    obtain ⟨rfl, rfl⟩ := Prod.mk.inj (Option.some.inj hnext)
    exact .of_lock (by simp [hheld, EntryPc.locked]) rfl rfl rfl rfl trivial
  case first_retest =>
    obtain ⟨rfl, rfl⟩ := Prod.mk.inj (Option.some.inj hnext)
    by_cases hv : v.entry_point_id = NO_ENTRY
    · rw [if_pos hv]
      exact .of_read rfl rfl rfl rfl rfl ⟨hv, hempty hv⟩
    · rw [if_neg hv]
      exact .of_read rfl rfl rfl rfl rfl hv
  case first_entry =>
    obtain ⟨rfl, rfl⟩ := Prod.mk.inj (Option.some.inj hnext)
    refine ⟨rfl, fun _ => hid, le_refl _, ?_, .inl ⟨rfl, rfl⟩, ⟨rfl, hok.2⟩, fun _ => rfl, nofun,
      nofun, fun h => absurd h hid⟩
    rw [if_neg hid, if_pos hok.1]
    rfl
  case first_layer =>
    obtain ⟨rfl, rfl⟩ := Prod.mk.inj (Option.some.inj hnext)
    have hentry : v.entry_point_id ≠ NO_ENTRY := fun h => hid (hok.1.symm.trans h)
    refine ⟨rfl, fun h => h, ?_, rfl, .inl ⟨rfl, rfl⟩, ⟨hentry, le_refl _⟩, nofun,
      fun _ => ⟨hok.1, rfl⟩, nofun, fun h => absurd h hentry⟩
    change v.current_max_layer ≤ (level : ℤ)
    omega
  case first_count | count =>
    obtain ⟨rfl, rfl⟩ := Prod.mk.inj (Option.some.inj hnext)
    exact ⟨rfl, fun h => h, le_refl _, rfl, .inr ⟨rfl, rfl, rfl⟩, hok, nofun, nofun,
      fun _ _ => ⟨rfl, rfl⟩, fun _ => rfl⟩
  case first_return | first_leave | level_leave =>
    obtain ⟨rfl, rfl⟩ := Prod.mk.inj (Option.some.inj hnext)
    exact .of_lock (by simp [hin rfl, EntryPc.locked]) rfl rfl rfl rfl hok
  case linking =>
    obtain ⟨rfl, rfl⟩ := Prod.mk.inj (Option.some.inj hnext)
    exact .of_read rfl rfl rfl rfl rfl hok
  case level_test =>
    obtain ⟨rfl, rfl⟩ := Prod.mk.inj (Option.some.inj hnext)
    by_cases hv : (level : ℤ) > v.current_max_layer
    · rw [if_pos hv]
      exact .of_read rfl rfl rfl rfl rfl hok
    · rw [if_neg hv]
      exact .of_read rfl rfl rfl rfl rfl ⟨hok, not_lt.mp hv⟩
  case level_lock =>
    split_ifs at hnext with hheld
    obtain ⟨rfl, rfl⟩ := Prod.mk.inj (Option.some.inj hnext)
    exact .of_lock (by simp [hheld, EntryPc.locked]) rfl rfl rfl rfl hok
  case level_retest =>
    obtain ⟨rfl, rfl⟩ := Prod.mk.inj (Option.some.inj hnext)
    by_cases hv : (level : ℤ) > v.current_max_layer
    · rw [if_pos hv]
      exact .of_read rfl rfl rfl rfl rfl ⟨hok, hv⟩
    · rw [if_neg hv]
      exact .of_read rfl rfl rfl rfl rfl ⟨hok, not_lt.mp hv⟩
  case level_entry =>
    obtain ⟨rfl, rfl⟩ := Prod.mk.inj (Option.some.inj hnext)
    refine ⟨rfl, fun _ => hid, le_refl _, ?_, .inl ⟨rfl, rfl⟩, ⟨rfl, hok.2⟩, fun _ => rfl, nofun,
      nofun, fun h => absurd h hid⟩
    rw [if_neg hid, if_neg hok.1]
    rfl
  case level_layer =>
    obtain ⟨rfl, rfl⟩ := Prod.mk.inj (Option.some.inj hnext)
    have hentry : v.entry_point_id ≠ NO_ENTRY := fun h => hid (hok.1.symm.trans h)
    exact ⟨rfl, fun h => h, le_of_lt hok.2, rfl, .inl ⟨rfl, rfl⟩, ⟨hentry, le_refl _⟩, nofun,
      fun _ => ⟨hok.1, rfl⟩, nofun, fun h => absurd h hentry⟩
  case returned_first | returned => cases hnext

/-! ## Every interleaving -/

/-- What holds between any two accesses. -/
structure EntryInv (s : EntryState) : Prop where
  ids : ∀ x ∈ s.calls, x.id ≠ NO_ENTRY
  lock : s.calls.countP (fun x => x.pc.locked) = if s.vars.held then 1 else 0
  ok : ∀ x ∈ s.calls, Ok s.vars x
  empty : s.vars.entry_point_id = NO_ENTRY → s.vars.current_max_layer = -1
  first : s.calls.countP (fun x => x.pc.was_first)
    = if s.vars.entry_point_id = NO_ENTRY then 0 else 1
  count : s.vars.element_count = s.calls.countP (fun x => x.pc.counted) % 2 ^ 64
  one : (∀ x ∈ s.calls, x.pc.torn = false) → s.vars.entry_point_id ≠ NO_ENTRY →
    ∃ x ∈ s.calls, x.id = s.vars.entry_point_id ∧ x.level = s.vars.current_max_layer

theorem Ok.of_same {v v' : EntryVars} {x : Inserter} (h : Ok v x)
    (hentry : v'.entry_point_id = v.entry_point_id)
    (hlayer : v'.current_max_layer = v.current_max_layer) : Ok v' x := by
  unfold Ok at h ⊢
  rw [hentry, hlayer]
  exact h

theorem entryInv_step {s s' : EntryState} {t : ℕ} (h : EntryInv s)
    (hs : entry_step s t = some s') : EntryInv s' := by
  obtain ⟨x, v, pc, hx, hnext, rfl⟩ := entry_step_spec hs
  have hmem : x ∈ s.calls := List.mem_of_getElem? hx
  have hone : s.calls.countP (fun x => x.pc.locked) ≤ 1 := by
    rw [h.lock]
    split <;> omega
  have hin : x.pc.locked = true → s.vars.held = true := by
    intro hlocked
    by_contra hfree
    have hpos : 0 < s.calls.countP (fun x => x.pc.locked) :=
      List.countP_pos_iff.mpr ⟨x, hmem, hlocked⟩
    rw [h.lock, if_neg hfree] at hpos
    omega
  have ha := accessed (h.ids x hmem) (h.ok x hmem) hin h.empty hnext
  have hlock := Slots.countP_set (fun x => x.pc.locked) { x with pc := pc } hx
  have hfirst := Slots.countP_set (fun x => x.pc.was_first) { x with pc := pc } hx
  have hcount := Slots.countP_set (fun x => x.pc.counted) { x with pc := pc } hx
  have hself : ({ x with pc := pc } : Inserter) ∈ s.calls.set t { x with pc := pc } :=
    List.mem_set (List.getElem?_eq_some_iff.mp hx).1 _
  refine ⟨?_, ?_, ?_, ?_, ?_, ?_, ?_⟩
  · intro y hy
    rcases Slots.mem_set_cases hy with rfl | ⟨u, -, hu⟩
    · exact h.ids x hmem
    · exact h.ids y (List.mem_of_getElem? hu)
  · have := ha.lock
    rw [h.lock] at hlock
    dsimp only at hlock ⊢
    omega
  · intro y hy
    rcases Slots.mem_set_cases hy with rfl | ⟨u, hut, hu⟩
    · exact ha.ok
    · have hy := h.ok y (List.mem_of_getElem? hu)
      cases hlocked : x.pc.locked with
      | true =>
          -- everybody else is outside the lock
          exact hy.mono (Slots.eq_false_of_countP_le_one hone hx hlocked hu hut) ha.entry ha.layer
      | false => exact hy.of_same (ha.outside hlocked).1 (ha.outside hlocked).2
  · intro hnone
    refine (ha.empty hnone).trans (h.empty ?_)
    by_contra hsome
    exact ha.entry hsome hnone
  · have := ha.first
    rw [h.first] at hfirst
    dsimp only at hfirst ⊢
    omega
  · dsimp only at hcount ⊢
    rcases ha.count with ⟨heq, hsame⟩ | ⟨heq, hbefore, hafter⟩
    · rw [hsame] at hcount
      rw [heq, h.count, Nat.add_right_cancel hcount]
    · rw [hbefore, hafter] at hcount
      have hplus : (s.calls.set t { x with pc := pc }).countP (fun x => x.pc.counted)
          = s.calls.countP (fun x => x.pc.counted) + 1 := hcount
      rw [heq, h.count, hplus, increment, Nat.mod_add_mod]
  · intro hquiet hsome
    dsimp only at hquiet hsome ⊢
    cases hx' : x.pc.torn with
    | true =>
        obtain ⟨hentry, hlayer⟩ := ha.stored hx'
        exact ⟨_, hself, hentry.symm, hlayer.symm⟩
    | false =>
        obtain ⟨hentry, hlayer⟩ := ha.same hx' (hquiet _ hself)
        rw [hentry, hlayer]
        have hbefore : ∀ y ∈ s.calls, y.pc.torn = false := by
          intro y hy
          obtain ⟨u, hu⟩ := List.getElem?_of_mem hy
          by_cases hut : u = t
          · rw [hut, hx] at hu
            obtain rfl := Option.some.inj hu
            exact hx'
          · exact hquiet y (Slots.mem_set_of_ne hut hu)
        obtain ⟨y, hy, hid, hlevel⟩ := h.one hbefore (hentry ▸ hsome)
        obtain ⟨u, hu⟩ := List.getElem?_of_mem hy
        by_cases hut : u = t
        · rw [hut, hx] at hu
          obtain rfl := Option.some.inj hu
          exact ⟨_, hself, hid, hlevel⟩
        · exact ⟨y, Slots.mem_set_of_ne hut hu, hid, hlevel⟩

/-- Calls `insert(…, id, …)` with the levels they drew, on an empty index. -/
def EntryState.init (calls : List (ℕ × ℕ)) : EntryState :=
  { calls := calls.map (fun c => { id := c.1, level := c.2 }) }

theorem entryInv_init {calls : List (ℕ × ℕ)} (hids : ∀ c ∈ calls, c.1 ≠ NO_ENTRY) :
    EntryInv (EntryState.init calls) := by
  have hstart : ∀ p : EntryPc → Bool, p .first_test = false →
      (EntryState.init calls).calls.countP (fun x => p x.pc) = 0 := by
    intro p hp
    rw [List.countP_eq_zero]
    intro x hx
    obtain ⟨c, -, rfl⟩ := List.mem_map.mp hx
    rw [hp]
    exact Bool.false_ne_true
  refine ⟨?_, hstart _ rfl, ?_, fun _ => rfl, hstart _ rfl, ?_, fun _ h => absurd rfl h⟩
  · intro x hx
    obtain ⟨c, hc, rfl⟩ := List.mem_map.mp hx
    exact hids c hc
  · intro x hx
    obtain ⟨c, -, rfl⟩ := List.mem_map.mp hx
    trivial
  · rw [hstart EntryPc.counted rfl]
    rfl

/-- A call stays what it is. -/
theorem entry_step_calls {s s' : EntryState} {t : ℕ} (hs : entry_step s t = some s') :
    s'.calls.map (fun x => (x.id, x.level)) = s.calls.map (fun x => (x.id, x.level)) := by
  obtain ⟨x, v, pc, hx, -, rfl⟩ := entry_step_spec hs
  dsimp only
  rw [List.map_set]
  apply List.ext_getElem?
  intro u
  by_cases hut : u = t
  · subst hut
    rw [List.getElem?_set_self', List.getElem?_map, hx]
    rfl
  · rw [List.getElem?_set_ne (Ne.symm hut)]

/-- **The entry point is one of the highest nodes.** Any number of calls of `insert` run on an
empty index, access by access, in any interleaving. Whenever `init_lock_` is free, entry point and
maximum layer are the id and the level of one call; a call that has returned is not above the
maximum; at most one call takes the path of the first element. When all calls have returned,
exactly one has taken it, the maximum is the highest level of all, and every call is counted. -/
theorem entry_point_is_highest {calls : List (ℕ × ℕ)} (hids : ∀ c ∈ calls, c.1 ≠ NO_ENTRY)
    {acts : List ℕ} {s : EntryState}
    (hs : Trace.run entry_step (EntryState.init calls) acts = some s) :
    (s.vars.held = false → s.vars.entry_point_id ≠ NO_ENTRY →
      ∃ c ∈ calls, c.1 = s.vars.entry_point_id ∧ (c.2 : ℤ) = s.vars.current_max_layer) ∧
    (∀ x ∈ s.calls, x.pc = .returned ∨ x.pc = .returned_first →
      s.vars.entry_point_id ≠ NO_ENTRY ∧ x.level ≤ s.vars.current_max_layer) ∧
    s.calls.countP (fun x => x.pc.was_first) ≤ 1 ∧
    ((∀ x ∈ s.calls, x.pc = .returned ∨ x.pc = .returned_first) → calls ≠ [] →
      s.calls.countP (fun x => x.pc.was_first) = 1 ∧
      (∃ c ∈ calls, c.1 = s.vars.entry_point_id ∧ (c.2 : ℤ) = s.vars.current_max_layer) ∧
      (∀ c ∈ calls, (c.2 : ℤ) ≤ s.vars.current_max_layer) ∧
      s.vars.element_count = calls.length % 2 ^ 64) := by
  have h := Trace.run_invariant (P := EntryInv) (fun _ _ _ h hstep => entryInv_step h hstep)
    (entryInv_init hids) hs
  have hcalls : s.calls.map (fun x => (x.id, x.level)) = calls := by
    have hsame := Trace.run_invariant
      (P := fun u => u.calls.map (fun x => (x.id, x.level))
        = (EntryState.init calls).calls.map (fun x => (x.id, x.level)))
      (fun _ _ _ hu hstep => (entry_step_calls hstep).trans hu) rfl hs
    rw [hsame, EntryState.init, List.map_map]
    exact List.map_id _
  -- with the lock free nobody is between the two stores
  have hfree : s.vars.held = false → s.vars.entry_point_id ≠ NO_ENTRY →
      ∃ c ∈ calls, c.1 = s.vars.entry_point_id ∧ (c.2 : ℤ) = s.vars.current_max_layer := by
    intro hheld hsome
    have hnone := h.lock
    rw [hheld, if_neg Bool.false_ne_true, List.countP_eq_zero] at hnone
    obtain ⟨x, hx, hid, hlevel⟩ := h.one (fun x hx => by
      by_contra htorn
      exact hnone x hx (EntryPc.locked_of_torn (by simpa using htorn))) hsome
    refine ⟨(x.id, x.level), ?_, hid, hlevel⟩
    rw [← hcalls]
    exact List.mem_map.mpr ⟨x, hx, rfl⟩
  have hback : ∀ x ∈ s.calls, x.pc = .returned ∨ x.pc = .returned_first →
      s.vars.entry_point_id ≠ NO_ENTRY ∧ x.level ≤ s.vars.current_max_layer := by
    intro x hx hpc
    have hok := h.ok x hx
    unfold Ok at hok
    rcases hpc with hpc | hpc <;> rw [hpc] at hok <;> exact hok
  refine ⟨hfree, hback, ?_, fun hall hne => ?_⟩
  · rw [h.first]
    split <;> omega
  · obtain ⟨c, hc⟩ := List.exists_mem_of_ne_nil _ hne
    rw [← hcalls] at hc
    obtain ⟨x, hx, -⟩ := List.mem_map.mp hc
    have hsome := (hback x hx (hall x hx)).1
    have hheld : s.vars.held = false := by
      by_contra hheld
      have hlock := h.lock
      rw [if_pos (by simpa using hheld)] at hlock
      obtain ⟨y, hy, hlocked⟩ := List.countP_pos_iff.mp (hlock ▸ Nat.one_pos)
      rcases hall y hy with hpc | hpc <;> rw [hpc] at hlocked <;> cases hlocked
    refine ⟨?_, hfree hheld hsome, fun c hc => ?_, ?_⟩
    · rw [h.first, if_neg hsome]
    · rw [← hcalls] at hc
      obtain ⟨y, hy, rfl⟩ := List.mem_map.mp hc
      exact (hback y hy (hall y hy)).2
    · have hcounted : s.calls.countP (fun x => x.pc.counted) = s.calls.length := by
        rw [List.countP_eq_length]
        intro y hy
        rcases hall y hy with hpc | hpc <;> rw [hpc] <;> rfl
      rw [h.count, hcounted, ← hcalls, List.length_map]

/-- Three calls find the index empty; one is first, the others wait for the lock, find an entry
point and go on, and the highest ends as entry point. -/
theorem entry_point_is_highest_three :
    ∃ s, Trace.run entry_step (EntryState.init [(4, 0), (5, 2), (6, 1)])
        [0, 1, 2, 0, 0, 0, 0, 0, 0, 1, 1, 1, 2, 2, 2, 1, 2, 1, 2, 2, 2, 2, 2, 2, 1, 1, 1, 1, 1,
          2, 1] = some s ∧
      s.vars.entry_point_id = 5 ∧ s.vars.current_max_layer = 2 ∧
      ∀ x ∈ s.calls, x.pc = .returned ∨ x.pc = .returned_first →
        s.vars.entry_point_id ≠ NO_ENTRY ∧ x.level ≤ s.vars.current_max_layer := by
  obtain ⟨s, hs, hentry, hlayer⟩ : ∃ s, Trace.run entry_step
      (EntryState.init [(4, 0), (5, 2), (6, 1)])
        [0, 1, 2, 0, 0, 0, 0, 0, 0, 1, 1, 1, 2, 2, 2, 1, 2, 1, 2, 2, 2, 2, 2, 2, 1, 1, 1, 1, 1,
          2, 1] = some s ∧ s.vars.entry_point_id = 5 ∧ s.vars.current_max_layer = 2 :=
    Trace.exists_run (by decide +kernel)
  exact ⟨s, hs, hentry, hlayer, (entry_point_is_highest (by decide) hs).2.1⟩

end NanoDB.Index
