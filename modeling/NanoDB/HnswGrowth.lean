/-
`grown_size` of `include/index/hnsw.hpp` in 64-bit arithmetic.

`Hnsw.lean` has the growth of the storage on natural numbers. The source has it on `size_t`, where
an addition wraps, and a file that covers the request in one arithmetic need not do so in the
other. Here the loop is written on 64-bit words, and shown to compute the same.

The largest request comes from the largest id: about 4.5 TB. A round starts below the request and
adds at most `MAX_GROWTH_STEP`, so it stays far below `2 ^ 64`.
-/
import NanoDB.HnswGraph
import NanoDB.Lib.While
import NanoDB.MemoryMap

set_option autoImplicit false

namespace NanoDB.Index

/-! ## The source on words -/

/-- `step` in a round of `grown_size`. -/
def growth_step (next : UInt64) : UInt64 :=
  let step := next
  let step :=
    if step > UInt64.ofNat MAX_GROWTH_STEP then UInt64.ofNat MAX_GROWTH_STEP else step
  if step < UInt64.ofNat MIN_GROWTH_STEP then UInt64.ofNat MIN_GROWTH_STEP else step

/-- The condition of the loop. -/
def still_short (needed next : UInt64) : Bool := decide (next < needed)

/-- The body of the loop. -/
def grow_once (next : UInt64) : UInt64 := next + growth_step next

/-- `grown_size` on `size_t`; `none` if the fuel does not last. -/
def grown_size64 (fuel : ℕ) (current needed : UInt64) : Option UInt64 :=
  While.run (still_short needed) grow_once fuel current

/-- `offset + sizeof(Node)` in `insert`. -/
def needed_size (id : UInt32) : UInt64 :=
  UInt64.ofNat HEADER_SIZE + id.toUInt64 * UInt64.ofNat NODE_SIZE + UInt64.ofNat NODE_SIZE

/-! ## Words and numbers -/

/-- The request of a 32-bit id does not wrap. -/
theorem toNat_needed_size (id : UInt32) : (needed_size id).toNat = slot_end id.toNat := by
  have hid := id.toNat_lt
  simp only [needed_size, slot_end, HEADER_SIZE, NODE_SIZE, UInt64.toNat_add, UInt64.toNat_mul,
    UInt64.toNat_ofNat', UInt32.toNat_toUInt64]
  omega

/-- What a 32-bit id can ask for. -/
theorem slot_end_lt (id : UInt32) : slot_end id.toNat < 2 ^ 43 := by
  have hid := id.toNat_lt
  simp only [slot_end, HEADER_SIZE, NODE_SIZE]
  omega

theorem toNat_growth_step (next : UInt64) :
    (growth_step next).toNat = max (min next.toNat MAX_GROWTH_STEP) MIN_GROWTH_STEP := by
  have hmax : (UInt64.ofNat MAX_GROWTH_STEP).toNat = MAX_GROWTH_STEP := by decide
  have hmin : (UInt64.ofNat MIN_GROWTH_STEP).toNat = MIN_GROWTH_STEP := by decide
  have hle : MIN_GROWTH_STEP ≤ MAX_GROWTH_STEP := by decide
  simp only [growth_step, gt_iff_lt, UInt64.lt_iff_toNat_lt]
  split_ifs <;> omega

theorem lt_of_still_short {next : UInt64} {id : UInt32}
    (h : still_short (needed_size id) next = true) : next.toNat < slot_end id.toNat := by
  rw [← toNat_needed_size, ← UInt64.lt_iff_toNat_lt]
  exact of_decide_eq_true h

/-- A round below the request of an id does not wrap. -/
theorem toNat_grow_once {next : UInt64} {id : UInt32} (hlt : next.toNat < slot_end id.toNat) :
    next.toNat + (growth_step next).toNat < 2 ^ 64 ∧
      (grow_once next).toNat
        = next.toNat + max (min next.toNat MAX_GROWTH_STEP) MIN_GROWTH_STEP := by
  have hneeded := slot_end_lt id
  have hstep := toNat_growth_step next
  have hmax : MAX_GROWTH_STEP < 2 ^ 43 := by decide
  have hmin : MIN_GROWTH_STEP < 2 ^ 43 := by decide
  have hfits : next.toNat + (growth_step next).toNat < 2 ^ 64 := by omega
  refine ⟨hfits, ?_⟩
  rw [grow_once, UInt64.toNat_add, Nat.mod_eq_of_lt hfits, hstep]

/-! ## The loop on numbers -/

/-- Fuel that is enough is as good as any other. -/
theorem grow_fuel (fuel : ℕ) :
    ∀ fuel' next needed, needed ≤ fuel + next → needed ≤ fuel' + next →
      grow fuel next needed = grow fuel' next needed := by
  induction fuel with
  | zero =>
      intro fuel' next needed h _
      have hnot : ¬ next < needed := by omega
      cases fuel' with
      | zero => rfl
      | succ fuel' => rw [grow, grow, if_neg hnot]
  | succ fuel ih =>
      intro fuel' next needed h h'
      rw [grow]
      split
      · rename_i hlt
        obtain ⟨n, rfl⟩ : ∃ n, fuel' = n + 1 := ⟨fuel' - 1, by omega⟩
        have hmin : 0 < MIN_GROWTH_STEP := by decide
        rw [grow, if_pos hlt]
        exact ih n _ needed (by omega) (by omega)
      · rename_i hnot
        cases fuel' with
        | zero => rfl
        | succ fuel' => rw [grow, if_neg hnot]

/-- A round does not change what the loop comes to. -/
theorem grow_once_same {next needed : ℕ} (hlt : next < needed) :
    grow needed (next + max (min next MAX_GROWTH_STEP) MIN_GROWTH_STEP) needed
      = grow needed next needed := by
  obtain ⟨fuel, rfl⟩ : ∃ fuel, needed = fuel + 1 := ⟨needed - 1, by omega⟩
  have hmin : 0 < MIN_GROWTH_STEP := by decide
  have hround : grow (fuel + 1) next (fuel + 1)
      = grow fuel (next + max (min next MAX_GROWTH_STEP) MIN_GROWTH_STEP) (fuel + 1) := by
    rw [grow, if_pos hlt]
  rw [hround]
  exact grow_fuel _ _ _ _ (by omega) (by omega)

theorem grow_covered {next needed : ℕ} (h : needed ≤ next) (fuel : ℕ) :
    grow fuel next needed = next := by
  cases fuel with
  | zero => rfl
  | succ fuel => rw [grow, if_neg (by omega)]

/-! ## The result -/

/-- What every test of the loop finds: the numbers still come to the same, and one step ago the
size was below the request. -/
structure Growing (current needed : ℕ) (next : UInt64) : Prop where
  same : grow needed next.toNat needed = grown_size current needed
  bound : next.toNat = current ∨
    next.toNat < needed + max MIN_GROWTH_STEP (min next.toNat MAX_GROWTH_STEP)

/-- **One round.** -/
theorem growing_step {current : ℕ} {id : UInt32} {next : UInt64}
    (h : Growing current (slot_end id.toNat) next)
    (hshort : still_short (needed_size id) next = true) :
    Growing current (slot_end id.toNat) (grow_once next) ∧
      slot_end id.toNat - (grow_once next).toNat < slot_end id.toNat - next.toNat := by
  have hlt := lt_of_still_short hshort
  obtain ⟨-, hnext⟩ := toNat_grow_once hlt
  have hmin : 0 < MIN_GROWTH_STEP := by decide
  refine ⟨⟨?_, Or.inr ?_⟩, by omega⟩
  · rw [hnext, grow_once_same hlt, h.same]
  · omega

/-- **The loop** ends with a size that covers the request. -/
theorem grown_size64_ends (current : UInt64) (id : UInt32) :
    ∃ fuel result, grown_size64 fuel current (needed_size id) = some result ∧
      Growing current.toNat (slot_end id.toNat) result ∧ slot_end id.toNat ≤ result.toNat := by
  have hstart : Growing current.toNat (slot_end id.toNat) current := ⟨rfl, Or.inl rfl⟩
  obtain ⟨result, hrun, hgrowing, hend⟩ := While.total
    (fun next : UInt64 => slot_end id.toNat - next.toNat)
    (fun next hnext hshort => growing_step hnext hshort) _ current hstart (Nat.lt_succ_self _)
  refine ⟨_, result, hrun, hgrowing, ?_⟩
  have hnot := of_decide_eq_false hend
  rw [UInt64.lt_iff_toNat_lt, toNat_needed_size] at hnot
  omega

/-- One growth of the file that goes through has the slot in it. -/
theorem grow_for_covers {h : MMapHandler} {file : List UInt8} {id : ℕ} {calls : Calls}
    (hok : (h.grow_for file id calls).thrown = none) :
    slot_end id ≤ (h.grow_for file id calls).handler.file_size := by
  unfold MMapHandler.grow_for at hok ⊢
  split at hok
  · rename_i hshort
    rw [if_pos hshort]
    rcases resize_cases h file (grown_size h.file_size (slot_end id)) calls with
      ⟨-, hresize⟩ | ⟨-, hthrown, -⟩
    · rw [hresize]
      have hgrown : slot_end id ≤ grown_size h.file_size (slot_end id) :=
        needed_le_grow _ _ _ (Nat.le_add_right _ _)
      exact hgrown.trans (le_max_right _ _)
    · exact absurd hok hthrown
  · rename_i hcovered
    rw [if_neg hcovered]
    exact not_lt.mp hcovered

/-- **Growth covers the request.** For every size and every 32-bit id the request does not wrap,
no round wraps, and the loop ends with what the index model uses. A size that covers the request is
returned as it is; any other result covers it by less than the last step. After the one `resize`
that follows, the slot of the id is in the file. -/
theorem growth_covers_request (current : UInt64) (id : UInt32) :
    (needed_size id).toNat = slot_end id.toNat ∧
    (∀ next, still_short (needed_size id) next = true →
      next.toNat + (growth_step next).toNat < 2 ^ 64) ∧
    (∃ fuel result, grown_size64 fuel current (needed_size id) = some result ∧
      result.toNat = grown_size current.toNat (slot_end id.toNat) ∧
      (needed_size id ≤ current → result = current) ∧
      (current < needed_size id → (needed_size id).toNat ≤ result.toNat ∧
        result.toNat < (needed_size id).toNat
          + max MIN_GROWTH_STEP (min result.toNat MAX_GROWTH_STEP))) ∧
    ∀ (h : MMapHandler) (file : List UInt8) (calls : Calls), h.file_size = current.toNat →
      (h.grow_for file id.toNat calls).thrown = none →
      slot_end id.toNat ≤ (h.grow_for file id.toNat calls).handler.file_size := by
  have hneeded := toNat_needed_size id
  refine ⟨hneeded, ?_, ?_, ?_⟩
  · intro next hshort
    exact (toNat_grow_once (lt_of_still_short hshort)).1
  · obtain ⟨fuel, result, hrun, hgrowing, hcovers⟩ := grown_size64_ends current id
    have hresult : result.toNat = grown_size current.toNat (slot_end id.toNat) := by
      rw [← hgrowing.same, grow_covered hcovers]
    refine ⟨fuel, result, hrun, hresult, ?_, ?_⟩
    · intro hle
      rw [UInt64.le_iff_toNat_le, hneeded] at hle
      rw [← UInt64.toNat_inj, hresult, grown_size, grow_covered hle]
    · intro hlt
      rw [UInt64.lt_iff_toNat_lt] at hlt
      rw [hneeded] at hlt ⊢
      refine ⟨hcovers, ?_⟩
      rcases hgrowing.bound with hsame | hbound
      · omega
      · exact hbound
  · intro h file calls _ hok
    exact grow_for_covers hok

end NanoDB.Index
