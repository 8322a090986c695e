/-
Relative error of rounded arithmetic.

The standard model: an operation returns its exact result up to a factor between `1 - u` and
`1 + u`. `Err u k x y Y` says that `x` is what `k` such roundings in a row can make of `y`, where
`Y` bounds the summands that went into `y` in absolute value. Sums and products of such values are
such values again, and each rounding counts one; that is all an error analysis of a straight-line
kernel needs. With `u = 0` it says that `x` is `y`. The model is asked of an operation only at the
operands it meets, so a format with underflow and overflow satisfies it as long as none occurs.
-/
import Mathlib.Algebra.Order.BigOperators.Group.Finset
import Mathlib.Algebra.Order.Field.Basic
import Mathlib.Tactic.Linarith
import Mathlib.Tactic.Positivity
import Mathlib.Tactic.Ring

set_option autoImplicit false

namespace Rounded

variable {K : Type*} [Field K] [LinearOrder K] [IsStrictOrderedRing K]

/-- `x` is `y`, of scale `Y`, up to `k` roundings. -/
structure Err (u : K) (k : ℕ) (x y Y : K) : Prop where
  scale : |y| ≤ Y
  close : |x - y| ≤ ((1 + u) ^ k - 1) * Y

variable {u x x' y y' z Y Y' : K} {k k' m : ℕ}

theorem Err.refl (h : |y| ≤ Y) : Err u 0 y y Y := by
  refine ⟨h, ?_⟩
  rw [sub_self, abs_zero, pow_zero, sub_self, zero_mul]

theorem Err.nonneg (h : Err u k x y Y) : 0 ≤ Y := (abs_nonneg y).trans h.scale

/-- More roundings allow more. -/
theorem Err.mono (hu : 0 ≤ u) (hk : k ≤ m) (h : Err u k x y Y) : Err u m x y Y := by
  refine ⟨h.scale, h.close.trans ?_⟩
  have hpow : (1 + u) ^ k ≤ (1 + u) ^ m := pow_le_pow_right₀ (by linarith) hk
  exact mul_le_mul_of_nonneg_right (by linarith) h.nonneg

theorem Err.magnitude (h : Err u k x y Y) : |x| ≤ (1 + u) ^ k * Y := by
  calc |x| = |(x - y) + y| := by rw [sub_add_cancel]
    _ ≤ |x - y| + |y| := abs_add_le _ _
    _ ≤ ((1 + u) ^ k - 1) * Y + Y := add_le_add h.close h.scale
    _ = (1 + u) ^ k * Y := by ring

/-- **One more rounding.** -/
theorem Err.round (hu : 0 ≤ u) (h : Err u k x y Y) (hz : |z - x| ≤ u * |x|) :
    Err u (k + 1) z y Y := by
  refine ⟨h.scale, ?_⟩
  calc |z - y| = |(z - x) + (x - y)| := by rw [sub_add_sub_cancel]
    _ ≤ |z - x| + |x - y| := abs_add_le _ _
    _ ≤ u * ((1 + u) ^ k * Y) + ((1 + u) ^ k - 1) * Y :=
        add_le_add (hz.trans (mul_le_mul_of_nonneg_left h.magnitude hu)) h.close
    _ = ((1 + u) ^ (k + 1) - 1) * Y := by ring

theorem Err.add (h : Err u k x y Y) (h' : Err u k x' y' Y') :
    Err u k (x + x') (y + y') (Y + Y') := by
  refine ⟨(abs_add_le _ _).trans (add_le_add h.scale h'.scale), ?_⟩
  calc |x + x' - (y + y')| = |(x - y) + (x' - y')| := by rw [add_sub_add_comm]
    _ ≤ |x - y| + |x' - y'| := abs_add_le _ _
    _ ≤ ((1 + u) ^ k - 1) * Y + ((1 + u) ^ k - 1) * Y' := add_le_add h.close h'.close
    _ = ((1 + u) ^ k - 1) * (Y + Y') := by ring

theorem Err.mul (h : Err u k x y Y) (h' : Err u k' x' y' Y') :
    Err u (k + k') (x * x') (y * y') (Y * Y') := by
  have hclose : |x' - y'| * |x| ≤ ((1 + u) ^ k' - 1) * Y' * ((1 + u) ^ k * Y) :=
    mul_le_mul h'.close h.magnitude (abs_nonneg _) ((abs_nonneg _).trans h'.close)
  have hscale : |x - y| * |y'| ≤ ((1 + u) ^ k - 1) * Y * Y' :=
    mul_le_mul h.close h'.scale (abs_nonneg _) ((abs_nonneg _).trans h.close)
  refine ⟨?_, ?_⟩
  · rw [abs_mul]
    exact mul_le_mul h.scale h'.scale (abs_nonneg _) h.nonneg
  · calc |x * x' - y * y'| = |(x' - y') * x + (x - y) * y'| := by congr 1; ring
      _ ≤ |x' - y'| * |x| + |x - y| * |y'| := by
          rw [← abs_mul, ← abs_mul]
          exact abs_add_le _ _
      _ ≤ ((1 + u) ^ k' - 1) * Y' * ((1 + u) ^ k * Y) + ((1 + u) ^ k - 1) * Y * Y' :=
          add_le_add hclose hscale
      _ = ((1 + u) ^ (k + k') - 1) * (Y * Y') := by ring

omit [IsStrictOrderedRing K] in
theorem Err.neg (h : Err u k x y Y) : Err u k (-x) (-y) Y := by
  refine ⟨by rw [abs_neg]; exact h.scale, ?_⟩
  rw [neg_sub_neg, abs_sub_comm]
  exact h.close

/-- The operands that a loop of additions meets. -/
def operands {α ι : Type*} (add : α → α → α) (f : ι → α) : α → List ι → List (α × α)
  | _, [] => []
  | x, i :: is => (x, f i) :: operands add f (add x (f i)) is

/-- **A loop of rounded additions.** Each round adds one rounding to everything summed so far. -/
theorem Err.foldl {ι : Type*} (hu : 0 ≤ u) {add : K → K → K} {f g G : ι → K} (is : List ι) :
    ∀ {x y Y : K} {k : ℕ},
      (∀ p ∈ operands add f x is, |add p.1 p.2 - (p.1 + p.2)| ≤ u * |p.1 + p.2|) →
      Err u k x y Y → (∀ i ∈ is, Err u k (f i) (g i) (G i)) →
      Err u (k + is.length) (is.foldl (fun acc i => add acc (f i)) x)
        (y + (is.map g).sum) (Y + (is.map G).sum) := by
  induction is with
  | nil =>
      intro x y Y k _ h _
      rw [List.map_nil, List.map_nil, List.sum_nil, add_zero, add_zero]
      exact h
  | cons i is ih =>
      intro x y Y k hadd h hf
      have hstep : Err u (k + 1) (add x (f i)) (y + g i) (Y + G i) :=
        (h.add (hf i List.mem_cons_self)).round hu (hadd _ List.mem_cons_self)
      have hrest := ih (fun p hp => hadd p (List.mem_cons_of_mem _ hp)) hstep
        (fun j hj => (hf j (List.mem_cons_of_mem i hj)).mono hu (Nat.le_succ k))
      rw [List.map_cons, List.map_cons, List.sum_cons, List.sum_cons, ← add_assoc, ← add_assoc,
        List.length_cons, Nat.add_comm is.length 1, ← Nat.add_assoc]
      exact hrest

end Rounded
