/-
The distance kernels of `src/index/distance.cpp`: `l2_distance`, `cosine_distance`,
`inner_product_distance` and the dispatcher `compute_distance`.

A kernel adds eight lanes side by side, folds the lanes into one number and finishes with the
coordinates behind the last full block. The order of additions is not that of the plain sum, so
what it returns is the plain sum only up to rounding. How far it is off depends on how many
additions one summand goes through, and that is the point of the eight lanes: `dim / 8` in its
lane, eight in the reduction, seven at most in the tail, not `dim`.

# The one awkward thing, named up front

The operations are a parameter, `FloatOps`. The results are about every instance that rounds with a
relative error of at most `u` at the operands the kernel meets on its vectors (`Rounds`). Single
precision does so, with `u = 2 ^ -24`, as long as nothing overflows or underflows on the way. The
build passes `-mfma`, which lets the compiler fuse `acc + x * y`; that is the instance whose `mul`
is exact. With `u = 0` the bounds are equations.
-/
import NanoDB.Lib.Rounded
import Mathlib.Algebra.BigOperators.Fin
import Mathlib.Data.Int.Log
import Mathlib.Data.Rat.Floor
import Mathlib.Data.Rat.Sqrt

set_option autoImplicit false

namespace NanoDB.Distance

open Rounded

/-- The floating-point operations the kernels use. `eps` is `1e-10f`. -/
structure FloatOps (α : Type*) where
  zero : α
  one : α
  eps : α
  add : α → α → α
  sub : α → α → α
  mul : α → α → α
  div : α → α → α
  neg : α → α
  sqrt : α → α
  lt : α → α → Bool

inductive DistanceMetric
  | L2
  | Cosine
  | InnerProduct
deriving DecidableEq, Repr

section Kernels

variable {α : Type*} (o : FloatOps α)

/-- `for (; i + 8 <= dim; i += 8) sum = _mm256_add_ps(sum, …)`. Block `j` starts at `i = 8 * j`. -/
def simd_loop (term : ℕ → α) (dim : ℕ) : Fin 8 → α :=
  (List.range (dim / 8)).foldl (fun sum j k => o.add (sum k) (term (8 * j + k)))
    (fun _ => o.zero)

/-- `for (int k = 0; k < 8; ++k) total += temp[k]`. -/
def horizontal_reduction (temp : Fin 8 → α) : α :=
  (List.finRange 8).foldl (fun total k => o.add total (temp k)) o.zero

/-- `for (; i < dim; ++i) total += …`, from where the blocks ended. -/
def scalar_tail (term : ℕ → α) (dim : ℕ) (total : α) : α :=
  (List.range' (8 * (dim / 8)) (dim % 8)).foldl (fun total i => o.add total (term i)) total

/-- The three loops all kernels share. -/
def accumulate (term : ℕ → α) (dim : ℕ) : α :=
  scalar_tail o term dim (horizontal_reduction o (simd_loop o term dim))

/-- The operands of the additions in the three loops. -/
def addends (term : ℕ → α) (dim : ℕ) : List (α × α) :=
  (List.finRange 8).flatMap (fun k : Fin 8 =>
      operands o.add (fun j => term (8 * j + k)) o.zero (List.range (dim / 8))) ++
    (operands o.add (simd_loop o term dim) o.zero (List.finRange 8) ++
    operands o.add term (horizontal_reduction o (simd_loop o term dim))
      (List.range' (8 * (dim / 8)) (dim % 8)))

def l2_distance (a b : ℕ → α) (dim : ℕ) : α :=
  accumulate o (fun i =>
    let d := o.sub (a i) (b i)
    o.mul d d) dim

def cosine_distance (a b : ℕ → α) (dim : ℕ) : α :=
  let dot := accumulate o (fun i => o.mul (a i) (b i)) dim
  let na := accumulate o (fun i => o.mul (a i) (a i)) dim
  let nb := accumulate o (fun i => o.mul (b i) (b i)) dim
  let denom := o.mul (o.sqrt na) (o.sqrt nb)
  -- zero-norm vectors count as maximally dissimilar
  if o.lt denom o.eps then o.one else o.sub o.one (o.div dot denom)

def inner_product_distance (a b : ℕ → α) (dim : ℕ) : α :=
  o.neg (accumulate o (fun i => o.mul (a i) (b i)) dim)

def compute_distance (a b : ℕ → α) (dim : ℕ) : DistanceMetric → α
  | .Cosine => cosine_distance o a b dim
  | .InnerProduct => inner_product_distance o a b dim
  | .L2 => l2_distance o a b dim

end Kernels

/-! ## One kernel loop

The lanes are separate folds, and together with the tail they visit every coordinate once. -/

section Loop

theorem foldl_pointwise {α β ι : Type*} (step : α → β → ι → α) (l : List β) (k : ι) :
    ∀ s : ι → α, l.foldl (fun s j k => step (s k) j k) s k
      = l.foldl (fun acc j => step acc j k) (s k) := by
  induction l with
  | nil => exact fun s => rfl
  | cons j l ih => exact fun s => ih _

/-- One lane of the vector loop. -/
theorem simd_loop_lane {α : Type*} (o : FloatOps α) (term : ℕ → α) (dim : ℕ) (k : Fin 8) :
    simd_loop o term dim k
      = (List.range (dim / 8)).foldl (fun sum j => o.add sum (term (8 * j + k))) o.zero :=
  foldl_pointwise (fun acc j (k : Fin 8) => o.add acc (term (8 * j + k))) _ k _

variable {M : Type*} [AddCommMonoid M]

theorem sum_map_range (g : ℕ → M) (n : ℕ) :
    ((List.range n).map g).sum = ∑ i ∈ Finset.range n, g i := rfl

theorem sum_blocks (g : ℕ → M) (n : ℕ) :
    ∑ k : Fin 8, ∑ j ∈ Finset.range n, g (8 * j + k) = ∑ i ∈ Finset.range (8 * n), g i := by
  induction n with
  | zero => simp
  | succ n ih =>
      have hblock : ∑ k : Fin 8, g (8 * n + k) = ∑ i ∈ Finset.range 8, g (8 * n + i) :=
        (Finset.sum_range (fun i => g (8 * n + i))).symm
      simp only [Finset.sum_range_succ]
      rw [Finset.sum_add_distrib, ih, hblock, Nat.mul_succ, Finset.sum_range_add]

theorem sum_map_range' (g : ℕ → M) (s n : ℕ) :
    ((List.range' s n).map g).sum = ∑ i ∈ Finset.range n, g (s + i) := by
  rw [List.range'_eq_map_range, List.map_map, sum_map_range]
  rfl

/-- **Every coordinate once.** -/
theorem sum_lanes_tail (g : ℕ → M) (dim : ℕ) :
    0 + ((List.finRange 8).map (fun k : Fin 8 =>
        0 + ((List.range (dim / 8)).map (fun j => g (8 * j + k))).sum)).sum
      + ((List.range' (8 * (dim / 8)) (dim % 8)).map g).sum = ∑ i ∈ Finset.range dim, g i := by
  simp only [zero_add, sum_map_range, sum_map_range']
  rw [← Fin.sum_univ_def, sum_blocks, ← Finset.sum_range_add, Nat.div_add_mod]

end Loop

/-! ## Rounding -/

section Rounding

variable {K : Type*} [Field K] [LinearOrder K] [IsStrictOrderedRing K]

/-- The operations round with a relative error of at most `u` at these operands. -/
structure Rounds (u : K) (o : FloatOps K) (adds subs muls : List (K × K)) : Prop where
  zero : o.zero = 0
  add : ∀ p ∈ adds, |o.add p.1 p.2 - (p.1 + p.2)| ≤ u * |p.1 + p.2|
  sub : ∀ p ∈ subs, |o.sub p.1 p.2 - (p.1 - p.2)| ≤ u * |p.1 - p.2|
  mul : ∀ p ∈ muls, |o.mul p.1 p.2 - p.1 * p.2| ≤ u * |p.1 * p.2|
  neg : ∀ x, o.neg x = -x

variable {u : K} {o : FloatOps K} {adds subs muls : List (K × K)}

/-- The additions a summand goes through, at most. -/
def additions (dim : ℕ) : ℕ := dim / 8 + 15

/-- **The error of a kernel loop**: the roundings of a summand and those of the additions it goes
through. -/
theorem accumulate_err (hu : 0 ≤ u) {m dim : ℕ} {term g G : ℕ → K}
    (ho : Rounds u o (addends o term dim) subs muls)
    (hterm : ∀ i < dim, Err u m (term i) (g i) (G i)) :
    Err u (m + additions dim) (accumulate o term dim) (∑ i ∈ Finset.range dim, g i)
      (∑ i ∈ Finset.range dim, G i) := by
  have hzero : Err u 0 o.zero 0 0 := by
    rw [ho.zero]
    exact Err.refl (le_of_eq abs_zero)
  have hlane : ∀ k : Fin 8, Err u (m + dim / 8) (simd_loop o term dim k)
      (0 + ((List.range (dim / 8)).map (fun j => g (8 * j + k))).sum)
      (0 + ((List.range (dim / 8)).map (fun j => G (8 * j + k))).sum) := by
    intro k
    rw [simd_loop_lane]
    have h := Err.foldl hu (List.range (dim / 8))
      (fun p hp => ho.add p (List.mem_append_left _
        (List.mem_flatMap.mpr ⟨k, List.mem_finRange k, hp⟩)))
      (hzero.mono hu (Nat.zero_le m)) (fun j hj => hterm (8 * j + k) (by
        have := List.mem_range.mp hj
        omega))
    rwa [List.length_range] at h
  have hreduced := Err.foldl hu (List.finRange 8)
    (fun p hp => ho.add p (List.mem_append_right _ (List.mem_append_left _ hp)))
    (hzero.mono hu (Nat.zero_le (m + dim / 8))) (fun k _ => hlane k)
  have htail := Err.foldl hu (List.range' (8 * (dim / 8)) (dim % 8))
    (fun p hp => ho.add p (List.mem_append_right _ (List.mem_append_right _ hp))) hreduced
    (fun i hi => (hterm i (by
      have := List.mem_range'_1.mp hi
      omega)).mono hu (by omega))
  rw [sum_lanes_tail, sum_lanes_tail, List.length_finRange, List.length_range'] at htail
  refine htail.mono hu ?_
  have hmod : dim % 8 < 8 := Nat.mod_lt _ (by omega)
  unfold additions
  omega

/-- A difference is rounded once before it is squared, and its square once more. -/
theorem l2_term_err (hu : 0 ≤ u) (ho : Rounds u o adds subs muls) {x y : K} (hsub : (x, y) ∈ subs)
    (hmul : (o.sub x y, o.sub x y) ∈ muls) :
    Err u 3 (o.mul (o.sub x y) (o.sub x y)) ((x - y) ^ 2) ((x - y) ^ 2) := by
  have hdiff : Err u 1 (o.sub x y) (x - y) |x - y| :=
    (Err.refl le_rfl).round hu (ho.sub _ hsub)
  have hsq := (hdiff.mul hdiff).round hu (ho.mul _ hmul)
  rwa [abs_mul_abs_self, ← sq] at hsq

theorem product_err (hu : 0 ≤ u) (ho : Rounds u o adds subs muls) {x y : K}
    (hmul : (x, y) ∈ muls) : Err u 1 (o.mul x y) (x * y) |x * y| :=
  (Err.refl le_rfl).round hu (ho.mul _ hmul)

/-- The pairs of coordinates. -/
def pairs (a b : ℕ → K) (dim : ℕ) : List (K × K) := (List.range dim).map (fun i => (a i, b i))

omit [Field K] [LinearOrder K] [IsStrictOrderedRing K] in
theorem mem_pairs (a b : ℕ → K) {dim i : ℕ} (hi : i < dim) : (a i, b i) ∈ pairs a b dim :=
  List.mem_map.mpr ⟨i, List.mem_range.mpr hi, rfl⟩

/-- Rounding in a run of `l2_distance`. -/
def RoundsL2 (u : K) (o : FloatOps K) (a b : ℕ → K) (dim : ℕ) : Prop :=
  let d := fun i => o.sub (a i) (b i)
  Rounds u o (addends o (fun i => o.mul (d i) (d i)) dim) (pairs a b dim) (pairs d d dim)

/-- Rounding in a run of `inner_product_distance`. -/
def RoundsProduct (u : K) (o : FloatOps K) (a b : ℕ → K) (dim : ℕ) : Prop :=
  Rounds u o (addends o (fun i => o.mul (a i) (b i)) dim) [] (pairs a b dim)

/-- **What the kernels compute.** If the operations of a run round, `l2_distance` is the squared
distance and `inner_product_distance` the negated dot product, up to the roundings one summand can
meet: `dim / 8` and a constant. -/
theorem compute_distance_error (hu : 0 ≤ u) (a b : ℕ → K) (dim : ℕ) :
    (RoundsL2 u o a b dim →
      |compute_distance o a b dim .L2 - ∑ i ∈ Finset.range dim, (a i - b i) ^ 2|
        ≤ ((1 + u) ^ (dim / 8 + 18) - 1) * ∑ i ∈ Finset.range dim, (a i - b i) ^ 2) ∧
    (RoundsProduct u o a b dim →
      |compute_distance o a b dim .InnerProduct + ∑ i ∈ Finset.range dim, a i * b i|
        ≤ ((1 + u) ^ (dim / 8 + 16) - 1) * ∑ i ∈ Finset.range dim, |a i * b i|) := by
  constructor
  · intro ho
    have hl2 := (accumulate_err hu ho (fun i hi => l2_term_err hu ho (mem_pairs a b hi)
      (mem_pairs (fun i => o.sub (a i) (b i)) _ hi))).close
    rwa [show 3 + additions dim = dim / 8 + 18 by unfold additions; omega] at hl2
  · intro ho
    have hdot := (accumulate_err hu ho
      (fun i hi => product_err hu ho (mem_pairs a b hi))).neg.close
    rw [show 1 + additions dim = dim / 8 + 16 by unfold additions; omega, sub_neg_eq_add,
      ← ho.neg] at hdot
    exact hdot

/-- Arithmetic without rounding. Square roots are those of perfect squares. -/
def exact_ops : FloatOps ℚ where
  zero := 0
  one := 1
  eps := 1 / 10 ^ 10
  add := (· + ·)
  sub := (· - ·)
  mul := (· * ·)
  div := (· / ·)
  neg := (- ·)
  sqrt := Rat.sqrt
  lt := fun x y => decide (x < y)

/-- To the nearest integer, ties to even. -/
def nearest (x : ℚ) : ℤ :=
  let n := ⌊x⌋
  if x - n < 1 / 2 ∨ (x - n = 1 / 2 ∧ n % 2 = 0) then n else n + 1

/-- Single precision: 24 bits, and no bits below `2 ^ -149`. What is too large for the format stays
at its largest number. -/
def single (x : ℚ) : ℚ :=
  let unit : ℚ := 2 ^ max (Int.log 2 |x| - 23) (-149)
  max (-(2 ^ 24 - 1) * 2 ^ 104) (min ((2 ^ 24 - 1) * 2 ^ 104) (nearest (x / unit) * unit))

def single_ops : FloatOps ℚ :=
  { exact_ops with
    add := fun x y => single (x + y)
    sub := fun x y => single (x - y)
    mul := fun x y => single (x * y) }

/-- Tenths, as single precision has them. -/
def tenths (i : ℕ) : ℚ := single (i / 10)

theorem tenths_round : RoundsL2 (1 / 2 ^ 24) single_ops tenths (fun _ => 1) 9 ∧
    RoundsProduct (1 / 2 ^ 24) single_ops tenths (fun _ => 1) 9 := by
  refine ⟨⟨rfl, ?_, ?_, ?_, fun _ => rfl⟩, ⟨rfl, ?_, ?_, ?_, fun _ => rfl⟩⟩ <;> decide +kernel

/-- Nine coordinates: one block and a tail of one, and some of the operations do round. -/
theorem compute_distance_error_tenths :
    compute_distance single_ops tenths (fun _ => 1) 9 .L2
        ≠ ∑ i ∈ Finset.range 9, (tenths i - 1) ^ 2 ∧
    |compute_distance single_ops tenths (fun _ => 1) 9 .L2
        - ∑ i ∈ Finset.range 9, (tenths i - 1) ^ 2|
      ≤ ((1 + 1 / 2 ^ 24) ^ 19 - 1) * ∑ i ∈ Finset.range 9, (tenths i - 1) ^ 2 ∧
    |compute_distance single_ops tenths (fun _ => 1) 9 .InnerProduct
        + ∑ i ∈ Finset.range 9, tenths i * 1|
      ≤ ((1 + 1 / 2 ^ 24) ^ 17 - 1) * ∑ i ∈ Finset.range 9, |tenths i * 1| := by
  obtain ⟨hl2, hproduct⟩ := compute_distance_error (u := 1 / 2 ^ 24) (o := single_ops)
    (by norm_num) tenths (fun _ => 1) 9
  exact ⟨by decide +kernel, hl2 tenths_round.1, hproduct tenths_round.2⟩

end Rounding

end NanoDB.Distance
