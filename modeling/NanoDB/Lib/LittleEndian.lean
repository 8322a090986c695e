/-
Fixed-width integers as little-endian bytes.

`encode w n` is what `memcpy` from a `w`-byte unsigned integer leaves in memory and
`decode` reads it back; the pair `encode_signed`, `decode_signed` does the same for two's
complement. A number outside the range of its width is stored modulo `256 ^ w`, which
`decode_encode` states, so nothing here asks for a bound.
-/
import Mathlib.Data.Nat.Basic
import Mathlib.Tactic.Common
import Mathlib.Tactic.Positivity

set_option autoImplicit false

namespace LittleEndian

/-- The `w` low bytes of `n`, lowest first. -/
def encode : ℕ → ℕ → List UInt8
  | 0, _ => []
  | w + 1, n => UInt8.ofNat n :: encode w (n / 256)

/-- The number a byte list stands for. -/
def decode : List UInt8 → ℕ
  | [] => 0
  | b :: bs => b.toNat + 256 * decode bs

/-- Two's complement in `w` bytes. -/
def encode_signed (w : ℕ) (z : ℤ) : List UInt8 := encode w (z % (256 ^ w : ℕ)).toNat

def decode_signed (w : ℕ) (bs : List UInt8) : ℤ := Int.bmod (decode bs) (256 ^ w)

@[simp] theorem length_encode (w n : ℕ) : (encode w n).length = w := by
  induction w generalizing n with
  | zero => rfl
  | succ w ih => rw [encode, List.length_cons, ih]

@[simp] theorem length_encode_signed (w : ℕ) (z : ℤ) : (encode_signed w z).length = w :=
  length_encode w _

/-- **Reading back** gives the number modulo the width. -/
theorem decode_encode (w n : ℕ) : decode (encode w n) = n % 256 ^ w := by
  induction w generalizing n with
  | zero => simp [encode, decode, Nat.mod_one]
  | succ w ih =>
      rw [encode, decode, ih, pow_succ, Nat.mul_comm (256 ^ w) 256, Nat.mod_mul]
      rw [UInt8.toNat_ofNat']

theorem decode_encode_of_lt {w n : ℕ} (h : n < 256 ^ w) : decode (encode w n) = n := by
  rw [decode_encode, Nat.mod_eq_of_lt h]

theorem decode_lt (bs : List UInt8) : decode bs < 256 ^ bs.length := by
  induction bs with
  | nil => simp [decode]
  | cons b bs ih =>
      have hb : b.toNat < 256 := b.toNat_lt
      rw [decode, List.length_cons, pow_succ]
      omega

/-- Bytes are the encoding of the number they stand for. -/
theorem encode_decode (bs : List UInt8) : encode bs.length (decode bs) = bs := by
  induction bs with
  | nil => rfl
  | cons b bs ih =>
      have hb : b.toNat < 256 := b.toNat_lt
      have hhead : UInt8.ofNat (b.toNat + 256 * decode bs) = b := by
        apply UInt8.toNat_inj.mp
        rw [UInt8.toNat_ofNat']
        omega
      have htail : (b.toNat + 256 * decode bs) / 256 = decode bs := by omega
      rw [decode, List.length_cons, encode, hhead, htail, ih]

/-- A number in the signed range is read back as it was. -/
theorem decode_encode_signed {w : ℕ} {z : ℤ} (hlo : -(256 ^ w : ℤ) ≤ 2 * z)
    (hhi : 2 * z < 256 ^ w) : decode_signed w (encode_signed w z) = z := by
  unfold decode_signed encode_signed
  have hpos : (0 : ℤ) < (256 ^ w : ℕ) := by positivity
  have hnonneg : 0 ≤ z % (256 ^ w : ℕ) := Int.emod_nonneg _ (ne_of_gt hpos)
  have hlt : (z % (256 ^ w : ℕ)).toNat < 256 ^ w := by
    have := Int.emod_lt_of_pos z hpos
    omega
  rw [decode_encode_of_lt hlt, Int.toNat_of_nonneg hnonneg, Int.emod_bmod]
  push_cast at hpos hlo hhi
  apply Int.bmod_eq_of_le
  · push_cast
    omega
  · push_cast
    omega

/-- A signed number that is not negative is the unsigned one. -/
theorem toNat_decode_signed {w : ℕ} {bs : List UInt8} (hw : bs.length = w)
    (h : 0 ≤ decode_signed w bs) : (decode_signed w bs).toNat = decode bs := by
  have hlt := decode_lt bs
  rw [hw] at hlt
  have hmod : ((decode bs : ℕ) : ℤ) % ((256 ^ w : ℕ) : ℤ) = decode bs :=
    Int.emod_eq_of_lt (by omega) (by omega)
  unfold decode_signed at h ⊢
  rw [Int.bmod_def, hmod] at h ⊢
  split_ifs at h ⊢ <;> omega

section Streams

variable {w n : ℕ} {rest : List UInt8}

@[simp] theorem take_encode (w n : ℕ) (rest : List UInt8) :
    (encode w n ++ rest).take w = encode w n := by
  rw [List.take_append_of_le_length (by simp), List.take_of_length_le (by simp)]

@[simp] theorem drop_encode (w n : ℕ) (rest : List UInt8) :
    (encode w n ++ rest).drop w = rest := by
  rw [List.drop_append_of_le_length (by simp), List.drop_of_length_le (by simp), List.nil_append]

end Streams

end LittleEndian
