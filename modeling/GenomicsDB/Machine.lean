import Mathlib.Tactic.Ring

/-!
# Machine words of the query header

The header computes with `char`, `int`, `int64_t` and `size_t`, and writes the raw
bytes of such values into its output files. This module fixes how the model
represents them:

* a `char` is the byte it stores, a natural below `256`, and a file or a buffer is the
  list of its bytes; `charByte` turns a signed `char` constant such as `-1` into its byte,
  and `toInt8` reads a byte back as the signed value;
* an `int` or an `int64_t` is an integer, and `toInt32` / `toInt64` bring a value that
  leaves the type's range back into it, the two's complement wrap-around of the
  platforms the code is built for;
* `bytesLE w n` is what `write((char*)&n, w)` puts into a file on a little-endian
  machine, and `ofBytesLE` reads it back.
-/

namespace GenomicsDB

/-- The byte a `char` holding the integer `c` stores. -/
def charByte (c : ℤ) : ℕ := (c % 256).toNat

/-- Conversion to a signed `char` (8 bits, two's complement; `char` is signed on the
platforms the code is built for). -/
def toInt8 (x : ℤ) : ℤ := x.bmod (2 ^ 8)

/-- Conversion to `int` (32 bits, two's complement). -/
def toInt32 (x : ℤ) : ℤ := x.bmod (2 ^ 32)

/-- Conversion to `int64_t` (64 bits, two's complement). -/
def toInt64 (x : ℤ) : ℤ := x.bmod (2 ^ 64)

/-- The `w` low bytes of `n`, least significant first. -/
def bytesLE : ℕ → ℕ → List ℕ
  | 0, _ => []
  | w + 1, n => n % 256 :: bytesLE w (n / 256)

/-- The number whose little-endian bytes are given. -/
def ofBytesLE : List ℕ → ℕ
  | [] => 0
  | b :: bs => b + 256 * ofBytesLE bs

@[simp] theorem length_bytesLE (w n : ℕ) : (bytesLE w n).length = w := by
  induction w generalizing n with
  | zero => rfl
  | succ w ih => simp [bytesLE, ih]

/-- Reading back the bytes of `n` gives `n` modulo the width. -/
theorem ofBytesLE_bytesLE (w n : ℕ) : ofBytesLE (bytesLE w n) = n % 256 ^ w := by
  induction w generalizing n with
  | zero => simp [bytesLE, ofBytesLE, Nat.mod_one]
  | succ w ih =>
    rw [bytesLE, ofBytesLE, ih, pow_succ, Nat.mul_comm (256 ^ w), Nat.mod_mul]

theorem ofBytesLE_bytesLE_of_lt {w n : ℕ} (h : n < 256 ^ w) : ofBytesLE (bytesLE w n) = n := by
  rw [ofBytesLE_bytesLE, Nat.mod_eq_of_lt h]

/-- A 4-byte size field reads back as the size, below `2 ^ 32`. -/
theorem ofBytesLE_bytesLE_four {n : ℕ} (h : n < 2 ^ 32) : ofBytesLE (bytesLE 4 n) = n :=
  ofBytesLE_bytesLE_of_lt (lt_of_lt_of_eq h rfl)

/-- A value already in the range of `int` is unchanged by the conversion. -/
theorem toInt32_of_lt {x : ℤ} (h₀ : -2 ^ 31 ≤ x) (h₁ : x < 2 ^ 31) : toInt32 x = x := by
  rw [toInt32, Int.bmod_def]
  split <;> omega

/-- Adding to a wrapped value and wrapping again is wrapping the exact sum. -/
@[simp] theorem toInt32_toInt32_add (x y : ℤ) : toInt32 (toInt32 x + y) = toInt32 (x + y) :=
  Int.bmod_add_bmod_congr

/-- `int64_t` arithmetic differs from the exact one by a multiple of `2 ^ 64`. -/
theorem toInt64_eq_add (x : ℤ) : ∃ k, toInt64 x = x + 2 ^ 64 * k := by
  obtain ⟨k, hk⟩ : ((2 ^ 64 : ℕ) : ℤ) ∣ toInt64 x - x := Int.dvd_bmod_sub_self
  exact ⟨k, by push_cast at hk; omega⟩

/-- A multiple of `2 ^ 64` does not change the `int` a value ends as. -/
theorem toInt32_add_pow64 (x k : ℤ) : toInt32 (x + 2 ^ 64 * k) = toInt32 x := by
  have h : (2 : ℤ) ^ 64 * k = ((2 ^ 32 : ℕ) : ℤ) * (2 ^ 32 * k) := by push_cast; ring
  rw [toInt32, h, Int.bmod_add_mul_cancel, toInt32]

end GenomicsDB
