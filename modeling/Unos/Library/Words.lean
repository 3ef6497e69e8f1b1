import Mathlib.Data.Nat.Bitwise
import Mathlib.Tactic.Common

namespace Unos.Words

/-- A `uint32_t` is a natural number below `2^32`; addition and subtraction that may leave that
range are wrapped explicitly. -/
@[irreducible] def wrap32 (n : ℕ) : ℕ := n % 4294967296

/-- `a - b` on 32 bits. -/
@[irreducible] def sub32 (a b : ℕ) : ℕ := (4294967296 - b % 4294967296 + a) % 4294967296

@[simp] theorem wrap32_lt (n : ℕ) : wrap32 n < 4294967296 := by
  unfold wrap32
  omega

@[simp] theorem sub32_lt (a b : ℕ) : sub32 a b < 4294967296 := by
  unfold sub32
  omega

theorem wrap32_of_lt {n : ℕ} (h : n < 4294967296) : wrap32 n = n := by
  unfold wrap32
  omega

theorem sub32_of_le {a b : ℕ} (hb : b ≤ a) (ha : a < 4294967296) : sub32 a b = a - b := by
  unfold sub32
  omega

theorem sub32_sub32 (a b c : ℕ) : sub32 (sub32 a b) c = sub32 a (b + c) := by
  unfold sub32
  omega

theorem wrap32_add_left (a b : ℕ) : wrap32 (wrap32 a + b) = wrap32 (a + b) := by
  unfold wrap32
  omega

theorem sub32_wrap32_add {a : ℕ} (ha : a < 4294967296) (b : ℕ) : sub32 (wrap32 (a + b)) b = a := by
  unfold sub32 wrap32
  omega

theorem sub32_eq_iff {a b c : ℕ} (ha : a < 2147483648) (hb : b ≤ 2147483648)
    (hc : c < 2147483648) : sub32 a b = c ↔ c + b = a := by
  unfold sub32
  omega

/-- A mask of the bits `k..n-1` rounds an `n`-bit number down to a multiple of `2^k`. -/
theorem and_high_mask {x n k : ℕ} (hx : x < 2 ^ n) (hk : k ≤ n) :
    x &&& (2 ^ n - 2 ^ k) = 2 ^ k * (x / 2 ^ k) := by
  have hmask : 2 ^ n - 2 ^ k = (2 ^ (n - k) - 1) <<< k := by
    rw [Nat.shiftLeft_eq, Nat.sub_mul, one_mul, ← pow_add, Nat.sub_add_cancel hk]
  apply Nat.eq_of_testBit_eq
  intro i
  rw [hmask, Nat.testBit_and, Nat.testBit_shiftLeft, Nat.testBit_two_pow_sub_one,
    Nat.testBit_two_pow_mul]
  by_cases hi : k ≤ i
  · have hdiv : (x / 2 ^ k).testBit (i - k) = x.testBit i := by
      rw [Nat.testBit_div_two_pow, Nat.sub_add_cancel hi]
    by_cases hin : i < n
    · simp [hi, hdiv, show i - k < n - k by omega]
    · have hz : x.testBit i = false :=
        Nat.testBit_lt_two_pow (hx.trans_le (Nat.pow_le_pow_right (by decide) (by omega)))
      simp [hi, hdiv, hz]
  · simp [hi]

/-- A mask of the low `k` bits is the remainder modulo `2^k`. -/
theorem and_low_mask (x k : ℕ) : x &&& (2 ^ k - 1) = x % 2 ^ k := Nat.and_two_pow_sub_one_eq_mod x k

theorem or_low_bits {k b : ℕ} (hb : b < 2 ^ k) (a : ℕ) : 2 ^ k * a ||| b = 2 ^ k * a + b :=
  (Nat.two_pow_add_eq_or_of_lt hb a).symm

end Unos.Words
