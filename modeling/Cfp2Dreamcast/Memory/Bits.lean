import Mathlib.Data.Nat.Bitwise
import Mathlib.Tactic.Ring

/-!
# Masks as arithmetic

Address and register code selects bit fields with constant masks. The lemmas
here turn a mask over a run of bits into division and remainder, which linear
arithmetic can use, and describe how setting high bits acts on the low ones.
-/

namespace Memory

/-- Selecting the `k` bits above the lowest `m`. -/
theorem and_field (x m k : ℕ) :
    x &&& (2 ^ k - 1) * 2 ^ m = x / 2 ^ m % 2 ^ k * 2 ^ m := by
  apply Nat.eq_of_testBit_eq
  intro i
  rw [Nat.testBit_and, Nat.testBit_mul_two_pow, Nat.testBit_mul_two_pow,
    Nat.testBit_two_pow_sub_one, Nat.testBit_mod_two_pow,
    Nat.testBit_div_two_pow]
  by_cases hi : m ≤ i
  · simp only [hi, decide_true, Bool.true_and, Nat.sub_add_cancel]
    exact Bool.and_comm _ _
  · simp [hi]

theorem and_low (x k : ℕ) : x &&& (2 ^ k - 1) = x % 2 ^ k :=
  Nat.and_two_pow_sub_one_eq_mod x k

/-- Setting bits at or above position `k` leaves the low `k` bits alone. -/
theorem or_high_mod (x y k : ℕ) : (x ||| y * 2 ^ k) % 2 ^ k = x % 2 ^ k := by
  rw [Nat.or_mod_two_pow, Nat.mul_mod_left, Nat.or_zero]

/-- Setting clear high bits is adding them. -/
theorem or_high_eq_add {x k : ℕ} (hx : x < 2 ^ k) (y : ℕ) :
    x ||| y * 2 ^ k = x + y * 2 ^ k := by
  rw [Nat.or_comm, Nat.mul_comm, Nat.add_comm]
  exact (Nat.two_pow_add_eq_or_of_lt hx y).symm

/-- The value of a 32-bit register after an operation on integers. -/
def u32 (x : ℕ) : ℕ := x % 2 ^ 32

/-- 32-bit subtraction. -/
def sub32 (x y : ℕ) : ℕ := (x + (2 ^ 32 - y % 2 ^ 32)) % 2 ^ 32

theorem u32_lt (x : ℕ) : u32 x < 2 ^ 32 := Nat.mod_lt _ (by decide)

theorem u32_of_lt {x : ℕ} (hx : x < 2 ^ 32) : u32 x = x := Nat.mod_eq_of_lt hx

/-- A wrapped difference below `n` places `x` in the window of length `n` that
starts at `y`. -/
theorem sub32_lt_iff {x y n : ℕ} (hx : x < 2 ^ 32) (hn : y + n ≤ 2 ^ 32) :
    sub32 x y < n ↔ y ≤ x ∧ x < y + n := by
  unfold sub32
  omega

end Memory
