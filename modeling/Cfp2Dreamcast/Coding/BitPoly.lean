import Mathlib.Algebra.Field.ZMod
import Mathlib.Algebra.Polynomial.Div
import Mathlib.Data.Nat.Bitwise

/-!
# Numbers as polynomials over GF(2)

`bitPoly n` is the polynomial whose coefficient at `X ^ i` is the bit `i` of `n`.
Exclusive or of numbers is addition of their polynomials and a shift to the left is
multiplication by a power of `X`. A number of at most `w` bits has a polynomial of
degree less than `w`, and no other number has the same polynomial.
-/

namespace Coding

open Polynomial

noncomputable def bitPoly (n : ℕ) : (ZMod 2)[X] :=
  ∑ i ∈ Finset.range n, if n.testBit i then X ^ i else 0

/-- The bits of a number are the coefficients of its polynomial. -/
theorem coeff_bitPoly (n i : ℕ) : (bitPoly n).coeff i = if n.testBit i then 1 else 0 := by
  have hterm : ∀ j, (if n.testBit j then (X : (ZMod 2)[X]) ^ j else 0).coeff i =
      if i = j then (if n.testBit j then 1 else 0) else 0 := by
    intro j
    by_cases hj : n.testBit j
    · rw [if_pos hj, if_pos hj, coeff_X_pow]
    · rw [if_neg hj, if_neg hj, coeff_zero, ite_self]
  rw [bitPoly, finsetSum_coeff, Finset.sum_congr rfl fun j _ => hterm j,
    Finset.sum_ite_eq]
  by_cases hi : n.testBit i
  · -- a bit that is set lies below the number itself
    have hlt : i < n := Nat.lt_two_pow_self.trans_le (Nat.ge_two_pow_of_testBit hi)
    rw [if_pos (Finset.mem_range.2 hlt)]
  · rw [if_neg hi, ite_self]

theorem bitPoly_injective {m n : ℕ} (h : bitPoly m = bitPoly n) : m = n := by
  refine Nat.eq_of_testBit_eq fun i => ?_
  have hcoeff : (bitPoly m).coeff i = (bitPoly n).coeff i := by rw [h]
  rw [coeff_bitPoly, coeff_bitPoly] at hcoeff
  cases hm : m.testBit i <;> cases hn : n.testBit i <;> simp [hm, hn] at hcoeff ⊢

@[simp] theorem bitPoly_zero : bitPoly 0 = 0 := by
  simp [bitPoly]

theorem bitPoly_xor (m n : ℕ) : bitPoly (m ^^^ n) = bitPoly m + bitPoly n := by
  ext i
  have htwo : (1 : ZMod 2) + 1 = 0 := by decide
  rw [coeff_add, coeff_bitPoly, coeff_bitPoly, coeff_bitPoly, Nat.testBit_xor]
  cases m.testBit i <;> cases n.testBit i <;> simp [htwo]

theorem bitPoly_shiftLeft (n k : ℕ) : bitPoly (n <<< k) = bitPoly n * X ^ k := by
  ext i
  rw [coeff_mul_X_pow', coeff_bitPoly, coeff_bitPoly, Nat.testBit_shiftLeft]
  by_cases hk : k ≤ i
  · simp [hk]
  · simp [hk]

theorem bitPoly_two_pow (k : ℕ) : bitPoly (2 ^ k) = X ^ k := by
  ext i
  rw [coeff_bitPoly, coeff_X_pow, Nat.testBit_two_pow]
  by_cases hi : k = i
  · simp [hi]
  · simp [hi, Ne.symm hi]

theorem degree_bitPoly_lt {n w : ℕ} (h : n < 2 ^ w) : (bitPoly n).degree < w := by
  rw [degree_lt_iff_coeff_zero]
  intro i hi
  have hbit : n.testBit i = false :=
    Nat.testBit_lt_two_pow (h.trans_le (Nat.pow_le_pow_right Nat.zero_lt_two hi))
  rw [coeff_bitPoly, hbit, if_neg Bool.false_ne_true]

end Coding
