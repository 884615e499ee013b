import Mathlib.Data.Nat.Bitwise
import Mathlib.Data.Finset.Prod
import Mathlib.Data.Finset.Card

/-!
# Interleaved bits

`evenBits n v` has the low `n` bits of `v` at its even positions and zeros at the odd
ones, and `interleave n x y` has those of `y` at the even and those of `x` at the odd
positions. For numbers of at most `n` bits the interleaving is a bijection onto the
numbers of twice as many bits.
-/

namespace Memory

/-- The bit `i` of a number. -/
def bitAt (v i : ℕ) : ℕ := (v >>> i) &&& 1

def evenBits : (n v : ℕ) → ℕ
  | 0, _ => 0
  | n + 1, v => evenBits n v ||| bitAt v n <<< (2 * n)

def interleave (n x y : ℕ) : ℕ := evenBits n y ||| evenBits n x <<< 1

theorem testBit_bitAt_shiftLeft (v i k j : ℕ) :
    (bitAt v i <<< k).testBit j = (decide (j = k) && v.testBit i) := by
  rw [Nat.testBit_shiftLeft, bitAt, Nat.testBit_and, Nat.testBit_shiftRight]
  rcases lt_trichotomy j k with h | rfl | h
  · simp [h.ne, Nat.not_le.2 h]
  · simp
  · have hone : Nat.testBit 1 (j - k) = false :=
      Nat.testBit_lt_two_pow (Nat.one_lt_two_pow (by omega))
    have hne : j ≠ k := by omega
    simp [hne, hone]

theorem testBit_evenBits (n v j : ℕ) :
    (evenBits n v).testBit j = (decide (j % 2 = 0 ∧ j / 2 < n) && v.testBit (j / 2)) := by
  induction n with
  | zero => simp [evenBits]
  | succ n ih =>
      rw [evenBits, Nat.testBit_or, ih, testBit_bitAt_shiftLeft]
      by_cases hj : j = 2 * n
      · subst hj
        simp
      · have hiff : (j % 2 = 0 ∧ j / 2 < n + 1) ↔ (j % 2 = 0 ∧ j / 2 < n) := by omega
        simp only [hiff, hj, decide_false, Bool.false_and, Bool.or_false]

theorem testBit_interleave_even {n x y i : ℕ} (hi : i < n) :
    (interleave n x y).testBit (2 * i) = y.testBit i := by
  rw [interleave, Nat.testBit_or, testBit_evenBits, Nat.testBit_shiftLeft, testBit_evenBits]
  have h1 : 2 * i / 2 = i := by omega
  have h2 : ¬ (2 * i - 1) % 2 = 0 ∨ ¬ 1 ≤ 2 * i := by omega
  rcases h2 with h2 | h2 <;> simp [h1, h2, hi]

theorem testBit_interleave_odd {n x y i : ℕ} (hi : i < n) :
    (interleave n x y).testBit (2 * i + 1) = x.testBit i := by
  rw [interleave, Nat.testBit_or, testBit_evenBits, Nat.testBit_shiftLeft, testBit_evenBits]
  have h1 : (2 * i + 1) % 2 = 1 := by omega
  simp [h1, hi]

theorem evenBits_lt (n v : ℕ) : evenBits n v < 2 ^ (2 * n) := by
  refine Nat.lt_pow_two_of_testBit _ fun j hj => ?_
  rw [testBit_evenBits]
  have : ¬ (j % 2 = 0 ∧ j / 2 < n) := by omega
  simp [this]

theorem interleave_lt {n x y k : ℕ} (hx : x < 2 ^ k) (hy : y < 2 ^ k) :
    interleave n x y < 2 ^ (2 * k) := by
  refine Nat.lt_pow_two_of_testBit _ fun j hj => ?_
  have hbit : ∀ {v i : ℕ}, v < 2 ^ k → k ≤ i → v.testBit i = false := fun hv hi =>
    Nat.testBit_lt_two_pow (hv.trans_le (Nat.pow_le_pow_right Nat.zero_lt_two hi))
  rw [interleave, Nat.testBit_or, testBit_evenBits, Nat.testBit_shiftLeft, testBit_evenBits,
    hbit hy (by omega)]
  by_cases hpos : (j - 1) % 2 = 0
  · rw [hbit hx (by omega)]
    simp
  · simp [hpos]

/-- The arguments can be read off the interleaving. -/
theorem interleave_injective {n x y x' y' : ℕ} (hx : x < 2 ^ n) (hy : y < 2 ^ n)
    (hx' : x' < 2 ^ n) (hy' : y' < 2 ^ n) (h : interleave n x y = interleave n x' y') :
    x = x' ∧ y = y' := by
  have hhigh : ∀ {v w i : ℕ}, v < 2 ^ n → w < 2 ^ n → ¬ i < n → v.testBit i = w.testBit i := by
    intro v w i hv hw hi
    have hpow := Nat.pow_le_pow_right Nat.zero_lt_two (not_lt.1 hi)
    rw [Nat.testBit_lt_two_pow (hv.trans_le hpow), Nat.testBit_lt_two_pow (hw.trans_le hpow)]
  constructor
  · refine Nat.eq_of_testBit_eq fun i => ?_
    by_cases hi : i < n
    · rw [← testBit_interleave_odd (y := y) hi, h, testBit_interleave_odd hi]
    · exact hhigh hx hx' hi
  · refine Nat.eq_of_testBit_eq fun i => ?_
    by_cases hi : i < n
    · rw [← testBit_interleave_even (x := x) hi, h, testBit_interleave_even hi]
    · exact hhigh hy hy' hi

/-- For a square of side `2 ^ k` the interleaving meets every index once. -/
theorem interleave_bijOn {n k : ℕ} (hk : k ≤ n) :
    Set.BijOn (fun p : ℕ × ℕ => interleave n p.1 p.2) (Set.Iio (2 ^ k) ×ˢ Set.Iio (2 ^ k))
      (Set.Iio (2 ^ k * 2 ^ k)) := by
  have hpow : 2 ^ k * 2 ^ k = 2 ^ (2 * k) := by rw [← pow_add, two_mul]
  have hle : (2 : ℕ) ^ k ≤ 2 ^ n := Nat.pow_le_pow_right Nat.zero_lt_two hk
  have hmaps : Set.MapsTo (fun p : ℕ × ℕ => interleave n p.1 p.2)
      (Set.Iio (2 ^ k) ×ˢ Set.Iio (2 ^ k)) (Set.Iio (2 ^ k * 2 ^ k)) := by
    rintro ⟨x, y⟩ ⟨hx, hy⟩
    rw [hpow]
    exact interleave_lt hx hy
  have hinj : Set.InjOn (fun p : ℕ × ℕ => interleave n p.1 p.2)
      (Set.Iio (2 ^ k) ×ˢ Set.Iio (2 ^ k)) := by
    rintro ⟨x, y⟩ ⟨hx, hy⟩ ⟨x', y'⟩ ⟨hx', hy'⟩ h
    obtain ⟨rfl, rfl⟩ := interleave_injective (lt_of_lt_of_le hx hle) (lt_of_lt_of_le hy hle)
      (lt_of_lt_of_le hx' hle) (lt_of_lt_of_le hy' hle) h
    rfl
  refine ⟨hmaps, hinj, ?_⟩
  have hsurj := Finset.surjOn_of_injOn_of_card_le
    (s := Finset.range (2 ^ k) ×ˢ Finset.range (2 ^ k)) (t := Finset.range (2 ^ k * 2 ^ k))
    (fun p : ℕ × ℕ => interleave n p.1 p.2)
    (by simpa using hmaps) (by simpa using hinj) (by simp)
  simpa using hsurj

end Memory
