import Cfp2Dreamcast.Coding.BitPoly
import Mathlib.RingTheory.AdjoinRoot

/-!
# Cyclic redundancy checks

A check register of `w` bits is shifted to the left once for each bit of the message,
and the number `t` is added to it when a bit leaves it at the top. Modulo the generator
`X ^ w + t` a shift is multiplication by `X`, so a run over the message is the remainder
of a polynomial division (`bitPoly_register`). A generator with a constant term has no
factor `X`: it divides no polynomial whose coefficients are in a window of `w` places,
so a change in such a window changes the register (`register_ne_of_burst`).
-/

namespace Coding

open Polynomial

noncomputable def generator (w t : ℕ) : (ZMod 2)[X] := X ^ w + bitPoly t

/-- One bit of the register. -/
def shiftBit (w t n : ℕ) : ℕ :=
  if n.testBit (w - 1) then ((n <<< 1) ^^^ t) % 2 ^ w else (n <<< 1) % 2 ^ w

/-- One byte: it is added to the upper bits of the register, which then takes eight
shifts. -/
def shiftByte (w t n : ℕ) (b : UInt8) : ℕ := (shiftBit w t)^[8] (n ^^^ b.toNat <<< (w - 8))

def register (w t n : ℕ) (data : List UInt8) : ℕ := data.foldl (shiftByte w t) n

/-- The message polynomial, most significant bit first. -/
noncomputable def message : List UInt8 → (ZMod 2)[X]
  | [] => 0
  | b :: data => bitPoly b.toNat * X ^ (8 * data.length) + message data

/-- The bit `i` of a message, most significant bit first. -/
def messageBit (data : List UInt8) (i : ℕ) : Bool :=
  (data.getD (i / 8) 0).toNat.testBit (7 - i % 8)

section Message

theorem messageBit_cons_of_lt (b : UInt8) (data : List UInt8) {i : ℕ} (hi : i < 8) :
    messageBit (b :: data) i = b.toNat.testBit (7 - i) := by
  rw [messageBit, Nat.div_eq_of_lt hi, Nat.mod_eq_of_lt hi, List.getD_cons_zero]

theorem messageBit_cons_add (b : UInt8) (data : List UInt8) (i : ℕ) :
    messageBit (b :: data) (i + 8) = messageBit data i := by
  rw [messageBit, Nat.add_div_right i (by decide), Nat.add_mod_right, List.getD_cons_succ]
  rfl

/-- The coefficients of a message are its bits, the last one at `X ^ 0`. -/
theorem coeff_message (data : List UInt8) (j : ℕ) :
    (message data).coeff j =
      if j < 8 * data.length ∧ messageBit data (8 * data.length - 1 - j) then 1 else 0 := by
  induction data with
  | nil => simp [message]
  | cons b data ih =>
      rw [message, coeff_add, coeff_mul_X_pow', coeff_bitPoly, ih, List.length_cons]
      by_cases hj : j < 8 * data.length
      · have hpos : 8 * (data.length + 1) - 1 - j = 8 * data.length - 1 - j + 8 := by omega
        have hlt : j < 8 * (data.length + 1) := by omega
        rw [if_neg (Nat.not_le.2 hj), zero_add, hpos, messageBit_cons_add]
        simp only [hj, hlt, true_and]
      · have hle : 8 * data.length ≤ j := Nat.not_lt.1 hj
        have hrest : ¬ (j < 8 * data.length ∧ messageBit data (8 * data.length - 1 - j)) :=
          fun h => hj h.1
        rw [if_pos hle, if_neg hrest, add_zero]
        by_cases hlt : j < 8 * (data.length + 1)
        · have hpos : 8 * (data.length + 1) - 1 - j < 8 := by omega
          have hbit : 7 - (8 * (data.length + 1) - 1 - j) = j - 8 * data.length := by omega
          rw [messageBit_cons_of_lt b data hpos, hbit]
          simp only [hlt, true_and]
        · -- above the message there are no bits of the first byte either
          have hbit : b.toNat.testBit (j - 8 * data.length) = false := by
            refine Nat.testBit_lt_two_pow (b.toNat_lt.trans_le ?_)
            exact Nat.pow_le_pow_right Nat.zero_lt_two (by omega)
          rw [hbit, if_neg Bool.false_ne_true, if_neg fun h => hlt h.1]

/-- Messages of one length with the same polynomial are equal. -/
theorem message_injective {data data' : List UInt8} (hlen : data.length = data'.length)
    (h : message data = message data') : data = data' := by
  induction data generalizing data' with
  | nil => exact (List.eq_nil_of_length_eq_zero hlen.symm).symm
  | cons b data ih =>
      obtain ⟨b', data', rfl⟩ := List.exists_cons_of_length_eq_add_one hlen.symm
      replace hlen : data.length = data'.length := Nat.succ.inj hlen
      have hbyte : b = b' := by
        refine UInt8.toNat_inj.1 (bitPoly_injective ?_)
        ext i
        have hcoeff : (message (b :: data)).coeff (i + 8 * data.length) =
            (message (b' :: data')).coeff (i + 8 * data.length) := by rw [h]
        have hhigh : ¬ i + 8 * data'.length < 8 * data'.length := by omega
        rw [message, message, coeff_add, coeff_add, coeff_mul_X_pow, hlen, coeff_mul_X_pow,
          coeff_message data', coeff_message data, hlen, if_neg fun h => hhigh h.1,
          if_neg fun h => hhigh h.1, add_zero, add_zero] at hcoeff
        exact hcoeff
      rw [message, message, hbyte, hlen] at h
      rw [hbyte, ih hlen (add_left_cancel h)]

end Message

section Register

open AdjoinRoot

variable {w t n : ℕ}

theorem degree_bitPoly_lt_degree_X_pow (ht : t < 2 ^ w) :
    (bitPoly t).degree < (X ^ w : (ZMod 2)[X]).degree := by
  rw [degree_X_pow]
  exact degree_bitPoly_lt ht

theorem generator_monic (ht : t < 2 ^ w) : (generator w t).Monic :=
  monic_X_pow_add (degree_bitPoly_lt ht)

theorem degree_generator (ht : t < 2 ^ w) : (generator w t).degree = w := by
  rw [generator, degree_add_eq_left_of_degree_lt (degree_bitPoly_lt_degree_X_pow ht),
    degree_X_pow]

theorem shiftBit_lt (w t n : ℕ) : shiftBit w t n < 2 ^ w := by
  unfold shiftBit
  split
  · exact Nat.mod_lt _ (Nat.two_pow_pos w)
  · exact Nat.mod_lt _ (Nat.two_pow_pos w)

/-- The bit that leaves the register, with the number that is added for it. -/
def overflow (w t n : ℕ) : ℕ := if n.testBit (w - 1) then 2 ^ w ^^^ t else 0

theorem shiftBit_xor_overflow (hw : 0 < w) (ht : t < 2 ^ w) (hn : n < 2 ^ w) :
    shiftBit w t n ^^^ overflow w t n = n <<< 1 := by
  have hhigh : ∀ {m : ℕ}, m < 2 ^ w → ∀ i, w ≤ i → m.testBit i = false := fun hm i hi =>
    Nat.testBit_lt_two_pow (hm.trans_le (Nat.pow_le_pow_right Nat.zero_lt_two hi))
  refine Nat.eq_of_testBit_eq fun i => ?_
  rw [Nat.testBit_xor]
  rcases lt_trichotomy i w with hi | rfl | hi
  · -- below the top the number that was added cancels
    unfold shiftBit overflow
    split
    · rw [Nat.testBit_mod_two_pow, Nat.testBit_xor, Nat.testBit_xor, Nat.testBit_two_pow]
      simp [hi, hi.ne']
    · simp [Nat.testBit_mod_two_pow, hi]
  · rw [hhigh (shiftBit_lt i t n) i le_rfl, Nat.testBit_shiftLeft, overflow]
    split
    · next htop => 
        rw [Nat.testBit_xor, Nat.testBit_two_pow_self, hhigh ht i le_rfl, htop]
        simp [Nat.one_le_iff_ne_zero.2 hw.ne']
    · next htop => simp [htop]
  · have hshift : (n <<< 1).testBit i = false := by
      rw [Nat.testBit_shiftLeft, hhigh hn (i - 1) (by omega), Bool.and_false]
    rw [hhigh (shiftBit_lt w t n) i hi.le, hshift, overflow]
    split
    · simp [Nat.testBit_xor, hhigh ht i hi.le, hi.ne]
    · simp

/-- Modulo the generator a shift is multiplication by `X`. -/
theorem mk_shiftBit (hw : 0 < w) (ht : t < 2 ^ w) (hn : n < 2 ^ w) :
    mk (generator w t) (bitPoly (shiftBit w t n)) =
      mk (generator w t) (bitPoly n) * root (generator w t) := by
  have hoverflow : mk (generator w t) (bitPoly (overflow w t n)) = 0 := by
    unfold overflow
    split
    · rw [bitPoly_xor, bitPoly_two_pow]
      exact mk_self
    · rw [bitPoly_zero, map_zero]
  have hshift := congrArg (fun m => mk (generator w t) (bitPoly m))
    (shiftBit_xor_overflow hw ht hn)
  rw [bitPoly_xor, bitPoly_shiftLeft, map_add, hoverflow, add_zero, map_mul, pow_one, mk_X]
    at hshift
  exact hshift

theorem mk_iterate_shiftBit (hw : 0 < w) (ht : t < 2 ^ w) (hn : n < 2 ^ w) (k : ℕ) :
    mk (generator w t) (bitPoly ((shiftBit w t)^[k] n)) =
      mk (generator w t) (bitPoly n) * root (generator w t) ^ k := by
  induction k generalizing n with
  | zero => rw [Function.iterate_zero_apply, pow_zero, mul_one]
  | succ k ih =>
      rw [Function.iterate_succ_apply, ih (shiftBit_lt w t n), mk_shiftBit hw ht hn, mul_assoc,
        ← pow_succ']

/-- A byte moves the message so far eight places up and is added below it. -/
theorem mk_shiftByte (hw : 8 ≤ w) (ht : t < 2 ^ w) (hn : n < 2 ^ w) (b : UInt8) :
    mk (generator w t) (bitPoly (shiftByte w t n b)) =
      mk (generator w t) (bitPoly n) * root (generator w t) ^ 8 +
        mk (generator w t) (bitPoly b.toNat) * root (generator w t) ^ w := by
  have hbyte : b.toNat <<< (w - 8) < 2 ^ w := by
    have hpow : 2 ^ w = 2 ^ 8 * 2 ^ (w - 8) := by rw [← pow_add, Nat.add_sub_cancel' hw]
    rw [Nat.shiftLeft_eq, hpow]
    exact Nat.mul_lt_mul_of_pos_right b.toNat_lt (Nat.two_pow_pos (w - 8))
  have hplace : root (generator w t) ^ w =
      root (generator w t) ^ (w - 8) * root (generator w t) ^ 8 := by
    rw [← pow_add, Nat.sub_add_cancel hw]
  rw [shiftByte, mk_iterate_shiftBit (by omega) ht (Nat.xor_lt_two_pow hn hbyte), bitPoly_xor,
    bitPoly_shiftLeft, map_add, map_mul, map_pow, mk_X, add_mul, mul_assoc, ← hplace]

theorem shiftByte_lt (w t n : ℕ) (b : UInt8) : shiftByte w t n b < 2 ^ w := by
  rw [shiftByte, Function.iterate_succ_apply']
  exact shiftBit_lt w t _

theorem register_lt (hn : n < 2 ^ w) (data : List UInt8) : register w t n data < 2 ^ w := by
  induction data generalizing n with
  | nil => exact hn
  | cons b data ih => exact ih (shiftByte_lt w t n b)

theorem mk_register (hw : 8 ≤ w) (ht : t < 2 ^ w) (hn : n < 2 ^ w) (data : List UInt8) :
    mk (generator w t) (bitPoly (register w t n data)) =
      mk (generator w t) (bitPoly n * X ^ (8 * data.length) + message data * X ^ w) := by
  induction data generalizing n with
  | nil => simp [register, message]
  | cons b data ih =>
      have hstep : register w t n (b :: data) = register w t (shiftByte w t n b) data := rfl
      rw [hstep, ih (shiftByte_lt w t n b), message, List.length_cons]
      simp only [map_add, map_mul, map_pow, mk_X, mk_shiftByte hw ht hn b]
      ring

/-- The register after a message is the remainder of a polynomial division. -/
theorem bitPoly_register (hw : 8 ≤ w) (ht : t < 2 ^ w) (hn : n < 2 ^ w) (data : List UInt8) :
    bitPoly (register w t n data) =
      (bitPoly n * X ^ (8 * data.length) + message data * X ^ w) %ₘ generator w t := by
  have hmonic := generator_monic ht
  have hself : bitPoly (register w t n data) %ₘ generator w t =
      bitPoly (register w t n data) := by
    rw [modByMonic_eq_self_iff hmonic, degree_generator ht]
    exact degree_bitPoly_lt (register_lt hn data)
  rw [← hself]
  exact modByMonic_eq_of_dvd_sub hmonic (mk_eq_mk.1 (mk_register hw ht hn data))

/-- A generator with a constant term has no factor `X`. -/
theorem isCoprime_generator_X_pow (hw : 0 < w) (hodd : t.testBit 0) (k : ℕ) :
    IsCoprime (generator w t) (X ^ k) := by
  have hconst : (generator w t).coeff 0 = 1 := by
    rw [generator, coeff_add, coeff_X_pow, coeff_bitPoly, if_neg hw.ne, if_pos hodd, zero_add]
  refine IsCoprime.pow_right ⟨1, -(generator w t).divX, ?_⟩
  have hdivX := divX_mul_X_add (generator w t)
  rw [hconst, map_one] at hdivX
  linear_combination -hdivX

/-- The generator divides no polynomial whose coefficients are all in a window of `w`
places. -/
theorem eq_zero_of_dvd_of_window (hw : 0 < w) (ht : t < 2 ^ w) (hodd : t.testBit 0)
    {d : (ZMod 2)[X]} {s : ℕ} (hdvd : generator w t ∣ d)
    (hwindow : ∀ j, j < s ∨ s + w ≤ j → d.coeff j = 0) : d = 0 := by
  obtain ⟨e, rfl⟩ := X_pow_dvd_iff.2 fun j hj => hwindow j (Or.inl hj)
  have hdvd' : generator w t ∣ e := (isCoprime_generator_X_pow hw hodd s).dvd_of_dvd_mul_left hdvd
  have hdegree : e.degree < w := by
    rw [degree_lt_iff_coeff_zero]
    intro j hj
    have hj' := hwindow (j + s) (Or.inr (by omega))
    rwa [coeff_X_pow_mul] at hj'
  rw [eq_zero_of_dvd_of_degree_lt hdvd' (hdegree.trans_eq (degree_generator ht).symm), mul_zero]

/-- A change of a message inside a window of `w` bits changes the register. -/
theorem register_ne_of_burst (hw : 8 ≤ w) (ht : t < 2 ^ w) (hodd : t.testBit 0)
    (hn : n < 2 ^ w) {data data' : List UInt8} (hlen : data.length = data'.length) {k : ℕ}
    (hburst : ∀ i, i < k ∨ k + w ≤ i → messageBit data i = messageBit data' i)
    (hne : data ≠ data') : register w t n data ≠ register w t n data' := by
  intro heq
  have hmk := congrArg (fun m => mk (generator w t) (bitPoly m)) heq
  rw [mk_register hw ht hn, mk_register hw ht hn, mk_eq_mk, hlen, add_sub_add_left_eq_sub,
    ← sub_mul] at hmk
  have hdvd := (isCoprime_generator_X_pow (by omega) hodd w).dvd_of_dvd_mul_right hmk
  refine hne (message_injective hlen (sub_eq_zero.1 ?_))
  refine eq_zero_of_dvd_of_window (s := 8 * data.length - (k + w)) (by omega) ht hodd hdvd ?_
  intro j hj
  rw [coeff_sub, coeff_message, coeff_message, ← hlen, sub_eq_zero]
  by_cases hlt : j < 8 * data.length
  · rw [hburst (8 * data.length - 1 - j) (by omega)]
  · rw [if_neg fun h => hlt h.1, if_neg fun h => hlt h.1]

end Register

end Coding
