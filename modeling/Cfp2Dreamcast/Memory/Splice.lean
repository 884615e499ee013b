import Mathlib.Data.Nat.Notation
import Mathlib.Tactic.Common

/-!
# Overwriting part of a byte string

`splice xs a ys` writes `ys` over `xs` from position `a` on. Inside its length it
changes the written positions and no others.
-/

namespace Memory

variable {α : Type}

def splice (xs : List α) (a : ℕ) (ys : List α) : List α :=
  xs.take a ++ ys ++ xs.drop (a + ys.length)

/-- The slice assignment `xs[a:b] = ys`, which changes the length when `ys` is not as
long as the slice. -/
def setSlice (xs : List α) (a b : ℕ) (ys : List α) : List α := xs.take a ++ ys ++ xs.drop b

theorem setSlice_eq_splice {xs ys : List α} {a b : ℕ} (h : a + ys.length = b) :
    setSlice xs a b ys = splice xs a ys := by
  rw [setSlice, splice, h]

theorem length_setSlice {xs ys : List α} {a b : ℕ} (ha : a ≤ xs.length) :
    (setSlice xs a b ys).length = a + ys.length + (xs.length - b) := by
  rw [setSlice, List.length_append, List.length_append, List.length_take_of_le ha,
    List.length_drop]

/-- The values before the slice stay. -/
theorem getElem?_setSlice_of_lt {xs ys : List α} {a b i : ℕ} (ha : a ≤ xs.length) (hi : i < a) :
    (setSlice xs a b ys)[i]? = xs[i]? := by
  have htake : (xs.take a).length = a := List.length_take_of_le ha
  rw [setSlice, List.append_assoc, List.getElem?_append_left (by omega),
    List.getElem?_take_of_lt hi]

theorem length_splice {xs ys : List α} {a : ℕ} (h : a + ys.length ≤ xs.length) :
    (splice xs a ys).length = xs.length := by
  simp only [splice, List.length_append, List.length_take, List.length_drop]
  omega

theorem getElem?_splice_of_mem {xs ys : List α} {a i : ℕ} (h : a + ys.length ≤ xs.length)
    (hlo : a ≤ i) (hhi : i < a + ys.length) : (splice xs a ys)[i]? = ys[i - a]? := by
  have htake : (xs.take a).length = a := by
    rw [List.length_take]
    omega
  rw [splice, List.append_assoc, List.getElem?_append_right (by omega), htake,
    List.getElem?_append_left (by omega)]

theorem getElem?_splice_of_not_mem {xs ys : List α} {a i : ℕ}
    (h : a + ys.length ≤ xs.length) (hi : i < a ∨ a + ys.length ≤ i) :
    (splice xs a ys)[i]? = xs[i]? := by
  have htake : (xs.take a).length = a := by
    rw [List.length_take]
    omega
  rw [splice, List.append_assoc]
  rcases hi with hi | hi
  · rw [List.getElem?_append_left (by omega), List.getElem?_take_of_lt hi]
  · rw [List.getElem?_append_right (by omega), htake, List.getElem?_append_right (by omega),
      List.getElem?_drop]
    congr 1
    omega

/-- Splices of lists that agree at a position outside the written ones agree there. -/
theorem getElem?_splice_congr {xs xs' ys : List α} {a i : ℕ} (h : a + ys.length ≤ xs.length)
    (h' : a + ys.length ≤ xs'.length)
    (hxs : i < a ∨ a + ys.length ≤ i → xs[i]? = xs'[i]?) :
    (splice xs a ys)[i]? = (splice xs' a ys)[i]? := by
  by_cases hi : i < a ∨ a + ys.length ≤ i
  · rw [getElem?_splice_of_not_mem h hi, getElem?_splice_of_not_mem h' hi, hxs hi]
  · rw [getElem?_splice_of_mem h (by omega) (by omega),
      getElem?_splice_of_mem h' (by omega) (by omega)]

/-- A slice is known by its elements. -/
theorem take_drop_eq_iff {xs ys : List α} {a : ℕ} :
    (xs.drop a).take ys.length = ys ↔ ∀ i, a ≤ i → i < a + ys.length → xs[i]? = ys[i - a]? := by
  constructor
  · intro heq i hlo hhi
    rw [← heq, List.getElem?_take_of_lt (by omega), List.getElem?_drop]
    congr 1
    omega
  · intro hall
    apply List.ext_getElem?
    intro i
    by_cases hi : i < ys.length
    · rw [List.getElem?_take_of_lt hi, List.getElem?_drop, hall (a + i) (by omega) (by omega),
        Nat.add_sub_cancel_left]
    · rw [List.getElem?_eq_none (by rw [List.length_take]; omega),
        List.getElem?_eq_none (by omega)]

/-- A slice before the written positions stays. -/
theorem take_drop_splice {xs ys : List α} {a b n : ℕ} (h : a + ys.length ≤ xs.length)
    (hb : b + n ≤ a) : ((splice xs a ys).drop b).take n = (xs.drop b).take n := by
  apply List.ext_getElem?
  intro i
  rw [List.getElem?_take, List.getElem?_take]
  split
  · rw [List.getElem?_drop, List.getElem?_drop,
      getElem?_splice_of_not_mem h (.inl (by omega))]
  · rfl

end Memory
