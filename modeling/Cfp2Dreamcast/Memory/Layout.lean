import Cfp2Dreamcast.Memory.Bytes
import Mathlib.Data.List.Basic
import Mathlib.Data.Nat.Notation
import Mathlib.Tactic.Common

/-!
# What a list of stores leaves behind

`laidOut L` is the memory that the stores of `L` write, as a partial map: the value
stored last at each address. `block a xs` is the map that holds `xs` from the address
`a` on and nothing else, which is what the stores `storesOf a xs` leave.
-/

namespace Memory

variable {α : Type}

/-- The value stored last at an address. -/
def laidOut : List (ℕ × α) → ℕ → Option α
  | [], _ => none
  | (b, v) :: L, a => (laidOut L a).or (if b = a then some v else none)

/-- The values `xs` from the address `b` on. -/
def block (b : ℕ) (xs : List α) (a : ℕ) : Option α := if b ≤ a then xs[a - b]? else none

/-- The stores of `xs` to consecutive addresses. -/
def storesOf (b : ℕ) : List α → List (ℕ × α)
  | [] => []
  | x :: xs => (b, x) :: storesOf (b + 1) xs

theorem laidOut_append (L L' : List (ℕ × α)) (a : ℕ) :
    laidOut (L ++ L') a = (laidOut L' a).or (laidOut L a) := by
  induction L with
  | nil =>
      rw [List.nil_append, laidOut]
      exact Option.or_none.symm
  | cons x L ih =>
      rw [List.cons_append, laidOut, laidOut, ih, Option.or_assoc]

theorem block_of_lt {b a : ℕ} (xs : List α) (h : a < b) : block b xs a = none :=
  if_neg (Nat.not_le.2 h)

theorem block_add (b i : ℕ) (xs : List α) : block b xs (b + i) = xs[i]? := by
  rw [block, if_pos (Nat.le_add_right b i), Nat.add_sub_cancel_left]

theorem block_cons (b : ℕ) (x : α) (xs : List α) (a : ℕ) :
    block b (x :: xs) a = (block (b + 1) xs a).or (if b = a then some x else none) := by
  rcases Nat.lt_trichotomy a b with h | rfl | h
  · rw [block_of_lt _ h, block_of_lt _ (by omega), if_neg (by omega)]
    rfl
  · rw [block_of_lt xs (Nat.lt_succ_self a), if_pos rfl]
    exact block_add a 0 (x :: xs)
  · obtain ⟨i, rfl⟩ : ∃ i, a = b + 1 + i := ⟨a - (b + 1), by omega⟩
    rw [block_add, if_neg (by omega), Option.or_none, Nat.add_assoc, block_add, Nat.add_comm 1]
    rfl

theorem laidOut_storesOf (b : ℕ) (xs : List α) : laidOut (storesOf b xs) = block b xs := by
  funext a
  induction xs generalizing b with
  | nil => exact (ite_self none).symm
  | cons x xs ih => rw [storesOf, laidOut, ih, block_cons]

theorem storesOf_append (b : ℕ) (xs ys : List α) :
    storesOf b (xs ++ ys) = storesOf b xs ++ storesOf (b + xs.length) ys := by
  induction xs generalizing b with
  | nil => rfl
  | cons x xs ih =>
      rw [List.cons_append, storesOf, storesOf, List.cons_append, ih, List.length_cons,
        Nat.add_assoc, Nat.add_comm 1]

/-- One more store inside the block. -/
theorem block_set (b : ℕ) {xs : List α} {i : ℕ} (hi : i < xs.length) (v : α) (a : ℕ) :
    block b (xs.set i v) a = (if b + i = a then some v else none).or (block b xs a) := by
  by_cases hb : b ≤ a
  · obtain ⟨j, rfl⟩ := Nat.exists_eq_add_of_le hb
    rw [block_add, block_add]
    by_cases hij : i = j
    · subst hij
      rw [List.getElem?_set_self hi, if_pos rfl]
      rfl
    · rw [List.getElem?_set_ne hij, if_neg (by omega)]
      rfl
  · rw [block_of_lt _ (by omega), block_of_lt _ (by omega), if_neg (by omega)]
    rfl

/-- The addresses of a block. -/
theorem exists_block_iff {b a : ℕ} {xs : List α} :
    (∃ v, block b xs a = some v) ↔ b ≤ a ∧ a < b + xs.length := by
  by_cases hb : b ≤ a
  · obtain ⟨i, rfl⟩ := Nat.exists_eq_add_of_le hb
    rw [block_add]
    constructor
    · rintro ⟨v, hv⟩
      have := (List.getElem?_eq_some_iff.1 hv).1
      omega
    · rintro ⟨-, hi⟩
      exact ⟨_, List.getElem?_eq_getElem (by omega)⟩
  · rw [block_of_lt _ (by omega)]
    exact iff_of_false (by rintro ⟨v, h⟩; cases h) (by omega)

/-- The addresses at which a list stores. -/
theorem exists_laidOut_iff {L : List (ℕ × α)} {a : ℕ} :
    (∃ v, laidOut L a = some v) ↔ ∃ v, (a, v) ∈ L := by
  induction L with
  | nil => simp [laidOut]
  | cons x L ih =>
      obtain ⟨b, w⟩ := x
      rw [← Option.isSome_iff_exists] at ih ⊢
      rw [laidOut, Option.isSome_or, Bool.or_eq_true, ih]
      constructor
      · rintro (⟨v, hv⟩ | h)
        · exact ⟨v, List.mem_cons_of_mem _ hv⟩
        · by_cases hb : b = a
          · exact ⟨w, hb ▸ List.mem_cons_self⟩
          · rw [if_neg hb] at h
            cases h
      · rintro ⟨v, hv⟩
        rcases List.mem_cons.1 hv with heq | hv
        · cases heq
          right
          rw [if_pos rfl]
          rfl
        · exact .inl ⟨v, hv⟩

section Cells

variable {φ : ℕ → ℕ} {L : List (ℕ × α)}

/-- The cell of an address holds what is stored at the address, when the stores to
other addresses go to other cells. -/
theorem laidOut_map_apply {a : ℕ} (hφ : ∀ x ∈ L, φ x.1 = φ a → x.1 = a) :
    laidOut (L.map (Prod.map φ id)) (φ a) = laidOut L a := by
  induction L with
  | nil => rfl
  | cons x L ih =>
      have hcell : φ x.1 = φ a ↔ x.1 = a := ⟨hφ x List.mem_cons_self, congrArg φ⟩
      rw [List.map_cons, Prod.map, laidOut, laidOut,
        ih fun y hy => hφ y (List.mem_cons_of_mem _ hy)]
      simp only [hcell, id]

theorem laidOut_map_of_ne {c : ℕ} (hφ : ∀ x ∈ L, φ x.1 ≠ c) :
    laidOut (L.map (Prod.map φ id)) c = none := by
  induction L with
  | nil => rfl
  | cons x L ih =>
      rw [List.map_cons, Prod.map, laidOut, ih fun y hy => hφ y (List.mem_cons_of_mem _ hy),
        if_neg (hφ x List.mem_cons_self)]
      rfl

/-- A run of bytes in a memory whose addresses share cells. -/
theorem setBytes_eq_laidOut (φ : ℕ → ℕ) (m : Mem) (a : ℕ) (bs : List UInt8) (c : ℕ) :
    setBytes φ m a bs c = (laidOut ((storesOf a bs).map (Prod.map φ id)) c).getD (m c) := by
  induction bs generalizing m a with
  | nil => rfl
  | cons b bs ih =>
      rw [setBytes_cons, ih, storesOf, List.map_cons, Prod.map, laidOut]
      cases laidOut ((storesOf (a + 1) bs).map (Prod.map φ id)) c with
      | some v => rfl
      | none =>
          by_cases hc : φ a = c
          · subst hc
            simp
          · rw [if_neg hc]
            exact Function.update_of_ne (Ne.symm hc) b m

end Cells

end Memory
