import Mathlib.Data.List.Basic

/-!
# Searching a list

`find xs pat i` is the first position at or after `i` where the pattern occurs,
and `scan` is the loop that restarts the search one position after each hit. It
visits every occurrence once, overlapping ones included.
-/

namespace Memory

variable {α β : Type} [BEq α]

/-- The pattern occurs at position `i`. -/
def occursAt (xs pat : List α) (i : ℕ) : Bool := pat.isPrefixOf (xs.drop i)

/-- The first occurrence at or after `i`. -/
def find (xs pat : List α) (i : ℕ) : Option ℕ :=
  (List.range' i (xs.length + 1 - i)).find? (occursAt xs pat)

theorem find_some {xs pat : List α} {i j : ℕ} (h : find xs pat i = some j) :
    i ≤ j ∧ j ≤ xs.length ∧ occursAt xs pat j = true := by
  have hmem := List.mem_of_find?_eq_some h
  have hocc := List.find?_some h
  rw [List.mem_range'_1] at hmem
  exact ⟨hmem.1, by omega, hocc⟩

/-- A pattern whose first element does not occur before it is found where it is. -/
theorem find_of_not_mem {α : Type} [BEq α] [LawfulBEq α] {a : α} {pat zs ws : List α}
    (h : a ∉ zs) : find (zs ++ (a :: pat ++ ws)) (a :: pat) 0 = some zs.length := by
  have hat : occursAt (zs ++ (a :: pat ++ ws)) (a :: pat) zs.length = true := by
    rw [occursAt, List.drop_left, List.isPrefixOf_iff_prefix]
    exact List.prefix_append _ _
  have hbefore : ∀ j < zs.length,
      (!occursAt (zs ++ (a :: pat ++ ws)) (a :: pat) j) = true := by
    intro j hj
    have hdrop : (zs ++ (a :: pat ++ ws)).drop j =
        zs[j] :: (zs.drop (j + 1) ++ (a :: pat ++ ws)) := by
      rw [List.drop_append_of_le_length (by omega), List.drop_eq_getElem_cons hj,
        List.cons_append]
    have hne : a ≠ zs[j] := fun heq => h (heq ▸ List.getElem_mem hj)
    rw [occursAt, hdrop, List.isPrefixOf, beq_false_of_ne hne, Bool.false_and]
    rfl
  rw [find, List.find?_range'_eq_some]
  refine ⟨hat, List.mem_range'_1.2 ⟨Nat.zero_le _, ?_⟩, fun j _ hj => hbefore j hj⟩
  rw [List.length_append]
  omega

/-- The loop over all hits, from position `i` on. -/
def scan (xs pat : List α) (f : ℕ → β) (i : ℕ) : List β :=
  match h : find xs pat i with
  | none => []
  | some j => f j :: scan xs pat f (j + 1)
termination_by xs.length + 1 - i
decreasing_by
  have := find_some h
  omega

/-- Searching a range of positions for the first hit splits the range there. -/
theorem filter_range'_of_find (p : ℕ → Bool) (i n : ℕ) :
    (List.range' i n).filter p =
      match (List.range' i n).find? p with
      | none => []
      | some j => j :: (List.range' (j + 1) (i + n - (j + 1))).filter p := by
  induction n generalizing i with
  | zero => rfl
  | succ n ih =>
      rw [List.range'_succ, List.filter_cons, List.find?_cons]
      cases hp : p i with
      | true =>
          simp only [if_true]
          rw [show i + (n + 1) - (i + 1) = n by omega]
      | false =>
          simp only [Bool.false_eq_true, if_false]
          rw [ih, show i + 1 + n = i + (n + 1) by omega]

theorem scan_eq_filter (xs pat : List α) (f : ℕ → β) (i : ℕ) :
    scan xs pat f i =
      ((List.range' i (xs.length + 1 - i)).filter (occursAt xs pat)).map f := by
  induction i using scan.induct xs pat with
  | case1 i hnone =>
      unfold scan
      rw [filter_range'_of_find]
      unfold find at hnone
      split
      · simp [hnone]
      · next j hj =>
        unfold find at hj
        cases hnone.symm.trans hj
  | case2 i j hsome ih =>
      unfold scan
      rw [filter_range'_of_find]
      have hle := find_some hsome
      split
      · next hnone => cases hsome.symm.trans hnone
      · next j' hj =>
        cases hsome.symm.trans hj
        unfold find at hsome
        rw [hsome, ih, List.map_cons, show i + (xs.length + 1 - i) - (j + 1) =
          xs.length + 1 - (j + 1) by omega]

/-- The loop from the start visits exactly the occurrences, in order. -/
theorem scan_zero (xs pat : List α) (f : ℕ → β) :
    scan xs pat f 0 = ((List.range (xs.length + 1)).filter (occursAt xs pat)).map f := by
  rw [scan_eq_filter, Nat.sub_zero, List.range_eq_range']

end Memory
