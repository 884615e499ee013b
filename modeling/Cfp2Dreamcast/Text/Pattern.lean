import Mathlib.Data.List.Forall2
import Mathlib.Data.List.TakeWhile

/-!
# Anchored patterns

A pattern is a sequence of literals and of runs: a run takes one or more characters
of a class and is captured. `match?` is the search of a backtracking matcher: each run
takes as many characters as it can and gives them back one by one while the rest of
the pattern does not match. A pattern may match a prefix of the text.
-/

namespace Text

inductive Item where
  | lit (s : List Char)
  | many (cls : Char → Bool)

abbrev Pattern := List Item

/-- The first result of `f` at `k`, `k - 1`, ..., `1`. -/
def backtrack {α : Type} (f : ℕ → Option α) : ℕ → Option α
  | 0 => none
  | k + 1 => (f (k + 1)).or (backtrack f k)

/-- The groups of the match at the start of the text. -/
def match? : Pattern → List Char → Option (List (List Char))
  | [], _ => some []
  | .lit s :: p, text =>
      if s.isPrefixOf text then match? p (text.drop s.length) else none
  | .many cls :: p, text =>
      backtrack (fun k => (match? p (text.drop k)).map (text.take k :: ·))
        (text.takeWhile cls).length

/-- The classes of the groups, in order. -/
def classes : Pattern → List (Char → Bool)
  | [] => []
  | .lit _ :: p => classes p
  | .many cls :: p => cls :: classes p

theorem exists_of_backtrack {α : Type} {f : ℕ → Option α} {k : ℕ} {a : α}
    (h : backtrack f k = some a) : ∃ i, 0 < i ∧ i ≤ k ∧ f i = some a := by
  induction k with
  | zero => cases h
  | succ k ih =>
      rw [backtrack, Option.or_eq_some_iff] at h
      rcases h with h | ⟨-, h⟩
      · exact ⟨k + 1, k.succ_pos, Nat.le_refl _, h⟩
      · obtain ⟨i, hi, hle, hf⟩ := ih h
        exact ⟨i, hi, Nat.le_succ_of_le hle, hf⟩

/-- A group is a nonempty run of its class. -/
def Run (cls : Char → Bool) (g : List Char) : Prop := g ≠ [] ∧ ∀ c ∈ g, cls c = true

theorem match?_groups {p : Pattern} {text : List Char} {gs : List (List Char)}
    (h : match? p text = some gs) : List.Forall₂ Run (classes p) gs := by
  induction p generalizing text gs with
  | nil =>
      cases h
      exact .nil
  | cons item p ih =>
      cases item with
      | lit s =>
          rw [match?] at h
          split at h
          · exact ih h
          · cases h
      | many cls =>
          obtain ⟨k, hk, hle, hf⟩ := exists_of_backtrack h
          obtain ⟨gs', hgs', rfl⟩ := Option.map_eq_some_iff.1 hf
          have htake : text.take k = (text.takeWhile cls).take k := by
            have hrun : text.takeWhile cls ++ text.dropWhile cls = text :=
              List.takeWhile_append_dropWhile
            rw [← hrun, List.take_append_of_le_length (hrun.symm ▸ hle), hrun]
          refine .cons ⟨?_, fun c hc => ?_⟩ (ih hgs')
          · rw [htake]
            intro hnil
            have hlen := congrArg List.length hnil
            rw [List.length_take, List.length_nil] at hlen
            omega
          · rw [htake] at hc
            exact List.mem_takeWhile_imp (List.mem_of_mem_take hc)

/-- The group `i` of a match is a run of its class. -/
theorem run_group {p : Pattern} {text : List Char} {gs : List (List Char)} {i : ℕ}
    {cls : Char → Bool} (h : match? p text = some gs) (hi : (classes p)[i]? = some cls) :
    Run cls (gs.getD i []) := by
  have hgs := match?_groups h
  clear h
  generalize classes p = cs at hgs hi
  induction hgs generalizing i with
  | nil => cases hi
  | cons hrun hrest ih =>
      cases i with
      | zero =>
          cases hi
          exact hrun
      | succ i => exact ih hi

/-- A text that a pattern matches starts with the literal the pattern starts with. -/
theorem prefix_of_match? {s text : List Char} {p : Pattern} {gs : List (List Char)}
    (h : match? (.lit s :: p) text = some gs) : s <+: text := by
  rw [match?] at h
  split at h
  · next hs => exact List.isPrefixOf_iff_prefix.1 hs
  · cases h

end Text
