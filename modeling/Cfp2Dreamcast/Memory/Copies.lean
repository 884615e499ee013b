import Mathlib.Data.Nat.Notation
import Mathlib.Logic.Relation
import Mathlib.Tactic.Common

/-!
# Histories of copies

A store whose owner writes what it likes and has parts of a fixed source copied into it.
`after` is the store that a history of such changes leaves. What it holds depends neither
on how the copies are cut into pieces nor on the order of changes that do not meet.
-/

namespace Memory

/-- The values of the source from `src` on go to the positions from `dst` on. -/
structure Copy where
  dst : ℕ
  src : ℕ
  len : ℕ
  deriving DecidableEq, Repr

def Copy.Covers (k : Copy) (x : ℕ) : Prop := k.dst ≤ x ∧ x < k.dst + k.len

instance (k : Copy) (x : ℕ) : Decidable (k.Covers x) := inferInstanceAs (Decidable (_ ∧ _))

inductive Change (α : Type) where
  | copy (k : Copy)
  | patch (w : ℕ → Option α)

namespace Change

variable {α : Type}

def apply (f : ℕ → α) : Change α → (ℕ → α) → ℕ → α
  | copy k, m, x => if k.Covers x then f (k.src + (x - k.dst)) else m x
  | patch w, m, x => (w x).getD (m x)

/-- The positions that a change decides. -/
def Touches : Change α → ℕ → Prop
  | copy k, x => k.Covers x
  | patch w, x => w x ≠ none

variable {f : ℕ → α} {c c' : Change α} {m m' : ℕ → α} {x : ℕ}

theorem apply_of_not_touches (h : ¬ c.Touches x) : c.apply f m x = m x := by
  cases c with
  | copy k => exact if_neg h
  | patch w =>
      have hw : w x = none := not_not.1 h
      simp only [apply, hw, Option.getD_none]

theorem apply_of_touches (h : c.Touches x) : c.apply f m x = c.apply f m' x := by
  cases c with
  | copy k =>
      have hk : k.Covers x := h
      simp only [apply, if_pos hk]
  | patch w =>
      obtain ⟨v, hv⟩ := Option.ne_none_iff_exists'.1 h
      simp only [apply, hv, Option.getD_some]

theorem apply_congr (h : m x = m' x) : c.apply f m x = c.apply f m' x := by
  by_cases hc : c.Touches x
  · exact apply_of_touches hc
  · rw [apply_of_not_touches hc, apply_of_not_touches hc, h]

/-- Changes that do not meet can be made in either order. -/
theorem apply_comm (h : ∀ x, ¬ (c.Touches x ∧ c'.Touches x)) :
    c.apply f (c'.apply f m) = c'.apply f (c.apply f m) := by
  funext x
  by_cases hc : c.Touches x
  · have hc' : ¬ c'.Touches x := fun hc' => h x ⟨hc, hc'⟩
    rw [apply_of_not_touches hc', apply_of_touches hc]
  · rw [apply_of_not_touches hc]
    exact apply_congr (apply_of_not_touches hc).symm

/-- A copy made in two pieces. -/
theorem apply_cut (d s j k : ℕ) :
    (copy ⟨d + j, s + j, k⟩).apply f ((copy ⟨d, s, j⟩).apply f m) =
      (copy ⟨d, s, j + k⟩).apply f m := by
  funext x
  by_cases hlow : d ≤ x ∧ x < d + j
  · have hfirst : Copy.Covers ⟨d, s, j⟩ x := hlow
    have hsecond : ¬ Copy.Covers ⟨d + j, s + j, k⟩ x := fun h => absurd h.1 (by simp only; omega)
    have hwhole : Copy.Covers ⟨d, s, j + k⟩ x := ⟨hlow.1, by simp only; omega⟩
    simp only [apply, if_neg hsecond, if_pos hfirst, if_pos hwhole]
  · have hfirst : ¬ Copy.Covers ⟨d, s, j⟩ x := hlow
    by_cases hhigh : d + j ≤ x ∧ x < d + j + k
    · have hsecond : Copy.Covers ⟨d + j, s + j, k⟩ x := hhigh
      have hwhole : Copy.Covers ⟨d, s, j + k⟩ x := ⟨by simp only; omega, by simp only; omega⟩
      simp only [apply, if_pos hsecond, if_pos hwhole]
      congr 1
      omega
    · have hsecond : ¬ Copy.Covers ⟨d + j, s + j, k⟩ x := hhigh
      have hwhole : ¬ Copy.Covers ⟨d, s, j + k⟩ x := by
        rintro ⟨hlo, hhi⟩
        simp only at hlo hhi
        omega
      simp only [apply, if_neg hfirst, if_neg hsecond, if_neg hwhole]

end Change

variable {α : Type} {f : ℕ → α} {l l' : List (Change α)} {m m' : ℕ → α} {x : ℕ}

/-- The store that a history leaves. -/
def after (f : ℕ → α) (l : List (Change α)) (m : ℕ → α) : ℕ → α :=
  l.foldl (fun m c => c.apply f m) m

@[simp] theorem after_nil : after f [] m = m := rfl

@[simp] theorem after_cons (c : Change α) : after f (c :: l) m = after f l (c.apply f m) := rfl

@[simp] theorem after_append : after f (l ++ l') m = after f l' (after f l m) :=
  List.foldl_append

theorem after_of_untouched (h : ∀ c ∈ l, ¬ c.Touches x) : after f l m x = m x := by
  induction l generalizing m with
  | nil => rfl
  | cons c l ih =>
      rw [after_cons, ih fun c' hc' => h c' (List.mem_cons_of_mem c hc'),
        Change.apply_of_not_touches (h c List.mem_cons_self)]

/-- A position holds the value of the source that was copied there last. -/
theorem after_copied {k : Copy} (hk : k.Covers x) (h : ∀ c ∈ l', ¬ c.Touches x) :
    after f (l ++ .copy k :: l') m x = f (k.src + (x - k.dst)) := by
  rw [after_append, after_cons, after_of_untouched h]
  exact if_pos hk

/-- One change of a history that leaves the same store: a copy made in two pieces, or
neighbours that do not meet exchanged. -/
inductive Recut : List (Change α) → List (Change α) → Prop
  | cut (l l' : List (Change α)) (d s j k : ℕ) :
      Recut (l ++ .copy ⟨d, s, j + k⟩ :: l')
        (l ++ .copy ⟨d, s, j⟩ :: .copy ⟨d + j, s + j, k⟩ :: l')
  | swap (l l' : List (Change α)) {c c' : Change α}
      (h : ∀ x, ¬ (c.Touches x ∧ c'.Touches x)) :
      Recut (l ++ c :: c' :: l') (l ++ c' :: c :: l')

theorem Recut.after_eq (h : Recut l l') (m : ℕ → α) : after f l m = after f l' m := by
  cases h with
  | cut l l' d s j k =>
      simp only [after_append, after_cons]
      rw [Change.apply_cut]
  | swap l l' h =>
      simp only [after_append, after_cons]
      rw [Change.apply_comm h]

/-- Histories that differ in cuts and in the order of changes that do not meet. -/
theorem after_eq_of_recut (h : Relation.EqvGen Recut l l') (m : ℕ → α) :
    after f l m = after f l' m := by
  induction h with
  | rel l l' h => exact h.after_eq m
  | refl l => rfl
  | symm l l' _ ih => exact ih.symm
  | trans l l₁ l' _ _ ih ih' => exact ih.trans ih'

end Memory
