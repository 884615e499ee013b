import Mathlib.Logic.Function.Basic
import Mathlib.Logic.Relation

/-!
# A write-back cache

Memory behind a write-back cache: the backing store, and for each line that is
present its contents and whether they are newer than the store. `lineOf` maps an
address to its line. A line can be evicted at any time; a dirty one is written
back then.

`Held m a v` says that the byte `a` reads as `v` through the cache and keeps
doing so; `Settled m a v` that nothing but `v` can be written back to `a`. A store
to a neighbour of `a` makes its line dirty, with whatever byte it has for `a`:
`Sealed S m a v` says that nothing but `v` can be written back to `a` even when
bytes outside `S` are stored, and `Kept S m a v` that the store has `v` as well.
-/

namespace Memory

/-- A cache line. Its contents are indexed by address. -/
structure Line (α β : Type) where
  data : α → β
  dirty : Bool

structure Cache (α κ β : Type) where
  ram : α → β
  line : κ → Option (Line α β)

namespace Cache

variable {α κ β : Type} (lineOf : α → κ)

/-- What a cached load sees. -/
def view (m : Cache α κ β) (a : α) : β :=
  match m.line (lineOf a) with
  | some l => l.data a
  | none => m.ram a

/-- Write the line back if it is dirty, and drop it. -/
def evict [DecidableEq κ] (m : Cache α κ β) (k : κ) : Cache α κ β where
  ram a :=
    match m.line k with
    | some l => if l.dirty = true ∧ lineOf a = k then l.data a else m.ram a
    | none => m.ram a
  line := Function.update m.line k none

/-- Drop the line without writing it back. -/
def discard [DecidableEq κ] (m : Cache α κ β) (k : κ) : Cache α κ β where
  ram := m.ram
  line := Function.update m.line k none

/-- The line after a load that missed, or as it is. -/
def filled (m : Cache α κ β) (k : κ) : Line α β :=
  (m.line k).getD ⟨m.ram, false⟩

/-- Bring the line in. -/
def fill [DecidableEq κ] (m : Cache α κ β) (k : κ) : Cache α κ β where
  ram := m.ram
  line := Function.update m.line k (some (m.filled k))

/-- A store through the cache. -/
def write [DecidableEq α] [DecidableEq κ] (m : Cache α κ β) (a : α) (v : β) : Cache α κ β where
  ram := m.ram
  line := Function.update m.line (lineOf a)
    (some ⟨Function.update (m.filled (lineOf a)).data a v, true⟩)

/-- A store past the cache. -/
def poke [DecidableEq α] (m : Cache α κ β) (a : α) (v : β) : Cache α κ β where
  ram := Function.update m.ram a v
  line := m.line

/-- Any number of evictions. -/
def Evicts [DecidableEq κ] : Cache α κ β → Cache α κ β → Prop :=
  Relation.ReflTransGen fun m m' => ∃ k, m' = m.evict lineOf k

/-- The byte reads as `v` through the cache, and evictions do not change that. -/
def Held (m : Cache α κ β) (a : α) (v : β) : Prop :=
  match m.line (lineOf a) with
  | some l => l.data a = v ∧ (l.dirty = false → m.ram a = v)
  | none => m.ram a = v

/-- Nothing but `v` can be written back to the byte. -/
def Settled (m : Cache α κ β) (a : α) (v : β) : Prop :=
  ∀ l, m.line (lineOf a) = some l → l.dirty = true → l.data a = v

/-- The line has an address outside `S`. -/
def Exposed (S : α → Prop) (k : κ) : Prop := ∃ x, lineOf x = k ∧ ¬ S x

/-- Nothing but `v` can be written back to the byte, whatever is stored outside `S`. -/
def Sealed (S : α → Prop) (m : Cache α κ β) (a : α) (v : β) : Prop :=
  ∀ l, m.line (lineOf a) = some l → l.dirty = true ∨ Exposed lineOf S (lineOf a) →
    l.data a = v

/-- The byte reads as `v` past the cache, and does so whatever is stored outside `S`. -/
structure Kept (S : α → Prop) (m : Cache α κ β) (a : α) (v : β) : Prop where
  ram : m.ram a = v
  sealed : m.Sealed lineOf S a v

variable {lineOf} {m m' : Cache α κ β} {a b : α} {k : κ} {v w : β} {S : α → Prop}

theorem Held.view_eq (h : m.Held lineOf a v) : m.view lineOf a = v := by
  unfold Held at h
  unfold view
  cases hl : m.line (lineOf a) with
  | none =>
      rw [hl] at h
      exact h
  | some l =>
      rw [hl] at h
      exact h.1

/-- The line that a load brings in holds what was held. -/
theorem Held.filled (h : m.Held lineOf a v) :
    (m.filled (lineOf a)).data a = v ∧ ((m.filled (lineOf a)).dirty = false → m.ram a = v) := by
  unfold Held at h
  unfold Cache.filled
  cases hl : m.line (lineOf a) with
  | none =>
      rw [hl] at h
      exact ⟨h, fun _ => h⟩
  | some l =>
      rw [hl] at h
      exact h

theorem Held.poke [DecidableEq α] (h : m.Held lineOf a v) (hab : a ≠ b) :
    (m.poke b w).Held lineOf a v := by
  unfold Held at h ⊢
  rw [show (m.poke b w).ram a = m.ram a from Function.update_of_ne hab _ _]
  exact h

theorem Sealed.settled (h : m.Sealed lineOf S a v) : m.Settled lineOf a v :=
  fun l hl hd => h l hl (.inl hd)

/-- A line that is gone, or as it was, writes back nothing new. -/
theorem Sealed.of_line (h : m.Sealed lineOf S a v)
    (hline : m'.line (lineOf a) = none ∨ m'.line (lineOf a) = m.line (lineOf a)) :
    m'.Sealed lineOf S a v := by
  intro l hl
  rcases hline with hnone | hsame
  · cases hnone.symm.trans hl
  · exact h l (hsame.symm.trans hl)

/-- What a load sees of a byte that is kept and can be dirtied. -/
theorem Kept.filled_data (h : m.Kept lineOf S a v) (he : Exposed lineOf S (lineOf a)) :
    (m.filled (lineOf a)).data a = v := by
  unfold Cache.filled
  cases hl : m.line (lineOf a) with
  | none => exact h.ram
  | some l => exact h.sealed l hl (.inr he)

/-- A store past the cache to another byte. -/
theorem Kept.poke [DecidableEq α] (h : m.Kept lineOf S a v) (hab : a ≠ b) :
    (m.poke b w).Kept lineOf S a v :=
  ⟨(Function.update_of_ne hab _ _).trans h.ram, h.sealed⟩

variable [DecidableEq κ]

theorem evict_line_of_ne (h : lineOf a ≠ k) :
    (m.evict lineOf k).line (lineOf a) = m.line (lineOf a) :=
  Function.update_of_ne h _ _

theorem evict_ram_of_ne (h : lineOf a ≠ k) : (m.evict lineOf k).ram a = m.ram a := by
  unfold evict
  cases m.line k with
  | none => rfl
  | some l => simp [h]

theorem evict_line_self (m : Cache α κ β) (a : α) :
    (m.evict lineOf (lineOf a)).line (lineOf a) = none :=
  Function.update_self _ _ _

theorem Held.evict (h : m.Held lineOf a v) (k : κ) : (m.evict lineOf k).Held lineOf a v := by
  by_cases hk : lineOf a = k
  · subst hk
    unfold Held
    rw [evict_line_self]
    unfold Held at h
    simp only [Cache.evict]
    cases hl : m.line (lineOf a) with
    | none => simpa [hl] using h
    | some l =>
        rw [hl] at h
        cases hd : l.dirty with
        | true => simpa [hd] using h.1
        | false => simpa [hd] using h.2 hd
  · unfold Held at h ⊢
    rw [evict_line_of_ne hk, evict_ram_of_ne hk]
    exact h

theorem Settled.evict (h : m.Settled lineOf a v) (k : κ) :
    (m.evict lineOf k).Settled lineOf a v := by
  by_cases hk : lineOf a = k
  · subst hk
    intro l hl
    rw [evict_line_self] at hl
    cases hl
  · intro l hl
    rw [evict_line_of_ne hk] at hl
    exact h l hl

/-- An eviction of a settled byte leaves it in the store. -/
theorem Settled.evict_ram (h : m.Settled lineOf a v) (hram : m.ram a = v) (k : κ) :
    (m.evict lineOf k).ram a = v := by
  by_cases hk : lineOf a = k
  · subst hk
    simp only [Cache.evict]
    cases hl : m.line (lineOf a) with
    | none => exact hram
    | some l =>
        cases hd : l.dirty with
        | true => simpa [hd] using h l hl hd
        | false => simpa [hd] using hram
  · rw [evict_ram_of_ne hk]
    exact hram

theorem Held.evicts (h : Evicts lineOf m m') (hm : m.Held lineOf a v) :
    m'.Held lineOf a v := by
  induction h with
  | refl => exact hm
  | tail _ hstep ih =>
      obtain ⟨k, rfl⟩ := hstep
      exact ih.evict k

theorem Settled.evicts (h : Evicts lineOf m m') (hm : m.Settled lineOf a v) :
    m'.Settled lineOf a v := by
  induction h with
  | refl => exact hm
  | tail _ hstep ih =>
      obtain ⟨k, rfl⟩ := hstep
      exact ih.evict k

theorem Settled.evicts_ram (h : Evicts lineOf m m') (hm : m.Settled lineOf a v)
    (hram : m.ram a = v) : m'.ram a = v := by
  have hboth : m'.Settled lineOf a v ∧ m'.ram a = v := by
    induction h with
    | refl => exact ⟨hm, hram⟩
    | tail _ hstep ih =>
        obtain ⟨k, rfl⟩ := hstep
        exact ⟨ih.1.evict k, ih.1.evict_ram ih.2 k⟩
  exact hboth.2

/-! Loads. -/

theorem fill_line_of_ne (h : lineOf a ≠ k) : (m.fill k).line (lineOf a) = m.line (lineOf a) :=
  Function.update_of_ne h _ _

theorem fill_line_self (m : Cache α κ β) (k : κ) : (m.fill k).line k = some (m.filled k) :=
  Function.update_self k _ _

theorem Held.fill (h : m.Held lineOf a v) (k : κ) : (m.fill k).Held lineOf a v := by
  by_cases hk : lineOf a = k
  · subst hk
    have hfilled := h.filled
    unfold Held
    rw [fill_line_self]
    exact hfilled
  · unfold Held at h ⊢
    rw [fill_line_of_ne hk]
    exact h

theorem Settled.fill (h : m.Settled lineOf a v) (k : κ) : (m.fill k).Settled lineOf a v := by
  by_cases hk : lineOf a = k
  · subst hk
    intro l hl hd
    rw [fill_line_self] at hl
    cases hl
    unfold Cache.filled at hd ⊢
    cases hl : m.line (lineOf a) with
    | none => simp [hl] at hd
    | some l =>
        rw [hl] at hd
        exact h l hl hd
  · intro l hl
    rw [fill_line_of_ne hk] at hl
    exact h l hl

/-! Stores. -/

section Stores

variable [DecidableEq α]

theorem write_line_of_ne (h : lineOf a ≠ lineOf b) :
    (m.write lineOf b v).line (lineOf a) = m.line (lineOf a) :=
  Function.update_of_ne h _ _

theorem write_line_self (m : Cache α κ β) (a : α) (v : β) :
    (m.write lineOf a v).line (lineOf a) =
      some ⟨Function.update (m.filled (lineOf a)).data a v, true⟩ :=
  Function.update_self _ _ _

theorem held_write (m : Cache α κ β) (a : α) (v : β) : (m.write lineOf a v).Held lineOf a v := by
  unfold Held
  rw [write_line_self]
  exact ⟨Function.update_self _ _ _, fun h => by cases h⟩

theorem Held.write (h : m.Held lineOf a v) (hab : a ≠ b) :
    (m.write lineOf b w).Held lineOf a v := by
  by_cases hk : lineOf a = lineOf b
  · have hfilled := h.filled.1
    unfold Held
    rw [hk, write_line_self]
    refine ⟨?_, fun h => by cases h⟩
    rw [← hk]
    exact (Function.update_of_ne hab _ _).trans hfilled
  · unfold Held at h ⊢
    rw [write_line_of_ne hk]
    exact h

theorem Settled.write (h : m.Settled lineOf a v) (hk : lineOf a ≠ lineOf b) :
    (m.write lineOf b w).Settled lineOf a v := by
  intro l hl
  rw [write_line_of_ne hk] at hl
  exact h l hl

end Stores

theorem discard_line_of_ne (h : lineOf a ≠ k) :
    (m.discard k).line (lineOf a) = m.line (lineOf a) :=
  Function.update_of_ne h _ _

/-- A discarded line can no longer be written back. -/
theorem settled_discard (m : Cache α κ β) (a : α) (v : β) :
    (m.discard (lineOf a)).Settled lineOf a v := by
  intro l hl
  rw [show (m.discard (lineOf a)).line (lineOf a) = none from
    Function.update_self _ _ _] at hl
  cases hl

theorem Settled.discard (h : m.Settled lineOf a v) (k : κ) :
    (m.discard k).Settled lineOf a v := by
  by_cases hk : lineOf a = k
  · exact hk ▸ settled_discard m a v
  · intro l hl
    rw [discard_line_of_ne hk] at hl
    exact h l hl

/-! Bytes that stores elsewhere cannot reach. -/

theorem evict_line (m : Cache α κ β) (k j : κ) :
    (m.evict lineOf k).line j = none ∨ (m.evict lineOf k).line j = m.line j := by
  rcases eq_or_ne j k with rfl | hne
  · exact .inl (Function.update_self _ _ _)
  · exact .inr (Function.update_of_ne hne _ _)

/-- Evictions bring no line in. -/
theorem Evicts.line (h : Evicts lineOf m m') (j : κ) :
    m'.line j = none ∨ m'.line j = m.line j := by
  induction h with
  | refl => exact .inr rfl
  | @tail m₁ m₂ _ hstep ih =>
      obtain ⟨k, rfl⟩ := hstep
      have hevict : (m₁.evict lineOf k).line j = none ∨
          (m₁.evict lineOf k).line j = m₁.line j := evict_line m₁ k j
      rcases hevict with hnone | hsame
      · exact .inl hnone
      · exact ih.imp hsame.trans hsame.trans

theorem discard_line (m : Cache α κ β) (k j : κ) :
    (m.discard k).line j = none ∨ (m.discard k).line j = m.line j := by
  rcases eq_or_ne j k with rfl | hne
  · exact .inl (Function.update_self _ _ _)
  · exact .inr (Function.update_of_ne hne _ _)

theorem Kept.evicts (h : Evicts lineOf m m') (hm : m.Kept lineOf S a v) :
    m'.Kept lineOf S a v :=
  ⟨hm.sealed.settled.evicts_ram h hm.ram, hm.sealed.of_line (h.line _)⟩

theorem Kept.discard (h : m.Kept lineOf S a v) (k : κ) : (m.discard k).Kept lineOf S a v :=
  ⟨h.ram, h.sealed.of_line (discard_line m k _)⟩

theorem Kept.fill (h : m.Kept lineOf S a v) (k : κ) : (m.fill k).Kept lineOf S a v := by
  refine ⟨h.ram, ?_⟩
  by_cases hk : lineOf a = k
  · subst hk
    intro l hl hd
    rw [fill_line_self] at hl
    cases hl
    rcases hd with hd | he
    · exact (h.sealed.settled.fill (lineOf a)) _ (fill_line_self m _) hd
    · exact h.filled_data he
  · exact h.sealed.of_line (.inr (fill_line_of_ne hk))

/-- A store through the cache to a byte outside `S` carries the kept byte along. -/
theorem Kept.write [DecidableEq α] (h : m.Kept lineOf S a v) (ha : S a) (hb : ¬ S b) :
    (m.write lineOf b w).Kept lineOf S a v := by
  refine ⟨h.ram, ?_⟩
  by_cases hk : lineOf a = lineOf b
  · intro l hl _
    have hab : a ≠ b := fun hab => hb (hab ▸ ha)
    rw [hk, write_line_self] at hl
    cases hl
    rw [← hk]
    exact (Function.update_of_ne hab _ _).trans (h.filled_data ⟨b, hk.symm, hb⟩)
  · exact h.sealed.of_line (.inr (write_line_of_ne hk))

end Cache

end Memory
