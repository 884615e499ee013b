import Cfp2Dreamcast.Memory.Cache

/-!
# Flushing a write-back cache

A byte is `Placed` when RAM has it and the cache does not disagree; evictions and
accesses to other bytes keep it so. Purging the line of a byte that is held places
it. `Foreign D` is an access of code whose own data lie outside `D`, and
`discardAll` drops the whole cache without writing anything back.
-/

namespace Memory

namespace Cache

variable {α κ β : Type} (lineOf : α → κ)

/-- RAM has the byte, and so does its line when it is present. -/
def Placed (m : Cache α κ β) (a : α) (v : β) : Prop :=
  m.ram a = v ∧ ∀ l, m.line (lineOf a) = some l → l.data a = v

/-- The line is not dirty. -/
def Quiet (m : Cache α κ β) (k : κ) : Prop :=
  ∀ l, m.line k = some l → l.dirty = false

/-- Write back and drop each line of the list. -/
def purge [DecidableEq κ] (m : Cache α κ β) (ks : List κ) : Cache α κ β :=
  ks.foldl (fun m k => m.evict lineOf k) m

/-- Drop every line without writing it back. -/
def discardAll (m : Cache α κ β) : Cache α κ β := ⟨m.ram, fun _ => none⟩

/-- An access of code that stores to nothing in `D`, or an eviction. -/
inductive Foreign [DecidableEq α] [DecidableEq κ] (D : α → Prop) (m : Cache α κ β) :
    Cache α κ β → Prop
  | evict (k : κ) : Foreign D m (m.evict lineOf k)
  | load (k : κ) : Foreign D m (m.fill k)
  | store (b : α) (w : β) (hb : ¬ D b) : Foreign D m (m.write lineOf b w)
  | poke (b : α) (w : β) (hb : ¬ D b) : Foreign D m (m.poke b w)

variable {lineOf} {m m' : Cache α κ β} {a b : α} {k : κ} {v w : β}

theorem Placed.held (h : m.Placed lineOf a v) : m.Held lineOf a v := by
  unfold Held
  cases hl : m.line (lineOf a) with
  | none => exact h.1
  | some l => exact ⟨h.2 l hl, fun _ => h.1⟩

/-- A byte is placed when it is held in a line that is not dirty. -/
theorem Held.placed (h : m.Held lineOf a v) (hq : m.Quiet (lineOf a)) :
    m.Placed lineOf a v := by
  unfold Held at h
  cases hl : m.line (lineOf a) with
  | none =>
      rw [hl] at h
      refine ⟨h, fun l hl' => ?_⟩
      rw [hl] at hl'
      cases hl'
  | some l =>
      rw [hl] at h
      refine ⟨h.2 (hq l hl), fun l' hl' => ?_⟩
      rw [hl] at hl'
      cases hl'
      exact h.1

theorem Quiet.poke [DecidableEq α] (h : m.Quiet k) : (m.poke b w).Quiet k := h

theorem Placed.poke [DecidableEq α] (h : m.Placed lineOf a v) (hab : a ≠ b) :
    (m.poke b w).Placed lineOf a v :=
  ⟨(Function.update_of_ne hab _ _).trans h.1, h.2⟩

section Lines

variable [DecidableEq κ]

theorem Quiet.evict (h : m.Quiet k) (k' : κ) : (m.evict lineOf k').Quiet k := by
  intro l hl
  by_cases hk : k = k'
  · subst hk
    rw [show (m.evict lineOf k).line k = none from Function.update_self _ _ _] at hl
    cases hl
  · rw [show (m.evict lineOf k').line k = m.line k from Function.update_of_ne hk _ _] at hl
    exact h l hl

theorem Quiet.ram_evict (h : m.Quiet (lineOf a)) (k : κ) : (m.evict lineOf k).ram a = m.ram a := by
  by_cases hk : lineOf a = k
  · subst hk
    simp only [Cache.evict]
    cases hl : m.line (lineOf a) with
    | none => rfl
    | some l => simp [h l hl]
  · exact evict_ram_of_ne hk

theorem Quiet.fill (h : m.Quiet k) (k' : κ) : (m.fill k').Quiet k := by
  intro l hl
  by_cases hk : k = k'
  · subst hk
    rw [fill_line_self] at hl
    cases hl
    unfold Cache.filled
    cases hl : m.line k with
    | none => rfl
    | some l => exact h l hl
  · rw [show (m.fill k').line k = m.line k from Function.update_of_ne hk _ _] at hl
    exact h l hl

theorem Quiet.write [DecidableEq α] (h : m.Quiet k) (hk : k ≠ lineOf b) :
    (m.write lineOf b w).Quiet k := by
  intro l hl
  rw [show (m.write lineOf b w).line k = m.line k from Function.update_of_ne hk _ _] at hl
  exact h l hl

theorem Placed.evict (h : m.Placed lineOf a v) (k : κ) :
    (m.evict lineOf k).Placed lineOf a v := by
  have hset : m.Settled lineOf a v := fun l hl _ => h.2 l hl
  refine ⟨hset.evict_ram h.1 k, fun l hl => ?_⟩
  by_cases hk : lineOf a = k
  · subst hk
    rw [evict_line_self] at hl
    cases hl
  · rw [evict_line_of_ne hk] at hl
    exact h.2 l hl

theorem Placed.fill (h : m.Placed lineOf a v) (k : κ) : (m.fill k).Placed lineOf a v := by
  refine ⟨h.1, fun l hl => ?_⟩
  by_cases hk : lineOf a = k
  · subst hk
    rw [fill_line_self] at hl
    cases hl
    exact h.held.filled.1
  · rw [fill_line_of_ne hk] at hl
    exact h.2 l hl

theorem Placed.write [DecidableEq α] (h : m.Placed lineOf a v) (hab : a ≠ b) :
    (m.write lineOf b w).Placed lineOf a v := by
  refine ⟨h.1, fun l hl => ?_⟩
  have hheld := (h.held.write (w := w) hab).view_eq
  unfold view at hheld
  rwa [hl] at hheld

/-- Dropping the line of a held byte after writing it back places the byte. -/
theorem Held.placed_evict (h : m.Held lineOf a v) :
    (m.evict lineOf (lineOf a)).Placed lineOf a v := by
  have hheld := h.evict (lineOf a)
  unfold Held at hheld
  rw [evict_line_self] at hheld
  refine ⟨hheld, fun l hl => ?_⟩
  rw [evict_line_self] at hl
  cases hl

theorem Placed.purge (h : m.Placed lineOf a v) (ks : List κ) :
    (m.purge lineOf ks).Placed lineOf a v := by
  induction ks generalizing m with
  | nil => exact h
  | cons k ks ih => exact ih (h.evict k)

theorem Held.purge (h : m.Held lineOf a v) (ks : List κ) :
    (m.purge lineOf ks).Held lineOf a v := by
  induction ks generalizing m with
  | nil => exact h
  | cons k ks ih => exact ih (h.evict k)

theorem Quiet.purge (h : m.Quiet k) (ks : List κ) : (m.purge lineOf ks).Quiet k := by
  induction ks generalizing m with
  | nil => exact h
  | cons k' ks ih => exact ih (h.evict k')

/-- A purge places every held byte that it covers. -/
theorem Held.placed_purge (h : m.Held lineOf a v) {ks : List κ} (ha : lineOf a ∈ ks) :
    (m.purge lineOf ks).Placed lineOf a v := by
  induction ks generalizing m with
  | nil => cases ha
  | cons k ks ih =>
      by_cases hk : lineOf a = k
      · subst hk
        exact h.placed_evict.purge ks
      · exact ih (h.evict k) ((List.mem_cons.1 ha).resolve_left hk)

end Lines

section Accesses

variable [DecidableEq α] [DecidableEq κ] {D : α → Prop}

theorem Held.foreign (h : m.Held lineOf a v) (ha : D a) (hf : Foreign lineOf D m m') :
    m'.Held lineOf a v := by
  cases hf with
  | evict k => exact h.evict k
  | load k => exact h.fill k
  | store b w hb => exact h.write fun hab => hb (hab ▸ ha)
  | poke b w hb => exact h.poke fun hab => hb (hab ▸ ha)

theorem Placed.foreign (h : m.Placed lineOf a v) (ha : D a) (hf : Foreign lineOf D m m') :
    m'.Placed lineOf a v := by
  cases hf with
  | evict k => exact h.evict k
  | load k => exact h.fill k
  | store b w hb => exact h.write fun hab => hb (hab ▸ ha)
  | poke b w hb => exact h.poke fun hab => hb (hab ▸ ha)

/-- A line that belongs to `D` as a whole stays as clean as it is. -/
theorem Quiet.foreign (h : m.Quiet k) (hk : ∀ b, lineOf b = k → D b)
    (hf : Foreign lineOf D m m') : m'.Quiet k := by
  cases hf with
  | evict k' => exact h.evict k'
  | load k' => exact h.fill k'
  | store b w hb => exact h.write fun hkb => hb (hk b hkb.symm)
  | poke b w hb => exact h.poke

/-- RAM keeps a byte of such a line. -/
theorem Quiet.ram_foreign (h : m.Quiet (lineOf a)) (ha : D a) (hf : Foreign lineOf D m m') :
    m'.ram a = m.ram a := by
  cases hf with
  | evict k => exact h.ram_evict k
  | load k => rfl
  | store b w hb => rfl
  | poke b w hb => exact Function.update_of_ne (show a ≠ b from fun hab => hb (hab ▸ ha)) _ _

end Accesses

end Cache

end Memory
