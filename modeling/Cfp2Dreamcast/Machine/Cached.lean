import Cfp2Dreamcast.Machine.Durable
import Cfp2Dreamcast.Memory.Cache

/-!
# Main RAM behind the operand cache

`cachedBus` is physical memory behind the SH-4 operand cache: 32-byte lines,
write-back, any line evicted before any cached access. Accesses through P2
(`0xa0000000` to `0xbfffffff`) bypass the cache, all others go through it, and
`ocbi` drops the line of its address.
-/

namespace Cfp2Dreamcast

open Program Memory

/-- The cache line of a physical address. -/
def lineOf (p : ℕ) : ℕ := p / 32

abbrev Cached := Cache ℕ ℕ UInt8

/-- An access through P2. -/
def uncached (a : ℕ) : Prop := a / 2 ^ 29 = 5

instance (a : ℕ) : Decidable (uncached a) := inferInstanceAs (Decidable (_ = _))

def cachedBus : Bus Cached where
  view m a := if uncached a then m.ram (phys a) else m.view lineOf (phys a)
  touch m a m' :=
    if uncached a then m' = m
    else ∃ m₁, Cache.Evicts lineOf m m₁ ∧ m' = m₁.fill (lineOf (phys a))
  store m a v m' :=
    if uncached a then m' = m.poke (phys a) v
    else ∃ m₁, Cache.Evicts lineOf m m₁ ∧ m' = m₁.write lineOf (phys a) v
  discard m a m' := m' = m.discard (lineOf (phys a))

/-- A byte that is uncached is held when RAM has it and no dirty line disagrees;
a cached one when the cache has it. -/
def cachedHolds (m : Cached) (a : ℕ) (v : UInt8) : Prop :=
  if uncached a then m.ram (phys a) = v ∧ m.Settled lineOf (phys a) v
  else m.Held lineOf (phys a) v

def cachedReady (m : Cached) (a : ℕ) (v : UInt8) : Prop :=
  uncached a → m.Settled lineOf (phys a) v

def cachedApart (a b : ℕ) : Prop :=
  phys a ≠ phys b ∧ (uncached a → ¬ uncached b → lineOf (phys a) ≠ lineOf (phys b))

section Laws

variable {m m' : Cached} {a b : ℕ} {v w : UInt8}

theorem cachedHolds_uncached (ha : uncached a) :
    cachedHolds m a v ↔ m.ram (phys a) = v ∧ m.Settled lineOf (phys a) v := by
  rw [cachedHolds, if_pos ha]

theorem cachedHolds_cached (ha : ¬ uncached a) :
    cachedHolds m a v ↔ m.Held lineOf (phys a) v := by
  rw [cachedHolds, if_neg ha]

theorem cached_touch_holds (ht : cachedBus.touch m b m') (h : cachedHolds m a v) :
    cachedHolds m' a v := by
  by_cases hb : uncached b
  · simp only [cachedBus, if_pos hb] at ht
    exact ht ▸ h
  · simp only [cachedBus, if_neg hb] at ht
    obtain ⟨m₁, hev, rfl⟩ := ht
    by_cases ha : uncached a
    · rw [cachedHolds_uncached ha] at h ⊢
      have hram := h.2.evicts_ram hev h.1
      exact ⟨hram, (h.2.evicts hev).fill _⟩
    · rw [cachedHolds_cached ha] at h ⊢
      exact (h.evicts hev).fill _

theorem cached_touch_ready (ht : cachedBus.touch m b m') (h : cachedReady m a v) :
    cachedReady m' a v := by
  intro ha
  by_cases hb : uncached b
  · simp only [cachedBus, if_pos hb] at ht
    exact ht ▸ h ha
  · simp only [cachedBus, if_neg hb] at ht
    obtain ⟨m₁, hev, rfl⟩ := ht
    exact ((h ha).evicts hev).fill _

theorem cached_store_holds (hst : cachedBus.store m a v m') (h : cachedReady m a v) :
    cachedHolds m' a v := by
  by_cases ha : uncached a
  · simp only [cachedBus, if_pos ha] at hst
    subst hst
    exact (cachedHolds_uncached ha).2 ⟨Function.update_self _ _ _, h ha⟩
  · simp only [cachedBus, if_neg ha] at hst
    obtain ⟨m₁, hev, rfl⟩ := hst
    exact (cachedHolds_cached ha).2 (Cache.held_write m₁ _ v)

theorem cached_store_ready (hst : cachedBus.store m a w m') (h : cachedReady m a v) :
    cachedReady m' a v := by
  intro ha
  simp only [cachedBus, if_pos ha] at hst
  subst hst
  exact h ha

theorem cached_apart_holds (hab : cachedApart a b) (hst : cachedBus.store m b w m')
    (h : cachedHolds m a v) : cachedHolds m' a v := by
  by_cases hb : uncached b
  · simp only [cachedBus, if_pos hb] at hst
    subst hst
    by_cases ha : uncached a
    · rw [cachedHolds_uncached ha] at h ⊢
      exact ⟨(Function.update_of_ne hab.1 _ _).trans h.1, h.2⟩
    · rw [cachedHolds_cached ha] at h ⊢
      exact h.poke hab.1
  · simp only [cachedBus, if_neg hb] at hst
    obtain ⟨m₁, hev, rfl⟩ := hst
    by_cases ha : uncached a
    · rw [cachedHolds_uncached ha] at h ⊢
      have hram := h.2.evicts_ram hev h.1
      exact ⟨hram, (h.2.evicts hev).write (hab.2 ha hb)⟩
    · rw [cachedHolds_cached ha] at h ⊢
      exact (h.evicts hev).write hab.1

theorem cached_apart_ready (hab : cachedApart a b) (hst : cachedBus.store m b w m')
    (h : cachedReady m a v) : cachedReady m' a v := by
  intro ha
  by_cases hb : uncached b
  · simp only [cachedBus, if_pos hb] at hst
    subst hst
    exact h ha
  · simp only [cachedBus, if_neg hb] at hst
    obtain ⟨m₁, hev, rfl⟩ := hst
    exact ((h ha).evicts hev).write (hab.2 ha hb)

end Laws

def cachedDurable : cachedBus.Durable where
  holds := cachedHolds
  ready := cachedReady
  apart := cachedApart
  direct := uncached
  view_eq {m a v} h := by
    by_cases ha : uncached a
    · simp only [cachedBus, if_pos ha]
      exact ((cachedHolds_uncached ha).1 h).1
    · simp only [cachedBus, if_neg ha]
      exact ((cachedHolds_cached ha).1 h).view_eq
  touch_holds := cached_touch_holds
  touch_ready := cached_touch_ready
  store_holds := cached_store_holds
  store_ready := cached_store_ready
  apart_holds := cached_apart_holds
  apart_ready := cached_apart_ready
  discard_holds {m m' a b v} ha hd h := by
    obtain rfl : m' = m.discard _ := hd
    rw [cachedHolds_uncached ha] at h ⊢
    exact ⟨h.1, h.2.discard _⟩
  discard_ready {m m' a b v} _ hd h := by
    obtain rfl : m' = m.discard _ := hd
    exact fun ha => (h ha).discard _
  discard_fresh {m m' a b} v _ hblock hd := by
    obtain rfl : m' = m.discard _ := hd
    intro _
    rw [show lineOf (phys b) = lineOf (phys a) from hblock]
    exact Cache.settled_discard m _ v

end Cfp2Dreamcast
