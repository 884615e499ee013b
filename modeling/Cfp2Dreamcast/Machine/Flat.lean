import Cfp2Dreamcast.Machine.Frame

/-!
# Main RAM without a cache

`flatBus` is the 16 MB of RAM alone: every alias of a cell reads and writes the
cell, and a block invalidate does nothing. Loads and stores then have exact
rules, and a run that stores to `W` leaves every cell that no address of `W`
decodes to.
-/

namespace Cfp2Dreamcast

open Program Memory

def flatBus : Bus Mem where
  view m a := m (ramCell a)
  touch m _ m' := m' = m
  store m a v m' := m' = Function.update m (ramCell a) v
  discard m _ m' := m' = m

/-- The cells that the addresses of `W` decode to. -/
def cellsOf (W : ℕ → Prop) (c : ℕ) : Prop := ∃ a, W a ∧ ramCell a = c

theorem flat_run_agreeOff {W D : ℕ → Prop} {m m' : Mem} (h : flatBus.Run W D m m') :
    AgreeOff (cellsOf W) m m' := by
  induction h with
  | refl => exact .refl _ m
  | tail _ hstep ih =>
      rcases hstep with ⟨a, v, ha, rfl⟩ | ⟨a, rfl⟩ | ⟨a, -, rfl⟩
      · exact ih.trans (AgreeOff.update ⟨a, ha, rfl⟩ _ v)
      · exact ih
      · exact ih

theorem flat_storeRun {m m' : Mem} {a : ℕ} {bs : List UInt8} :
    flatBus.storeRun m a bs m' ↔ m' = setBytes ramCell m a bs := by
  induction bs generalizing m a with
  | nil => rfl
  | cons b bs ih =>
      constructor
      · rintro ⟨m₁, rfl, hrest⟩
        exact ih.1 hrest
      · intro h
        exact ⟨_, rfl, ih.2 h⟩

/-- The 32-bit word of RAM at an address. -/
def ramWord (m : Mem) (a : ℕ) : ℕ := flatBus.word m a

/-- The word at an address is determined by its four cells. -/
theorem ramWord_congr {m m' : Mem} {a : ℕ}
    (h : ∀ i < 4, m' (ramCell (a + i)) = m (ramCell (a + i))) :
    ramWord m' a = ramWord m a := by
  have h₀ := h 0 (by decide)
  have h₁ := h 1 (by decide)
  have h₂ := h 2 (by decide)
  have h₃ := h 3 (by decide)
  simp only [ramWord, Bus.word, flatBus, Nat.add_zero] at *
  rw [h₀, h₁, h₂, h₃]

/-- A stored byte is read back within the 16 MB after the first address. -/
theorem setBytes_ramCell (m : Mem) {a : ℕ} {bs : List UInt8} {i : ℕ} (hi : i < bs.length)
    (hlen : bs.length ≤ 2 ^ 24) :
    setBytes ramCell m a bs (ramCell (a + i)) = bs[i] := by
  refine setBytes_apply ramCell m bs hi fun j hij hj => ?_
  unfold ramCell
  omega

theorem ramWord_setBytes (m : Mem) {a v : ℕ} (hv : v < 2 ^ 32) :
    ramWord (setBytes ramCell m a (wordBytes v)) a = v := by
  have hbyte : ∀ i (hi : i < 4), setBytes ramCell m a (wordBytes v) (ramCell (a + i)) =
      (wordBytes v).get ⟨i, hi⟩ := fun i hi => setBytes_ramCell m hi (by simp)
  have h₀ := hbyte 0 (by decide)
  rw [Nat.add_zero] at h₀
  simp only [ramWord, Bus.word, flatBus]
  rw [h₀, hbyte 1 (by decide), hbyte 2 (by decide), hbyte 3 (by decide)]
  exact ofBytes_wordBytes hv

theorem ramWord_setBytes_u32 (m : Mem) {a v : ℕ} :
    ramWord (setBytes ramCell m a (wordBytes v)) a = u32 v := by
  rw [← wordBytes_u32]
  exact ramWord_setBytes m (u32_lt v)

theorem ramWord_agreeOff {P : ℕ → Prop} {m m' : Mem} {a : ℕ} (h : AgreeOff P m m')
    (ha : ∀ i < 4, ¬ P (ramCell (a + i))) : ramWord m' a = ramWord m a :=
  ramWord_congr fun i hi => h _ (ha i hi)

abbrev flatMachine (W : World Mem) : Machine shimSig (State Mem) :=
  shimMachine flatBus W

section Rules

variable {W : World Mem} {s : State Mem} {α : Type}
  {Q : List (Event shimSig) → Outcome shimSig α → State Mem → Prop}

theorem wp_load32_ram {o : Origin} {a : ℕ} {k : ℕ → Shim α} (ha : isRam a) :
    wp (flatMachine W) (.op (.load32 o a) k) Q s ↔
      wp (flatMachine W) (k (ramWord s.mem a))
        (fun tr => Q (⟨.load32 o a, ramWord s.mem a⟩ :: tr)) s := by
  simp only [wp_op, step_load32 ha]
  constructor
  · exact fun h => h _ s ⟨rfl, s.mem, rfl, rfl⟩
  · rintro h r s₁ ⟨rfl, m, rfl, rfl⟩
    exact h

theorem wp_store32_ram {o : Origin} {a v : ℕ} {k : Unit → Shim α} (ha : isRam a) :
    wp (flatMachine W) (.op (.store32 o a v) k) Q s ↔
      wp (flatMachine W) (k ()) (fun tr => Q (⟨.store32 o a v, ()⟩ :: tr))
        { s with mem := setBytes ramCell s.mem a (wordBytes v) } := by
  simp only [wp_op, step_store32 ha, flat_storeRun]
  constructor
  · exact fun h => h () _ ⟨_, rfl, rfl⟩
  · rintro h ⟨⟩ s₁ ⟨m, rfl, rfl⟩
    exact h

end Rules

end Cfp2Dreamcast
