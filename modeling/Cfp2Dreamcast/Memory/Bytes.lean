import Cfp2Dreamcast.Memory.Bits

/-!
# Byte memories

A memory is a function from addresses to bytes. `setBytes` stores a run of
bytes, `word` reads a little-endian 32-bit word and `wordBytes` is its inverse.
`AgreeOff P m m'` is the frame condition: the two memories agree at every
address outside `P`.
-/

namespace Memory

abbrev Mem := ℕ → UInt8

/-- Store the bytes of the list at consecutive addresses, where the byte of the
address `a` is kept in the cell `φ a`. -/
def setBytes (φ : ℕ → ℕ) (m : Mem) (a : ℕ) : List UInt8 → Mem
  | [] => m
  | b :: bs => setBytes φ (Function.update m (φ a) b) (a + 1) bs

@[simp] theorem setBytes_nil (φ : ℕ → ℕ) (m : Mem) (a : ℕ) :
    setBytes φ m a [] = m := rfl

theorem setBytes_cons (φ : ℕ → ℕ) (m : Mem) (a : ℕ) (b : UInt8)
    (bs : List UInt8) :
    setBytes φ m a (b :: bs) =
      setBytes φ (Function.update m (φ a) b) (a + 1) bs := rfl

/-- Cells that hold no byte of the stored run keep their contents. -/
theorem setBytes_off (φ : ℕ → ℕ) (m : Mem) {a x : ℕ} (bs : List UInt8)
    (hx : ∀ i, i < bs.length → φ (a + i) ≠ x) : setBytes φ m a bs x = m x := by
  induction bs generalizing m a with
  | nil => rfl
  | cons b bs ih =>
      rw [List.length_cons] at hx
      have hrest : ∀ i, i < bs.length → φ (a + 1 + i) ≠ x := by
        intro i hi
        rw [Nat.add_assoc, Nat.add_comm 1 i]
        exact hx (i + 1) (by omega)
      have hhead : x ≠ φ a := fun h => hx 0 (by omega) h.symm
      rw [setBytes_cons, ih _ hrest, Function.update_of_ne hhead]

/-- A stored byte is read back from its cell when no later byte of the run
shares the cell. -/
theorem setBytes_apply (φ : ℕ → ℕ) (m : Mem) {a : ℕ} (bs : List UInt8) {i : ℕ}
    (hi : i < bs.length)
    (hφ : ∀ j, i < j → j < bs.length → φ (a + j) ≠ φ (a + i)) :
    setBytes φ m a bs (φ (a + i)) = bs[i] := by
  induction bs generalizing m a i with
  | nil => exact absurd hi (Nat.not_lt_zero i)
  | cons b bs ih =>
      rw [List.length_cons] at hi hφ
      cases i with
      | zero =>
          have hrest : ∀ j, j < bs.length → φ (a + 1 + j) ≠ φ (a + 0) := by
            intro j hj
            rw [Nat.add_assoc, Nat.add_comm 1 j]
            exact hφ (j + 1) (by omega) (by omega)
          rw [setBytes_cons, setBytes_off φ _ bs hrest]
          exact Function.update_self _ _ _
      | succ i =>
          have hi' : i < bs.length := Nat.lt_of_succ_lt_succ hi
          have hshift : a + (i + 1) = a + 1 + i := by omega
          have hrest : ∀ j, i < j → j < bs.length →
              φ (a + 1 + j) ≠ φ (a + 1 + i) := by
            intro j hij hj
            have h := hφ (j + 1) (by omega) (by omega)
            rwa [hshift, show a + (j + 1) = a + 1 + j by omega] at h
          rw [setBytes_cons, hshift, ih _ hi' hrest]
          rfl

/-- The little-endian bytes of a 32-bit word. -/
def wordBytes (v : ℕ) : List UInt8 :=
  [UInt8.ofNat v, UInt8.ofNat (v / 2 ^ 8), UInt8.ofNat (v / 2 ^ 16),
    UInt8.ofNat (v / 2 ^ 24)]

@[simp] theorem wordBytes_length (v : ℕ) : (wordBytes v).length = 4 := rfl

/-- Only the low 32 bits are stored. -/
theorem wordBytes_u32 (v : ℕ) : wordBytes (u32 v) = wordBytes v := by
  have h {x y : ℕ} (hxy : x % 2 ^ 8 = y % 2 ^ 8) : UInt8.ofNat x = UInt8.ofNat y := by
    apply UInt8.toNat_inj.1
    simp only [UInt8.toNat_ofNat']
    exact hxy
  have h₀ : UInt8.ofNat (u32 v) = UInt8.ofNat v := h (by unfold u32; omega)
  have h₁ : UInt8.ofNat (u32 v / 2 ^ 8) = UInt8.ofNat (v / 2 ^ 8) := h (by unfold u32; omega)
  have h₂ : UInt8.ofNat (u32 v / 2 ^ 16) = UInt8.ofNat (v / 2 ^ 16) := h (by unfold u32; omega)
  have h₃ : UInt8.ofNat (u32 v / 2 ^ 24) = UInt8.ofNat (v / 2 ^ 24) := h (by unfold u32; omega)
  simp only [wordBytes, h₀, h₁, h₂, h₃]

/-- The little-endian value of four bytes. -/
def ofBytes (b₀ b₁ b₂ b₃ : UInt8) : ℕ :=
  b₀.toNat + b₁.toNat * 2 ^ 8 + b₂.toNat * 2 ^ 16 + b₃.toNat * 2 ^ 24

/-- Reading a stored word back. -/
theorem ofBytes_wordBytes {v : ℕ} (hv : v < 2 ^ 32) :
    ofBytes (UInt8.ofNat v) (UInt8.ofNat (v / 2 ^ 8))
      (UInt8.ofNat (v / 2 ^ 16)) (UInt8.ofNat (v / 2 ^ 24)) = v := by
  unfold ofBytes
  simp only [UInt8.toNat_ofNat']
  omega

/-- The two memories agree at every address outside `P`. -/
def AgreeOff (P : ℕ → Prop) (m m' : Mem) : Prop :=
  ∀ x, ¬ P x → m' x = m x

namespace AgreeOff

variable {P P' : ℕ → Prop} {m m₁ m₂ : Mem}

@[refl] theorem refl (P : ℕ → Prop) (m : Mem) : AgreeOff P m m := fun _ _ => rfl

@[trans] theorem trans (h : AgreeOff P m m₁) (h' : AgreeOff P m₁ m₂) :
    AgreeOff P m m₂ := fun x hx => (h' x hx).trans (h x hx)

theorem mono (h : AgreeOff P m m₁) (hP : ∀ x, P x → P' x) :
    AgreeOff P' m m₁ := fun x hx => h x fun hp => hx (hP x hp)

theorem update {a : ℕ} (ha : P a) (m : Mem) (b : UInt8) :
    AgreeOff P m (Function.update m a b) := by
  intro x hx
  have hne : x ≠ a := fun h => hx (h ▸ ha)
  exact Function.update_of_ne hne b m

theorem setBytes {φ : ℕ → ℕ} {a : ℕ} {bs : List UInt8}
    (hP : ∀ i, i < bs.length → P (φ (a + i))) (m : Mem) :
    AgreeOff P m (setBytes φ m a bs) := by
  intro x hx
  exact setBytes_off φ m bs fun i hi h => hx (h ▸ hP i hi)

end AgreeOff

end Memory
