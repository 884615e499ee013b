import Cfp2Dreamcast.Mastering.Marks
import Cfp2Dreamcast.Memory.Bits
import Mathlib.Data.Finset.Basic

/-!
# The scan for Maple literals

`scan` of `test_maple_literals.py` looks for aligned words that point into the
Maple register block. It does not read every word: it searches for the byte pair
that such a word has in the middle and reads the word around each hit.
-/

namespace Cfp2Dreamcast

open Memory

/-- A word that points into the Maple block, through any alias. -/
def MapleLiteral (v : ℕ) : Prop := v &&& 0x1fffff00 = 0x005f6c00

instance (v : ℕ) : Decidable (MapleLiteral v) := inferInstanceAs (Decidable (_ = _))

/-- `struct.unpack_from("<I", data, off)`. -/
def unpackWord (data : List UInt8) (off : ℕ) : ℕ := fromBytesLittle ((data.drop off).take 4)

/-- What the loop adds for a hit at `pos`. -/
def mapleHit (data : List UInt8) (pos : ℕ) : Option (ℕ × ℕ) :=
  if 1 ≤ pos ∧ (pos - 1) % 4 = 0 ∧ pos - 1 + 4 ≤ data.length then
    if MapleLiteral (unpackWord data (pos - 1)) then
      some (pos - 1, unpackWord data (pos - 1))
    else none
  else none

/-- `scan`. -/
def scanMaple (data : List UInt8) : Finset (ℕ × ℕ) :=
  ((scan data [0x6c, 0x5f] (mapleHit data) 0).filterMap id).toFinset

theorem mem_scanMaple {data : List UInt8} {h : ℕ × ℕ} :
    h ∈ scanMaple data ↔
      ∃ pos, pos < data.length + 1 ∧ occursAt data [0x6c, 0x5f] pos = true ∧
        mapleHit data pos = some h := by
  unfold scanMaple
  rw [List.mem_toFinset, List.mem_filterMap, scan_zero]
  constructor
  · rintro ⟨x, hx, hxh⟩
    obtain ⟨pos, hpos, rfl⟩ := List.mem_map.1 hx
    obtain ⟨hrange, hocc⟩ := List.mem_filter.1 hpos
    exact ⟨pos, List.mem_range.1 hrange, hocc, hxh⟩
  · rintro ⟨pos, hpos, hocc, hhit⟩
    exact ⟨some h, List.mem_map.2 ⟨pos, List.mem_filter.2 ⟨List.mem_range.2 hpos, hocc⟩, hhit⟩,
      rfl⟩

/-- The four bytes of a word inside the data. -/
theorem drop_eq_word {data : List UInt8} {off : ℕ} (hoff : off + 4 ≤ data.length) :
    ∃ b₀ b₁ b₂ b₃ rest, data.drop off = b₀ :: b₁ :: b₂ :: b₃ :: rest := by
  have hlen : 4 ≤ (data.drop off).length := by
    rw [List.length_drop]
    omega
  match hd : data.drop off with
  | b₀ :: b₁ :: b₂ :: b₃ :: rest => exact ⟨b₀, b₁, b₂, b₃, rest, rfl⟩
  | [] | [_] | [_, _] | [_, _, _] =>
      rw [hd] at hlen
      simp at hlen

/-- A word points into the Maple block only with the pair in its middle bytes. -/
theorem MapleLiteral.pair {b₀ b₁ b₂ b₃ : UInt8}
    (h : MapleLiteral (fromBytesLittle [b₀, b₁, b₂, b₃])) : b₁ = 0x6c ∧ b₂ = 0x5f := by
  have h₀ := b₀.toNat_lt
  have h₁ := b₁.toNat_lt
  have h₂ := b₂.toNat_lt
  have h₃ := b₃.toNat_lt
  have hfield : fromBytesLittle [b₀, b₁, b₂, b₃] &&& (2 ^ 21 - 1) * 2 ^ 8 = 0x005f6c00 := h
  rw [and_field] at hfield
  simp only [fromBytesLittle] at hfield
  have hb₁ : b₁.toNat = 0x6c := by omega
  have hb₂ : b₂.toNat = 0x5f := by omega
  exact ⟨UInt8.toNat_inj.1 hb₁, UInt8.toNat_inj.1 hb₂⟩

/-- The pair stands one byte after the start of every literal. -/
theorem occursAt_of_literal {data : List UInt8} {off : ℕ} (hoff : off + 4 ≤ data.length)
    (h : MapleLiteral (unpackWord data off)) :
    occursAt data [0x6c, 0x5f] (off + 1) = true := by
  obtain ⟨b₀, b₁, b₂, b₃, rest, hd⟩ := drop_eq_word hoff
  unfold unpackWord at h
  rw [hd] at h
  obtain ⟨rfl, rfl⟩ := MapleLiteral.pair h
  unfold occursAt
  rw [← List.drop_drop, hd]
  rfl

/-- The scan finds the aligned literals, all of them and nothing else. -/
theorem scanMaple_eq (data : List UInt8) (off v : ℕ) :
    (off, v) ∈ scanMaple data ↔
      off % 4 = 0 ∧ off + 4 ≤ data.length ∧ v = unpackWord data off ∧ MapleLiteral v := by
  rw [mem_scanMaple]
  constructor
  · rintro ⟨pos, -, -, hhit⟩
    unfold mapleHit at hhit
    split at hhit
    · next hpos =>
      split at hhit
      · next hlit =>
        cases hhit
        exact ⟨hpos.2.1, hpos.2.2, rfl, hlit⟩
      · cases hhit
    · cases hhit
  · rintro ⟨hal, hoff, rfl, hlit⟩
    refine ⟨off + 1, by omega, occursAt_of_literal hoff hlit, ?_⟩
    unfold mapleHit
    rw [Nat.add_sub_cancel, if_pos ⟨Nat.le_add_left 1 off, hal, hoff⟩, if_pos hlit]

example : scanMaple [0, 0, 0, 0, 0x18, 0x6c, 0x5f, 0xa0, 0x6c, 0x5f] = {(4, 0xa05f6c18)} := by
  decide +kernel

end Cfp2Dreamcast
