import Cfp2Dreamcast.Patch.Table
import Cfp2Dreamcast.Sh4.Fetch

/-!
# The entry thunk

What the bytes of `hook` do when they are executed: the first instruction loads the
target from the word at the end of the thunk, the second one jumps there. The
displacement counts from the aligned PC, so the two alignments of a function have
thunks of different length.
-/

namespace Cfp2Dreamcast

open Memory Sh4

theorem hookSlot_of_zero {fn : ℕ} (h : fn % 4 = 0) : hookSlot fn = fn + 8 := by
  unfold hookSlot
  omega

theorem hookSlot_of_two {fn : ℕ} (h : fn % 4 = 2) : hookSlot fn = fn + 6 := by
  unfold hookSlot
  omega

theorem hookDisp_even {fn : ℕ} (h : fn % 2 = 0) : hookDisp fn = 1 := by
  unfold hookDisp hookSlot
  omega

/-- The bytes of a thunk at a word-aligned address. -/
theorem hookCode_of_zero {fn : ℕ} (h : fn % 4 = 0) (target : ℕ) :
    hookCode fn target =
      [0x01, 0xd0, 0x2b, 0x40, 0x09, 0x00, 0x09, 0x00] ++ wordBytes target := by
  unfold hookCode
  rw [hookDisp_even (by omega), hookSlot_of_zero h, show (fn + 8 - (fn + 6)) / 2 = 1 by omega]
  rfl

/-- The bytes of a thunk in the second half of a word. -/
theorem hookCode_of_two {fn : ℕ} (h : fn % 4 = 2) (target : ℕ) :
    hookCode fn target = [0x01, 0xd0, 0x2b, 0x40, 0x09, 0x00] ++ wordBytes target := by
  unfold hookCode
  rw [hookDisp_even (by omega), hookSlot_of_two h, show (fn + 6 - (fn + 6)) / 2 = 0 by omega]
  rfl

theorem hookCode_length {fn : ℕ} (h : fn % 2 = 0) (target : ℕ) :
    (hookCode fn target).length = hookSlot fn + 4 - fn := by
  rcases (by omega : fn % 4 = 0 ∨ fn % 4 = 2) with h₀ | h₂
  · rw [hookCode_of_zero h₀, hookSlot_of_zero h₀]
    simp
    omega
  · rw [hookCode_of_two h₂, hookSlot_of_two h₂]
    simp
    omega

/-- The thunk starts with the three instructions and ends with the target. -/
theorem hookCode_parts {fn : ℕ} (h : fn % 2 = 0) (target : ℕ) :
    (∀ i, (hi : i < 6) → (hookCode fn target)[i]? =
      some (([0x01, 0xd0, 0x2b, 0x40, 0x09, 0x00] : List UInt8)[i])) ∧
    ∀ i, (hi : i < 4) → (hookCode fn target)[hookSlot fn - fn + i]? =
      some ((wordBytes target)[i]) := by
  rcases (by omega : fn % 4 = 0 ∨ fn % 4 = 2) with h₀ | h₂
  · rw [hookCode_of_zero h₀, hookSlot_of_zero h₀, Nat.add_sub_cancel_left]
    refine ⟨fun i hi => ?_, fun i hi => ?_⟩
    · interval_cases i <;> rfl
    · interval_cases i <;> rfl
  · rw [hookCode_of_two h₂, hookSlot_of_two h₂, Nat.add_sub_cancel_left]
    refine ⟨fun i hi => ?_, fun i hi => ?_⟩
    · interval_cases i <;> rfl
    · interval_cases i <;> rfl

section Run

variable {s : Core} {fn target : ℕ}

theorem byte_of_holds {bs : List UInt8} (hs : s.Holds fn bs) {i : ℕ} {b : UInt8}
    (hb : bs[i]? = some b) : s.mem (fn + i) = b := by
  obtain ⟨hi, rfl⟩ := List.getElem?_eq_some_iff.1 hb
  exact hs i hi

/-- The instructions of the thunk in memory. -/
theorem half_of_holds (heven : fn % 2 = 0) (hs : s.Holds fn (hookCode fn target)) :
    s.half fn = 0xd001 ∧ s.half (fn + 2) = 0x402b ∧ s.half (fn + 4) = 0x0009 := by
  have hbyte (i : ℕ) (hi : i < 6) := byte_of_holds hs ((hookCode_parts heven target).1 i hi)
  have h₀ := hbyte 0 (by decide)
  rw [Nat.add_zero] at h₀
  refine ⟨?_, ?_, ?_⟩
  · rw [Core.half, h₀, hbyte 1 (by decide)]
    rfl
  · rw [Core.half, hbyte 2 (by decide), Nat.add_assoc, hbyte 3 (by decide)]
    rfl
  · rw [Core.half, hbyte 4 (by decide), Nat.add_assoc, hbyte 5 (by decide)]
    rfl

/-- The pooled word in memory. -/
theorem word_of_holds (heven : fn % 2 = 0) (htarget : target < 2 ^ 32)
    (hs : s.Holds fn (hookCode fn target)) : s.word (hookSlot fn) = target := by
  have hle : fn ≤ hookSlot fn := by
    unfold hookSlot
    omega
  have hbyte (i : ℕ) (hi : i < 4) : s.mem (hookSlot fn + i) = (wordBytes target)[i] := by
    have h := byte_of_holds hs ((hookCode_parts heven target).2 i hi)
    rwa [← Nat.add_assoc, Nat.add_sub_cancel' hle] at h
  have h₀ := hbyte 0 (by decide)
  rw [Nat.add_zero] at h₀
  rw [Core.word, h₀, hbyte 1 (by decide), hbyte 2 (by decide), hbyte 3 (by decide)]
  exact ofBytes_wordBytes htarget

/-- Two steps lead to the target. -/
theorem run_hookCode (heven : fn % 2 = 0) (htarget : target < 2 ^ 32) (hpc : s.pc = fn)
    (hs : s.Holds fn (hookCode fn target)) :
    s.literal (hookDisp fn) = hookSlot fn ∧
      s.step.bind Core.step = some { s with r := Function.update s.r 0 target, pc := target } := by
  obtain ⟨h₀, h₁, h₂⟩ := half_of_holds heven hs
  have hlit : s.literal 1 = hookSlot fn := by
    unfold Core.literal hookSlot
    rw [hpc]
    omega
  have hmov : s.step = some { s with r := Function.update s.r 0 target, pc := fn + 2 } := by
    have hdec : decodeInstr 0xd001 = some (.movLit 1 0) := by decide
    unfold Core.step
    rw [hpc, h₀, hdec]
    simp only [hlit, word_of_holds heven htarget hs]
  rw [hookDisp_even heven]
  refine ⟨hlit, ?_⟩
  have hdec : decodeInstr 0x402b = some (.jmp 0) := by decide
  have hdec' : decodeInstr 0x0009 = some .nop := by decide
  let s₁ : Core := { s with r := Function.update s.r 0 target, pc := fn + 2 }
  have h₁' : s₁.half (fn + 2) = 0x402b := h₁
  have h₂' : s₁.half (fn + 4) = 0x0009 := h₂
  rw [hmov]
  show s₁.step = _
  unfold Core.step
  rw [show s₁.pc = fn + 2 from rfl, h₁', hdec]
  simp only [Nat.add_assoc, h₂', hdec']
  rw [show s₁.r 0 = target from Function.update_self (0 : Reg) target s.r]

end Run

/-- `hook` accepts every even address with room for the thunk and a matching first
opcode, and its bytes, executed there, load the target from an aligned word inside
the thunk, go to the target, and change nothing but `r0`. -/
theorem hook_runs {boot : List UInt8} {fn expect target : ℕ} (hlen : boot.length = 0x100000)
    (hbase : bootBase ≤ fn) (heven : fn % 2 = 0)
    (hroom : hookSlot fn + 4 ≤ bootBase + 0x100000)
    (hopcode : fromBytesLittle ((boot.drop (fn - bootBase)).take 2) = expect)
    (htarget : target < 2 ^ 32) :
    ∃ p, hook boot fn expect target = some p ∧ p.addr = fn ∧
      p.old = (boot.drop (fn - bootBase)).take p.new.length ∧
      p.old.length = p.new.length ∧ p.new.length ≤ 12 ∧
      hookSlot fn % 4 = 0 ∧ fn ≤ hookSlot fn ∧ hookSlot fn + 4 ≤ fn + p.new.length ∧
      ∀ s : Core, s.pc = fn → s.Holds fn p.new →
        s.literal (hookDisp fn) = hookSlot fn ∧ s.word (hookSlot fn) = target ∧
        s.step.bind Core.step =
          some { s with r := Function.update s.r 0 target, pc := target } := by
  have hslot : fn ≤ hookSlot fn ∧ hookSlot fn ≤ fn + 8 ∧ hookSlot fn % 4 = 0 := by
    unfold hookSlot
    omega
  obtain ⟨hle, hmax, hal⟩ := hslot
  have hcode := hookCode_length heven target
  have hrange : bootBase ≤ fn ∧ fn - bootBase + (hookCode fn target).length ≤ boot.length := by
    omega
  obtain ⟨p, hp, haddr, hnew, hold⟩ := patchOf_exists hrange
  have hhook : hook boot fn expect target = some p := by
    have hrd : rd boot fn 2 = some ((boot.drop (fn - bootBase)).take 2) := by
      unfold rd
      rw [if_pos (by omega)]
    have hguard : fromBytesLittle ((boot.drop (fn - bootBase)).take 2) = expect ∧
        hookDisp fn ≤ 255 ∧ target < 2 ^ 32 :=
      ⟨hopcode, by rw [hookDisp_even heven]; decide, htarget⟩
    unfold hook
    rw [hrd, Option.bind_some, if_pos hguard]
    exact hp
  refine ⟨p, hhook, haddr, by rw [hold, hnew], p.length_eq.symm, ?_, hal, hle, ?_, ?_⟩
  · rw [hnew]
    omega
  · rw [hnew]
    omega
  · intro s hpc hs
    rw [hnew] at hs
    obtain ⟨hlit, hrun⟩ := run_hookCode heven htarget hpc hs
    exact ⟨hlit, word_of_holds heven htarget hs, hrun⟩

theorem hook_runs_sample :
    ∃ p, hook zeroBoot bootBase 0 0x8cfc0000 = some p ∧
      ∀ s : Core, s.pc = bootBase → s.Holds bootBase p.new →
        s.step.bind Core.step =
          some { s with r := Function.update s.r 0 0x8cfc0000, pc := 0x8cfc0000 } := by
  have hopcode : fromBytesLittle ((zeroBoot.drop (bootBase - bootBase)).take 2) = 0 := by
    rw [Nat.sub_self, List.drop_zero, zeroBoot, List.take_replicate]
    rfl
  obtain ⟨p, hp, -, -, -, -, -, -, -, hrun⟩ := hook_runs List.length_replicate le_rfl
    (by decide) (by decide) hopcode (by decide : 0x8cfc0000 < 2 ^ 32)
  exact ⟨p, hp, fun s hpc hs => (hrun s hpc hs).2.2⟩

end Cfp2Dreamcast
