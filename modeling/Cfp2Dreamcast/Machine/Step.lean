import Cfp2Dreamcast.Machine.Drive

/-!
# The machine under the shim

`shimMachine B W` runs the commands of the shim on the memory system `B` in the
world `W`: the disc and the game's Maple engine. Addresses of area 3 are RAM;
everything else is a device register or video memory, where a load may return
anything and a store is only latched. The real Maple DMA writes the receive
buffer and nothing else.
-/

namespace Cfp2Dreamcast

open Program Memory

structure World (μ : Type) where
  disc : Disc
  engine : μ → ℤ → μ → Prop

structure State (μ : Type) where
  mem : μ
  statics : Static → ℕ
  drive : Drive
  regs : ℕ → ℕ

/-- The receive buffer of the real Maple DMA: the longest reply is a header and
255 words. -/
def mapleRxBuffer : Buffer := ⟨p2Addr mapleRx, 1024⟩

variable {μ : Type}

def shimStep (B : Bus μ) (W : World μ) (s : State μ) :
    (c : Cmd) → c.Resp → State μ → Prop
  | .load8 _ a, r, s' =>
      if isRam a then
        r = B.view s.mem a ∧ ∃ m, B.touch s.mem a m ∧ s' = { s with mem := m }
      else s' = s
  | .load16 _, r, s' => r < 2 ^ 16 ∧ s' = s
  | .load32 _ a, r, s' =>
      if isRam a then
        r = B.word s.mem a ∧ ∃ m, B.touch s.mem a m ∧ s' = { s with mem := m }
      else r < 2 ^ 32 ∧ s' = s
  | .store8 _ a v, _, s' =>
      if isRam a then ∃ m, B.store s.mem a v m ∧ s' = { s with mem := m }
      else s' = s
  | .store16 a v, _, s' =>
      if isRam a then
        ∃ m, B.storeRun s.mem a ((wordBytes v).take 2) m ∧ s' = { s with mem := m }
      else s' = s
  | .store32 _ a v, _, s' =>
      if isRam a then
        ∃ m, B.storeRun s.mem a (wordBytes v) m ∧ s' = { s with mem := m }
      else s' = { s with regs := Function.update s.regs (phys a) v }
  | .ocbi a, _, s' => ∃ m, B.discard s.mem a m ∧ s' = { s with mem := m }
  | .get x, r, s' => r = s.statics x ∧ s' = s
  | .put x v, _, s' => s' = { s with statics := Function.update s.statics x v }
  | .gdc r4 block r7, r, s' =>
      ∃ m d, GdStep B W.disc s.mem s.drive r4 block r7 r m d ∧
        s' = { s with mem := m, drive := d }
  | .engine, r, s' =>
      ∃ m regs, W.engine s.mem r m ∧ s' = { s with mem := m, regs := regs }
  | .awaitMaple, _, s' =>
      ∃ m, B.Run mapleRxBuffer.Mem (fun _ => False) s.mem m ∧ s' = { s with mem := m }

def shimMachine (B : Bus μ) (W : World μ) : Machine shimSig (State μ) where
  step s c r s' := shimStep B W s c r s'

section Access

variable {B : Bus μ} {W : World μ} {s s' : State μ} {o : Origin} {a : ℕ}

theorem step_load8 {r : UInt8} (ha : isRam a) :
    (shimMachine B W).step s (.load8 o a) r s' ↔
      r = B.view s.mem a ∧ ∃ m, B.touch s.mem a m ∧ s' = { s with mem := m } := by
  simp only [shimMachine, shimStep, if_pos ha]

theorem step_load8_io {r : UInt8} (ha : ¬ isRam a) :
    (shimMachine B W).step s (.load8 o a) r s' ↔ s' = s := by
  simp only [shimMachine, shimStep, if_neg ha]

theorem step_load32 {r : ℕ} (ha : isRam a) :
    (shimMachine B W).step s (.load32 o a) r s' ↔
      r = B.word s.mem a ∧ ∃ m, B.touch s.mem a m ∧ s' = { s with mem := m } := by
  simp only [shimMachine, shimStep, if_pos ha]

theorem step_load32_io {r : ℕ} (ha : ¬ isRam a) :
    (shimMachine B W).step s (.load32 o a) r s' ↔ r < 2 ^ 32 ∧ s' = s := by
  simp only [shimMachine, shimStep, if_neg ha]

theorem step_store8 {v : UInt8} {r : Unit} (ha : isRam a) :
    (shimMachine B W).step s (.store8 o a v) r s' ↔
      ∃ m, B.store s.mem a v m ∧ s' = { s with mem := m } := by
  simp only [shimMachine, shimStep, if_pos ha]

theorem step_store8_io {v : UInt8} {r : Unit} (ha : ¬ isRam a) :
    (shimMachine B W).step s (.store8 o a v) r s' ↔ s' = s := by
  simp only [shimMachine, shimStep, if_neg ha]

theorem step_store16 {v : ℕ} {r : Unit} (ha : isRam a) :
    (shimMachine B W).step s (.store16 a v) r s' ↔
      ∃ m, B.storeRun s.mem a ((wordBytes v).take 2) m ∧ s' = { s with mem := m } := by
  simp only [shimMachine, shimStep, if_pos ha]

theorem step_store16_io {v : ℕ} {r : Unit} (ha : ¬ isRam a) :
    (shimMachine B W).step s (.store16 a v) r s' ↔ s' = s := by
  simp only [shimMachine, shimStep, if_neg ha]

theorem step_store32 {v : ℕ} {r : Unit} (ha : isRam a) :
    (shimMachine B W).step s (.store32 o a v) r s' ↔
      ∃ m, B.storeRun s.mem a (wordBytes v) m ∧ s' = { s with mem := m } := by
  simp only [shimMachine, shimStep, if_pos ha]

theorem step_store32_io {v : ℕ} {r : Unit} (ha : ¬ isRam a) :
    (shimMachine B W).step s (.store32 o a v) r s' ↔
      s' = { s with regs := Function.update s.regs (phys a) v } := by
  simp only [shimMachine, shimStep, if_neg ha]

end Access

end Cfp2Dreamcast
