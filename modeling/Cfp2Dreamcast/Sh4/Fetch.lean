import Cfp2Dreamcast.Memory.Bytes
import Cfp2Dreamcast.Sh4.Cpu

/-!
# Fetching and decoding

Execution of encoded SH-4 instructions from byte memory, for the three that an
entry thunk is made of. `mov.l @(disp,PC),Rn` reads the word at
`(PC & ~3) + 4 + 4 * disp`; `jmp @Rn` executes its delay slot before control
arrives at the target. A PC-relative load in a delay slot is an illegal slot
instruction, and so is a jump.
-/

namespace Sh4

open Memory

/-- The registers, the PC and byte memory. -/
structure Core where
  r : Reg → ℕ
  pc : ℕ
  mem : Mem

inductive Op where
  | movLit (disp : ℕ) (n : Reg)
  | jmp (n : Reg)
  | nop
  deriving DecidableEq, Repr

/-- The bits `k..k+3` of an opcode, as a register number. -/
def regField (code k : ℕ) : Reg := ⟨code / 2 ^ k % 16, Nat.mod_lt _ (by decide)⟩

def decodeInstr (code : ℕ) : Option Op :=
  if code / 2 ^ 12 = 0xd then some (.movLit (code % 2 ^ 8) (regField code 8))
  else if code / 2 ^ 12 = 4 ∧ code % 2 ^ 8 = 0x2b then some (.jmp (regField code 8))
  else if code = 9 then some .nop
  else none

namespace Core

variable (s : Core)

def half (a : ℕ) : ℕ := (s.mem a).toNat + (s.mem (a + 1)).toNat * 2 ^ 8

def word (a : ℕ) : ℕ := ofBytes (s.mem a) (s.mem (a + 1)) (s.mem (a + 2)) (s.mem (a + 3))

/-- The address of the literal of a `mov.l` at the PC. -/
def literal (disp : ℕ) : ℕ := s.pc / 4 * 4 + 4 + 4 * disp

/-- One instruction, with its delay slot when it is a jump; `none` when the code is
not one of the three or the slot is illegal. -/
def step : Option Core :=
  match decodeInstr (s.half s.pc) with
  | some (.movLit disp n) =>
      some { s with r := Function.update s.r n (s.word (s.literal disp)), pc := s.pc + 2 }
  | some .nop => some { s with pc := s.pc + 2 }
  | some (.jmp n) =>
      match decodeInstr (s.half (s.pc + 2)) with
      | some .nop => some { s with pc := s.r n }
      | _ => none
  | none => none

/-- The bytes lie in memory from `a` on. -/
def Holds (a : ℕ) (bs : List UInt8) : Prop := ∀ i, (h : i < bs.length) → s.mem (a + i) = bs[i]

end Core

end Sh4
