import Cfp2Dreamcast.Machine.Cached
import Cfp2Dreamcast.Memory.Flush
import Cfp2Dreamcast.Sh4.Fetch

/-!
# The handoff stub

`handoff.S` runs from the uncached alias of its relocated copy. It copies the
image to its load address a word at a time through P2, writes CCR, which drops
every cache line, and jumps. `Stub` is a core that runs uncached code: what it
fetches and loads is what RAM holds, and an access that would go through the
cache stops it.
-/

namespace Cfp2Dreamcast

open Memory Sh4

/-- `HANDOFF_SCRATCH`, where the stub is relocated to. -/
def handoffScratch : ℕ := 0x8ce00000

/-- The cache control register. -/
def ccr : ℕ := 0xff00001c

/-- The instructions of the stub. -/
inductive StubOp where
  | mov (m n : Reg)
  | shlr2 (n : Reg)
  | loadInc (m n : Reg)
  | store (m n : Reg)
  | add (imm : ℕ) (n : Reg)
  | dt (n : Reg)
  | bf (disp : ℕ)
  | lit (disp : ℕ) (n : Reg)
  | nop
  | jmp (n : Reg)
  deriving DecidableEq, Repr

def StubOp.decode (code : ℕ) : Option StubOp :=
  let n := regField code 8
  let m := regField code 4
  if code = 0x0009 then some .nop
  else if code / 2 ^ 12 = 0x6 ∧ code % 2 ^ 4 = 0x3 then some (.mov m n)
  else if code / 2 ^ 12 = 0x6 ∧ code % 2 ^ 4 = 0x6 then some (.loadInc m n)
  else if code / 2 ^ 12 = 0x2 ∧ code % 2 ^ 4 = 0x2 then some (.store m n)
  else if code / 2 ^ 12 = 0x7 then some (.add (code % 2 ^ 8) n)
  else if code / 2 ^ 12 = 0x4 ∧ code % 2 ^ 8 = 0x09 then some (.shlr2 n)
  else if code / 2 ^ 12 = 0x4 ∧ code % 2 ^ 8 = 0x10 then some (.dt n)
  else if code / 2 ^ 12 = 0x4 ∧ code % 2 ^ 8 = 0x2b then some (.jmp n)
  else if code / 2 ^ 8 = 0x8b then some (.bf (code % 2 ^ 8))
  else if code / 2 ^ 12 = 0xd then some (.lit (code % 2 ^ 8) n)
  else none

/-- The halfwords of the stub in order, with the two literals at the end. -/
def handoffCode : List ℕ :=
  [0x6063, 0x4009,                             -- mov r6,r0; shlr2 r0
   0x6146, 0x2512, 0x7504, 0x4010, 0x8bfa,     -- 1: mov.l @r4+,r1 ... bf 1b
   0xd106, 0xd206, 0x2122,                     -- mov.l ccr_a,r1; ccr_v,r2; r2,@r1
   0x0009, 0x0009, 0x0009, 0x0009, 0x0009, 0x0009, 0x0009, 0x0009,
   0x472b, 0x0009,                             -- jmp @r7; nop
   0x001c, 0xff00, 0x090d, 0x0000]

/-- The bytes from `handoff` to `handoff_end`. -/
def handoffStub : List UInt8 :=
  (handoffCode.map fun c => [UInt8.ofNat c, UInt8.ofNat (c / 2 ^ 8)]).flatten

structure Stub where
  r : Reg → ℕ
  pc : ℕ
  t : Bool
  mem : Cached

namespace Stub

/-- An uncached access to RAM. -/
def Direct (a : ℕ) : Prop := uncached a ∧ isRam a

instance (a : ℕ) : Decidable (Direct a) := inferInstanceAs (Decidable (_ ∧ _))

def half (m : Cached) (a : ℕ) : ℕ :=
  (m.ram (phys a)).toNat + (m.ram (phys a + 1)).toNat * 2 ^ 8

def word (m : Cached) (a : ℕ) : ℕ :=
  ofBytes (m.ram (phys a)) (m.ram (phys a + 1)) (m.ram (phys a + 2)) (m.ram (phys a + 3))

def pokeWord (m : Cached) (a v : ℕ) : Cached :=
  (((m.poke (phys a) (UInt8.ofNat v)).poke (phys a + 1) (UInt8.ofNat (v / 2 ^ 8))).poke
    (phys a + 2) (UInt8.ofNat (v / 2 ^ 16))).poke (phys a + 3) (UInt8.ofNat (v / 2 ^ 24))

def setReg (s : Stub) (n : Reg) (v : ℕ) : Stub :=
  { s with r := Function.update s.r n v, pc := s.pc + 2 }

/-- A store: to RAM, or to CCR, where OCI (bit 3) drops the operand cache. -/
def put (m : Cached) (a v : ℕ) : Option Cached :=
  if Direct a then some (pokeWord m a v)
  else if a = ccr then some (if v.testBit 3 then m.discardAll else m)
  else none

/-- The target of a branch with an 8-bit displacement. -/
def branch (pc disp : ℕ) : ℕ :=
  if disp < 2 ^ 7 then pc + 4 + 2 * disp else pc + 4 - 2 * (2 ^ 8 - disp)

/-- `add` sign-extends its operand. -/
def addImm (v imm : ℕ) : ℕ :=
  if imm < 2 ^ 7 then (v + imm) % 2 ^ 32 else (v + (2 ^ 32 - (2 ^ 8 - imm))) % 2 ^ 32

def exec (s : Stub) : StubOp → Option Stub
  | .mov m n => some (s.setReg n (s.r m))
  | .shlr2 n => some (s.setReg n (s.r n / 4))
  | .loadInc m n =>
      if Direct (s.r m) then
        some ({ s with r := Function.update s.r m ((s.r m + 4) % 2 ^ 32) }.setReg n
          (word s.mem (s.r m)))
      else none
  | .store m n => (put s.mem (s.r n) (s.r m)).map fun mem => { s with mem := mem, pc := s.pc + 2 }
  | .add imm n => some (s.setReg n (addImm (s.r n) imm))
  | .dt n =>
      let v := (s.r n + (2 ^ 32 - 1)) % 2 ^ 32
      some { s.setReg n v with t := v = 0 }
  | .bf disp => some { s with pc := if s.t then s.pc + 2 else branch s.pc disp }
  | .lit disp n => some (s.setReg n (word s.mem (s.pc / 4 * 4 + 4 + 4 * disp)))
  | .nop => some { s with pc := s.pc + 2 }
  | .jmp n =>
      -- the delay slot runs first; only `nop` stands there
      if StubOp.decode (half s.mem (s.pc + 2)) = some .nop then some { s with pc := s.r n }
      else none

/-- One instruction, fetched from RAM. -/
def step (s : Stub) : Option Stub :=
  if Direct s.pc then (StubOp.decode (half s.mem s.pc)).bind s.exec else none

/-- The core gets to `entry`, and this is the first time. -/
inductive Arrives (entry : ℕ) : Stub → Stub → Prop
  | here {s : Stub} (h : s.pc = entry) : Arrives entry s s
  | step {s s₁ s' : Stub} (h : s.pc ≠ entry) (hs : s.step = some s₁)
      (hrest : Arrives entry s₁ s') : Arrives entry s s'

end Stub

/-- The call of the stub: `r4` to `r7`, in the registers that `r` leaves. -/
def handoffCall (r : Reg → ℕ) (t : Bool) (src dst len entry : ℕ) (m : Cached) : Stub where
  r := Function.update (Function.update (Function.update (Function.update r 4 src) 5 dst) 6 len)
    7 entry
  pc := p2Addr handoffScratch
  t := t
  mem := m

end Cfp2Dreamcast
