import Cfp2Dreamcast.Machine.Commands
import Cfp2Dreamcast.Machine.Drive

/-!
# GD reads through the BIOS syscalls

The polled read engine of `gd.c`: up to four attempts, each a SEND followed by
EXEC and CHECK until the request completes or fails, with a recovery of the
BIOS state and the drive between attempts. The two read functions differ in the
command they send and in what surrounds it, and share `gdRead`.

The `for(;;)` polls count down the polls that are left before `shim_die`; the
counter `guard` of the source is carried along.
-/

namespace Cfp2Dreamcast

open Program Memory

/-- The bound of both polls: `guard` may be incremented this many times. -/
def gdGuardMax : ℕ := 100000000

/-- One round of the poll of `gd_init_drive`, continuing with `again`. -/
def gdInitPollStep (req guard : ℕ) (again : Shim Unit) : Shim Unit := do
  let _ ← gdc 0 [] gdExec
  let s ← gdc req [] gdCheck
  if s.r0 = gdCompleted ∨ s.r0 ≤ gdFailed then pure ()
  else if s.r0 = gdNotFound ∧ guard > 1000000 then pure ()
  else again

def gdInitPoll (req : ℕ) : (left guard : ℕ) → Shim Unit
  | 0, guard => gdInitPollStep req guard (shimDie 5 0xdead1217 0)
  | left + 1, guard => gdInitPollStep req guard (gdInitPoll req left (guard + 1))

def gdInitDrive : Shim Unit := do
  let req ← gdc cmdInit [] gdSend
  if req.r0 ≤ 0 then pure () else gdInitPoll req.r0.toNat gdGuardMax 0

def gdSysReinit : Shim Unit := do
  let _ ← gdc 0 [] gdSysinit
  pure ()

/-- `gd_recover`; the CD build also restores the sector mode. -/
def gdRecover (b : Build) : Shim Unit := do
  gdSysReinit
  gdInitDrive
  Prog.whenever (b.cdxa = true) do
    let _ ← gdc 0 [0, 0x2000, 2048, 2048] gdSectorMode
    pure ()

/-- One round of the read poll; `true` when the read has completed. -/
def gdPollStep (req guard : ℕ) (again : Shim Bool) : Shim Bool := do
  let _ ← gdc 0 [] gdExec
  let s ← gdc req [] gdCheck
  if s.r0 = gdCompleted then pure true
  else if s.r0 ≤ gdFailed then do
    putStatic .gdLastErr s.stat
    pure false
  else if s.r0 = gdNotFound ∧ guard > 1000000 then do
    putStatic .gdLastErr 0xcafe0001
    pure false
  else again

def gdPoll (fad n req : ℕ) : (left guard : ℕ) → Shim Bool
  | 0, guard => gdPollStep req guard (shimDie 5 fad n)
  | left + 1, guard => gdPollStep req guard (gdPoll fad n req left (guard + 1))

/-- What distinguishes the two read functions: the command, what is done before
each SEND, and what is done on completion. -/
structure GdMode where
  cmd : ℕ
  prepare : Shim Unit
  finish : Shim Unit

/-- One attempt: SEND, then poll. -/
def gdAttempt (md : GdMode) (dst fad n : ℕ) : Shim Bool := do
  md.prepare
  let req ← gdc md.cmd [fad, n, dst, 0] gdSend
  if req.r0 ≤ 0 then do
    putStatic .gdLastErr 0xcafe0002
    pure false
  else do
    let ok ← gdPoll fad n req.r0.toNat gdGuardMax 0
    if ok then do
      md.finish
      pure true
    else pure false

/-- The attempts `attempt`, `attempt + 1`, ... while `left` of them are left. -/
def gdRead (b : Build) (md : GdMode) (dst fad n : ℕ) : (left attempt : ℕ) → Shim ℤ
  | 0, _ => pure (-2)
  | left + 1, attempt => do
      Prog.whenever (attempt ≠ 0) (gdRecover b)
      let ok ← gdAttempt md dst fad n
      if ok then pure 0 else gdRead b md dst fad n left (attempt + 1)

def gdPio : GdMode := ⟨cmdPioread, pure (), pure ()⟩

def gdReadSectors (b : Build) (dst fad n : ℕ) : Shim ℤ :=
  gdRead b gdPio dst fad n 4 0

/-- Invalidate `k` cache blocks from the block of `a` on. -/
def ocbiBlocks (a : ℕ) : ℕ → Shim Unit
  | 0 => pure ()
  | k + 1 => do
      ocbi a
      ocbiBlocks (a + 32) k

/-- `dcache_inval`: the blocks of the cached alias of `[phys, phys + len)`. -/
def dcacheInval (p len : ℕ) : Shim Unit :=
  let a := (p &&& 0x1fffffff) ||| 0x80000000
  let a₀ := a / 32 * 32
  ocbiBlocks a₀ ((a + len - a₀ + 31) / 32)

def gdDma (p n : ℕ) : GdMode :=
  ⟨cmdDmaread, dcacheInval p (n * 2048), store32 .own 0xa05f6900 (1 <<< 14)⟩

/-- Mask the GD-DMA interrupt at one ASIC level register. -/
def maskGdIrq (a : ℕ) : Shim Unit := do
  let m ← load32 .own a
  store32 .own a (m &&& (0xffffffff - 1 <<< 14))

def gdReadSectorsDma (b : Build) (p fad n : ℕ) : Shim ℤ := do
  let p := p &&& 0x1fffffff
  maskGdIrq 0xa05f6910
  maskGdIrq 0xa05f6920
  maskGdIrq 0xa05f6930
  gdRead b (gdDma p n) p fad n 4 0

end Cfp2Dreamcast
