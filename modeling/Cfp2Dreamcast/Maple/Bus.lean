import Cfp2Dreamcast.Machine.Commands

/-!
# Polling the real pads

`maple.c`: one frame in the transmit buffer, the start bit of the Maple DMA, and
the reply in the receive buffer. The reply headers that are kept for the
diagnostics are left out.
-/

namespace Cfp2Dreamcast

open Program Memory

def sbMdstar : ℕ := 0xa05f6c04
def sbMdtsel : ℕ := 0xa05f6c10
def sbMden : ℕ := 0xa05f6c14
def sbMdst : ℕ := 0xa05f6c18
def sbMspeed : ℕ := 0xa05f6c80
def sbMdapro : ℕ := 0xa05f6c8c

/-- Trigger the DMA on the frame in the transmit buffer and wait for its end. -/
def runTransfer : Shim Unit := do
  store32 .own sbMdtsel 0
  store32 .own sbMdstar (mapleTx &&& 0x1fffffff)
  store32 .own sbMden 1
  store32 .own sbMdst 1
  awaitMaple

def probeDevinfo (port : ℕ) : Shim Unit := do
  let tx := p2Addr mapleTx
  let rx := p2Addr mapleRx
  let dst := (port <<< 6) ||| 0x20
  store32 .own rx 0
  store32 .own tx (0x80000000 ||| (port <<< 16))
  store32 .own (tx + 4) (mapleRx &&& 0x1fffffff)
  store32 .own (tx + 8) (((port <<< 6) <<< 16) ||| (dst <<< 8) ||| 1)
  let _ ← load32 .own (tx + 8)
  let _ ← load32 .own rx
  runTransfer
  let _ ← load32 .own rx

/-- One GETCOND transaction. -/
def getcondAttempt (port : ℕ) : Shim Unit := do
  let tx := p2Addr mapleTx
  let rx := p2Addr mapleRx
  let dst := (port <<< 6) ||| 0x20
  store32 .own rx 0
  store32 .own tx (0x80000000 ||| (port <<< 16) ||| 1)
  store32 .own (tx + 4) (mapleRx &&& 0x1fffffff)
  store32 .own (tx + 8) ((1 <<< 24) ||| ((port <<< 6) <<< 16) ||| (dst <<< 8) ||| 9)
  store32 .own (tx + 12) 0x01000000
  let _ ← load32 .own (tx + 12)
  let _ ← load32 .own rx
  runTransfer
  let _ ← load32 .own rx

/-- The attempts of `maple_getcond`. -/
def getcondAttempts (port : ℕ) : ℕ → Shim ℕ
  | 0 => pure 0xffff
  | left + 1 => do
      getcondAttempt port
      let hdr ← load32 .own (p2Addr mapleRx)
      if hdr &&& 0xff = 8 then do
        let cond ← load32 .own (p2Addr mapleRx + 8)
        pure (cond &&& 0xffff)
      else getcondAttempts port left

/-- The one-time set-up of the bus. -/
def busInit : Shim Unit := do
  let done ← getStatic .busInitDone
  Prog.whenever (done &&& 0x10000 ≠ 0) do
    putStatic .busInitDone 1
    store32 .own sbMdapro 0x6155404f
    store32 .own sbMspeed 0xc3500000
    store32 .own sbMdtsel 0
    store32 .own sbMden 1
    probeDevinfo 0
    probeDevinfo 1

def mapleGetcond (port : ℕ) : Shim ℕ := do
  busInit
  getcondAttempts port 2

end Cfp2Dreamcast
