import Cfp2Dreamcast.Maple.Reply

/-!
# The descriptor walk

`shim_maple_steady`: run the game's engine, and when it triggered a transfer in
the register mirror walk its descriptor list, answer each frame, and clear the
start bit.
-/

namespace Cfp2Dreamcast

open Program Memory

/-- The window check on the list base and on each receive address. -/
def inWindow (a : ℕ) : Prop := sub32 a 0x0c000000 < 0x02000000

instance (a : ℕ) : Decidable (inWindow a) := inferInstanceAs (Decidable (_ < _))

/-- The transmit subcommands latch the JVS command, the scan clears it. -/
def latchJvs (sub addr : ℕ) : Shim Unit :=
  match sub with
  | 0x17 | 0x19 | 0x21 => do
      let b ← load8 .list (p2Addr (addr + 0x14))
      putStatic .pendingJvs b.toNat
  | 0x27 => putStatic .pendingJvs 0xff
  | _ => pure ()

/-- An MP_Start frame; `first` when it is the first one of the list. -/
def serveFrame (d : Embedded) (first : Bool) (addr rcv : ℕ) : Shim Unit := do
  let fh ← load32 .list (p2Addr (addr + 0x08))
  Prog.whenever (first = true) do
    let _ ← load32 .list (p2Addr (addr + 0x0c))
  if fh &&& 0xff = 0x86 ∧ (fh >>> 8) &&& 0xff = 0x20 then do
    let sub ← load8 .list (p2Addr (addr + 0x0c))
    latchJvs sub.toNat addr
    Prog.whenever (inWindow rcv) (mapleReply d sub.toNat rcv addr)
  else
    Prog.whenever (inWindow rcv) (mieProbeReply (fh &&& 0xff) fh rcv addr)

/-- At most `left` more descriptors, from `addr` on. `first` says that no MP_Start
frame was met yet. -/
def walk (d : Embedded) : (left : ℕ) → (first : Bool) → (addr : ℕ) → Shim Unit
  | 0, _, _ => pure ()
  | left + 1, first, addr => do
      let h1 ← load32 .head (p2Addr addr)
      let word ← load32 .list (p2Addr (addr + 0x04))
      let rcv := word &&& 0x1fffffe0
      let plen := (h1 &&& 0xff) + 1
      let start := (h1 >>> 8) &&& 7 = 0
      Prog.whenever start (serveFrame d first addr rcv)
      if h1 >>> 31 ≠ 0 then pure ()
      else walk d left (first && !decide start) (u32 (addr + (2 + plen) * 4))

/-- `MMIR`: a register of the Maple mirror. -/
def mmir (off : ℕ) : ℕ := p2Addr (mapleMirror + off)

/-- A triggered transfer. -/
def serviceTransfer (d : Embedded) : Shim Unit := do
  let star ← load32 .own (mmir 0x04)
  let addr := star &&& 0x1fffffe0
  Prog.whenever (inWindow addr) (walk d 32 true addr)
  let _ ← load32 .own (mmir 0x04)
  store32 .own (mmir 0x18) 0

/-- `shim_maple_steady` after the engine returned `rc`. -/
def serviceMirror (d : Embedded) (rc : ℤ) : Shim ℤ := do
  let mdst ← load32 .own (mmir 0x18)
  Prog.whenever (mdst &&& 1 ≠ 0) (serviceTransfer d)
  pure rc

/-- The free-play flag of the game's settings. -/
def freePlay : ℕ := 0x8c1c9790

def shimMapleSteady (d : Embedded) : Shim ℤ := do
  store32 .own freePlay 1
  let rc ← engine
  serviceMirror d rc

end Cfp2Dreamcast
