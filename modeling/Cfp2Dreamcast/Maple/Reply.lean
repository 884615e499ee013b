import Cfp2Dreamcast.Maple.Bus
import Cfp2Dreamcast.Maple.Jvs

/-!
# The synthesized replies

`maple_reply` answers the MIE subcommands, `mie_probe_reply` everything else the
game's engine sends while it brings the MIE up. A reply is stored through the
uncached alias of the receive address. The embedded blobs are data of the build.
-/

namespace Cfp2Dreamcast

open Program Memory

/-- The blobs that are linked into the shim. They fit its image, the EEPROM image
is the 128 bytes that are copied, and the DIP reply holds the DIP byte. -/
structure Embedded where
  eepromImg : List UInt8
  mieSub01 : List UInt8
  mieSub13 : List UInt8
  mieSub17 : List UInt8
  mieSub27 : List UInt8
  mieSub31 : List UInt8
  mieSubff : List UInt8
  mieJvsf1 : List UInt8
  mieJvs10 : List UInt8
  mieJvs11 : List UInt8
  mieJvs12 : List UInt8
  mieJvs13 : List UInt8
  mieJvs14 : List UInt8
  eeprom_length : eepromImg.length = 128
  sub31_length : 10 < mieSub31.length
  fits : ∀ blob ∈ [mieSub01, mieSub13, mieSub17, mieSub27, mieSub31, mieSubff, mieJvsf1,
    mieJvs10, mieJvs11, mieJvs12, mieJvs13, mieJvs14], blob.length ≤ shimCodeMax

/-- A build without captured replies. -/
def Embedded.blank : Embedded where
  eepromImg := List.replicate 128 0
  mieSub01 := []
  mieSub13 := []
  mieSub17 := []
  mieSub27 := []
  mieSub31 := List.replicate 12 0
  mieSubff := []
  mieJvsf1 := []
  mieJvs10 := []
  mieJvs11 := []
  mieJvs12 := []
  mieJvs13 := []
  mieJvs14 := []
  eeprom_length := List.length_replicate
  sub31_length := by decide
  fits := by decide

/-- `shim_cable_is_vga`. -/
def shimCableIsVga : Shim Bool := do
  let latch ← getStatic .cableLatch
  Prog.whenever (latch > 3) do
    let pctra ← load32 .own 0xff80002c
    store32 .own 0xff80002c ((pctra &&& 0xfff0ffff) ||| 0x000a0000)
    let pdtra ← load16 0xff800030
    putStatic .cableLatch ((pdtra >>> 8) &&& 3)
  let latch ← getStatic .cableLatch
  pure (decide (latch = 0))

/-- The shifts of the timer prescalers. -/
def tpscShifts : List ℕ := [2, 4, 6, 8, 10, 10, 10, 10]

/-- The length of 8 ms in timer ticks, computed once. -/
def padThreshold : Shim Unit := do
  let thresh ← getStatic .padThresh
  Prog.whenever (thresh = 1) do
    let tcr ← load16 0xffd80010
    putStatic .padThresh ((50000000 >>> (tpscShifts.getD (tcr &&& 7) 0)) / 125)

/-- `pad_reboot`. -/
def padReboot {α : Type} : Shim α := Prog.halt .reboot

/-- Poll both pads unless they were polled in the last 8 ms. -/
def pollPads : Shim Unit := do
  padThreshold
  let now ← load32 .own 0xffd8000c
  let last ← getStatic .inTcnt
  let thresh ← getStatic .padThresh
  Prog.whenever (sub32 last now > thresh) do
    putStatic .inTcnt now
    let rawA ← mapleGetcond 0
    putStatic .rawCacheA rawA
    let rawB ← mapleGetcond 1
    putStatic .rawCacheB rawB
    if dcResetCombo (UInt16.ofNat rawA) ∨ dcResetCombo (UInt16.ofNat rawB) then padReboot
    else pure ()

def jvsDigital (rx : ℕ) : Shim Unit := do
  pollPads
  let raw ← getStatic .rawCacheA
  let raw2 ← getStatic .rawCacheB
  xmemcpyReply rx (digitalFrame (UInt16.ofNat raw) (UInt16.ofNat raw2))

/-- The DIP switches: bit 0 of byte 10 is the monitor frequency. -/
def dipReply (rx : ℕ) (blob : List UInt8) : Shim Unit := do
  xmemcpyReply rx blob
  let vga ← shimCableIsVga
  Prog.whenever (vga = false) do
    let b ← load8 .reply (rx + 10)
    store8 .reply (rx + 10) (b &&& 0xfe)

def eepromHdr : List UInt8 := [0x87, 0x00, 0x20, 0x20]
def eepromAck : List UInt8 := [0x87, 0x00, 0x20, 0x01, 0x0c, 0x00, 0x8e, 0x00]

/-- The reply to a receive: by the JVS command transmitted last. -/
def receiveReply (d : Embedded) (rx pending : ℕ) : Shim Unit :=
  match pending with
  | 0xf1 => xmemcpyReply rx d.mieJvsf1
  | 0x10 => xmemcpyReply rx d.mieJvs10
  | 0x11 => xmemcpyReply rx d.mieJvs11
  | 0x12 => xmemcpyReply rx d.mieJvs12
  | 0x13 => xmemcpyReply rx d.mieJvs13
  | 0x14 => xmemcpyReply rx d.mieJvs14
  | _ => jvsDigital rx

def mapleReply (d : Embedded) (sub recvaddr frame : ℕ) : Shim Unit :=
  let rx := p2Addr recvaddr
  match sub with
  | 0x33 => jvsDigital rx
  | 0x15 => do
      let pending ← getStatic .pendingJvs
      receiveReply d rx pending
  | 0x03 => do
      xmemcpyReply rx eepromHdr
      xmemcpyReply (rx + 4) d.eepromImg
  | 0x01 => xmemcpyReply rx d.mieSub01
  | 0x13 => xmemcpyReply rx d.mieSub13
  | 0x17 | 0x19 | 0x21 => xmemcpyReply rx d.mieSub17
  | 0x27 => xmemcpyReply rx d.mieSub27
  | 0x31 => dipReply rx d.mieSub31
  | 0xff => xmemcpyReply rx d.mieSubff
  | 0x0b => do
      let _ ← load8 .list (p2Addr (frame + 0x0d))
      let _ ← load8 .list (p2Addr (frame + 0x0e))
      xmemcpyReply rx eepromAck
  | _ => shimDie 3 sub recvaddr

/-- `mie_id48`. -/
def mieId48 : List UInt8 :=
  "315-6149    COPYRIGHT SEGA ENTERPRISES CO,LTD.  ".toList.map fun c => UInt8.ofNat c.toNat

/-- The sum of `n` payload bytes. -/
def sumBytes (a : ℕ) : ℕ → Shim ℕ
  | 0 => pure 0
  | n + 1 => do
      let b ← load8 .list (p2Addr a)
      let rest ← sumBytes (a + 1) n
      pure (b.toNat + rest)

/-- The sender and the recipient of the request, exchanged. -/
def probeHdr (fh : ℕ) : ℕ :=
  (((fh >>> 16) &&& 0xff) <<< 8) ||| (((fh >>> 8) &&& 0xff) <<< 16)

def mieProbeReply (cmd fh rcv frame : ℕ) : Shim Unit :=
  let rx := p2Addr rcv
  let hdr := probeHdr fh
  match cmd with
  | 0x01 => store32 .reply rx (hdr ||| 0x05)
  | 0x02 => store32 .reply rx (hdr ||| 0x06)
  | 0x03 | 0x04 => store32 .reply rx (hdr ||| 0x07)
  | 0x82 => do
      store32 .reply rx (hdr ||| 0x83 ||| (7 <<< 24))
      xmemcpyReply (rx + 4) (mieId48.take 28)
      store32 .reply (rx + 32) (hdr ||| 0x83 ||| (5 <<< 24))
      xmemcpyReply (rx + 36) ((mieId48.drop 28).take 20)
  | 0x80 => do
      let b ← load8 .list (p2Addr (frame + 0x0d))
      if b = 0xff then store32 .reply rx (hdr ||| 0x07)
      else do
        let sum ← sumBytes (frame + 0x0c) 0x1c
        store32 .reply rx (hdr ||| 0x80 ||| (1 <<< 24))
        store32 .reply (rx + 4) (sum &&& 0xff)
        store32 .reply (rx + 8) (hdr ||| 0x07)
  | _ => store32 .reply rx (hdr ||| 0x07)

end Cfp2Dreamcast
