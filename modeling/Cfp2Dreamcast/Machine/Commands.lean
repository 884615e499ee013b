import Cfp2Dreamcast.Machine.AddressMap
import Cfp2Dreamcast.Program.Rules

/-!
# The commands of the shim

The C code of the shim is a program over these commands: loads and stores at
virtual addresses, the cache-block invalidate, its own static variables, the GD
syscall, the call of the game's Maple engine and the wait for the real Maple
DMA. Each access carries the lvalue it is written through in the source: `head`
for the first word of a descriptor, `list` for the rest of the descriptor walk
(`UW`, `UB`), `reply` for the receive buffer of a synthesized reply, `own` for
everything else.

The statics are kept apart from RAM. Those that only feed the HUD, the serial
trace or the on-screen counters, all compiled out in a release, are left out.
-/

namespace Cfp2Dreamcast

open Program

/-- The lvalue an access goes through. -/
inductive Origin where
  | own
  | head
  | list
  | reply
  deriving DecidableEq, Repr

/-- The static variables the modelled code reads. -/
inductive Static where
  | pendingJvs
  | inTcnt
  | rawCacheA
  | rawCacheB
  | padThresh
  | busInitDone
  | cableLatch
  | gdLastErr
  | pbLeft
  deriving DecidableEq, Repr

/-- What a GD syscall returns: `r0`, and the first word of the block it was
given. -/
structure GdReply where
  r0 : ℤ
  stat : ℕ

inductive Cmd where
  | load8 (o : Origin) (a : ℕ)
  | load16 (a : ℕ)
  | load32 (o : Origin) (a : ℕ)
  | store8 (o : Origin) (a : ℕ) (v : UInt8)
  | store16 (a : ℕ) (v : ℕ)
  | store32 (o : Origin) (a : ℕ) (v : ℕ)
  | ocbi (a : ℕ)
  | get (x : Static)
  | put (x : Static) (v : ℕ)
  | gdc (r4 : ℕ) (block : List ℕ) (r7 : ℕ)
  | engine
  | awaitMaple

abbrev Cmd.Resp : Cmd → Type
  | .load8 .. => UInt8
  | .load16 .. => ℕ
  | .load32 .. => ℕ
  | .get _ => ℕ
  | .gdc .. => GdReply
  | .engine => ℤ
  | _ => Unit

/-- The two ways in which the shim does not return: `shim_die` and
`pad_reboot`. -/
inductive Halt where
  | die (code a b : ℕ)
  | reboot
  deriving DecidableEq, Repr

abbrev shimSig : Signature where
  Cmd := Cmd
  Resp := Cmd.Resp
  Halt := Halt

abbrev Shim (α : Type) := Prog shimSig α

abbrev load8 (o : Origin) (a : ℕ) : Shim UInt8 := .op (Cmd.load8 o a) .ret
abbrev load16 (a : ℕ) : Shim ℕ := .op (Cmd.load16 a) .ret
abbrev load32 (o : Origin) (a : ℕ) : Shim ℕ := .op (Cmd.load32 o a) .ret
abbrev store8 (o : Origin) (a : ℕ) (v : UInt8) : Shim Unit := .op (Cmd.store8 o a v) .ret
abbrev store16 (a v : ℕ) : Shim Unit := .op (Cmd.store16 a v) .ret
abbrev store32 (o : Origin) (a v : ℕ) : Shim Unit := .op (Cmd.store32 o a v) .ret
abbrev ocbi (a : ℕ) : Shim Unit := .op (Cmd.ocbi a) .ret
abbrev getStatic (x : Static) : Shim ℕ := .op (Cmd.get x) .ret
abbrev putStatic (x : Static) (v : ℕ) : Shim Unit := .op (Cmd.put x v) .ret
abbrev gdc (r4 : ℕ) (block : List ℕ) (r7 : ℕ) : Shim GdReply := .op (Cmd.gdc r4 block r7) .ret
abbrev engine : Shim ℤ := .op Cmd.engine .ret
abbrev awaitMaple : Shim Unit := .op Cmd.awaitMaple .ret

/-- `shim_die`: fill in the error block, then paint the screen for ever. -/
def shimDie {α : Type} (code a b : ℕ) : Shim α := do
  store32 .own (p2Addr shimErr + 4) a
  store32 .own (p2Addr shimErr + 8) b
  store32 .own (p2Addr shimErr + 12) 0xdeadcafe
  store32 .own (p2Addr shimErr) code
  Prog.halt (.die code a b)

/-- `xmemcpy` from memory to memory. -/
def xmemcpy (d s : ℕ) : ℕ → Shim Unit
  | 0 => pure ()
  | n + 1 => do
      let b ← load8 .own s
      store8 .own d b
      xmemcpy (d + 1) (s + 1) n

/-- `xmemcpy` of a constant table or a local array into the receive buffer. -/
def xmemcpyReply (d : ℕ) : List UInt8 → Shim Unit
  | [] => pure ()
  | b :: bs => do
      store8 .reply d b
      xmemcpyReply (d + 1) bs

end Cfp2Dreamcast
