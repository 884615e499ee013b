import Cfp2Dreamcast.Maple.Walk
import Cfp2Dreamcast.Program.Monitor

/-!
# What the Maple service issues

`mapleMonitor` follows the words in the transmit buffer and the real SB_MDSTAR.
It accepts loads through the list and stores through a receive address only in
RAM, own stores only at the addresses the code names, and the start bit of the
real Maple DMA only when the transmit buffer holds one frame for a pad. The walk
and everything it calls are accepted whatever the list, the replies of the pads
and the engine are.
-/

namespace Cfp2Dreamcast

open Program Memory

/-- The words are one last-flagged frame, DEVICE REQUEST without parameters or
GETCOND of the controller, to the main device of port A or B, with the reply
into the receive buffer. -/
def PadRequest (w : ℕ → ℕ) : Prop :=
  ∃ port < 2, w 0 >>> 31 = 1 ∧ (w 0 >>> 8) &&& 7 = 0 ∧ (w 0 >>> 16) &&& 3 = port ∧
    w 1 = phys mapleRx ∧ (w 2 >>> 8) &&& 0xff = (port <<< 6) ||| 0x20 ∧
    (w 0 &&& 0xff = 0 ∧ w 2 >>> 24 = 0 ∧ w 2 &&& 0xff = 1 ∨
      w 0 &&& 0xff = 1 ∧ w 2 >>> 24 = 1 ∧ w 2 &&& 0xff = 9 ∧ w 3 = 0x01000000)

/-- The words of the transmit buffer and the SB_MDSTAR value that are known. -/
structure Known where
  tx : ℕ → Option ℕ
  star : Option ℕ

def Known.nothing : Known := ⟨fun _ => none, none⟩

/-- The words are those that are known. -/
def Known.Agrees (x : Known) (w : ℕ → ℕ) : Prop := ∀ i < 4, ∀ v, x.tx i = some v → w i = v

/-- The start bit may be set. -/
def Known.Safe (x : Known) : Prop :=
  x.star = some (phys mapleTx) ∧ ∀ w, x.Agrees w → PadRequest w

def Known.next (x : Known) : Cmd → Known
  | .store32 .own a v =>
      if a = sbMdstar then { x with star := some v }
      else if p2Addr mapleTx ≤ a ∧ a < p2Addr mapleTx + 16 then
        { x with tx := Function.update x.tx ((a - p2Addr mapleTx) / 4) (some (u32 v)) }
      else x
  | .store32 .. => .nothing
  | .store8 .. => .nothing
  | .engine => .nothing
  | _ => x

/-- The addresses at which the code stores through an lvalue of its own while it
walks a list: the transmit buffer, the header word of the receive buffer, the error
block and device registers. -/
def walkWords : List ℕ :=
  [p2Addr mapleTx, p2Addr mapleTx + 4, p2Addr mapleTx + 8, p2Addr mapleTx + 12,
    p2Addr mapleRx, p2Addr shimErr, p2Addr shimErr + 4, p2Addr shimErr + 8,
    p2Addr shimErr + 12, sbMdstar, sbMdtsel, sbMden, sbMspeed, sbMdapro, 0xff80002c]

/-- The free-play flag and SB_MDST of the mirror as well. -/
def ownWords : List ℕ := freePlay :: mmir 0x18 :: walkWords

/-- The subcommands that `maple_reply` handles. -/
def mieSubs : List ℕ :=
  [0x33, 0x15, 0x03, 0x01, 0x13, 0x17, 0x19, 0x21, 0x27, 0x31, 0xff, 0x0b]

/-- What a part of the service may do: the own stores, replying, latching a JVS
command, and opening descriptors. -/
structure Scope where
  own : List ℕ
  walk_own : ∀ a ∈ walkWords, a ∈ own
  replies : Prop
  latch : Prop
  heads : Prop

def Scope.poll : Scope := ⟨walkWords, fun _ ha => ha, False, False, False⟩
def Scope.reply : Scope := ⟨walkWords, fun _ ha => ha, True, False, False⟩
def Scope.frame : Scope := ⟨walkWords, fun _ ha => ha, True, True, False⟩
def Scope.walk : Scope := ⟨walkWords, fun _ ha => ha, True, True, True⟩
def Scope.call : Scope :=
  ⟨ownWords, fun _ ha => List.mem_cons_of_mem _ (List.mem_cons_of_mem _ ha), True, True, True⟩

/-- The commands that the monitor accepts. -/
def MapleCmd (g : Scope) (x : Known) : Cmd → Prop
  | .load8 o a => o = .own ∨ isRam a
  | .load16 _ => True
  | .load32 o a => o = .own ∨ (isRam a ∧ (o = .head → g.heads))
  | .store8 o a _ => o = .reply ∧ isRam a ∧ g.replies
  | .store32 o a v =>
      (o = .reply ∧ (∀ i < 4, isRam (a + i)) ∧ g.replies) ∨
        (o = .own ∧ (a ∈ g.own ∨ (a = sbMdst ∧ v = 1 ∧ x.Safe)))
  | .get _ => True
  | .put y _ => y = .pendingJvs → g.latch
  | .engine => True
  | .awaitMaple => True
  | _ => False

/-- The walk halts on an unhandled MIE subcommand or reboots. -/
def MapleHalt (g : Scope) : Halt → Prop
  | .die code sub _ => code = 3 ∧ sub ∉ mieSubs ∧ g.replies
  | .reboot => True

def mapleMonitor (g : Scope) : Monitor shimSig Known where
  next := Known.next
  ok := MapleCmd g
  halt := MapleHalt g

section Accepted

variable {g : Scope} {α : Type}

theorem tracked_loadOwn {a : ℕ} {k : ℕ → Shim α}
    (hk : ∀ r, Tracked (mapleMonitor g) (k r)) :
    Tracked (mapleMonitor g) (.op (.load32 .own a) k) := .op (fun _ => .inl rfl) hk

theorem tracked_storeOwn {a v : ℕ} {k : Unit → Shim α} (ha : a ∈ walkWords)
    (hk : ∀ r, Tracked (mapleMonitor g) (k r)) :
    Tracked (mapleMonitor g) (.op (.store32 .own a v) k) :=
  .op (fun _ => .inr ⟨rfl, .inl (g.walk_own _ ha)⟩) hk

theorem tracked_getStatic {y : Static} {k : ℕ → Shim α}
    (hk : ∀ r, Tracked (mapleMonitor g) (k r)) :
    Tracked (mapleMonitor g) (.op (.get y) k) := .op (fun _ => trivial) hk

theorem tracked_putStatic {y : Static} {v : ℕ} {k : Unit → Shim α} (hy : y ≠ .pendingJvs)
    (hk : ∀ r, Tracked (mapleMonitor g) (k r)) :
    Tracked (mapleMonitor g) (.op (.put y v) k) := .op (fun _ h => absurd h hy) hk

theorem tracked_putPending {v : ℕ} {k : Unit → Shim α} (hg : g.latch)
    (hk : ∀ r, Tracked (mapleMonitor g) (k r)) :
    Tracked (mapleMonitor g) (.op (.put .pendingJvs v) k) := .op (fun _ _ => hg) hk

theorem tracked_loadList {a : ℕ} (ha : isRam a) {k : ℕ → Shim α}
    (hk : ∀ r, Tracked (mapleMonitor g) (k r)) :
    Tracked (mapleMonitor g) (.op (.load32 .list (p2Addr a)) k) :=
  .op (fun _ => .inr ⟨(isRam_p2Addr a).2 ha, fun h => by cases h⟩) hk

theorem tracked_loadHead {a : ℕ} (ha : isRam a) {k : ℕ → Shim α} (hg : g.heads)
    (hk : ∀ r, Tracked (mapleMonitor g) (k r)) :
    Tracked (mapleMonitor g) (.op (.load32 .head (p2Addr a)) k) :=
  .op (fun _ => .inr ⟨(isRam_p2Addr a).2 ha, fun _ => hg⟩) hk

theorem tracked_loadByte {a : ℕ} (ha : isRam a) {k : UInt8 → Shim α}
    (hk : ∀ r, Tracked (mapleMonitor g) (k r)) :
    Tracked (mapleMonitor g) (.op (.load8 .list (p2Addr a)) k) :=
  .op (fun _ => .inr ((isRam_p2Addr a).2 ha)) hk

theorem tracked_shimDie {sub a : ℕ} (hsub : sub ∉ mieSubs) (hg : g.replies) :
    Tracked (mapleMonitor g) (shimDie 3 sub a : Shim α) :=
  tracked_storeOwn (by decide) fun _ => tracked_storeOwn (by decide) fun _ =>
    tracked_storeOwn (by decide) fun _ => tracked_storeOwn (by decide) fun _ =>
      tracked_halt ⟨rfl, hsub, hg⟩

end Accepted

section Pads

variable {g : Scope}

theorem tracks_storeOwn {α : Type} {x : Known} {a v : ℕ} {k : Unit → Shim α}
    {Q : Known → α → Prop} (ha : a ∈ walkWords)
    (hk : ∀ r, Tracks (mapleMonitor g) (k r) Q (x.next (.store32 .own a v))) :
    Tracks (mapleMonitor g) (.op (.store32 .own a v) k) Q x :=
  ⟨.inr ⟨rfl, .inl (g.walk_own _ ha)⟩, hk⟩

/-- The end of a transaction: the buffer is complete, the DMA is started. -/
theorem tracks_runTransfer {x : Known} (hx : ∀ w, x.Agrees w → PadRequest w) :
    Tracks (mapleMonitor g) runTransfer (fun _ _ => True) x := by
  refine tracks_storeOwn (by decide) fun _ => tracks_storeOwn (by decide) fun _ =>
    tracks_storeOwn (by decide) fun _ => ⟨.inr ⟨rfl, .inr ⟨rfl, rfl, rfl, ?_⟩⟩, fun _ =>
      ⟨trivial, fun _ => trivial⟩⟩
  exact hx

theorem tracked_probeDevinfo {port : ℕ} (hport : port < 2) :
    Tracked (mapleMonitor g) (probeDevinfo port) := by
  refine ⟨fun x => ?_⟩
  refine tracks_storeOwn (by decide) fun _ => tracks_storeOwn (by decide) fun _ =>
    tracks_storeOwn (by decide) fun _ => tracks_storeOwn (by decide) fun _ =>
      ⟨.inl rfl, fun _ => ⟨.inl rfl, fun _ => ?_⟩⟩
  show Tracks _ (runTransfer >>= fun _ => _) _ _
  refine Tracks.bind (tracks_runTransfer fun w hw => ?_) fun y _ _ =>
    (tracked_loadOwn fun _ => tracked_ret ()).tracks y
  have h₀ : w 0 = u32 (0x80000000 ||| (port <<< 16)) := hw 0 (by decide) _ rfl
  have h₁ : w 1 = u32 (mapleRx &&& 0x1fffffff) := hw 1 (by decide) _ rfl
  have h₂ : w 2 = u32 (((port <<< 6) <<< 16) ||| (((port <<< 6) ||| 0x20) <<< 8) ||| 1) :=
    hw 2 (by decide) _ rfl
  have h : port = 0 ∨ port = 1 := by omega
  refine ⟨port, hport, ?_⟩
  rw [h₀, h₁, h₂]
  rcases h with rfl | rfl
  · exact ⟨by decide, by decide, by decide, by decide, by decide, .inl (by decide)⟩
  · exact ⟨by decide, by decide, by decide, by decide, by decide, .inl (by decide)⟩

theorem tracked_getcondAttempt {port : ℕ} (hport : port < 2) :
    Tracked (mapleMonitor g) (getcondAttempt port) := by
  refine ⟨fun x => ?_⟩
  refine tracks_storeOwn (by decide) fun _ => tracks_storeOwn (by decide) fun _ =>
    tracks_storeOwn (by decide) fun _ => tracks_storeOwn (by decide) fun _ =>
      tracks_storeOwn (by decide) fun _ => ⟨.inl rfl, fun _ => ⟨.inl rfl, fun _ => ?_⟩⟩
  show Tracks _ (runTransfer >>= fun _ => _) _ _
  refine Tracks.bind (tracks_runTransfer fun w hw => ?_) fun y _ _ =>
    (tracked_loadOwn fun _ => tracked_ret ()).tracks y
  have h₀ : w 0 = u32 (0x80000000 ||| (port <<< 16) ||| 1) := hw 0 (by decide) _ rfl
  have h₁ : w 1 = u32 (mapleRx &&& 0x1fffffff) := hw 1 (by decide) _ rfl
  have h₂ : w 2 = u32 ((1 <<< 24) ||| ((port <<< 6) <<< 16) |||
      (((port <<< 6) ||| 0x20) <<< 8) ||| 9) := hw 2 (by decide) _ rfl
  have h₃ : w 3 = u32 0x01000000 := hw 3 (by decide) _ rfl
  have h : port = 0 ∨ port = 1 := by omega
  refine ⟨port, hport, ?_⟩
  rw [h₀, h₁, h₂, h₃]
  rcases h with rfl | rfl <;> decide

theorem tracked_getcondAttempts {port : ℕ} (hport : port < 2) (left : ℕ) :
    Tracked (mapleMonitor g) (getcondAttempts port left) := by
  induction left with
  | zero => exact tracked_ret _
  | succ left ih =>
      refine (tracked_getcondAttempt hport).bind fun _ => tracked_loadOwn fun _ => ?_
      show Tracked _ (ite _ _ _)
      split
      · exact tracked_loadOwn fun _ => tracked_ret _
      · exact ih

theorem tracked_mapleGetcond {port : ℕ} (hport : port < 2) :
    Tracked (mapleMonitor g) (mapleGetcond port) := by
  refine Tracked.bind ?_ fun _ => tracked_getcondAttempts hport 2
  refine tracked_getStatic fun _ => Tracked.whenever fun _ => tracked_putStatic (by decide) fun _ =>
    tracked_storeOwn (by decide) fun _ => tracked_storeOwn (by decide) fun _ =>
      tracked_storeOwn (by decide) fun _ => tracked_storeOwn (by decide) fun _ => ?_
  exact (tracked_probeDevinfo (by decide)).bind fun _ => tracked_probeDevinfo (by decide)

theorem tracked_pollPads : Tracked (mapleMonitor g) pollPads := by
  refine Tracked.bind ?_ fun _ => tracked_loadOwn fun _ => tracked_getStatic fun _ =>
    tracked_getStatic fun _ => Tracked.whenever fun _ => tracked_putStatic (by decide) fun _ => ?_
  · exact tracked_getStatic fun _ => Tracked.whenever fun _ =>
      .op (fun _ => trivial) fun _ => tracked_putStatic (by decide) fun _ => tracked_ret ()
  · refine (tracked_mapleGetcond (by decide)).bind fun _ => tracked_putStatic (by decide) fun _ =>
      (tracked_mapleGetcond (by decide)).bind fun _ => tracked_putStatic (by decide) fun _ => ?_
    show Tracked _ (ite _ _ _)
    split
    · exact tracked_halt trivial
    · exact tracked_ret ()

end Pads

/-- The window admits addresses of the first half of the area. -/
theorem inWindow_iff {a : ℕ} (ha : a < 2 ^ 32) :
    inWindow a ↔ 0x0c000000 ≤ a ∧ a < 0x0e000000 :=
  sub32_lt_iff ha (by decide)

theorem isRam_of_bounds {a : ℕ} (hlo : 0x0c000000 ≤ a) (hhi : a < 0x10000000) : isRam a := by
  unfold isRam phys
  omega

/-- The longest reply stays inside RAM. -/
theorem isRam_reply {rcv i : ℕ} (hlo : 0x0c000000 ≤ rcv) (hhi : rcv < 0x0e000000)
    (hi : i ≤ shimCodeMax) : isRam (p2Addr rcv + i) := by
  rw [shimCodeMax_eq] at hi
  exact (isRam_p2Addr_add rcv i).2 (isRam_of_bounds (by omega) (by omega))

/-! Replies. A receive address inside the window leaves room for the longest
reply. -/

section Replies

variable {g : Scope} {rx : ℕ} (hreply : g.replies)

include hreply

theorem tracked_xmemcpyReply {bs : List UInt8} (hrx : ∀ i < bs.length, isRam (rx + i)) :
    Tracked (mapleMonitor g) (xmemcpyReply rx bs) := by
  induction bs generalizing rx with
  | nil => exact tracked_ret ()
  | cons b bs ih =>
      rw [List.length_cons] at hrx
      refine .op (fun _ => ⟨rfl, hrx 0 (by omega), hreply⟩) fun _ => ih fun i hi => ?_
      have h := hrx (i + 1) (by omega)
      rwa [Nat.add_comm i 1, ← Nat.add_assoc] at h

theorem tracked_storeReply {v : ℕ} {k : Unit → Shim Unit} (hrx : ∀ i < 4, isRam (rx + i))
    (hk : ∀ r, Tracked (mapleMonitor g) (k r)) :
    Tracked (mapleMonitor g) (.op (.store32 .reply rx v) k) :=
  .op (fun _ => .inl ⟨rfl, hrx, hreply⟩) hk

theorem tracked_jvsDigital (hrx : ∀ i < 64, isRam (rx + i)) :
    Tracked (mapleMonitor g) (jvsDigital rx) :=
  tracked_pollPads.bind fun _ => tracked_getStatic fun _ => tracked_getStatic fun _ =>
    tracked_xmemcpyReply hreply (by rwa [digitalFrame_length])

variable {rcv frame : ℕ} (hlo : 0x0c000000 ≤ rcv) (hhi : rcv < 0x0e000000)
  (hframe : 0x0c000000 ≤ frame) (hframe' : frame < 0x0f000000)

include hlo hhi

theorem tracked_blob {blob : List UInt8} (hblob : blob.length ≤ shimCodeMax) :
    Tracked (mapleMonitor g) (xmemcpyReply (p2Addr rcv) blob) :=
  tracked_xmemcpyReply hreply fun i hi => isRam_reply hlo hhi (by omega)

theorem tracked_digital : Tracked (mapleMonitor g) (jvsDigital (p2Addr rcv)) :=
  tracked_jvsDigital hreply fun i hi => isRam_reply hlo hhi (by rw [shimCodeMax_eq]; omega)

theorem tracked_receiveReply (d : Embedded) (pending : ℕ) :
    Tracked (mapleMonitor g) (receiveReply d (p2Addr rcv) pending) := by
  unfold receiveReply
  split
  · exact tracked_blob hreply hlo hhi (d.fits _ (by simp))
  · exact tracked_blob hreply hlo hhi (d.fits _ (by simp))
  · exact tracked_blob hreply hlo hhi (d.fits _ (by simp))
  · exact tracked_blob hreply hlo hhi (d.fits _ (by simp))
  · exact tracked_blob hreply hlo hhi (d.fits _ (by simp))
  · exact tracked_blob hreply hlo hhi (d.fits _ (by simp))
  · exact tracked_digital hreply hlo hhi

theorem tracked_dipReply {blob : List UInt8} (hblob : blob.length ≤ shimCodeMax) :
    Tracked (mapleMonitor g) (dipReply (p2Addr rcv) blob) := by
  have hbyte : isRam (p2Addr rcv + 10) := isRam_reply hlo hhi (by decide)
  refine (tracked_blob hreply hlo hhi hblob).bind fun _ => Tracked.bind ?_ fun _ =>
    Tracked.whenever fun _ => .op (fun _ => .inr hbyte) fun _ =>
      .op (fun _ => ⟨rfl, hbyte, hreply⟩) fun _ => tracked_ret ()
  refine tracked_getStatic fun _ => ?_
  show Tracked _ (Prog.whenever _ _ >>= fun _ => _)
  refine (Tracked.whenever fun _ => ?_).bind fun _ => tracked_getStatic fun _ => tracked_ret _
  exact tracked_loadOwn fun _ => tracked_storeOwn (by decide) fun _ =>
    .op (fun _ => trivial) fun _ => tracked_putStatic (by decide) fun _ => tracked_ret ()

omit hreply hlo hhi in
theorem tracked_sumBytes {a n : ℕ} (ha : ∀ i < n, isRam (a + i)) :
    Tracked (mapleMonitor g) (sumBytes a n) := by
  induction n generalizing a with
  | zero => exact tracked_ret 0
  | succ n ih =>
      refine tracked_loadByte (ha 0 (by omega)) fun _ => (ih fun i hi => ?_).bind fun _ =>
        tracked_ret _
      have h := ha (i + 1) (by omega)
      rwa [Nat.add_comm i 1, ← Nat.add_assoc] at h

include hframe hframe'

theorem tracked_mapleReply (d : Embedded) (sub : ℕ) :
    Tracked (mapleMonitor g) (mapleReply d sub rcv frame) := by
  have hlist (i : ℕ) (hi : i < 0x100) : isRam (frame + i) :=
    isRam_of_bounds (by omega) (by omega)
  unfold mapleReply
  split
  · exact tracked_digital hreply hlo hhi
  · exact tracked_getStatic fun _ => tracked_receiveReply hreply hlo hhi d _
  · refine (tracked_blob hreply hlo hhi (by decide)).bind fun _ =>
      tracked_xmemcpyReply hreply fun i hi => ?_
    rw [d.eeprom_length] at hi
    rw [Nat.add_assoc]
    exact isRam_reply hlo hhi (by rw [shimCodeMax_eq]; omega)
  · exact tracked_blob hreply hlo hhi (d.fits _ (by simp))
  · exact tracked_blob hreply hlo hhi (d.fits _ (by simp))
  · exact tracked_blob hreply hlo hhi (d.fits _ (by simp))
  · exact tracked_blob hreply hlo hhi (d.fits _ (by simp))
  · exact tracked_blob hreply hlo hhi (d.fits _ (by simp))
  · exact tracked_blob hreply hlo hhi (d.fits _ (by simp))
  · exact tracked_dipReply hreply hlo hhi (d.fits _ (by simp))
  · exact tracked_blob hreply hlo hhi (d.fits _ (by simp))
  · exact tracked_loadByte (hlist _ (by decide)) fun _ =>
      tracked_loadByte (hlist _ (by decide)) fun _ => tracked_blob hreply hlo hhi (by decide)
  · refine tracked_shimDie (fun hsub => ?_) hreply
    simp only [mieSubs, List.mem_cons, List.not_mem_nil, or_false] at hsub
    rcases hsub with h | h | h | h | h | h | h | h | h | h | h | h <;> exact absurd h ‹_›

theorem tracked_mieProbeReply (cmd fh : ℕ) :
    Tracked (mapleMonitor g) (mieProbeReply cmd fh rcv frame) := by
  have hlist (i : ℕ) (hi : i < 0x100) : isRam (frame + i) :=
    isRam_of_bounds (by omega) (by omega)
  have hword (j : ℕ) (hj : j ≤ 0x100) : ∀ i < 4, isRam (p2Addr rcv + j + i) := by
    intro i hi
    rw [Nat.add_assoc]
    exact isRam_reply hlo hhi (by rw [shimCodeMax_eq]; omega)
  have hbytes (j : ℕ) (hj : j ≤ 0x100) {bs : List UInt8} (hbs : bs.length ≤ 0x100) :
      Tracked (mapleMonitor g) (xmemcpyReply (p2Addr rcv + j) bs) := by
    refine tracked_xmemcpyReply hreply fun i hi => ?_
    rw [Nat.add_assoc]
    exact isRam_reply hlo hhi (by rw [shimCodeMax_eq]; omega)
  have hone {v : ℕ} : Tracked (mapleMonitor g) (store32 .reply (p2Addr rcv) v) :=
    tracked_storeReply hreply (hword 0 (by decide)) fun _ => tracked_ret ()
  unfold mieProbeReply
  split
  · exact hone
  · exact hone
  · exact hone
  · exact hone
  · refine tracked_storeReply hreply (hword 0 (by decide)) fun _ => ?_
    refine (hbytes 4 (by decide) (by decide)).bind fun _ => ?_
    refine tracked_storeReply hreply (hword 32 (by decide)) fun _ => ?_
    exact hbytes 36 (by decide) (by decide)
  · refine tracked_loadByte (hlist _ (by decide)) fun _ => ?_
    show Tracked _ (ite _ _ _)
    split
    · exact hone
    · refine (tracked_sumBytes fun i hi => ?_).bind fun _ => ?_
      · rw [Nat.add_assoc]
        exact hlist _ (by omega)
      · exact tracked_storeReply hreply (hword 0 (by decide)) fun _ =>
          tracked_storeReply hreply (hword 4 (by decide)) fun _ =>
            tracked_storeReply hreply (hword 8 (by decide)) fun _ => tracked_ret ()
  · exact hone

end Replies

/-! The walk. -/

section Walk

variable {g : Scope} (d : Embedded)

theorem tracked_latchJvs {sub addr : ℕ} (hlo : 0x0c000000 ≤ addr) (hhi : addr < 0x0f000000)
    (hg : g.latch) : Tracked (mapleMonitor g) (latchJvs sub addr) := by
  have hlist : isRam (addr + 0x14) := isRam_of_bounds (by omega) (by omega)
  unfold latchJvs
  split
  · exact tracked_loadByte hlist fun _ => tracked_putPending hg fun _ => tracked_ret ()
  · exact tracked_loadByte hlist fun _ => tracked_putPending hg fun _ => tracked_ret ()
  · exact tracked_loadByte hlist fun _ => tracked_putPending hg fun _ => tracked_ret ()
  · exact tracked_putPending hg fun _ => tracked_ret ()
  · exact tracked_ret ()

theorem tracked_serveFrame {first : Bool} {addr rcv : ℕ} (hlo : 0x0c000000 ≤ addr)
    (hhi : addr < 0x0f000000) (hrcv : rcv < 2 ^ 32) (hreply : g.replies) (hg : g.latch) :
    Tracked (mapleMonitor g) (serveFrame d first addr rcv) := by
  have hlist (i : ℕ) (hi : i < 0x100) : isRam (addr + i) :=
    isRam_of_bounds (by omega) (by omega)
  refine tracked_loadList (hlist 0x08 (by decide)) fun _ => ?_
  show Tracked _ (Prog.whenever _ _ >>= fun _ => _)
  refine (Tracked.whenever fun _ => tracked_loadList (hlist 0x0c (by decide)) fun _ =>
    tracked_ret ()).bind fun _ => ?_
  show Tracked _ (ite _ _ _)
  split
  · refine tracked_loadByte (hlist 0x0c (by decide)) fun _ => ?_
    refine (tracked_latchJvs hlo hhi hg).bind fun _ => Tracked.whenever fun hw => ?_
    obtain ⟨hrlo, hrhi⟩ := (inWindow_iff hrcv).1 hw
    exact tracked_mapleReply hreply hrlo hrhi hlo hhi d _
  · refine Tracked.whenever fun hw => ?_
    obtain ⟨hrlo, hrhi⟩ := (inWindow_iff hrcv).1 hw
    exact tracked_mieProbeReply hreply hrlo hrhi hlo hhi _ _

/-- A descriptor is at most 1032 bytes long. -/
theorem stride_le (h1 : ℕ) : (2 + ((h1 &&& 0xff) + 1)) * 4 ≤ 1032 := by
  have := Nat.and_le_right (n := h1) (m := 0xff)
  omega

/-- The cursor leaves the window by at most the descriptors that are left. -/
theorem tracked_walk {left addr : ℕ} {first : Bool} (hlo : 0x0c000000 ≤ addr)
    (hhi : addr + left * 1032 < 0x0e010000) (hreply : g.replies)
    (hlatch : g.latch) (hheads : g.heads) :
    Tracked (mapleMonitor g) (walk d left first addr) := by
  induction left generalizing first addr with
  | zero => exact tracked_ret ()
  | succ left ih =>
      have hhead : isRam addr := isRam_of_bounds (by omega) (by omega)
      have hrecv : isRam (addr + 0x04) := isRam_of_bounds (by omega) (by omega)
      refine tracked_loadHead hhead hheads fun h1 => tracked_loadList hrecv fun word => ?_
      show Tracked _ (Prog.whenever _ _ >>= fun _ => _)
      refine (Tracked.whenever fun _ => ?_).bind fun _ => ?_
      · exact tracked_serveFrame d hlo (by omega)
          (Nat.lt_of_le_of_lt Nat.and_le_right (by decide)) hreply hlatch
      · show Tracked _ (ite _ _ _)
        split
        · exact tracked_ret ()
        · have hstride := stride_le h1
          rw [u32_of_lt (by omega)]
          exact ih (by omega) (by omega)

theorem tracked_serviceTransfer : Tracked (mapleMonitor .call) (serviceTransfer d) := by
  unfold serviceTransfer
  simp only [Prog.op_bind, Prog.ret_bind]
  refine tracked_loadOwn fun star => (Tracked.whenever fun hw => ?_).bind fun _ =>
    tracked_loadOwn fun _ => .op (fun _ => .inr ⟨rfl, .inl (by decide)⟩) fun _ => tracked_ret ()
  have hstar : star &&& 0x1fffffe0 < 2 ^ 32 := Nat.lt_of_le_of_lt Nat.and_le_right (by decide)
  obtain ⟨hlo, hhi⟩ := (inWindow_iff hstar).1 hw
  exact tracked_walk d hlo (by omega) trivial trivial trivial

theorem tracked_serviceMirror (rc : ℤ) : Tracked (mapleMonitor .call) (serviceMirror d rc) := by
  unfold serviceMirror
  simp only [Prog.op_bind, Prog.ret_bind]
  exact tracked_loadOwn fun _ =>
    (Tracked.whenever fun _ => tracked_serviceTransfer d).bind fun _ => tracked_ret rc

theorem tracked_shimMapleSteady : Tracked (mapleMonitor .call) (shimMapleSteady d) := by
  unfold shimMapleSteady
  simp only [Prog.op_bind, Prog.ret_bind]
  exact .op (fun _ => .inr ⟨rfl, .inl (by decide)⟩) fun _ => .op (fun _ => trivial) fun rc =>
    tracked_serviceMirror d rc

end Walk

end Cfp2Dreamcast
