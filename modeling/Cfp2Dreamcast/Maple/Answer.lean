import Cfp2Dreamcast.Maple.Guard
import Cfp2Dreamcast.Maple.Polls
import Cfp2Dreamcast.Memory.Layout

/-!
# What a frame is answered with

The abstract responder: a descriptor and its frame as values, and the answer to it
from its own words and the JVS command on the way. The bytes of an answer are fixed,
but for the DIP switches, which go with the video cable, and the buttons, which go
with the words of the pads. `Sends` says that a program stores them from a receive
address on, or reboots before it does.
-/

namespace Cfp2Dreamcast

open Program Memory

/-- A descriptor and the frame behind it. -/
structure Descriptor where
  header : ℕ
  payload : ℕ → UInt8

/-- The frame behind the descriptor that lies at an address. -/
def descriptorAt (m : Mem) (addr : ℕ) : Descriptor where
  header := ramWord m (p2Addr (addr + 0x08))
  payload i := m (ramCell (addr + 0x0c + i))

namespace Descriptor

variable (x : Descriptor)

/-- A command 0x86 for the MIE. -/
def Mie : Prop := x.header &&& 0xff = 0x86 ∧ (x.header >>> 8) &&& 0xff = 0x20

instance : Decidable x.Mie := inferInstanceAs (Decidable (_ ∧ _))

/-- The subcommand of a MIE frame. -/
def sub : ℕ := (x.payload 0).toNat

/-- The JVS command that a transmit frame carries. -/
def jvs : ℕ := (x.payload 8).toNat

/-- The JVS command on the way after the frame, when it was `pending` before. -/
def latch (pending : ℕ) : ℕ :=
  match x.sub with
  | 0x17 | 0x19 | 0x21 => x.jvs
  | 0x27 => 0xff
  | _ => pending

/-- The same for any frame: only MIE frames are looked into. -/
def pendingAfter (pending : ℕ) : ℕ := if x.Mie then x.latch pending else pending

end Descriptor

/-- An answer: fixed bytes, the DIP switches, or the buttons of both pads. -/
inductive Answer where
  | blob (bs : List UInt8)
  | dip
  | digital
  deriving DecidableEq

/-- The DIP reply for a cable: without a VGA cable bit 0 of the DIP byte is off. -/
def dipBytes (d : Embedded) (vga : Bool) : List UInt8 :=
  if vga then d.mieSub31 else d.mieSub31.set 10 (d.mieSub31.getD 10 0 &&& 0xfe)

theorem dipBytes_length (d : Embedded) (vga : Bool) :
    (dipBytes d vga).length = d.mieSub31.length := by
  cases vga with
  | true => rfl
  | false => exact List.length_set

namespace Answer

variable (d : Embedded)

def length : Answer → ℕ
  | blob bs => bs.length
  | dip => d.mieSub31.length
  | digital => 64

/-- The bytes of the answer with the statics at `st`: the DIP reply goes with the latch of
the video cable, the buttons with the words of the pads in the cache. -/
def bytes : Answer → (Static → ℕ) → List UInt8
  | blob bs, _ => bs
  | dip, st => dipBytes d (decide (st .cableLatch = 0))
  | digital, st =>
      digitalFrame (UInt16.ofNat (st .rawCacheA)) (UInt16.ofNat (st .rawCacheB))

theorem bytes_length (a : Answer) (st : Static → ℕ) : (a.bytes d st).length = a.length d := by
  cases a with
  | blob bs => rfl
  | dip => exact dipBytes_length d _
  | digital => exact digitalFrame_length _ _

end Answer

/-- The answer to a MIE subcommand. -/
def mieAnswer (d : Embedded) (pending sub : ℕ) : Option Answer :=
  match sub with
  | 0x33 => some .digital
  | 0x15 =>
      match pending with
      | 0xf1 => some (.blob d.mieJvsf1)
      | 0x10 => some (.blob d.mieJvs10)
      | 0x11 => some (.blob d.mieJvs11)
      | 0x12 => some (.blob d.mieJvs12)
      | 0x13 => some (.blob d.mieJvs13)
      | 0x14 => some (.blob d.mieJvs14)
      | _ => some .digital
  | 0x03 => some (.blob (eepromHdr ++ d.eepromImg))
  | 0x01 => some (.blob d.mieSub01)
  | 0x13 => some (.blob d.mieSub13)
  | 0x17 | 0x19 | 0x21 => some (.blob d.mieSub17)
  | 0x27 => some (.blob d.mieSub27)
  | 0x31 => some .dip
  | 0xff => some (.blob d.mieSubff)
  | 0x0b => some (.blob eepromAck)
  | _ => none

/-- A Maple frame: the response, the sender and the recipient of the request
exchanged, the number of payload words, and the payload. -/
def frameBytes (resp fh n : ℕ) (payload : List UInt8) : List UInt8 :=
  wordBytes (probeHdr fh ||| resp ||| (n <<< 24)) ++ payload

/-- The sum of a firmware chunk. -/
def Descriptor.chunkSum (x : Descriptor) : ℕ :=
  ((List.range 28).map fun k => (x.payload k).toNat).sum

/-- The answer to any other command. -/
def probeAnswer (cmd : ℕ) (x : Descriptor) : List UInt8 :=
  match cmd with
  | 0x01 => frameBytes 0x05 x.header 0 []
  | 0x02 => frameBytes 0x06 x.header 0 []
  | 0x82 => frameBytes 0x83 x.header 7 (mieId48.take 28) ++
      frameBytes 0x83 x.header 5 ((mieId48.drop 28).take 20)
  | 0x80 =>
      if x.payload 1 = 0xff then frameBytes 0x07 x.header 0 []
      else frameBytes 0x80 x.header 1 (wordBytes (x.chunkSum % 256)) ++
        frameBytes 0x07 x.header 0 []
  | _ => frameBytes 0x07 x.header 0 []

/-- The answer to a frame while the JVS command `pending` is on the way. -/
def Descriptor.answer (d : Embedded) (pending : ℕ) (x : Descriptor) : Option Answer :=
  if x.Mie then mieAnswer d (x.latch pending) x.sub
  else some (.blob (probeAnswer (x.header &&& 0xff) x))

/-! ## The stores of a reply -/

/-- The bytes that a trace stores through a receive address, in order. -/
def repliesOf (tr : List (Event shimSig)) : List (ℕ × UInt8) :=
  tr.flatMap fun ev => match ev.cmd with
    | .store8 .reply a v => [(a, v)]
    | .store32 .reply a v => storesOf a (wordBytes v)
    | _ => []

@[simp] theorem repliesOf_nil : repliesOf [] = [] := rfl

@[simp] theorem repliesOf_append (tr tr' : List (Event shimSig)) :
    repliesOf (tr ++ tr') = repliesOf tr ++ repliesOf tr' := List.flatMap_append

/-- A command that is no store of a reply. -/
def Mute : Cmd → Prop
  | .store8 o _ _ => o ≠ .reply
  | .store32 o _ _ => o ≠ .reply
  | _ => True

theorem repliesOf_mute {c : Cmd} (hc : Mute c) (r : c.Resp) (tr : List (Event shimSig)) :
    repliesOf ((⟨c, r⟩ : Event shimSig) :: tr) = repliesOf tr := by
  cases c with
  | store8 o a v =>
      cases o with
      | reply => exact absurd rfl hc
      | _ => rfl
  | store32 o a v =>
      cases o with
      | reply => exact absurd rfl hc
      | _ => rfl
  | _ => rfl

section Sends

variable {W : World Mem} {α : Type} {s s' : State Mem} {rx : ℕ}
  {bytes : (Static → ℕ) → List UInt8}

/-- From every state the program stores a list of `P` and returns. -/
structure Writes (W : World Mem) (p : Shim α) (P : List (ℕ × UInt8) → Prop) : Prop where
  sound : ∀ {s tr o s'}, Exec (flatMachine W) p s tr o s' →
    (∃ a, o = .ret a) ∧ P (repliesOf tr)
  total : ∀ s, ∃ tr a s', Exec (flatMachine W) p s tr (.ret a) s'

/-- From `s` the program leaves at `rx` the bytes that go with the statics it ends in
and returns, or reboots and leaves nothing; and it can return. -/
structure Sends (W : World Mem) (p : Shim Unit) (s : State Mem) (rx : ℕ)
    (bytes : (Static → ℕ) → List UInt8) : Prop where
  sound : ∀ {tr o s'}, Exec (flatMachine W) p s tr o s' →
    (o = .ret () ∧ laidOut (repliesOf tr) = block rx (bytes s'.statics)) ∨
      (o = .halt .reboot ∧ repliesOf tr = [])
  total : ∃ tr s', Exec (flatMachine W) p s tr (.ret ()) s'

section Writes

variable {β : Type} {P Q R : List (ℕ × UInt8) → Prop}

theorem writes_ret (a : α) (h : P []) : Writes W (.ret a) P where
  sound hex := by
    cases hex
    exact ⟨⟨a, rfl⟩, h⟩
  total s := ⟨[], a, s, .ret a s⟩

theorem Writes.bind {p : Shim α} {f : α → Shim β} (hp : Writes W p P)
    (hf : ∀ a, Writes W (f a) Q) (hR : ∀ L L', P L → Q L' → R (L ++ L')) :
    Writes W (p >>= f) R where
  sound h := by
    rcases h.of_bind with ⟨e, -, hhalt⟩ | ⟨tr₁, tr₂, a, s₁, rfl, hret, hrest⟩
    · obtain ⟨a, ha⟩ := (hp.sound hhalt).1
      cases ha
    · obtain ⟨ho, hQ⟩ := (hf a).sound hrest
      rw [repliesOf_append]
      exact ⟨ho, hR _ _ (hp.sound hret).2 hQ⟩
  total s := by
    obtain ⟨tr₁, a, s₁, h₁⟩ := hp.total s
    obtain ⟨tr₂, b, s₂, h₂⟩ := (hf a).total s₁
    exact ⟨tr₁ ++ tr₂, b, s₂, h₁.bind_ret h₂⟩

theorem Writes.append {p : Shim α} {f : α → Shim β} {L L' : List (ℕ × UInt8)}
    (hp : Writes W p (· = L)) (hf : ∀ a, Writes W (f a) (· = L')) :
    Writes W (p >>= f) (· = L ++ L') := by
  refine hp.bind hf ?_
  rintro L L' rfl rfl
  rfl

/-- A command that is no store of a reply. -/
theorem Writes.mute {c : Cmd} {k : c.Resp → Shim α} (hc : Mute c) (hengine : c ≠ .engine)
    (hk : ∀ r, Writes W (k r) P) : Writes W (.op c k) P where
  sound h := by
    obtain ⟨r, s₁, tr', rfl, -, hrest⟩ := h.of_op
    rw [repliesOf_mute hc]
    exact (hk r).sound hrest
  total s := by
    obtain ⟨r, s₁, hstep⟩ := flat_total (W := W) hengine s
    obtain ⟨tr, a, s₂, h⟩ := (hk r).total s₁
    exact ⟨_, a, s₂, .op hstep h⟩

theorem Writes.whenever {b : Prop} [Decidable b] {q : Shim Unit} (hq : b → Writes W q P)
    (hP : ¬ b → P []) : Writes W (Prog.whenever b q) P := by
  by_cases hb : b
  · rw [Prog.whenever_pos hb]
    exact hq hb
  · rw [Prog.whenever_neg hb]
    exact writes_ret () (hP hb)

theorem writes_store8 (a : ℕ) (v : UInt8) : Writes W (store8 .reply a v) (· = [(a, v)]) where
  sound h := by
    obtain ⟨r, s₁, tr', rfl, -, hret⟩ := h.of_op
    cases hret
    exact ⟨⟨(), rfl⟩, rfl⟩
  total s := by
    obtain ⟨r, s₁, hstep⟩ := flat_total (W := W) (c := .store8 .reply a v) (by simp) s
    exact ⟨_, _, _, .op hstep (.ret _ _)⟩

theorem writes_store32 (a v : ℕ) :
    Writes W (store32 .reply a v) (· = storesOf a (wordBytes v)) where
  sound h := by
    obtain ⟨r, s₁, tr', rfl, -, hret⟩ := h.of_op
    cases hret
    exact ⟨⟨(), rfl⟩, List.append_nil _⟩
  total s := by
    obtain ⟨r, s₁, hstep⟩ := flat_total (W := W) (c := .store32 .reply a v) (by simp) s
    exact ⟨_, _, _, .op hstep (.ret _ _)⟩

theorem writes_xmemcpyReply (a : ℕ) (bs : List UInt8) :
    Writes W (xmemcpyReply a bs) (· = storesOf a bs) := by
  induction bs generalizing a with
  | nil => exact writes_ret () rfl
  | cons b bs ih => exact (writes_store8 a b).append fun _ => ih (a + 1)

/-- The stores of one run of bytes. -/
theorem Writes.sends {p : Shim Unit} {bs : List UInt8} (hp : Writes W p (· = storesOf rx bs))
    (hbytes : ∀ {tr s'}, Exec (flatMachine W) p s tr (.ret ()) s' → bytes s'.statics = bs) :
    Sends W p s rx bytes where
  sound h := by
    obtain ⟨⟨⟨⟩, rfl⟩, hL⟩ := hp.sound h
    refine .inl ⟨rfl, ?_⟩
    rw [hL, hbytes h]
    exact laidOut_storesOf rx bs
  total := by
    obtain ⟨tr, ⟨⟩, s', h⟩ := hp.total s
    exact ⟨tr, s', h⟩

theorem Writes.sends_bytes {p : Shim Unit} {bs : List UInt8}
    (hp : Writes W p (· = storesOf rx bs)) : Sends W p s rx fun _ => bs := hp.sends fun _ => rfl

end Writes

/-- A command on the way to the stores. -/
theorem Sends.op {c : Cmd} {k : c.Resp → Shim Unit} (hc : Mute c) (hengine : c ≠ .engine)
    (hk : ∀ r s₁, (flatMachine W).step s c r s₁ → Sends W (k r) s₁ rx bytes) :
    Sends W (.op c k) s rx bytes where
  sound h := by
    obtain ⟨r, s₁, tr', rfl, hstep, hrest⟩ := h.of_op
    rw [repliesOf_mute hc]
    exact (hk r s₁ hstep).sound hrest
  total := by
    obtain ⟨r, s₁, hstep⟩ := flat_total (W := W) hengine s
    obtain ⟨tr, s₂, h⟩ := (hk r s₁ hstep).total
    exact ⟨_, _, .op hstep h⟩

/-- A load from RAM on the way to the stores. -/
theorem Sends.load32 {o : Origin} {a : ℕ} (ha : isRam a) {k : ℕ → Shim Unit}
    (hk : Sends W (k (ramWord s.mem a)) s rx bytes) : Sends W (.op (.load32 o a) k) s rx bytes := by
  refine .op trivial (by simp) fun r s₁ hstep => ?_
  obtain ⟨rfl, m, rfl, rfl⟩ := (step_load32 ha).1 hstep
  exact hk

theorem Sends.load8 {o : Origin} {a : ℕ} (ha : isRam a) {k : UInt8 → Shim Unit}
    (hk : Sends W (k (s.mem (ramCell a))) s rx bytes) :
    Sends W (.op (.load8 o a) k) s rx bytes := by
  refine .op trivial (by simp) fun r s₁ hstep => ?_
  obtain ⟨rfl, m, rfl, rfl⟩ := (step_load8 ha).1 hstep
  exact hk

/-- The bytes do not reach the receive address before the reply. -/
structure Silent (W : World Mem) (p : Shim α) (s : State Mem) : Prop where
  sound : ∀ {tr o s'}, Exec (flatMachine W) p s tr o s' →
    repliesOf tr = [] ∧ ((∃ a, o = .ret a) ∨ o = .halt .reboot)
  total : ∃ tr a s', Exec (flatMachine W) p s tr (.ret a) s'

/-- A part of the service that may not reply. -/
theorem repliesOf_tracked {p : Shim α} (hp : Tracked (mapleMonitor .poll) p)
    {tr : List (Event shimSig)} {o : Outcome shimSig α}
    (h : Exec (flatMachine W) p s tr o s') :
    repliesOf tr = [] ∧ ((∃ a, o = .ret a) ∨ o = .halt .reboot) := by
  constructor
  · refine List.flatMap_eq_nil_iff.2 fun ev hev => ?_
    obtain ⟨x, hx⟩ := (hp.tracks .nothing).exec h ev hev
    obtain ⟨c, r⟩ := ev
    cases c with
    | store8 o a v => exact absurd hx.2.2 id
    | store32 o a v =>
        rcases hx with ⟨-, -, h⟩ | ⟨rfl, -⟩
        · exact absurd h id
        · rfl
    | _ => rfl
  · cases o with
    | ret a => exact .inl ⟨a, rfl⟩
    | halt e =>
        cases e with
        | reboot => exact .inr rfl
        | die code x y => exact absurd ((hp.tracks .nothing).exec_halt h).2.2 id

theorem Silent.sends {p : Shim α} {f : α → Shim Unit} (hp : Silent W p s)
    (hf : ∀ a s₁, Sends W (f a) s₁ rx bytes) : Sends W (p >>= f) s rx bytes where
  sound h := by
    rcases h.of_bind with ⟨e, rfl, hhalt⟩ | ⟨tr₁, tr₂, a, s₁, rfl, hret, hrest⟩
    · obtain ⟨hnil, ho⟩ := hp.sound hhalt
      rcases ho with ⟨a, ha⟩ | ho
      · cases ha
      · cases ho
        exact .inr ⟨rfl, hnil⟩
    · rw [repliesOf_append, (hp.sound hret).1, List.nil_append]
      exact (hf a s₁).sound hrest
  total := by
    obtain ⟨tr₁, a, s₁, h₁⟩ := hp.total
    obtain ⟨tr₂, s₂, h₂⟩ := (hf a s₁).total
    exact ⟨tr₁ ++ tr₂, s₂, h₁.bind_ret h₂⟩

/-- A computation on the way to the stores. -/
theorem Sends.after {p : Shim α} {f : α → Shim Unit} {v : α} {s₁ : State Mem}
    (hp : Writes W p (· = []))
    (hv : ∀ {tr o s'}, Exec (flatMachine W) p s tr o s' → o = .ret v ∧ s' = s₁)
    (hf : Sends W (f v) s₁ rx bytes) : Sends W (p >>= f) s rx bytes where
  sound h := by
    rcases h.of_bind with ⟨e, -, hhalt⟩ | ⟨tr₁, tr₂, a, s₂, rfl, hret, hrest⟩
    · cases (hv hhalt).1
    · obtain ⟨ha, rfl⟩ := hv hret
      cases ha
      rw [repliesOf_append, (hp.sound hret).2, List.nil_append]
      exact hf.sound hrest
  total := by
    obtain ⟨tr₁, a, s₂, h₁⟩ := hp.total s
    obtain ⟨tr₂, s₃, h₂⟩ := hf.total
    obtain ⟨ha, rfl⟩ := hv h₁
    cases ha
    exact ⟨tr₁ ++ tr₂, s₃, h₁.bind_ret h₂⟩

end Sends

end Cfp2Dreamcast
