import Cfp2Dreamcast.Machine.Commands
import Cfp2Dreamcast.Memory.Bytes
import Mathlib.Logic.Relation

/-!
# Memory systems and the GD drive

A `Bus` is a memory system: what a load at a virtual address sees, what else a
load may do to the memory, and what a store and a block invalidate do. The flat
bus is RAM alone; the cached bus is in `Machine/Cached.lean`.

The drive answers the GD syscalls as it likes. What the shim relies on is
`GdStep`: the drive writes only into the buffers of read requests it has
accepted and not completed, and by the time the CHECK of a read request returns
COMPLETED it has written exactly the sectors asked for.
-/

namespace Cfp2Dreamcast

open Memory

structure Bus (μ : Type) where
  view : μ → ℕ → UInt8
  touch : μ → ℕ → μ → Prop
  store : μ → ℕ → UInt8 → μ → Prop
  discard : μ → ℕ → μ → Prop

/-- A run of byte stores at consecutive addresses. -/
def Bus.storeRun {μ : Type} (B : Bus μ) : μ → ℕ → List UInt8 → μ → Prop
  | m, _, [], m' => m' = m
  | m, a, b :: bs, m' => ∃ m₁, B.store m a b m₁ ∧ B.storeRun m₁ (a + 1) bs m'

/-- The 32-bit word that a load at `a` sees. -/
def Bus.word {μ : Type} (B : Bus μ) (m : μ) (a : ℕ) : ℕ :=
  ofBytes (B.view m a) (B.view m (a + 1)) (B.view m (a + 2)) (B.view m (a + 3))

/-- A range of virtual addresses handed to a device. -/
structure Buffer where
  addr : ℕ
  len : ℕ

def Buffer.Mem (b : Buffer) (a : ℕ) : Prop := b.addr ≤ a ∧ a < b.addr + b.len

/-- An address of one of the buffers. -/
def inBuffers (bufs : List Buffer) (a : ℕ) : Prop := ∃ b ∈ bufs, b.Mem a

/-- One thing that happens to memory: a store to an address of `W`, the side
effect of some load, or the invalidation of a block of `D`. -/
def Bus.runStep {μ : Type} (B : Bus μ) (W D : ℕ → Prop) (m m' : μ) : Prop :=
  (∃ a v, W a ∧ B.store m a v m') ∨ (∃ a, B.touch m a m') ∨
    ∃ a, D a ∧ B.discard m a m'

def Bus.Run {μ : Type} (B : Bus μ) (W D : ℕ → Prop) : μ → μ → Prop :=
  Relation.ReflTransGen (B.runStep W D)

theorem Bus.Run.mono {μ : Type} {B : Bus μ} {W W' D D' : ℕ → Prop} {m m' : μ}
    (h : B.Run W D m m') (hW : ∀ a, W a → W' a) (hD : ∀ a, D a → D' a) :
    B.Run W' D' m m' := by
  refine Relation.ReflTransGen.mono (fun m₁ m₂ hstep => ?_) m m' h
  rcases hstep with ⟨a, v, ha, hst⟩ | ⟨a, ht⟩ | ⟨a, ha, hd⟩
  · exact .inl ⟨a, v, hW a ha, hst⟩
  · exact .inr (.inl ⟨a, ht⟩)
  · exact .inr (.inr ⟨a, hD a ha, hd⟩)

/-! The syscall numbers of `gd.c`: commands in `r4`, functions in `r7`. -/

def cmdPioread : ℕ := 16
def cmdDmaread : ℕ := 17
def cmdInit : ℕ := 24
def gdSend : ℕ := 0
def gdCheck : ℕ := 1
def gdExec : ℕ := 2
def gdSysinit : ℕ := 3
def gdSectorMode : ℕ := 10
def gdNotFound : ℤ := 0
def gdCompleted : ℤ := 2
def gdFailed : ℤ := -1

/-- A read request: first sector, number of sectors, and the address the data
is stored through. -/
structure Read where
  fad : ℕ
  n : ℕ
  addr : ℕ

def Read.buffer (rd : Read) : Buffer := ⟨rd.addr, rd.n * 2048⟩

/-- The read a SEND asks for. A DMA read writes RAM without the cache, as a
store through the uncached alias does. -/
def sentRead (r4 : ℕ) : List ℕ → Option Read
  | [fad, n, dst, _] =>
      if r4 = cmdPioread then some ⟨fad, n, dst⟩
      else if r4 = cmdDmaread then some ⟨fad, n, p2Addr dst⟩
      else none
  | _ => none

/-- The drive as the shim can know it: the read request accepted last with its
id, while it is neither completed nor superseded; the buffers the drive may
still write; and the byte it stored last at each address since that request. -/
structure Drive where
  pending : Option (ℤ × Read)
  buffers : List Buffer
  wrote : ℕ → Option UInt8

def Drive.idle : Drive := ⟨none, [], fun _ => none⟩

/-- The state of the drive after a SEND that returned `r0`. -/
def Drive.send (d : Drive) (r4 : ℕ) (block : List ℕ) (r0 : ℤ) : Drive :=
  if 0 < r0 then
    match sentRead r4 block with
    | some rd => ⟨some (r0, rd), rd.buffer :: d.buffers, fun _ => none⟩
    | none => { d with pending := none }
  else d

/-- A CHECK of the request `r4` that returned `r0` completes the read `rd`. -/
def Drive.Completes (d : Drive) (r4 : ℕ) (r0 : ℤ) (rd : Read) : Prop :=
  r0 = gdCompleted ∧ d.pending = some ((r4 : ℤ), rd)

/-- Sector `fad` of the disc is `disc fad`. -/
abbrev Disc := ℕ → ℕ → UInt8

/-- The byte of the disc that belongs at offset `i` of the buffer of the read. -/
def Read.byte (rd : Read) (disc : Disc) (i : ℕ) : UInt8 :=
  disc (rd.fad + i / 2048) (i % 2048)

/-- The drive has written the sectors of the disc to the buffer of the read. -/
def Drive.Delivered (d : Drive) (disc : Disc) (rd : Read) : Prop :=
  ∀ i < rd.n * 2048, d.wrote (rd.addr + i) = some (rd.byte disc i)

/-- One thing the drive or the BIOS does to memory during a syscall: a store
into an open buffer, or the side effect of some load. -/
inductive TransferStep {μ : Type} (B : Bus μ) : μ × Drive → μ × Drive → Prop where
  | store {m m' : μ} {d : Drive} {a : ℕ} {v : UInt8} (ha : inBuffers d.buffers a)
      (hst : B.store m a v m') :
      TransferStep B (m, d) (m', { d with wrote := Function.update d.wrote a (some v) })
  | touch {m m' : μ} {d : Drive} {a : ℕ} (ht : B.touch m a m') :
      TransferStep B (m, d) (m', d)

def Transfers {μ : Type} (B : Bus μ) : μ × Drive → μ × Drive → Prop :=
  Relation.ReflTransGen (TransferStep B)

/-- What a GD syscall may do. -/
inductive GdStep {μ : Type} (B : Bus μ) (disc : Disc) :
    μ → Drive → (r4 : ℕ) → (block : List ℕ) → (r7 : ℕ) → GdReply → μ → Drive → Prop where
  | send {m m' : μ} {d d' : Drive} {r4 : ℕ} {block : List ℕ} {r : GdReply}
      (hmem : Transfers B (m, d.send r4 block r.r0) (m', d')) :
      GdStep B disc m d r4 block gdSend r m' d'
  | completed {m m' : μ} {d d' : Drive} {r4 : ℕ} {block : List ℕ} {r : GdReply}
      {rd : Read} (hrd : d.Completes r4 r.r0 rd) (hmem : Transfers B (m, d) (m', d'))
      (hdata : d'.Delivered disc rd) :
      GdStep B disc m d r4 block gdCheck r m' .idle
  | check {m m' : μ} {d d' : Drive} {r4 : ℕ} {block : List ℕ} {r : GdReply}
      (hrd : ∀ rd, ¬ d.Completes r4 r.r0 rd) (hmem : Transfers B (m, d) (m', d')) :
      GdStep B disc m d r4 block gdCheck r m' d'
  | other {m m' : μ} {d d' : Drive} {r4 : ℕ} {block : List ℕ} {r7 : ℕ} {r : GdReply}
      (hr7 : r7 ≠ gdSend) (hr7' : r7 ≠ gdCheck) (hmem : Transfers B (m, d) (m', d')) :
      GdStep B disc m d r4 block r7 r m' d'

namespace GdStep

variable {μ : Type} {B : Bus μ} {disc : Disc} {m m' : μ} {d d' : Drive} {r4 : ℕ}
  {block : List ℕ} {r : GdReply}

theorem of_send (h : GdStep B disc m d r4 block gdSend r m' d') :
    Transfers B (m, d.send r4 block r.r0) (m', d') := by
  generalize hr7 : gdSend = r7 at h
  cases h with
  | send hmem => exact hmem
  | completed | check => exact absurd hr7 (by decide)
  | other h₁ h₂ hmem => exact absurd hr7.symm h₁

theorem of_check (h : GdStep B disc m d r4 block gdCheck r m' d') :
    (∃ rd d₁, d.Completes r4 r.r0 rd ∧ Transfers B (m, d) (m', d₁) ∧
      d₁.Delivered disc rd ∧ d' = .idle) ∨
      (∀ rd, ¬ d.Completes r4 r.r0 rd) ∧ Transfers B (m, d) (m', d') := by
  generalize hr7 : gdCheck = r7 at h
  cases h with
  | send => exact absurd hr7 (by decide)
  | completed hrd hmem hdata => exact .inl ⟨_, _, hrd, hmem, hdata, rfl⟩
  | check hrd hmem => exact .inr ⟨hrd, hmem⟩
  | other h₁ h₂ hmem => exact absurd hr7.symm h₂

theorem of_other {r7 : ℕ} (h : GdStep B disc m d r4 block r7 r m' d')
    (hsend : r7 ≠ gdSend) (hcheck : r7 ≠ gdCheck) : Transfers B (m, d) (m', d') := by
  cases h with
  | send => exact absurd rfl hsend
  | completed | check => exact absurd rfl hcheck
  | other h₁ h₂ hmem => exact hmem

end GdStep

end Cfp2Dreamcast
