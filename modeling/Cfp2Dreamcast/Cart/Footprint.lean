import Cfp2Dreamcast.Cart.EndToEnd
import Cfp2Dreamcast.Machine.Lag
import Cfp2Dreamcast.Program.Serial

/-!
# What the service touches, and when

While the drive may be writing, the code of the cart service is in the GD layer, and
there it touches no RAM but the error block. RAM is read and stored only while the
drive is idle. So before each of its commands the service is out of the open buffers
and reads only what it owns: the destination, the bounce buffer and the register
mirror.
-/

namespace Cfp2Dreamcast

open Program Memory

/-- The statics of the service. -/
def ownStatic (y : Static) : Prop := y = .gdLastErr ∨ y = .pbLeft

/-- The commands that reach no RAM by themselves. -/
def DeviceCmd (P : Read → Prop) : Cmd → Prop
  | .load32 _ a => ¬ isRam a
  | .store32 _ a _ => ¬ isRam a
  | .store16 a _ => ¬ isRam a
  | .ocbi _ => True
  | .get y => ownStatic y
  | .put y _ => ownStatic y
  | .gdc r4 block r7 => r7 = gdSend → ∀ rd, sentRead r4 block = some rd → P rd
  | _ => False

def deviceGuard (P : Read → Prop) : Guard shimSig := ⟨DeviceCmd P, DieCmd, fun _ => True⟩

section Device

variable {P : Read → Prop}

theorem device_shimDie {α : Type} (code a b : ℕ) :
    Keeps (deviceGuard P) (shimDie code a b : Shim α) :=
  (dooms_shimDie (fun _ hc => hc) trivial).keeps

theorem device_gdc {α : Type} {r4 : ℕ} {block : List ℕ} {r7 : ℕ} {k : GdReply → Shim α}
    (h : r7 ≠ gdSend) (hk : ∀ r, Keeps (deviceGuard P) (k r)) :
    Keeps (deviceGuard P) (.op (.gdc r4 block r7) k) := .op (fun hr7 => absurd hr7 h) hk

theorem device_gdInitPollStep {req guard : ℕ} {again : Shim Unit}
    (hagain : Keeps (deviceGuard P) again) :
    Keeps (deviceGuard P) (gdInitPollStep req guard again) := by
  refine device_gdc (by decide) fun _ => device_gdc (by decide) fun s => ?_
  show Keeps _ (ite _ _ _)
  split
  · trivial
  · split
    · trivial
    · exact hagain

theorem device_gdInitPoll (req left guard : ℕ) :
    Keeps (deviceGuard P) (gdInitPoll req left guard) := by
  induction left generalizing guard with
  | zero => exact device_gdInitPollStep (device_shimDie _ _ _)
  | succ left ih => exact device_gdInitPollStep (ih (guard + 1))

theorem device_gdRecover (b : Build) : Keeps (deviceGuard P) (gdRecover b) := by
  refine Keeps.bind (device_gdc (by decide) fun _ => trivial) fun _ => Keeps.bind ?_ fun _ =>
    Keeps.whenever fun _ => device_gdc (by decide) fun _ => trivial
  refine .op (fun _ rd hrd => by cases hrd) fun req => ?_
  show Keeps _ (ite _ _ _)
  split
  · trivial
  · exact device_gdInitPoll _ _ _

theorem device_gdPollStep {req guard : ℕ} {again : Shim Bool}
    (hagain : Keeps (deviceGuard P) again) :
    Keeps (deviceGuard P) (gdPollStep req guard again) := by
  refine device_gdc (by decide) fun _ => device_gdc (by decide) fun s => ?_
  show Keeps _ (ite _ _ _)
  split
  · trivial
  · split
    · exact .op (.inl rfl) fun _ => trivial
    · split
      · exact .op (.inl rfl) fun _ => trivial
      · exact hagain

theorem device_gdPoll (fad n req left guard : ℕ) :
    Keeps (deviceGuard P) (gdPoll fad n req left guard) := by
  induction left generalizing guard with
  | zero => exact device_gdPollStep (device_shimDie _ _ _)
  | succ left ih => exact device_gdPollStep (ih (guard + 1))

theorem device_gdRead (b : Build) (md : GdMode) {dst fad n : ℕ}
    (hprepare : Keeps (deviceGuard P) md.prepare) (hfinish : Keeps (deviceGuard P) md.finish)
    (hP : ∀ rd, sentRead md.cmd [fad, n, dst, 0] = some rd → P rd) (left attempt : ℕ) :
    Keeps (deviceGuard P) (gdRead b md dst fad n left attempt) := by
  have hattempt : Keeps (deviceGuard P) (gdAttempt md dst fad n) := by
    refine Keeps.bind hprepare fun _ => .op (fun _ => hP) fun req => ?_
    show Keeps _ (ite _ _ _)
    split
    · exact .op (.inl rfl) fun _ => trivial
    · refine Keeps.bind (device_gdPoll _ _ _ _ _) fun ok => ?_
      cases ok with
      | false => trivial
      | true => exact Keeps.bind hfinish fun _ => trivial
  induction left generalizing attempt with
  | zero => trivial
  | succ left ih =>
      refine Keeps.bind (Keeps.whenever fun _ => device_gdRecover b) fun _ => ?_
      refine Keeps.bind hattempt fun ok => ?_
      cases ok with
      | false => exact ih (attempt + 1)
      | true => trivial

theorem device_ocbiBlocks (a k : ℕ) : Keeps (deviceGuard P) (ocbiBlocks a k) := by
  induction k generalizing a with
  | zero => trivial
  | succ k ih => exact .op trivial fun _ => ih (a + 32)

theorem device_maskGdIrq {a : ℕ} (ha : ¬ isRam a) : Keeps (deviceGuard P) (maskGdIrq a) :=
  .op ha fun _ => .op ha fun _ => trivial

/-- What is done when a read has failed. -/
theorem device_orDie {q : Shim ℤ} {rel : ℕ} (hq : Keeps (deviceGuard P) q) :
    Keeps (deviceGuard P) (q >>= fun r =>
      if r < 0 then getStatic .gdLastErr >>= fun e => shimDie 4 rel e else pure ()) := by
  refine Keeps.bind hq fun r => ?_
  split
  · exact .op (.inl rfl) fun _ => device_shimDie _ _ _
  · trivial

theorem device_gdOrDie (b : Build) {dst rel n : ℕ} (hP : P ⟨b.cartFad + rel, n, dst⟩) :
    Keeps (deviceGuard P) (gdOrDie b dst rel n) := by
  have hpure : Keeps (deviceGuard P) (pure () : Shim Unit) := trivial
  refine device_orDie (device_gdRead b gdPio hpure hpure (fun rd hrd => ?_) 4 0)
  cases sentRead_pio.symm.trans hrd
  exact hP

theorem device_gdOrDieDma (b : Build) {p rel n : ℕ} (hp : p < 2 ^ 29)
    (hP : P ⟨b.cartFad + rel, n, p2Addr p⟩) : Keeps (deviceGuard P) (gdOrDieDma b p rel n) := by
  refine device_orDie ?_
  unfold gdReadSectorsDma
  simp only [and_physMask, phys_of_lt hp]
  refine Keeps.bind (device_maskGdIrq (by decide)) fun _ => ?_
  refine Keeps.bind (device_maskGdIrq (by decide)) fun _ => ?_
  refine Keeps.bind (device_maskGdIrq (by decide)) fun _ => ?_
  have hfinish : ¬ isRam 0xa05f6900 := by decide
  refine device_gdRead b (gdDma p n) (device_ocbiBlocks _ _)
    (.op hfinish fun _ => trivial) (fun rd hrd => ?_) 4 0
  cases sentRead_dma.symm.trans hrd
  exact hP

theorem device_fbStore {fb y x c : ℕ} (hfb : 0xa5000000 ≤ fb) (hfb' : fb < 0xa6000000)
    (hy : y < 480) (hx : x < 640) : Keeps (deviceGuard P) (fbStore fb y x c) := by
  refine .op ?_ fun _ => trivial
  show ¬ isRam _
  rw [isRam_iff]
  unfold phys
  omega

theorem device_fbBase {f : ℕ → Shim Unit}
    (hf : ∀ fb, 0xa5000000 ≤ fb → fb < 0xa6000000 → Keeps (deviceGuard P) (f fb)) :
    Keeps (deviceGuard P) (fbBase >>= f) := by
  have hio : ¬ isRam 0xa05f8050 := by decide
  refine .op hio fun (sof : ℕ) => hf _ (Nat.le_add_right _ _) ?_
  have : sof &&& 0x00fffffc ≤ 0x00fffffc := Nat.and_le_right
  omega

theorem device_loadbarStep (len : ℕ) : Keeps (deviceGuard P) (loadbarStep len) := by
  have hio : ¬ isRam 0xa05f80e8 := by decide
  refine .op (.inr rfl) fun _ => Keeps.whenever fun _ => .op (.inr rfl) fun _ => ?_
  refine device_fbBase fun fb hlo hhi => ?_
  refine Keeps.bind (forPixels_keeps fun i hi => ?_) fun _ => ?_
  · exact Keeps.bind (device_fbStore hlo hhi (by omega) (by omega)) fun _ =>
      device_fbStore hlo hhi (by omega) (by omega)
  refine Keeps.bind (forPixels_keeps fun i hi => ?_) fun _ => ?_
  · exact Keeps.bind (device_fbStore hlo hhi (by omega) (by omega)) fun _ =>
      device_fbStore hlo hhi (by omega) (by omega)
  refine Keeps.bind (forPixels_keeps fun i hi => ?_) fun _ => ?_
  · exact forPixels_keeps fun j hj => device_fbStore hlo hhi (by omega) (by omega)
  · exact .op hio fun _ => .op hio fun _ => trivial

end Device

/-- What the drive may be given: the destination and the bounce buffer. -/
def DestBounce (q : Request) (a : ℕ) : Prop :=
  range (p2Addr q.dest) q.len a ∨ range shimBounce 2048 a

/-- The cells that the service relies on. -/
def Owned (q : Request) (c : ℕ) : Prop :=
  cells q.dest q.len c ∨ cells shimBounce 2048 c ∨ cells (p2Addr g1Mirror) 0x41c c

/-- An address that is off the words of the request in the mirror. -/
def OffRequest (a : ℕ) : Prop := ramCell a < 0xfc8800 ∨ 0xfc8c0c ≤ ramCell a

structure Footprint (q : Request) (t : State Mem) (c : Cmd) : Prop where
  alone : Alone (Owned q) ownStatic t c
  within : c.Within OffRequest fun _ => True

section Commands

variable {W : World Mem} {q : Request} {t t' : State Mem} {c : Cmd}

theorem not_inBuffers_idle (ht : t.drive = .idle) (x : ℕ) :
    ¬ cellsOf (inBuffers t.drive.buffers) x := by
  rw [ht]
  rintro ⟨a, ⟨b, hb, -⟩, -⟩
  cases hb

theorem destBounce_cell (hacc : Accepted q.off q.len q.dest) {a : ℕ} (ha : DestBounce q a) :
    ramCell a < 0xfc0000 ∨ 0xfca000 ≤ ramCell a ∧ ramCell a < 0xfca800 := by
  rcases ha with ha | ha
  · exact .inl (hacc.cells (cells_p2Addr ⟨a, ha, rfl⟩))
  · exact .inr ⟨(ramCell_bounce ha).1, (ramCell_bounce ha).2.1⟩

theorem DestBounce.offRequest (hacc : Accepted q.off q.len q.dest) {a : ℕ}
    (ha : DestBounce q a) : OffRequest a := by
  have := destBounce_cell hacc ha
  unfold OffRequest
  omega

/-- A command that reaches no RAM is out of everything. -/
theorem DeviceCmd.footprint {P : Read → Prop} (hc : DeviceCmd P c)
    (hP : ∀ rd, P rd → ∀ a, rd.buffer.Mem a → OffRequest a) : Footprint q t c := by
  have hreads : ∀ x, ¬ c.Reads x := by
    intro x hx
    cases c with
    | load8 => exact hc
    | load32 o a => exact hc hx.1
    | _ => exact hx
  have hwrites : ∀ x, ¬ c.Writes x := by
    intro x hx
    cases c with
    | store8 => exact hc
    | store16 a v => exact hc hx.1
    | store32 o a v => exact hc hx.1
    | _ => exact hx
  refine ⟨⟨fun x hx => absurd hx (hreads x), fun x hx => ?_, ?_⟩, ?_⟩
  · exact absurd hx (not_or.2 ⟨hreads x, hwrites x⟩)
  · cases c with
    | get | put | engine | awaitMaple => exact hc
    | _ => trivial
  · cases c with
    | store16 a v => exact fun hram => absurd hram hc
    | store32 o a v => exact fun hram => absurd hram hc
    | gdc r4 block r7 => exact fun hr7 rd hrd => hP rd (hc hr7 rd hrd)
    | store8 | engine | awaitMaple => exact hc.elim
    | _ => trivial

/-- The error block is out of the open buffers. -/
theorem DieCmd.footprint (hc : DieCmd c)
    (hapart : ∀ x, 0xfc8000 ≤ x → x < 0xfc8010 → ¬ cellsOf (inBuffers t.drive.buffers) x) :
    Footprint q t c := by
  cases c with
  | store32 o a v =>
      obtain ⟨-, hlo, hhi⟩ := hc
      have herr : p2Addr shimErr = 0xacfc8000 := rfl
      rw [herr] at hlo hhi
      have hcell : ∀ i < 4, 0xfc8000 ≤ ramCell (a + i) ∧ ramCell (a + i) < 0xfc8010 := by
        intro i hi
        unfold ramCell
        omega
      refine ⟨⟨fun x hx => hx.elim, ?_, trivial⟩, fun _ i hi => ?_⟩
      · rintro x (hx | ⟨-, i, hi, rfl⟩)
        · exact hx.elim
        · exact hapart _ (hcell i hi).1 (hcell i hi).2
      · have := (hcell i hi).2
        exact .inl (by omega)
  | _ => exact hc.elim

/-- Only a SEND opens a buffer. -/
theorem within_step {V : ℕ → Prop} {r : c.Resp} (h : shimStep flatBus W t c r t')
    (hc : ∀ r4 block r7, c = .gdc r4 block r7 → r7 = gdSend →
      ∀ rd, sentRead r4 block = some rd → ∀ a, rd.buffer.Mem a → V a)
    (ht : t.drive.Within V) : t'.drive.Within V := by
  cases c with
  | gdc r4 block r7 =>
      obtain ⟨m, d, hgd, rfl⟩ := h
      exact (hgd.run (D := fun _ => True) ht (hc _ _ _ rfl)).2
  | _ =>
      rw [shimStep_drive h (fun _ _ _ h => by cases h)]
      exact ht

end Commands

/-- Started with the drive idle, the program stays inside the footprint and leaves the
drive idle when it returns. -/
structure Tame (W : World Mem) (q : Request) {α : Type} (p : Shim α) : Prop where
  before : ∀ s : State Mem, s.drive = .idle → Before (flatMachine W) (Footprint q) p s
  idle : ∀ {s s' : State Mem} {tr a}, s.drive = .idle →
    Exec (flatMachine W) p s tr (.ret a) s' → s'.drive = .idle

section Parts

variable {W : World Mem} {q : Request} {α β : Type} {b : Build}

theorem Tame.bind {p : Shim α} {f : α → Shim β} (hp : Tame W q p) (hf : ∀ a, Tame W q (f a)) :
    Tame W q (p >>= f) where
  before s hs := (hp.before s hs).bind fun _ a s' h => (hf a).before s' (hp.idle hs h)
  idle hs h := by
    obtain ⟨tr₁, tr₂, a, s₁, -, hp', hf'⟩ := h.ret_of_bind
    exact (hf a).idle (hp.idle hs hp') hf'

theorem tame_ret (a : α) : Tame W q (.ret a) where
  before _ _ := trivial
  idle hs h := by
    cases h
    exact hs

theorem Tame.whenever {c : Prop} [Decidable c] {p : Shim Unit} (hp : c → Tame W q p) :
    Tame W q (Prog.whenever c p) := by
  by_cases hc : c
  · rw [Prog.whenever_pos hc]
    exact hp hc
  · rw [Prog.whenever_neg hc]
    exact tame_ret ()

/-- A program without syscalls. -/
theorem tame_of_keeps {g : Guard shimSig} {p : Shim α} (hp : Keeps g p)
    (hgd : ∀ c, g.cmd c ∨ g.last c → ∀ r4 block r7, c ≠ .gdc r4 block r7)
    (hg : ∀ t c, g.cmd c ∨ g.last c → t.drive = .idle → Footprint q t c) : Tame W q p where
  before _ hs := hp.before (I := fun t => t.drive = .idle) hg
    (fun _ c _ _ hc hstep ht => (shimStep_drive hstep (hgd c hc)).trans ht) hs
  idle hs h := (exec_drive h fun ev hev => hgd _ (hp.exec h ev hev)).trans hs

/-- A program of the GD layer. -/
theorem tame_device (hacc : Accepted q.off q.len q.dest) {p : Shim α}
    (hp : Keeps (deviceGuard fun rd => ∀ a, rd.buffer.Mem a → DestBounce q a) p)
    (hidle : ∀ {s s' : State Mem} {tr a}, s.drive = .idle →
      Exec (flatMachine W) p s tr (.ret a) s' → s'.drive = .idle) : Tame W q p where
  before s hs := by
    refine hp.before (I := fun t => t.drive.Within (DestBounce q)) ?_ ?_
      (hs ▸ Drive.idle_within _)
    · rintro t c (hc | hc) ht
      · exact DeviceCmd.footprint hc fun rd hrd a ha => (hrd a ha).offRequest hacc
      · refine DieCmd.footprint hc ?_
        rintro x hlo hhi ⟨a, ha, rfl⟩
        have := destBounce_cell hacc (ht a ha)
        omega
    · rintro t c r t' hc hstep ht
      refine within_step hstep ?_ ht
      rintro r4 block r7 rfl hr7 rd hrd
      rcases hc with hc | hc
      · exact hc hr7 rd hrd
      · exact hc.elim
  idle := hidle

section Accepted

variable (hacc : Accepted q.off q.len q.dest)

include hacc

theorem tame_gdOrDie (rel : ℕ) : Tame W q (gdOrDie b shimBounce rel 1) := by
  have hbuffer : ∀ a, (Read.mk (b.cartFad + rel) 1 shimBounce).buffer.Mem a →
      range shimBounce 2048 a := by
    rintro a ⟨hlo, hhi⟩
    exact ⟨hlo, by simpa [Read.buffer] using hhi⟩
  refine tame_device hacc (device_gdOrDie b fun a ha => .inr (hbuffer a ha)) fun hs h => ?_
  have hspread : flatDurable.Spread ⟨b.cartFad + rel, 1, shimBounce⟩ := fun i hi x hx hne =>
    (flatDurable_fits hacc).bounce_apart i (by simpa using hi) x (hbuffer x hx) hne
  exact ((orDie_delivers (gdReadSectors_delivers b hspread (fun _ _ => trivial) hs)).exec h
    () rfl trivial).2

theorem tame_cartBody {k rel n : ℕ} (hk : k + n * 2048 ≤ q.len) :
    Tame W q (cartBody b (p2Addr q.dest + k) (q.dest + k) rel n) := by
  have halias : p2Addr (q.dest + k) = p2Addr q.dest + k := hacc.p2Addr_add (by omega)
  have hlt : q.dest + k < 2 ^ 29 := by
    have := hacc.high
    omega
  have hbuffer : ∀ a, (Read.mk (b.cartFad + rel) n (p2Addr q.dest + k)).buffer.Mem a →
      DestBounce q a := by
    rintro a ⟨hlo, hhi⟩
    simp only [Read.buffer] at hlo hhi
    exact .inl ⟨by omega, by omega⟩
  have hspread : flatDurable.Spread ⟨b.cartFad + rel, n, p2Addr q.dest + k⟩ := by
    rintro i hi x ⟨hlo, hhi⟩ hne
    simp only [Read.buffer] at hi hlo hhi hne ⊢
    rw [Nat.add_assoc] at hne ⊢
    exact (flatDurable_fits hacc).dest_apart (k + i) (by omega) x ⟨by omega, by omega⟩ hne
  unfold cartBody
  split
  · next hdma =>
    have hal := ((bodyByDma_iff b).1 hdma).2
    rw [← halias] at hbuffer hspread
    refine tame_device hacc (device_gdOrDieDma b hlt hbuffer) fun hs h => ?_
    exact ((orDie_delivers (gdReadSectorsDma_delivers b hlt hal hspread
      (fun _ _ => trivial) hs)).exec h () rfl trivial).2
  · refine tame_device hacc (device_gdOrDie b hbuffer) fun hs h => ?_
    exact ((orDie_delivers (gdReadSectors_delivers b hspread (fun _ _ => trivial) hs)).exec h
      () rfl trivial).2

end Accepted

/-- The commands of a copy between two ranges. -/
def MoveCmd (src d n : ℕ) : Cmd → Prop
  | .load8 _ a => range src n a
  | .store8 _ a _ => range d n a
  | _ => False

theorem xmemcpy_moves {src d n : ℕ} :
    Keeps ⟨MoveCmd src d n, fun _ => False, fun _ => False⟩ (xmemcpy d src n) := by
  have hshift : ∀ a n x, range (a + 1) n x → range a (n + 1) x := by
    rintro a n x ⟨hlo, hhi⟩
    exact ⟨by omega, by omega⟩
  induction n generalizing d src with
  | zero => trivial
  | succ n ih =>
      refine .op (range_add (by omega : 0 < n + 1)) fun _ =>
        .op (range_add (by omega : 0 < n + 1)) fun _ => ih.mono ?_ (fun _ h => h) fun _ h => h
      intro c hc
      cases c with
      | load8 | store8 => exact hshift _ _ _ hc
      | _ => exact hc.elim

section Service

variable (hacc : Accepted q.off q.len q.dest)

include hacc

/-- A copy out of the bounce buffer into the destination. -/
theorem tame_xmemcpy {k skip take : ℕ} (hskip : skip + take ≤ 2048) (hk : k + take ≤ q.len) :
    Tame W q (xmemcpy (p2Addr q.dest + k) (shimBounce + skip) take) := by
  refine tame_of_keeps xmemcpy_moves ?_ ?_
  · rintro c (hc | hc) r4 block r7 rfl
    · exact hc
    · exact hc
  · rintro t c (hc | hc) ht
    · cases c with
      | load8 o a =>
          obtain ⟨i, hi, rfl⟩ := exists_add_of_range hc
          refine ⟨⟨?_, fun x _ => not_inBuffers_idle ht x, trivial⟩, trivial⟩
          rintro x ⟨-, rfl⟩
          rw [Nat.add_assoc]
          exact .inr (.inl ⟨_, range_add (by omega), rfl⟩)
      | store8 o a v =>
          obtain ⟨i, hi, rfl⟩ := exists_add_of_range hc
          refine ⟨⟨fun x hx => hx.elim, fun x _ => not_inBuffers_idle ht x, trivial⟩,
            fun _ => ?_⟩
          rw [Nat.add_assoc]
          exact DestBounce.offRequest hacc (.inl (range_add (by omega)))
      | _ => exact hc.elim
    · exact hc.elim

theorem tame_cartBounce {k rel skip take : ℕ} (hskip : skip + take ≤ 2048)
    (hk : k + take ≤ q.len) :
    Tame W q (cartBounce b (p2Addr q.dest + k) rel skip take) :=
  (tame_gdOrDie hacc rel).bind fun _ => tame_xmemcpy hacc hskip hk

theorem tame_cartRead : Tame W q (cartRead b q.off q.len q.dest) := by
  have hs := cartSplit_covers q.off q.len
  have htotal := hs.total
  unfold cartRead
  refine (Tame.whenever fun hne => ?_).bind fun _ =>
    (Tame.whenever fun hne => ?_).bind fun _ => Tame.whenever fun hne => ?_
  · obtain ⟨-, hle⟩ := hs.head hne
    exact tame_cartBounce hacc (k := 0) hle (by omega)
  · exact tame_cartBody hacc (by omega)
  · obtain ⟨hle, -⟩ := hs.tail hne
    rw [Nat.add_assoc (p2Addr q.dest)]
    exact tame_cartBounce hacc (by omega) (by omega)

theorem tame_serveRequest : Tame W q (serveRequest b q) := by
  refine (tame_cartRead hacc).bind fun _ => Tame.bind ?_ fun _ => Tame.whenever fun _ => ?_
  · have hkeeps : Keeps ⟨fun c : Cmd => c = .store32 .own sbGdst 0, fun _ => False,
        fun _ => False⟩ (store32 .own sbGdst 0) := .op rfl fun _ => trivial
    refine tame_of_keeps hkeeps ?_ ?_
    · rintro c (rfl | hc) r4 block r7 h
      · cases h
      · exact hc.elim
    · rintro t c (rfl | hc) ht
      · refine ⟨⟨fun x hx => hx.elim, fun x _ => not_inBuffers_idle ht x, trivial⟩,
          fun _ i hi => ?_⟩
        rw [OffRequest, ramCell_sbGdst hi]
        omega
      · exact hc.elim
  · refine tame_device hacc (device_loadbarStep q.len) fun hs h => (exec_drive h ?_).trans hs
    intro ev hev r4 block r7 hc
    rcases (loadbarStep_keeps q.len).exec h ev hev with hbar | hbar
    · rw [hc] at hbar
      exact hbar
    · exact hbar

end Service

/-- A load of a word of the mirror. -/
theorem before_mirror {off : ℕ} (hoff : off + 4 ≤ 0x41c) {k : ℕ → Shim Unit} {s : State Mem}
    (hs : s.drive = .idle)
    (hk : Before (flatMachine W) (Footprint q) (k (ramWord s.mem (p2Addr g1Mirror + off))) s) :
    Before (flatMachine W) (Footprint q) (.op (.load32 .own (p2Addr g1Mirror + off)) k) s := by
  have hram : isRam (p2Addr g1Mirror + off) := by
    rw [isRam_p2Addr_add, isRam_iff, g1Mirror_eq]
    unfold phys
    omega
  refine ⟨⟨⟨?_, fun x _ => not_inBuffers_idle hs x, trivial⟩, trivial⟩, fun r s' hstep => ?_⟩
  · rintro x ⟨-, i, hi, rfl⟩
    rw [Nat.add_assoc]
    exact .inr (.inr ⟨_, range_add (by omega), rfl⟩)
  · obtain ⟨rfl, m, rfl, rfl⟩ := (step_load32 hram).1 hstep
    exact hk

/-- A whole call. -/
theorem before_shimCartService {s : State Mem} (hs : s.drive = .idle) :
    Before (flatMachine W) (Footprint (requestAt s.mem)) (shimCartService b) s := by
  suffices hanswer : Before (flatMachine W) (Footprint (requestAt s.mem))
      (answerRequest b (requestAt s.mem)) s by
    unfold shimCartService
    simp only [Prog.op_bind, Prog.ret_bind]
    exact before_mirror (by decide) hs (before_mirror (by decide) hs
      (before_mirror (by decide) hs (before_mirror (by decide) hs hanswer)))
  unfold answerRequest
  split
  · have hdies : Keeps ⟨DieCmd, DieCmd, fun _ => True⟩
        (shimDie 2 (requestAt s.mem).off (requestAt s.mem).dest : Shim Unit) :=
      (dooms_shimDie (fun _ hc => hc) trivial).keeps
    refine hdies.before (I := fun t => t.drive = .idle) (fun t c hc ht => ?_)
      (fun t c r t' hc hstep ht => (shimStep_drive hstep ?_).trans ht) hs
    · exact DieCmd.footprint (hc.elim id id) fun x _ _ => not_inBuffers_idle ht x
    · rintro r4 block r7 rfl
      exact hc.elim id id
  · next hbad =>
    have hgood : ¬ (requestAt s.mem).bad := fun h => hbad ((requestAt_refused_iff s.mem).2 h)
    exact (tame_serveRequest (Request.accepted hgood)).before s hs

end Parts

end Cfp2Dreamcast
