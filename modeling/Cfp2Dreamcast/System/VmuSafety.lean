import Cfp2Dreamcast.Cart.EndToEnd
import Cfp2Dreamcast.Machine.Flat
import Cfp2Dreamcast.Maple.Guard
import Cfp2Dreamcast.Program.Preempt

/-!
# No game data on the real Maple bus

The whole system: the cart service in the game's main thread, the Maple service
in the vertical-blank interrupt, a drive that may still be writing the buffers it
was given, and the game. Whenever the shim starts the real Maple DMA, SB_MDSTAR
points at the transmit buffer and the buffer holds one request to a pad. The
buffer is written by the Maple service alone, completely before each start, and
the fence of the cart service keeps the drive out of it.
-/

namespace Cfp2Dreamcast

open Program Memory

/-- An address that is not behind the transmit buffer. -/
def OffTx (a : ℕ) : Prop := ∀ i < 16, ramCell a ≠ ramCell (p2Addr mapleTx + i)

theorem cellsOf_offTx {i : ℕ} (hi : i < 16) : ¬ cellsOf OffTx (ramCell (p2Addr mapleTx + i)) :=
  fun ⟨_, ha, hcell⟩ => ha i hi hcell

theorem offTx_iff (a : ℕ) : OffTx a ↔ ramCell a < 0xfc9000 ∨ 0xfc9010 ≤ ramCell a := by
  have hcell (i : ℕ) (hi : i < 16) : ramCell (p2Addr mapleTx + i) = 0xfc9000 + i := by
    rw [ramCell_p2Addr_add, mapleTx_eq]
    unfold ramCell
    omega
  constructor
  · intro h
    by_contra hc
    refine h (ramCell a - 0xfc9000) (by omega) ?_
    rw [hcell _ (by omega)]
    omega
  · intro h i hi
    rw [hcell i hi]
    omega

section Main

variable {b : Build}

/-- What the cart service may do for one request or another. -/
def mainGuard (b : Build) : Guard shimSig where
  cmd c := (∃ a, c = .load32 .own a) ∨ ∃ q : Request, ¬ q.bad ∧ (serviceGuard b q).cmd c
  last := DieCmd
  halt _ := True

theorem shimCartService_keeps (b : Build) : Keeps (mainGuard b) (shimCartService b) := by
  refine .op (.inl ⟨_, rfl⟩) fun offH => .op (.inl ⟨_, rfl⟩) fun offL =>
    .op (.inl ⟨_, rfl⟩) fun len => .op (.inl ⟨_, rfl⟩) fun star => ?_
  show Keeps _ (answerRequest b (decodeRequest offH offL len star))
  generalize hq : decodeRequest offH offL len star = q
  have hbounds := decodeRequest_bounds offH offL len star
  rw [hq] at hbounds
  unfold answerRequest
  split
  · exact (dooms_shimDie (fun _ hc => hc) trivial).keeps
  · next h =>
    have hbad : ¬ q.bad := fun hbad =>
      h ((Request.refused_iff_bad hbounds.1 hbounds.2).2 hbad)
    exact (serveRequest_keeps hbad).mono (fun c hc => .inr ⟨q, hbad, hc⟩) (fun _ hc => hc)
      fun _ _ => trivial

/-- The destination of a request that is not refused lies below the shim. -/
theorem offTx_range {q : Request} (hq : ¬ q.bad) {a : ℕ}
    (ha : range (p2Addr q.dest) q.len a) : OffTx a := by
  obtain ⟨-, hlow, hhigh⟩ := q.accepted hq
  obtain ⟨hlo, hhi⟩ := ha
  rw [p2Addr_eq_add (by omega)] at hlo hhi
  rw [offTx_iff]
  unfold ramCell
  omega

theorem offTx_shimErr {i : ℕ} (hi : i < 16) : OffTx (p2Addr shimErr + i) := by
  rw [offTx_iff, ramCell_p2Addr_add, shimErr_eq]
  unfold ramCell
  omega

theorem offTx_rx {a : ℕ} (ha : mapleRxBuffer.Mem a) : OffTx a := by
  have hrx : p2Addr mapleRx = 0xacfc9040 := rfl
  obtain ⟨hlo, hhi⟩ := ha
  rw [show mapleRxBuffer.addr = p2Addr mapleRx from rfl, hrx] at hlo hhi
  rw [show mapleRxBuffer.len = 1024 from rfl] at hhi
  rw [offTx_iff]
  unfold ramCell
  omega

theorem mainGuard_within {c : Cmd} (hc : (mainGuard b).cmd c ∨ (mainGuard b).last c) :
    c.Within OffTx fun _ => True := by
  rcases hc with (⟨a, rfl⟩ | ⟨q, hq, hc | rfl | hc⟩) | hc
  · trivial
  · have hc' : CartCmd (AreaRead b q.dest q.len) (fun _ => True) (range (p2Addr q.dest) q.len) c :=
      CartCmd.mono hc (fun _ h => h) (fun _ _ => trivial) fun _ h => h
    refine hc'.within (fun rd hrd a ha => ?_) fun a ha => offTx_range hq ha
    rcases hrd.mem ha with ha | ⟨hlo, hhi⟩
    · exact offTx_range hq ha
    · rw [shimBounce_eq] at hlo hhi
      rw [offTx_iff]
      unfold ramCell
      omega
  · intro _ i hi
    rw [offTx_iff, ramCell_sbGdst hi]
    omega
  · exact hc.within _ _
  · exact hc.within fun i hi => offTx_shimErr hi

/-- A store that sets the start bit of the real Maple DMA. -/
def Cmd.Starts : Cmd → Prop
  | .store8 _ a v => phys a = phys sbMdst ∧ v.toNat % 2 = 1
  | .store16 a v => phys a = phys sbMdst ∧ v % 2 = 1
  | .store32 _ a v => phys a = phys sbMdst ∧ v % 2 = 1
  | _ => False

instance : DecidablePred Cmd.Starts
  | .store8 .. | .store16 .. | .store32 .. => inferInstanceAs (Decidable (_ ∧ _))
  | .load8 .. | .load16 .. | .load32 .. | .ocbi .. | .get .. | .put .. | .gdc .. | .engine
  | .awaitMaple => inferInstanceAs (Decidable False)

theorem mainGuard_not_starts {c : Cmd} (hc : (mainGuard b).cmd c ∨ (mainGuard b).last c) :
    ¬ c.Starts := by
  have hstart : phys sbMdst = 0x5f6c18 := rfl
  have herr : p2Addr shimErr = 0xacfc8000 := rfl
  rcases hc with (⟨a, rfl⟩ | ⟨q, hq, hc | rfl | hc⟩) | hc
  · exact id
  · cases c with
    | store8 o a v =>
        rintro ⟨hphys, -⟩
        obtain ⟨-, hlow, hhigh⟩ := q.accepted hq
        obtain ⟨-, hlo, hhi⟩ := hc
        rw [p2Addr_eq_add (by omega)] at hlo hhi
        rw [hstart] at hphys
        unfold phys at hphys
        omega
    | store32 o a v =>
        have hreg : ∀ a ∈ gdRegs, phys a ≠ phys sbMdst := by decide
        exact fun h => hreg a hc.2 h.1
    | store16 a v => exact hc.elim
    | _ => exact id
  · exact fun h => absurd h.1 (by decide)
  · cases c with
    | store32 o a v =>
        rw [hc.2]
        exact fun h => absurd h.1 (by decide)
    | store16 a v =>
        rintro ⟨hphys, -⟩
        obtain ⟨hlo, hhi⟩ := hc
        rw [hstart] at hphys
        unfold phys at hphys
        omega
    | store8 o a v => exact hc.elim
    | _ => exact id
  · cases c with
    | store32 o a v =>
        rintro ⟨hphys, -⟩
        obtain ⟨-, hlo, hhi⟩ := hc
        rw [herr] at hlo hhi
        rw [hstart] at hphys
        unfold phys at hphys
        omega
    | _ => exact hc.elim

end Main

section Interrupt

variable {W : World Mem} {s s' : State Mem}

/-- The words in the transmit buffer. -/
def txWord (m : Mem) (i : ℕ) : ℕ := ramWord m (p2Addr mapleTx + 4 * i)

/-- What the monitor knows is so. -/
structure Holds (x : Known) (s : State Mem) : Prop where
  tx : x.Agrees (txWord s.mem)
  star : ∀ v, x.star = some v → s.regs (phys sbMdstar) = v

theorem holds_nothing (s : State Mem) : Holds .nothing s :=
  ⟨fun _ _ _ h => (by cases h), fun _ h => (by cases h)⟩

/-- Nothing is stored to the transmit buffer or a register. -/
theorem Holds.agreeOff {x : Known} (h : Holds x s) {P : ℕ → Prop}
    (hmem : AgreeOff P s.mem s'.mem) (hP : ∀ i, i < 16 → ¬ P (ramCell (p2Addr mapleTx + i)))
    (hregs : s'.regs = s.regs) : Holds x s' := by
  refine ⟨fun i hi v hv => ?_, fun v hv => ?_⟩
  · rw [← h.tx i hi v hv]
    refine ramWord_agreeOff hmem fun j hj => ?_
    rw [Nat.add_assoc]
    exact hP _ (by omega)
  · rw [hregs]
    exact h.star v hv

/-- The own stores that are neither to the transmit buffer nor to SB_MDSTAR. -/
theorem ownWords_off {a : ℕ} (ha : a ∈ ownWords) (hstar : a ≠ sbMdstar) :
    (p2Addr mapleTx ≤ a ∧ a < p2Addr mapleTx + 16 ∧ (a - p2Addr mapleTx) % 4 = 0) ∨
      (¬ (p2Addr mapleTx ≤ a ∧ a < p2Addr mapleTx + 16) ∧
        (isRam a → ∀ i < 4, OffTx (a + i)) ∧ phys a ≠ phys sbMdstar) := by
  simp only [offTx_iff]
  revert a
  decide

/-- A store to a word of the transmit buffer. -/
theorem Holds.storeTx {x : Known} (hx : Holds x s) {j v : ℕ} (hj : j < 4) :
    Holds { x with tx := Function.update x.tx j (some (u32 v)) }
      { s with mem := setBytes ramCell s.mem (p2Addr mapleTx + 4 * j) (wordBytes v) } := by
  refine ⟨fun i hi w hw => ?_, hx.star⟩
  by_cases hij : i = j
  · subst hij
    have hw : Function.update x.tx i (some (u32 v)) i = some w := hw
    rw [Function.update_self] at hw
    cases hw
    exact ramWord_setBytes_u32 s.mem
  · have hw : Function.update x.tx j (some (u32 v)) i = some w := hw
    rw [Function.update_of_ne hij] at hw
    rw [← hx.tx i hi w hw]
    refine ramWord_congr fun k hk => setBytes_off ramCell _ _ fun l hl h => hij ?_
    rw [wordBytes_length] at hl
    rw [Nat.add_assoc, Nat.add_assoc, ramCell_p2Addr_add, ramCell_p2Addr_add, mapleTx_eq] at h
    unfold ramCell at h
    omega

/-- An own store. -/
theorem Holds.storeOwn {x : Known} {a v : ℕ} {r : Unit} (hx : Holds x s)
    (hstep : (flatMachine W).step s (.store32 .own a v) r s')
    (ha : a ∈ ownWords ∨ a = sbMdst) : Holds (x.next (.store32 .own a v)) s' := by
  by_cases hstar : a = sbMdstar
  · subst hstar
    have hio : ¬ isRam sbMdstar := by decide
    rw [show x.next (.store32 .own sbMdstar v) = { x with star := some v } from rfl]
    cases (step_store32_io hio).1 hstep
    refine ⟨hx.tx, fun w hw => ?_⟩
    cases hw
    exact Function.update_self (phys sbMdstar) v s.regs
  have hsort : (p2Addr mapleTx ≤ a ∧ a < p2Addr mapleTx + 16 ∧ (a - p2Addr mapleTx) % 4 = 0) ∨
      (¬ (p2Addr mapleTx ≤ a ∧ a < p2Addr mapleTx + 16) ∧
        (isRam a → ∀ i < 4, OffTx (a + i)) ∧ phys a ≠ phys sbMdstar) := by
    rcases ha with ha | rfl
    · exact ownWords_off ha hstar
    · exact .inr ⟨by decide, fun h => absurd h (by decide), by decide⟩
  rcases hsort with ⟨hlo, hhi, hal⟩ | ⟨hoff, hram, hphys⟩
  · obtain ⟨j, hj⟩ : ∃ j, j = (a - p2Addr mapleTx) / 4 := ⟨_, rfl⟩
    have haj : a = p2Addr mapleTx + 4 * j := by omega
    have hr : isRam a := by
      rw [haj, isRam_p2Addr_add, isRam_iff, mapleTx_eq]
      unfold phys
      omega
    obtain ⟨m, hm, rfl⟩ := (step_store32 hr).1 hstep
    rw [flat_storeRun] at hm
    subst hm
    simp only [Known.next, if_neg hstar, if_pos (And.intro hlo hhi), ← hj]
    rw [haj]
    exact hx.storeTx (by omega)
  · have hnext : x.next (.store32 .own a v) = x := by
      simp only [Known.next, if_neg hstar, if_neg hoff]
    rw [hnext]
    by_cases hr : isRam a
    · obtain ⟨m, hm, rfl⟩ := (step_store32 hr).1 hstep
      rw [flat_storeRun] at hm
      subst hm
      have hset : AgreeOff (cellsOf OffTx) s.mem (setBytes ramCell s.mem a (wordBytes v)) :=
        AgreeOff.setBytes (fun i hi => ⟨_, hram hr i hi, rfl⟩) s.mem
      exact hx.agreeOff hset (fun _ => cellsOf_offTx) rfl
    · cases (step_store32_io hr).1 hstep
      refine ⟨hx.tx, fun w hw => ?_⟩
      rw [← hx.star w hw]
      exact Function.update_of_ne hphys.symm v s.regs

theorem step_holds {x : Known} {c : Cmd} {r : c.Resp}
    (hstep : shimStep flatBus W s c r s') (hok : MapleCmd .call x c) (hx : Holds x s) :
    Holds (x.next c) s' := by
  cases c with
  | load8 o a =>
      simp only [shimStep] at hstep
      split at hstep
      · obtain ⟨-, m, rfl, rfl⟩ := hstep
        exact hx
      · subst hstep
        exact hx
  | load16 a =>
      obtain ⟨-, rfl⟩ := hstep
      exact hx
  | load32 o a =>
      simp only [shimStep] at hstep
      split at hstep
      · obtain ⟨-, m, rfl, rfl⟩ := hstep
        exact hx
      · obtain ⟨-, rfl⟩ := hstep
        exact hx
  | store8 o a v => exact holds_nothing s'
  | store32 o a v =>
      rcases hok with ⟨rfl, -⟩ | ⟨rfl, hown⟩
      · exact holds_nothing s'
      · exact hx.storeOwn (W := W) (r := r) hstep (hown.imp_right fun h => h.1)
  | get y =>
      obtain ⟨-, rfl⟩ := hstep
      exact hx
  | put y v =>
      cases hstep
      exact ⟨hx.tx, hx.star⟩
  | engine => exact holds_nothing s'
  | awaitMaple =>
      obtain ⟨m, hrun, rfl⟩ := hstep
      exact hx.agreeOff (flat_run_agreeOff (hrun.mono (fun _ ha => offTx_rx ha) fun _ h => h))
        (fun _ => cellsOf_offTx) rfl
  | store16 | ocbi | gdc => exact hok.elim

end Interrupt

section System

variable {b : Build} {d : Embedded} {W : World Mem}

/-- The cart service runs in the main thread and the Maple service interrupts it.
A transfer in flight may write its buffers at any time. The statics may change at
any time too: replies can hit them. While neither service runs, the game does what
it likes, except that it uses the drive through the cart service only. -/
def shimSystem (b : Build) (d : Embedded) (W : World Mem) :
    Preempt shimSig (State Mem) Unit ℤ where
  machine := flatMachine W
  env s s' := s'.regs = s.regs ∧ Transfers flatBus (s.mem, s.drive) (s'.mem, s'.drive)
  idle s s' := s'.drive = s.drive
  main := shimCartService b
  isr := shimMapleSteady d

theorem MapleCmd.not_gdc {g : Scope} {x : Known} {c : Cmd} (hc : MapleCmd g x c) :
    ∀ r4 block r7, c ≠ .gdc r4 block r7 := by
  rintro r4 block r7 rfl
  exact hc

/-- The drive stays out of the transmit buffer, and what the Maple service has
stored there stays known to it. -/
theorem shimSystem_invariant :
    (shimSystem b d W).Invariant (fun s => s.drive.Within OffTx) (mainGuard b)
      (mapleMonitor .call) Holds where
  main := shimCartService_keeps b
  isr := tracked_shimMapleSteady d
  start s := ⟨.nothing, holds_nothing s⟩
  env := by
    rintro s s' ⟨-, htr⟩ hI a ha
    obtain ⟨-, hbufs⟩ := htr.run (D := fun _ => True) hI
    exact hI a (hbufs ▸ ha)
  env_rel := by
    rintro s s' x ⟨hregs, htr⟩ hI hx
    obtain ⟨hrun, -⟩ := htr.run (D := fun _ => True) hI
    exact hx.agreeOff (flat_run_agreeOff hrun) (fun _ => cellsOf_offTx) hregs
  idle := by
    intro s s' h hI
    rwa [show s'.drive = s.drive from h]
  main_step hstep hc hI := (shimStep_run hstep (mainGuard_within hc) hI).2
  isr_step hstep hc hI hx :=
    ⟨(shimStep_drive hstep hc.not_gdc).symm ▸ hI, step_holds hstep hc hx⟩

/-- What the Maple service starts, it starts safely. -/
theorem MapleCmd.starts {x : Known} {c : Cmd} (hc : MapleCmd .call x c) (hstart : c.Starts) :
    x.Safe := by
  cases c with
  | store8 o a v =>
      have hio : ¬ isRam sbMdst := by decide
      have h := hc.2.1
      unfold isRam at h hio
      rw [hstart.1] at h
      exact absurd h hio
  | store32 o a v =>
      rcases hc with ⟨-, hram, -⟩ | ⟨-, hown | ⟨-, -, hsafe⟩⟩
      · have hio : ¬ isRam sbMdst := by decide
        have h := hram 0 (by decide)
        unfold isRam at h hio
        rw [Nat.add_zero, hstart.1] at h
        exact absurd h hio
      · have hoff : ∀ a ∈ ownWords, phys a ≠ phys sbMdst := by decide
        exact absurd hstart.1 (hoff a hown)
      · exact hsafe
  | store16 => exact hc.elim
  | _ => exact hstart.elim

/-- In every interleaving of the two services, whenever a command sets the start
bit of the real Maple DMA, SB_MDSTAR is the transmit buffer and it holds one
request to a pad. -/
theorem vmu_safe {s₀ : State Mem} (hdrive : s₀.drive = .idle)
    {y y' : Config shimSig (State Mem) Unit ℤ} {c : Cmd}
    (hrun : (shimSystem b d W).Run ⟨s₀, none, none⟩ y)
    (hstep : (shimSystem b d W).Step y (some c) y') (hstart : c.Starts) :
    y.state.regs (phys sbMdstar) = phys mapleTx ∧ PadRequest (txWord y.state.mem) := by
  have hinit : Preempt.Inv (fun s : State Mem => s.drive.Within OffTx) (mainGuard b)
      (mapleMonitor .call) Holds (⟨s₀, none, none⟩ : Config shimSig (State Mem) Unit ℤ) := by
    refine ⟨?_, fun p hp => (by cases hp), fun p hp => (by cases hp)⟩
    rw [show s₀.drive = Drive.idle from hdrive]
    exact Drive.idle_within OffTx
  have hinv := Preempt.reachable_inv shimSystem_invariant hrun hinit
  rcases hinv.cmd hstep with hmain | ⟨x, hx, hok⟩
  · exact absurd hstart (mainGuard_not_starts hmain)
  · obtain ⟨hstar, hsafe⟩ := MapleCmd.starts hok hstart
    exact ⟨hx.star _ hstar, hsafe _ hx.tx⟩

/-- The engine has triggered a list of one frame, a digital read. -/
def pollState : State Mem where
  mem := ofWords [(mmir 0x18, 1), (mmir 0x04, 0x0c100000), (0x0c100000, 0x80000000),
    (0x0c100004, 0x0c200000), (0x0c100008, 0x2086), (0x0c10000c, 0x33)]
  statics
    | .busInitDone => 0x10000
    | .padThresh => 1
    | .inTcnt => 1
    | _ => 0xff
  drive := .idle
  regs _ := 0

/-- An engine that does nothing and pads on which no button is held. -/
def idlePads : Devices where
  engine m := (0, m)
  regs _ := 0x1000
  pads _ := wordBytes 8 ++ wordBytes 0 ++ wordBytes 0xffff

theorem vmu_safe_sample : ∃ y y' : Config shimSig (State Mem) Unit ℤ, ∃ c,
    (shimSystem .gdi .blank idlePads.world).Run ⟨pollState, none, none⟩ y ∧
      (shimSystem .gdi .blank idlePads.world).Step y (some c) y' ∧ c.Starts ∧
        y.state.regs (phys sbMdstar) = phys mapleTx ∧ PadRequest (txWord y.state.mem) := by
  have hexec := idlePads.exec idlePads.in_world (shimMapleSteady .blank) pollState
  have hany : (((shimMapleSteady .blank).run idlePads.answer pollState).1.any
      fun ev => decide (Cmd.Starts ev.cmd)) = true := by decide +kernel
  obtain ⟨ev, hev, hstart⟩ := List.any_eq_true.1 hany
  obtain ⟨y, y', hrun, hstep⟩ := Preempt.run_of_exec
    (P := shimSystem .gdi .blank idlePads.world) (m := none) hexec ev hev
  have hrun' := Relation.ReflTransGen.head ⟨_, Preempt.Step.interrupt⟩ hrun
  exact ⟨y, y', ev.cmd, hrun', hstep, of_decide_eq_true hstart,
    vmu_safe rfl hrun' hstep (of_decide_eq_true hstart)⟩

end System

end Cfp2Dreamcast
