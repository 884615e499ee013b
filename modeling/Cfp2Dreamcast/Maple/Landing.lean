import Cfp2Dreamcast.Maple.Sends

/-!
# Where a reply lands

An answered frame changes RAM in two places: where its reply goes, and in the two
buffers through which the shim talks to the real pads. The commands that answer a
frame are bounded by a guard, and the memory after them is the memory before them
with the stores of the reply laid over it.
-/

namespace Cfp2Dreamcast

open Program Memory

/-- The commands that answer a frame. -/
def ReplyCmd : Cmd → Prop
  | .store8 o _ _ => o = .reply
  | .store32 o a _ => o = .reply ∨ (isRam a → ∀ i < 4, InPadBuffers (ramCell (a + i)))
  | .put x _ => x ≠ .pendingJvs
  | .store16 _ _ => False
  | .ocbi _ => False
  | .gdc _ _ _ => False
  | .engine => False
  | _ => True

/-- On the way to a halt the error block is filled in too. -/
def replyGuard : Guard shimSig := ⟨ReplyCmd, fun _ => True, fun _ => True⟩

section Guard

variable {α : Type}

theorem lands_store {a v : ℕ} {k : Unit → Shim α}
    (ha : isRam a → ∀ i < 4, InPadBuffers (ramCell (a + i))) (hk : ∀ r, Keeps replyGuard (k r)) :
    Keeps replyGuard (.op (.store32 .own a v) k) := .op (.inr ha) hk

theorem lands_put {x : Static} {v : ℕ} {k : Unit → Shim α} (hx : x ≠ .pendingJvs)
    (hk : ∀ r, Keeps replyGuard (k r)) : Keeps replyGuard (.op (.put x v) k) := .op hx hk

theorem BusCmd.replyCmd {c : Cmd} (h : BusCmd c) : ReplyCmd c := by
  cases c with
  | store32 o a v => exact .inr h.2
  | put x v =>
      rw [show x = .busInitDone from h]
      simp [ReplyCmd]
  | store8 | store16 | ocbi | gdc | engine => exact h.elim
  | _ => trivial

theorem lands_mapleGetcond (port : ℕ) : Keeps replyGuard (mapleGetcond port) :=
  (bus_mapleGetcond port).mono (fun _ => BusCmd.replyCmd) (fun _ h => h.elim) fun _ h => h.elim

theorem lands_pollPads : Keeps replyGuard pollPads := by
  refine Keeps.bind ?_ fun _ => .op trivial fun _ => .op trivial fun _ => .op trivial fun _ =>
    .whenever fun _ => lands_put (by decide) fun _ => (lands_mapleGetcond 0).bind fun _ =>
      lands_put (by decide) fun _ => (lands_mapleGetcond 1).bind fun _ =>
        lands_put (by decide) fun _ => ?_
  · exact .op trivial fun _ => .whenever fun _ => .op trivial fun _ =>
      lands_put (by decide) fun _ => trivial
  · change Keeps _ (ite _ _ _)
    split
    · trivial
    · trivial

theorem lands_xmemcpyReply (rx : ℕ) (bs : List UInt8) :
    Keeps replyGuard (xmemcpyReply rx bs) := by
  induction bs generalizing rx with
  | nil => trivial
  | cons b bs ih => exact .op rfl fun _ => ih (rx + 1)

theorem lands_jvsDigital (rx : ℕ) : Keeps replyGuard (jvsDigital rx) :=
  lands_pollPads.bind fun _ => .op trivial fun _ => .op trivial fun _ => lands_xmemcpyReply rx _

theorem lands_dipReply (rx : ℕ) (blob : List UInt8) : Keeps replyGuard (dipReply rx blob) := by
  refine (lands_xmemcpyReply rx blob).bind fun _ => Keeps.bind ?_ fun _ =>
    .whenever fun _ => .op trivial fun _ => .op rfl fun _ => trivial
  refine .op trivial fun _ => ?_
  change Keeps _ (Prog.whenever _ _ >>= fun _ => _)
  refine Keeps.bind (.whenever fun _ => ?_) fun _ => .op trivial fun _ => trivial
  exact .op trivial fun _ => lands_store (by decide) fun _ => .op trivial fun _ =>
    lands_put (by decide) fun _ => trivial

theorem lands_mapleReply (d : Embedded) (sub recvaddr frame : ℕ) :
    Keeps replyGuard (mapleReply d sub recvaddr frame) := by
  have hcopy := lands_xmemcpyReply
  unfold mapleReply
  split
  · exact lands_jvsDigital _
  · refine .op trivial fun pending => ?_
    change Keeps _ (receiveReply d _ pending)
    unfold receiveReply
    split
    · exact hcopy _ _
    · exact hcopy _ _
    · exact hcopy _ _
    · exact hcopy _ _
    · exact hcopy _ _
    · exact hcopy _ _
    · exact lands_jvsDigital _
  · exact (hcopy _ _).bind fun _ => hcopy _ _
  · exact hcopy _ _
  · exact hcopy _ _
  · exact hcopy _ _
  · exact hcopy _ _
  · exact hcopy _ _
  · exact hcopy _ _
  · exact lands_dipReply _ _
  · exact hcopy _ _
  · exact .op trivial fun _ => .op trivial fun _ => hcopy _ _
  -- an unhandled subcommand does not return
  · exact Dooms.keeps ⟨trivial, fun _ => ⟨trivial, fun _ => ⟨trivial, fun _ =>
      ⟨trivial, fun _ => trivial⟩⟩⟩⟩

theorem lands_mieProbeReply (cmd fh rcv frame : ℕ) :
    Keeps replyGuard (mieProbeReply cmd fh rcv frame) := by
  have hone : ∀ a v, Keeps replyGuard (store32 .reply a v) := fun a v =>
    .op (.inl rfl) fun _ => trivial
  have hsum : ∀ n a, Keeps replyGuard (sumBytes a n) := by
    intro n
    induction n with
    | zero => exact fun a => trivial
    | succ n ih => exact fun a => .op trivial fun _ => (ih _).bind fun _ => trivial
  unfold mieProbeReply
  split
  · exact hone _ _
  · exact hone _ _
  · exact hone _ _
  · exact hone _ _
  · exact .op (.inl rfl) fun _ => (lands_xmemcpyReply _ _).bind fun _ => .op (.inl rfl) fun _ =>
      lands_xmemcpyReply _ _
  · refine .op trivial fun _ => ?_
    change Keeps _ (ite _ _ _)
    split
    · exact hone _ _
    · exact (hsum _ _).bind fun _ => .op (.inl rfl) fun _ => .op (.inl rfl) fun _ => hone _ _
  · exact hone _ _

end Guard

section Landing

variable {W : World Mem} {α : Type} {s s' : State Mem}

/-- The pad buffer is all that a transfer of the real Maple bus writes. -/
theorem inPadBuffers_of_rx {c : ℕ} (hc : cellsOf mapleRxBuffer.Mem c) : InPadBuffers c := by
  obtain ⟨a, ⟨hlo, hhi⟩, rfl⟩ := hc
  have haddr : mapleRxBuffer.addr = 0xacfc9040 := by decide
  have hlen : mapleRxBuffer.len = 1024 := rfl
  rw [haddr] at hlo hhi
  rw [hlen] at hhi
  unfold InPadBuffers ramCell
  omega

/-- One command: outside the pad buffers it does what it stores of the reply. -/
theorem shimStep_landed {c : Cmd} {r : c.Resp} (hstep : (flatMachine W).step s c r s')
    (hc : ReplyCmd c) (hram : ∀ x ∈ repliesOf [(⟨c, r⟩ : Event shimSig)], isRam x.1) {i : ℕ}
    (hi : ¬ InPadBuffers i) :
    s'.mem i = (laidOut ((repliesOf [(⟨c, r⟩ : Event shimSig)]).map (Prod.map ramCell id)) i).getD
      (s.mem i) := by
  cases c with
  | load8 o a | load32 o a =>
      simp only [shimMachine, shimStep] at hstep
      split at hstep
      · obtain ⟨-, m, rfl, rfl⟩ := hstep
        rfl
      · simp only [hstep]
        rfl
  | load16 a | get x =>
      rw [hstep.2]
      rfl
  | store8 o a v =>
      obtain rfl : o = .reply := hc
      obtain ⟨m, rfl, rfl⟩ := (step_store8 (hram (a, v) List.mem_cons_self)).1 hstep
      exact setBytes_eq_laidOut ramCell s.mem a [v] i
  | store32 o a v =>
      by_cases ho : o = .reply
      · subst ho
        have hstores : repliesOf [(⟨.store32 .reply a v, r⟩ : Event shimSig)] =
            storesOf a (wordBytes v) := List.append_nil _
        rw [hstores] at hram ⊢
        obtain ⟨m, hm, rfl⟩ := (step_store32 (hram (a, _) List.mem_cons_self)).1 hstep
        rw [flat_storeRun.1 hm]
        exact setBytes_eq_laidOut ramCell s.mem a (wordBytes v) i
      · have hnil : repliesOf [(⟨.store32 o a v, r⟩ : Event shimSig)] = [] :=
          repliesOf_mute (c := .store32 o a v) ho r []
        rw [hnil]
        by_cases ha : isRam a
        · obtain ⟨m, hm, rfl⟩ := (step_store32 ha).1 hstep
          rw [flat_storeRun.1 hm]
          exact setBytes_off _ _ _ fun j hj hij => hi (hij ▸ (hc.resolve_left ho) ha j hj)
        · rw [(step_store32_io ha).1 hstep]
          rfl
  | put x v =>
      rw [show s' = _ from hstep]
      rfl
  | awaitMaple =>
      obtain ⟨m, hm, rfl⟩ := hstep
      exact flat_run_agreeOff hm i fun h => hi (inPadBuffers_of_rx h)
  | store16 | ocbi | gdc | engine => exact hc.elim

/-- A whole execution: outside the pad buffers the memory is the one before with the
stores of the reply laid over it. -/
theorem exec_landed {p : Shim α} {tr : List (Event shimSig)} {o : Outcome shimSig α}
    (h : Exec (flatMachine W) p s tr o s') (htr : ∀ ev ∈ tr, ReplyCmd ev.cmd)
    (hram : ∀ x ∈ repliesOf tr, isRam x.1) {i : ℕ} (hi : ¬ InPadBuffers i) :
    s'.mem i = (laidOut ((repliesOf tr).map (Prod.map ramCell id)) i).getD (s.mem i) := by
  induction h with
  | ret a s => rfl
  | halt e s => rfl
  | @op c k s s₁ s₂ r tr o hstep hrest ih =>
      have hsplit : repliesOf (⟨c, r⟩ :: tr) =
          repliesOf [(⟨c, r⟩ : Event shimSig)] ++ repliesOf tr := repliesOf_append [⟨c, r⟩] tr
      rw [hsplit] at hram
      rw [hsplit, List.map_append, laidOut_append,
        ih (fun ev hev => htr ev (List.mem_cons_of_mem _ hev))
          (fun x hx => hram x (List.mem_append_right _ hx)),
        shimStep_landed hstep (htr _ List.mem_cons_self)
          (fun x hx => hram x (List.mem_append_left _ hx)) hi]
      cases laidOut ((repliesOf tr).map (Prod.map ramCell id)) i with
      | some v => rfl
      | none => rfl

variable (d : Embedded)

/-- An answer fits into the window behind a receive address. -/
theorem Descriptor.answer_length_le {x : Descriptor} {pending : ℕ} {a : Answer}
    (h : x.answer d pending = some a) : a.length d ≤ shimCodeMax := by
  have hframe : ∀ resp n payload, payload.length ≤ 28 →
      (frameBytes resp x.header n payload).length ≤ 32 := by
    intro resp n payload hpayload
    rw [frameBytes, List.length_append, wordBytes_length]
    omega
  have hmax : 64 ≤ shimCodeMax := by decide
  unfold Descriptor.answer at h
  split at h
  · unfold mieAnswer at h
    split at h
    · cases h
      exact hmax
    · split at h <;> cases h <;> first | exact hmax | exact d.fits _ (by simp)
    · cases h
      simp only [Answer.length, List.length_append, d.eeprom_length]
      decide
    · cases h
      exact d.fits _ (by simp)
    · cases h
      exact d.fits _ (by simp)
    · cases h
      exact d.fits _ (by simp)
    · cases h
      exact d.fits _ (by simp)
    · cases h
      exact d.fits _ (by simp)
    · cases h
      exact d.fits _ (by simp)
    · cases h
      exact d.fits _ (by simp)
    · cases h
      exact d.fits _ (by simp)
    · cases h
      simp only [Answer.length]
      decide
    · cases h
  · cases h
    refine le_trans ?_ hmax
    change (probeAnswer _ x).length ≤ 64
    unfold probeAnswer
    split
    · exact (hframe _ _ _ (by decide)).trans (by decide)
    · exact (hframe _ _ _ (by decide)).trans (by decide)
    · rw [List.length_append]
      exact Nat.add_le_add (hframe _ _ _ (by decide)) (hframe _ _ _ (by decide))
    · split
      · exact (hframe _ _ _ (by decide)).trans (by decide)
      · rw [List.length_append]
        exact Nat.add_le_add (hframe _ _ _ (by simp)) (hframe _ _ _ (by decide))
    · exact (hframe _ _ _ (by decide)).trans (by decide)

/-- What an answered frame leaves behind. -/
structure Landed (s s' : State Mem) (x : Descriptor) (rcv : ℕ) (tr : List (Event shimSig))
    (bs : List UInt8) : Prop where
  laid : laidOut (repliesOf tr) = block (p2Addr rcv) bs
  pending : s'.statics .pendingJvs = x.pendingAfter (s.statics .pendingJvs)
  bytes : ∀ i (hi : i < bs.length), ¬ InPadBuffers (ramCell (rcv + i)) →
    s'.mem (ramCell (rcv + i)) = bs[i]
  apart : ∀ c, ¬ InPadBuffers c → (∀ i < bs.length, ramCell (rcv + i) ≠ c) →
    s'.mem c = s.mem c

theorem exec_serveFrame_landed {first : Bool} {addr rcv : ℕ} (hlo : 0x0c000000 ≤ addr)
    (hhi : addr < 0x0f000000) (hrcv : rcv < 2 ^ 32) (hw : inWindow rcv) {a : Answer}
    (ha : (descriptorAt s.mem addr).answer d (s.statics .pendingJvs) = some a)
    {tr : List (Event shimSig)} {o : Outcome shimSig Unit}
    (h : Exec (flatMachine W) (serveFrame d first addr rcv) s tr o s') :
    (o = .ret () ∧ Landed s s' (descriptorAt s.mem addr) rcv tr (a.bytes d s'.statics)) ∨
      (o = .halt .reboot ∧ repliesOf tr = []) := by
  have hsends : Sends W (serveFrame d first addr rcv) s (p2Addr rcv) (a.bytes d) :=
    sends_serveFrame d hlo hhi hw ha
  refine (hsends.sound h).imp_left ?_
  rintro ⟨rfl, hlaid⟩
  refine ⟨rfl, ?_⟩
  obtain ⟨bs, hbs⟩ : ∃ bs, a.bytes d s'.statics = bs := ⟨_, rfl⟩
  rw [hbs] at hlaid ⊢
  obtain ⟨tr₀, tr₁, s₁, rfl, hnil, hmem, hpending, h₁⟩ := exec_serveFrame d hlo hhi h
  rw [repliesOf_append, hnil, List.nil_append] at hlaid
  rw [Prog.whenever_pos hw] at h₁
  have hkeeps : Keeps replyGuard (if (descriptorAt s.mem addr).Mie then
      mapleReply d (descriptorAt s.mem addr).sub rcv addr
      else mieProbeReply ((descriptorAt s.mem addr).header &&& 0xff)
        (descriptorAt s.mem addr).header rcv addr) := by
    split
    · exact lands_mapleReply d _ _ _
    · exact lands_mieProbeReply _ _ _ _
  have htr : ∀ ev ∈ tr₁, ReplyCmd ev.cmd := hkeeps.exec_ret h₁
  obtain ⟨hrlo, hrhi⟩ := (inWindow_iff hrcv).1 hw
  have hlen : bs.length ≤ shimCodeMax := by
    rw [← hbs, a.bytes_length]
    exact Descriptor.answer_length_le d ha
  have haddrs : ∀ x ∈ repliesOf tr₁, ∃ i < bs.length, x.1 = p2Addr rcv + i := by
    intro x hx
    have hx : ∃ v, laidOut (repliesOf tr₁) x.1 = some v := exists_laidOut_iff.2 ⟨x.2, hx⟩
    rw [hlaid, exists_block_iff] at hx
    exact ⟨x.1 - p2Addr rcv, by omega, by omega⟩
  have hlanded : ∀ {c}, ¬ InPadBuffers c →
      s'.mem c = (laidOut ((repliesOf tr₁).map (Prod.map ramCell id)) c).getD (s.mem c) := by
    intro c hc
    rw [← hmem]
    refine exec_landed h₁ htr (fun x hx => ?_) hc
    obtain ⟨i, hi, hxi⟩ := haddrs x hx
    rw [hxi]
    exact isRam_reply hrlo hrhi (by omega)
  refine ⟨?_, ?_, fun i hi hc => ?_, fun c hc hne => ?_⟩
  · rw [repliesOf_append, hnil, List.nil_append, hlaid]
  · rw [← hpending]
    refine exec_static h₁ fun ev hev v hput => ?_
    have hcmd := htr ev hev
    rw [hput] at hcmd
    exact hcmd rfl
  · have hcell : ramCell (p2Addr rcv + i) = ramCell (rcv + i) := ramCell_p2Addr_add rcv i
    rw [hlanded hc, ← hcell, laidOut_map_apply, hlaid, block_add, List.getElem?_eq_getElem hi]
    · rfl
    · intro x hx hxi
      obtain ⟨j, hj, hxj⟩ := haddrs x hx
      rw [shimCodeMax_eq] at hlen
      rw [hxj] at hxi ⊢
      unfold ramCell at hxi
      omega
  · rw [hlanded hc, laidOut_map_of_ne]
    · rfl
    · intro x hx
      obtain ⟨i, hi, hxi⟩ := haddrs x hx
      rw [hxi, ramCell_p2Addr_add]
      exact hne i hi

end Landing

end Cfp2Dreamcast
