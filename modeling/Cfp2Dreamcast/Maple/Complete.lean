import Cfp2Dreamcast.Machine.Devices
import Cfp2Dreamcast.Maple.Guard
import Cfp2Dreamcast.Maple.Polls
import Cfp2Dreamcast.Program.Halts

/-!
# The walk completes

A call of `shim_maple_steady` ends whatever the mirror and RAM hold: the walk opens
at most 32 descriptors, reaches nothing but RAM through the list and the receive
addresses, and clears the start bit of the mirror. Only an unhandled MIE subcommand
and the reset combination on a pad keep it from returning.
-/

namespace Cfp2Dreamcast

open Program Memory

/-- The command loads through the list or stores a reply at the address. -/
def Cmd.Through (a : ℕ) : Cmd → Prop
  | .load8 o b => o ≠ .own ∧ a = b
  | .load32 o b => o ≠ .own ∧ a = b
  | .store8 o b _ => o = .reply ∧ a = b
  | .store32 o b _ => o = .reply ∧ b ≤ a ∧ a < b + 4
  | _ => False

/-- The number of descriptors that the trace opens. -/
def headsOf (tr : List (Event shimSig)) : ℕ :=
  tr.countP fun ev => match ev.cmd with
    | .load32 .head _ => true
    | _ => false

@[simp] theorem headsOf_append (tr tr' : List (Event shimSig)) :
    headsOf (tr ++ tr') = headsOf tr + headsOf tr' := List.countP_append

/-- A pad was read with the reset combination held. -/
def ResetRead (ev : Event shimSig) : Prop :=
  ∃ w, dcResetCombo (UInt16.ofNat w) ∧
    (ev = ⟨.put .rawCacheA w, ()⟩ ∨ ev = ⟨.put .rawCacheB w, ()⟩)

section Reboot

variable {σ : Type} {M : Machine shimSig σ}

theorem resets_mapleGetcond (port : ℕ) :
    HaltsAfter M .reboot ResetRead (mapleGetcond port) :=
  fun _ _ _ h => ((bus_mapleGetcond port).exec_halt h).elim

theorem resets_pollPads : HaltsAfter M .reboot ResetRead pollPads := by
  refine HaltsAfter.bind ?_ fun _ => .pass fun _ => .pass fun _ => .pass fun _ =>
    .whenever fun _ => .pass fun _ => (resets_mapleGetcond 0).bind fun a => .op fun _ => ?_
  · exact .pass fun _ => .whenever fun _ => .pass fun _ => .pass fun _ => haltsAfter_ret ()
  · by_cases hA : dcResetCombo (UInt16.ofNat a)
    · exact .inl ⟨a, hA, .inl rfl⟩
    · refine .inr ((resets_mapleGetcond 1).bind fun b => .op fun _ => ?_)
      by_cases hB : dcResetCombo (UInt16.ofNat b)
      · exact .inl ⟨b, hB, .inr rfl⟩
      · right
        change HaltsAfter _ _ _ (ite _ _ _)
        rw [if_neg (not_or.2 ⟨hA, hB⟩)]
        exact haltsAfter_ret ()

theorem resets_xmemcpyReply (rx : ℕ) (bs : List UInt8) :
    HaltsAfter M .reboot ResetRead (xmemcpyReply rx bs) := by
  induction bs generalizing rx with
  | nil => exact haltsAfter_ret ()
  | cons b bs ih => exact .pass fun _ => ih (rx + 1)

theorem resets_jvsDigital (rx : ℕ) : HaltsAfter M .reboot ResetRead (jvsDigital rx) :=
  resets_pollPads.bind fun _ => .pass fun _ => .pass fun _ => resets_xmemcpyReply rx _

theorem resets_dipReply (rx : ℕ) (blob : List UInt8) :
    HaltsAfter M .reboot ResetRead (dipReply rx blob) := by
  refine (resets_xmemcpyReply rx blob).bind fun _ => HaltsAfter.bind ?_ fun _ =>
    .whenever fun _ => .pass fun _ => .pass fun _ => haltsAfter_ret ()
  refine .pass fun _ => ?_
  change HaltsAfter _ _ _ (Prog.whenever _ _ >>= fun _ => _)
  exact (HaltsAfter.whenever fun _ => .pass fun _ => .pass fun _ => .pass fun _ => .pass fun _ =>
    haltsAfter_ret ()).bind fun _ => .pass fun _ => haltsAfter_ret _

theorem resets_shimDie (code a b : ℕ) :
    HaltsAfter M .reboot ResetRead (shimDie code a b : Shim Unit) :=
  .pass fun _ => .pass fun _ => .pass fun _ => .pass fun _ => haltsAfter_halt (by simp)

theorem resets_mapleReply (d : Embedded) (sub recvaddr frame : ℕ) :
    HaltsAfter M .reboot ResetRead (mapleReply d sub recvaddr frame) := by
  have hcopy := fun rx bs => resets_xmemcpyReply (M := M) rx bs
  unfold mapleReply
  split
  · exact resets_jvsDigital _
  · refine .pass fun pending => ?_
    change HaltsAfter _ _ _ (receiveReply d _ pending)
    unfold receiveReply
    split
    · exact hcopy _ _
    · exact hcopy _ _
    · exact hcopy _ _
    · exact hcopy _ _
    · exact hcopy _ _
    · exact hcopy _ _
    · exact resets_jvsDigital _
  · exact (hcopy _ _).bind fun _ => hcopy _ _
  · exact hcopy _ _
  · exact hcopy _ _
  · exact hcopy _ _
  · exact hcopy _ _
  · exact hcopy _ _
  · exact hcopy _ _
  · exact resets_dipReply _ _
  · exact hcopy _ _
  · exact .pass fun _ => .pass fun _ => hcopy _ _
  · exact resets_shimDie _ _ _

theorem resets_mieProbeReply (cmd fh rcv frame : ℕ) :
    HaltsAfter M .reboot ResetRead (mieProbeReply cmd fh rcv frame) := by
  have hone : ∀ a v, HaltsAfter M .reboot ResetRead (store32 .reply a v) := fun a v =>
    .pass fun _ => haltsAfter_ret ()
  have hsum : ∀ n a, HaltsAfter M .reboot ResetRead (sumBytes a n) := by
    intro n
    induction n with
    | zero => exact fun a => haltsAfter_ret _
    | succ n ih => exact fun a => .pass fun _ => (ih _).bind fun _ => haltsAfter_ret _
  unfold mieProbeReply
  split
  · exact hone _ _
  · exact hone _ _
  · exact hone _ _
  · exact hone _ _
  · exact .pass fun _ => (resets_xmemcpyReply _ _).bind fun _ => .pass fun _ =>
      resets_xmemcpyReply _ _
  · refine .pass fun _ => ?_
    change HaltsAfter _ _ _ (ite _ _ _)
    split
    · exact hone _ _
    · exact (hsum _ _).bind fun _ => .pass fun _ => .pass fun _ => hone _ _
  · exact hone _ _

theorem resets_walk (d : Embedded) (left : ℕ) (first : Bool) (addr : ℕ) :
    HaltsAfter M .reboot ResetRead (walk d left first addr) := by
  induction left generalizing first addr with
  | zero => exact haltsAfter_ret ()
  | succ left ih =>
      refine .pass fun h1 => .pass fun word => ?_
      change HaltsAfter _ _ _ (Prog.whenever _ _ >>= fun _ => _)
      refine (HaltsAfter.whenever fun _ => .pass fun fh => ?_).bind fun _ => ?_
      · change HaltsAfter _ _ _ (Prog.whenever _ _ >>= fun _ => _)
        refine (HaltsAfter.whenever fun _ => .pass fun _ => haltsAfter_ret ()).bind fun _ => ?_
        change HaltsAfter _ _ _ (ite _ _ _)
        split
        · refine .pass fun sub => ?_
          change HaltsAfter _ _ _ (latchJvs _ _ >>= fun _ => _)
          refine HaltsAfter.bind ?_ fun _ => .whenever fun _ => resets_mapleReply _ _ _ _
          unfold latchJvs
          split
          · exact .pass fun _ => .pass fun _ => haltsAfter_ret ()
          · exact .pass fun _ => .pass fun _ => haltsAfter_ret ()
          · exact .pass fun _ => .pass fun _ => haltsAfter_ret ()
          · exact .pass fun _ => haltsAfter_ret ()
          · exact haltsAfter_ret ()
        · exact .whenever fun _ => resets_mieProbeReply _ _ _ _
      · change HaltsAfter _ _ _ (ite _ _ _)
        split
        · exact haltsAfter_ret ()
        · exact ih _ _

end Reboot

/-- What the monitor accepts reaches only RAM. -/
theorem MapleCmd.through {g : Scope} {x : Known} {c : Cmd} (h : MapleCmd g x c) {a : ℕ}
    (ha : c.Through a) : isRam a := by
  cases c with
  | load8 o b =>
      obtain ⟨ho, rfl⟩ := ha
      exact h.resolve_left ho
  | load32 o b =>
      obtain ⟨ho, rfl⟩ := ha
      exact (h.resolve_left ho).1
  | store8 o b v =>
      obtain ⟨-, rfl⟩ := ha
      exact h.2.1
  | store32 o b v =>
      obtain ⟨rfl, hlo, hhi⟩ := ha
      rcases h with ⟨-, hb, -⟩ | ⟨ho, -⟩
      · have := hb (a - b) (by omega)
        rwa [Nat.add_sub_cancel' hlo] at this
      · cases ho
  | _ => exact ha.elim

/-- Without the right to open descriptors none is opened. -/
theorem headsOf_eq_zero {g : Scope} (hg : ¬ g.heads) {tr : List (Event shimSig)}
    (h : ∀ ev ∈ tr, ∃ x, MapleCmd g x ev.cmd) : headsOf tr = 0 := by
  refine List.countP_eq_zero.2 fun ev hev => ?_
  obtain ⟨x, hx⟩ := h ev hev
  obtain ⟨c, r⟩ := ev
  cases c with
  | load32 o a =>
      cases o with
      | head =>
          rcases hx with hx | ⟨-, hx⟩
          · cases hx
          · exact absurd (hx rfl) hg
      | _ => exact Bool.false_ne_true
  | _ => exact Bool.false_ne_true

section Walk

variable {σ : Type} {M : Machine shimSig σ} {s s' : σ} {tr : List (Event shimSig)}

/-- The walk opens a descriptor in each round. -/
theorem walk_heads (d : Embedded) {left addr : ℕ} {first : Bool} {o : Outcome shimSig Unit}
    (hlo : 0x0c000000 ≤ addr) (hhi : addr + left * 1032 < 0x0e010000)
    (h : Exec M (walk d left first addr) s tr o s') : headsOf tr ≤ left := by
  induction left generalizing first addr s tr with
  | zero =>
      cases h
      exact le_rfl
  | succ left ih =>
      obtain ⟨h1, s₁, tr₁, rfl, -, hword⟩ := h.of_op
      obtain ⟨word, s₂, tr₂, rfl, -, hrest⟩ := hword.of_op
      have hcons : headsOf (⟨.load32 .head (p2Addr addr), h1⟩ ::
          ⟨.load32 .list (p2Addr (addr + 0x04)), word⟩ :: tr₂) = headsOf tr₂ + 1 := by
        rw [headsOf, List.countP_cons_of_pos rfl,
          List.countP_cons_of_neg Bool.false_ne_true]
        rfl
      have hrest : Exec M (Prog.whenever ((h1 >>> 8) &&& 7 = 0)
          (serveFrame d first addr (word &&& 0x1fffffe0)) >>= fun _ =>
            if h1 >>> 31 ≠ 0 then pure ()
            else walk d left (first && !decide ((h1 >>> 8) &&& 7 = 0))
              (u32 (addr + (2 + ((h1 &&& 0xff) + 1)) * 4))) s₂ tr₂ o s' := hrest
      have hframe : Tracked (mapleMonitor .frame) (Prog.whenever ((h1 >>> 8) &&& 7 = 0)
          (serveFrame d first addr (word &&& 0x1fffffe0))) := by
        refine Tracked.whenever fun _ => ?_
        exact tracked_serveFrame d hlo (by omega)
          (Nat.lt_of_le_of_lt Nat.and_le_right (by decide)) trivial trivial
      have hzero : ∀ {s₃ : σ} {tr₃ : List (Event shimSig)} {o₃ : Outcome shimSig Unit},
          Exec M (Prog.whenever ((h1 >>> 8) &&& 7 = 0)
            (serveFrame d first addr (word &&& 0x1fffffe0))) s₂ tr₃ o₃ s₃ → headsOf tr₃ = 0 :=
        fun h => headsOf_eq_zero (g := .frame) id ((hframe.tracks .nothing).exec h)
      rw [hcons]
      rcases hrest.of_bind with ⟨e, -, hhalt⟩ | ⟨tr₃, tr₄, u, s₃, rfl, hret, htail⟩
      · rw [hzero hhalt]
        omega
      · rw [headsOf_append, hzero hret]
        split at htail
        · cases htail
          exact Nat.le_add_left _ _
        · have hstride := stride_le h1
          rw [u32_of_lt (by omega)] at htail
          have := ih (by omega) (by omega) htail
          omega

end Walk

section Call

variable {W : World Mem} {s s' : State Mem} {tr : List (Event shimSig)}

/-- The start bit of the mirror. -/
def Triggered (m : Mem) : Prop := ramWord m (mmir 0x18) &&& 1 ≠ 0

/-- The base of the list in the mirror. -/
def listBase (m : Mem) : ℕ := ramWord m (mmir 0x04) &&& 0x1fffffe0

/-- Nothing of the list is loaded and no reply stored. -/
def Untouched (tr : List (Event shimSig)) : Prop := ∀ ev ∈ tr, ∀ a, ¬ ev.cmd.Through a

theorem listBase_lt (m : Mem) : listBase m < 2 ^ 32 :=
  Nat.lt_of_le_of_lt Nat.and_le_right (by decide)

/-- The end of a transfer: the start bit is cleared. -/
theorem exec_clearStart {o : Outcome shimSig Unit} (h : Exec (flatMachine W) (do
      let _ ← load32 .own (mmir 0x04)
      store32 .own (mmir 0x18) 0) s tr o s') :
    o = .ret () ∧ s' = { s with mem := setBytes ramCell s.mem (mmir 0x18) (wordBytes 0) } ∧
      ∃ v : ℕ, tr = [⟨.load32 .own (mmir 0x04), v⟩, ⟨.store32 .own (mmir 0x18) 0, ()⟩] := by
  obtain ⟨v, s₁, tr₁, rfl, hload, h⟩ := h.of_op
  obtain ⟨u, s₂, tr₂, rfl, hstore, h⟩ := h.of_op
  cases h
  obtain ⟨-, m₁, hm₁, rfl⟩ := (step_load32 (by decide)).1 hload
  cases hm₁
  obtain ⟨m₂, hm₂, rfl⟩ := (step_store32 (by decide)).1 hstore
  rw [flat_storeRun.1 hm₂]
  exact ⟨rfl, rfl, v, rfl⟩

/-- A triggered transfer that returns has cleared the start bit. -/
theorem exec_serviceTransfer {d : Embedded} {o : Outcome shimSig Unit}
    (h : Exec (flatMachine W) (serviceTransfer d) s tr o s') :
    headsOf tr ≤ 32 ∧ (o = .ret () → ramWord s'.mem (mmir 0x18) = 0) ∧
      (¬ inWindow (listBase s.mem) → Untouched tr ∧ o = .ret ()) := by
  unfold serviceTransfer at h
  simp only [Prog.op_bind, Prog.ret_bind] at h
  obtain ⟨star, s₁, tr₁, rfl, hstar, hrest⟩ := h.of_op
  obtain ⟨hload, m, hm, rfl⟩ := (step_load32 (by decide)).1 hstar
  cases hm
  have hstar : star &&& 0x1fffffe0 = listBase s.mem := congrArg (· &&& 0x1fffffe0) hload
  rw [hstar] at hrest
  have hend : ∀ {s₂ : State Mem} {tr₂ : List (Event shimSig)}, Exec (flatMachine W) (do
      let _ ← load32 .own (mmir 0x04)
      store32 .own (mmir 0x18) 0) s₂ tr₂ o s' →
        headsOf tr₂ = 0 ∧ ramWord s'.mem (mmir 0x18) = 0 ∧ Untouched tr₂ ∧ o = .ret () := by
    intro s₂ tr₂ h₂
    obtain ⟨ho, hs, v, rfl⟩ := exec_clearStart h₂
    rw [hs]
    refine ⟨rfl, ramWord_setBytes _ (by decide), ?_, ho⟩
    intro ev hev a ha
    rcases List.mem_cons.1 hev with rfl | hev
    · exact ha.1 rfl
    · rcases List.mem_cons.1 hev with rfl | hev
      · cases ha.1
      · exact List.not_mem_nil hev
  have hcons : headsOf (⟨.load32 .own (mmir 0x04), star⟩ :: tr₁) = headsOf tr₁ :=
    List.countP_cons_of_neg Bool.false_ne_true
  rw [hcons]
  by_cases hw : inWindow (listBase s.mem)
  · rw [Prog.whenever_pos hw] at hrest
    obtain ⟨hlo, hhi⟩ := (inWindow_iff (listBase_lt _)).1 hw
    refine ⟨?_, ?_, fun h => absurd hw h⟩
    · rcases hrest.of_bind with ⟨e, -, hhalt⟩ | ⟨tr₂, tr₃, u, s₂, rfl, hret, htail⟩
      · exact walk_heads d hlo (by omega) hhalt
      · rw [headsOf_append, (hend htail).1]
        exact walk_heads d hlo (by omega) hret
    · rintro rfl
      obtain ⟨tr₂, tr₃, u, s₂, rfl, hret, htail⟩ := hrest.ret_of_bind
      exact (hend htail).2.1
  · rw [Prog.whenever_neg hw] at hrest
    obtain ⟨hheads, hword, huntouched, ho⟩ := hend hrest
    refine ⟨by omega, fun _ => hword, fun _ => ⟨?_, ho⟩⟩
    intro ev hev a ha
    rcases List.mem_cons.1 hev with rfl | hev
    · exact ha.1 rfl
    · exact huntouched ev hev a ha

/-- What a call does after the engine returned `rc` in the state `s`. -/
structure Serviced (s : State Mem) (rc : ℤ) (tr : List (Event shimSig))
    (o : Outcome shimSig ℤ) (s' : State Mem) : Prop where
  heads : headsOf tr ≤ 32
  contained : ∀ ev ∈ tr, ∀ a, ev.cmd.Through a → isRam a
  ends : Triggered s.mem → o = .ret rc ∧ ramWord s'.mem (mmir 0x18) = 0 ∨
    (∃ sub rcv, o = .halt (.die 3 sub rcv) ∧ sub ∉ mieSubs) ∨
      o = .halt .reboot ∧ ∃ ev ∈ tr, ResetRead ev
  outside : Triggered s.mem → ¬ inWindow (listBase s.mem) →
    Untouched tr ∧ o = .ret rc ∧ ramWord s'.mem (mmir 0x18) = 0
  idle : ¬ Triggered s.mem → Untouched tr ∧ o = .ret rc ∧ s'.mem = s.mem

theorem exec_serviceMirror {d : Embedded} {rc : ℤ} {o : Outcome shimSig ℤ}
    (h : Exec (flatMachine W) (serviceMirror d rc) s tr o s') : Serviced s rc tr o s' := by
  have htracked := tracked_serviceMirror d rc
  have hcmd : ∀ ev ∈ tr, ∃ x, MapleCmd .call x ev.cmd := (htracked.tracks .nothing).exec h
  have hcontained : ∀ ev ∈ tr, ∀ a, ev.cmd.Through a → isRam a := by
    intro ev hev a ha
    obtain ⟨x, hx⟩ := hcmd ev hev
    exact hx.through ha
  have hhalt : ∀ e, o = .halt e → MapleHalt .call e := by
    rintro e rfl
    exact (htracked.tracks .nothing).exec_halt h
  unfold serviceMirror at h
  simp only [Prog.op_bind, Prog.ret_bind] at h
  obtain ⟨mdst, s₁, tr₁, rfl, hload, hrest⟩ := h.of_op
  obtain ⟨hmdst, m, hm, rfl⟩ := (step_load32 (by decide)).1 hload
  cases hm
  have hcons : headsOf (⟨.load32 .own (mmir 0x18), mdst⟩ :: tr₁) = headsOf tr₁ :=
    List.countP_cons_of_neg Bool.false_ne_true
  have huncons : Untouched tr₁ → Untouched (⟨.load32 .own (mmir 0x18), mdst⟩ :: tr₁) := by
    intro hun ev hev a ha
    rcases List.mem_cons.1 hev with rfl | hev
    · exact ha.1 rfl
    · exact hun ev hev a ha
  have htriggered : Triggered s.mem ↔ mdst &&& 1 ≠ 0 := by
    rw [show mdst = ramWord s.mem (mmir 0x18) from hmdst]
    rfl
  by_cases ht : mdst &&& 1 ≠ 0
  · rw [Prog.whenever_pos ht] at hrest
    have hno : ¬ ¬ Triggered s.mem := not_not.2 (htriggered.2 ht)
    rcases hrest.of_bind with ⟨e, rfl, hex⟩ | ⟨tr₂, tr₃, u, s₂, rfl, hex, hret⟩
    · obtain ⟨hheads, -, houtside⟩ := exec_serviceTransfer hex
      refine ⟨hcons ▸ hheads, hcontained, fun _ => ?_, fun _ hw => ?_, fun h => absurd h hno⟩
      · have he := hhalt e rfl
        cases e with
        | die code sub rcv =>
            obtain ⟨rfl, hsub, -⟩ := he
            exact .inr (.inl ⟨sub, rcv, rfl, hsub⟩)
        | reboot =>
            refine .inr (.inr ⟨rfl, ?_⟩)
            have hafter : HaltsAfter (flatMachine W) .reboot ResetRead (serviceTransfer d) := by
              unfold serviceTransfer
              simp only [Prog.op_bind, Prog.ret_bind]
              exact .pass fun _ => (HaltsAfter.whenever fun _ => resets_walk d _ _ _).bind
                fun _ => .pass fun _ => .pass fun _ => haltsAfter_ret ()
            obtain ⟨ev, hev, hreset⟩ := hafter _ _ _ hex
            exact ⟨ev, List.mem_cons_of_mem _ hev, hreset⟩
      · cases (houtside hw).2
    · cases hret
      obtain ⟨hheads, hword, houtside⟩ := exec_serviceTransfer hex
      rw [List.append_nil] at *
      exact ⟨hcons ▸ hheads, hcontained, fun _ => .inl ⟨rfl, hword rfl⟩,
        fun _ hw => ⟨huncons (houtside hw).1, rfl, hword rfl⟩, fun h => absurd h hno⟩
  · rw [Prog.whenever_neg ht] at hrest
    have hno : ¬ Triggered s.mem := fun h => ht (htriggered.1 h)
    cases hrest
    exact ⟨hcons ▸ Nat.zero_le _, hcontained, fun h => absurd h hno, fun h => absurd h hno,
      fun _ => ⟨huncons fun ev hev => absurd hev List.not_mem_nil, rfl, rfl⟩⟩

/-- A call of `shim_maple_steady` in which the engine returned `rc` and left `m`. -/
def Call (d : Embedded) (W : World Mem) (s : State Mem) (rc : ℤ) (m : Mem)
    (tr : List (Event shimSig)) (o : Outcome shimSig ℤ) (s' : State Mem) : Prop :=
  ∃ regs trS, W.engine (setBytes ramCell s.mem freePlay (wordBytes 1)) rc m ∧
    tr = ⟨.store32 .own freePlay 1, ()⟩ :: ⟨.engine, rc⟩ :: trS ∧
    Exec (flatMachine W) (serviceMirror d rc) { s with mem := m, regs := regs } trS o s'

theorem exec_shimMapleSteady_iff {d : Embedded} {o : Outcome shimSig ℤ} :
    Exec (flatMachine W) (shimMapleSteady d) s tr o s' ↔ ∃ rc m, Call d W s rc m tr o s' := by
  unfold shimMapleSteady
  simp only [Prog.op_bind, Prog.ret_bind]
  constructor
  · intro h
    obtain ⟨u, s₁, tr₁, rfl, hstore, h₁⟩ := h.of_op
    obtain ⟨m₁, hm₁, rfl⟩ := (step_store32 (by decide)).1 hstore
    obtain ⟨rc, s₂, tr₂, rfl, ⟨m, regs, hengine, rfl⟩, h₂⟩ := h₁.of_op
    rw [flat_storeRun.1 hm₁] at hengine
    exact ⟨rc, m, regs, tr₂, hengine, rfl, h₂⟩
  · rintro ⟨rc, m, regs, trS, hengine, rfl, h⟩
    have hstore : (flatMachine W).step s (.store32 .own freePlay 1) ()
        { s with mem := setBytes ramCell s.mem freePlay (wordBytes 1) } :=
      (step_store32 (by decide)).2 ⟨_, flat_storeRun.2 rfl, rfl⟩
    exact .op hstore (.op ⟨m, regs, hengine, rfl⟩ h)

end Call

/-- A call of `shim_maple_steady`: whatever the engine left behind and returned, the
walk is contained and the transaction completed, and with an engine that answers
there is a run to an end. -/
theorem walk_completes (d : Embedded) (W : World Mem) :
    (∀ s tr o s', Exec (flatMachine W) (shimMapleSteady d) s tr o s' →
      ∃ rc m regs trS, W.engine (setBytes ramCell s.mem freePlay (wordBytes 1)) rc m ∧
        tr = ⟨.store32 .own freePlay 1, ()⟩ :: ⟨.engine, rc⟩ :: trS ∧
        Serviced { s with mem := m, regs := regs } rc trS o s') ∧
    ((∀ m, ∃ rc m', W.engine m rc m') →
      ∀ s, ∃ tr o s', Exec (flatMachine W) (shimMapleSteady d) s tr o s') := by
  refine ⟨fun s tr o s' h => ?_, fun hW s => ?_⟩
  · obtain ⟨rc, m, regs, trS, hengine, htr, h⟩ := exec_shimMapleSteady_iff.1 h
    exact ⟨rc, m, regs, trS, hengine, htr, exec_serviceMirror h⟩
  · choose rc m' hengine using hW
    let D : Devices := ⟨fun m => (rc m, m' m), fun _ => 0, fun _ => []⟩
    exact ⟨_, _, _, Devices.exec (D := D) hengine (shimMapleSteady d) s⟩

/-- A list of one frame, a digital read, after the engine triggered it. -/
def digitalRead : State Mem :=
  { padsInit with
    mem := ofWords [(mmir 0x18, 1), (mmir 0x04, 0x0c100000), (0x0c100000, 0x80000000),
      (0x0c100004, 0x0c200000), (0x0c100008, 0x2086), (0x0c10000c, 0x33)] }

/-- The call that finds it. -/
theorem walk_completes_sample :
    ∃ rc tr o s', Triggered (setBytes ramCell digitalRead.mem freePlay (wordBytes 1)) ∧
      Serviced { digitalRead with
        mem := setBytes ramCell digitalRead.mem freePlay (wordBytes 1) } rc tr o s' := by
  have hexec := startPads.exec startPads.in_world (shimMapleSteady .blank) digitalRead
  obtain ⟨rc, m, regs, trS, hengine, -, hserviced⟩ :=
    (walk_completes .blank startPads.world).1 _ _ _ _ hexec
  obtain ⟨-, rfl⟩ := Prod.mk.inj hengine
  refine ⟨rc, trS, _, _, ?_, hserviced.heads, hserviced.contained, hserviced.ends,
    hserviced.outside, hserviced.idle⟩
  unfold Triggered
  decide +kernel

/-- Pads on which the reset combination is held. -/
def resetPads : Devices :=
  ⟨fun m => (0, m), fun _ => 0x1000, fun _ => [8, 0, 0, 0, 0, 0, 0, 0, 0xf1, 0xf9, 0, 0]⟩

/-- With the reset combination held the call reboots instead of returning. -/
theorem walk_reboots :
    ¬ ∀ (W : World Mem) (s : State Mem) (rc : ℤ) tr o s',
      Exec (flatMachine W) (serviceMirror .blank rc) s tr o s' → Triggered s.mem →
        (∀ sub rcv, o ≠ .halt (.die 3 sub rcv)) →
          o = .ret rc ∧ ramWord s'.mem (mmir 0x18) = 0 := by
  intro hclaim
  have hexec := resetPads.exec resetPads.in_world (serviceMirror .blank 0) digitalRead
  have hhalted : ((serviceMirror .blank 0).run resetPads.answer digitalRead).2.1.halted =
      some .reboot := by decide +kernel
  have hreboot := Outcome.of_halted hhalted
  have htriggered : Triggered digitalRead.mem := by
    unfold Triggered
    decide +kernel
  have hret := (hclaim _ _ _ _ _ _ hexec htriggered (fun sub rcv h => by
    rw [hreboot] at h
    cases h)).1
  rw [hreboot] at hret
  cases hret

end Cfp2Dreamcast
