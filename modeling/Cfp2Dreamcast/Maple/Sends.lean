import Cfp2Dreamcast.Maple.Cable

/-!
# The service refines the responder

Branch by branch: served in any state, a frame leaves in RAM exactly the bytes of its
answer, from the receive address on, or nothing when there is no answer.
-/

namespace Cfp2Dreamcast

open Program Memory

section Service

variable {W : World Mem} {α : Type} {s s' : State Mem} {rx : ℕ}

/-- With the timer at the value of the last refresh no pad is polled. -/
theorem pollPads_returns (W : World Mem) (s : State Mem) :
    ∃ tr s', Exec (flatMachine W) pollPads s tr (.ret ()) s' := by
  have hwhen : ∃ tr s₁, Exec (flatMachine W) (Prog.whenever (s.statics .padThresh = 1) do
      let tcr ← load16 0xffd80010
      putStatic .padThresh ((50000000 >>> (tpscShifts.getD (tcr &&& 7) 0)) / 125))
      s tr (.ret ()) s₁ ∧ s₁.statics .inTcnt = s.statics .inTcnt := by
    by_cases hone : s.statics .padThresh = 1
    · let thresh := (50000000 >>> (tpscShifts.getD (0 &&& 7) 0)) / 125
      let s₁ : State Mem :=
        { s with statics := Function.update s.statics .padThresh thresh }
      have hload : (flatMachine W).step s (.load16 0xffd80010) (0 : ℕ) s := ⟨by decide, rfl⟩
      have hother : Static.inTcnt ≠ .padThresh := by decide
      rw [Prog.whenever_pos hone]
      exact ⟨_, s₁, .op hload (.op rfl (.ret _ _)),
        Function.update_of_ne hother thresh s.statics⟩
    · rw [Prog.whenever_neg hone]
      exact ⟨[], s, .ret _ _, rfl⟩
  obtain ⟨tr, s₁, hwhen, hlast⟩ := hwhen
  have h₁ : Exec (flatMachine W) padThreshold s _ (.ret ()) s₁ := .op ⟨rfl, rfl⟩ hwhen
  have hload : (flatMachine W).step s₁ (.load32 .own 0xffd8000c)
      (s.statics .inTcnt % 2 ^ 32) s₁ :=
    (step_load32_io (by decide)).2 ⟨Nat.mod_lt _ (Nat.two_pow_pos 32), rfl⟩
  have hzero : sub32 (s₁.statics .inTcnt) (s.statics .inTcnt % 2 ^ 32) = 0 := by
    rw [hlast]
    unfold sub32
    omega
  refine ⟨_ ++ [⟨.load32 .own 0xffd8000c, s.statics .inTcnt % 2 ^ 32⟩,
    ⟨.get .inTcnt, s₁.statics .inTcnt⟩, ⟨.get .padThresh, s₁.statics .padThresh⟩], s₁,
    h₁.bind_ret ?_⟩
  refine Exec.op hload ?_
  refine Exec.op ⟨rfl, rfl⟩ ?_
  refine Exec.op ⟨rfl, rfl⟩ ?_
  change Exec _ (Prog.whenever (_ > s₁.statics .padThresh) _) _ _ _ _
  rw [hzero, Prog.whenever_neg (Nat.not_lt_zero _)]
  exact .ret _ _

theorem silent_pollPads : Silent W pollPads s where
  sound h := repliesOf_tracked tracked_pollPads h
  total := by
    obtain ⟨tr, s', h⟩ := pollPads_returns W s
    exact ⟨tr, (), s', h⟩

variable (d : Embedded)

/-- The words that are reported are those in the cache after the poll. -/
theorem sends_jvsDigital : Sends W (jvsDigital rx) s rx (Answer.digital.bytes d) := by
  refine silent_pollPads.sends fun _ s₁ => .op trivial (by simp) fun raw s₂ hraw =>
    .op trivial (by simp) fun raw2 s₃ hraw2 => (writes_xmemcpyReply rx _).sends fun h => ?_
  obtain ⟨rfl, rfl⟩ := hraw
  obtain ⟨rfl, rfl⟩ := hraw2
  rw [(exec_xmemcpyReply h).2.2.1]
  rfl

theorem sends_blob (bs : List UInt8) :
    Sends W (xmemcpyReply rx bs) s rx ((Answer.blob bs).bytes d) :=
  (writes_xmemcpyReply rx bs).sends_bytes

theorem sends_receiveReply (pending : ℕ) {a : Answer}
    (ha : mieAnswer d pending 0x15 = some a) :
    Sends W (receiveReply d rx pending) s rx (a.bytes d) := by
  unfold mieAnswer at ha
  simp only at ha
  unfold receiveReply
  split at ha
  · cases ha
    exact sends_blob d _
  · cases ha
    exact sends_blob d _
  · cases ha
    exact sends_blob d _
  · cases ha
    exact sends_blob d _
  · cases ha
    exact sends_blob d _
  · cases ha
    exact sends_blob d _
  · cases ha
    simpa only using sends_jvsDigital d

/-- Behind an address in the window there is RAM for the longest reply. -/
theorem isRam_of_inWindow {rcv i : ℕ} (hw : inWindow rcv) (hi : i ≤ shimCodeMax) :
    isRam (p2Addr rcv + i) := by
  rw [shimCodeMax_eq] at hi
  rw [isRam_p2Addr_add]
  unfold inWindow sub32 at hw
  unfold isRam phys
  omega

/-- `maple_reply` sends the answer to the subcommand. -/
theorem sends_mapleReply {sub rcv frame : ℕ} (hw : inWindow rcv) {a : Answer}
    (ha : mieAnswer d (s.statics .pendingJvs) sub = some a) :
    Sends W (mapleReply d sub rcv frame) s (p2Addr rcv) (a.bytes d) := by
  by_cases hsub : sub = 0x15
  · subst hsub
    refine .op trivial (by simp) fun pending s₁ hstep => ?_
    obtain ⟨rfl, rfl⟩ := hstep
    exact sends_receiveReply d _ ha
  unfold mieAnswer at ha
  unfold mapleReply
  split at ha
  · cases ha
    exact sends_jvsDigital d
  · exact absurd rfl hsub
  · cases ha
    change Sends W (xmemcpyReply _ eepromHdr >>= fun _ => xmemcpyReply _ d.eepromImg) s _
      fun _ => eepromHdr ++ d.eepromImg
    refine Writes.sends_bytes ?_
    rw [storesOf_append]
    exact (writes_xmemcpyReply _ _).append fun _ => writes_xmemcpyReply _ _
  · cases ha
    exact sends_blob d _
  · cases ha
    exact sends_blob d _
  · cases ha
    exact sends_blob d _
  · cases ha
    exact sends_blob d _
  · cases ha
    exact sends_blob d _
  · cases ha
    exact sends_blob d _
  · cases ha
    exact sends_dipReply fun i hi =>
      isRam_of_inWindow hw (hi.le.trans (d.fits d.mieSub31 (by simp)))
  · cases ha
    exact sends_blob d _
  · cases ha
    exact .op trivial (by simp) fun _ _ _ => .op trivial (by simp) fun _ _ _ => sends_blob d _
  · cases ha

theorem writes_sumBytes (a n : ℕ) : Writes W (sumBytes a n) (· = []) := by
  induction n generalizing a with
  | zero => exact writes_ret 0 rfl
  | succ n ih =>
      exact .mute trivial (by simp) fun b => (ih (a + 1)).append fun _ => writes_ret _ rfl

/-- The payload bytes are added up, and nothing else happens. -/
theorem exec_sumBytes {a n : ℕ} {tr : List (Event shimSig)} {o : Outcome shimSig ℕ}
    (ha : ∀ i < n, isRam (a + i)) (h : Exec (flatMachine W) (sumBytes a n) s tr o s') :
    o = .ret ((List.range n).map fun k => (s.mem (ramCell (a + k))).toNat).sum ∧ s' = s := by
  induction n generalizing a o tr s' with
  | zero =>
      cases h
      exact ⟨rfl, rfl⟩
  | succ n ih =>
      obtain ⟨b, s₁, tr₁, rfl, hload, hrest⟩ := h.of_op
      obtain ⟨hb, m, hm, rfl⟩ :=
        (step_load8 ((isRam_p2Addr a).2 (ha 0 (Nat.succ_pos n)))).1 hload
      cases hm
      have hnext : ∀ i < n, isRam (a + 1 + i) := by
        intro i hi
        rw [Nat.add_assoc, Nat.add_comm 1]
        exact ha (i + 1) (Nat.succ_lt_succ hi)
      have hrest : Exec (flatMachine W) (sumBytes (a + 1) n >>= fun rest =>
          pure (b.toNat + rest)) s tr₁ o s' := hrest
      rcases hrest.of_bind with ⟨e, rfl, hhalt⟩ | ⟨tr₂, tr₃, rest, s₂, rfl, hsum, hret⟩
      · cases (ih hnext hhalt).1
      · cases hret
        obtain ⟨hrest', hs⟩ := ih hnext hsum
        cases hrest'
        have hb : b = s.mem (ramCell a) := hb.trans (congrArg s.mem (ramCell_p2Addr a))
        refine ⟨?_, hs⟩
        rw [List.range_succ_eq_map, List.map_cons, List.map_map, List.sum_cons, hb]
        refine congrArg (fun l => Outcome.ret (_ + List.sum l))
          (List.map_congr_left fun k _ => ?_)
        simp only [Function.comp_apply, Nat.add_assoc, Nat.add_comm 1]

/-- A frame without payload. -/
theorem writes_header (resp fh : ℕ) :
    Writes W (store32 .reply rx (probeHdr fh ||| resp))
      (· = storesOf rx (frameBytes resp fh 0 [])) := by
  rw [frameBytes, List.append_nil, Nat.zero_shiftLeft, Nat.or_zero]
  exact writes_store32 rx _

theorem probeAnswer_other {cmd : ℕ} (hcmd : cmd ∉ [0x01, 0x02, 0x80, 0x82]) (x : Descriptor) :
    probeAnswer cmd x = frameBytes 0x07 x.header 0 [] := by
  simp only [List.mem_cons, List.not_mem_nil, or_false, not_or] at hcmd
  obtain ⟨h1, h2, h80, h82⟩ := hcmd
  unfold probeAnswer
  split
  · exact absurd rfl h1
  · exact absurd rfl h2
  · exact absurd rfl h82
  · exact absurd rfl h80
  · rfl

/-- `mie_probe_reply` sends the answer to the frame. -/
theorem sends_mieProbeReply {cmd rcv frame : ℕ} (hlo : 0x0c000000 ≤ frame)
    (hhi : frame < 0x0f000000) :
    Sends W (mieProbeReply cmd (descriptorAt s.mem frame).header rcv frame) s (p2Addr rcv)
      fun _ => probeAnswer cmd (descriptorAt s.mem frame) := by
  have hlist (i : ℕ) (hi : i < 0x100) : isRam (frame + i) :=
    isRam_of_bounds (by omega) (by omega)
  unfold mieProbeReply
  split
  · exact (writes_header _ _).sends_bytes
  · exact (writes_header _ _).sends_bytes
  · exact (writes_header _ _).sends_bytes
  · exact (writes_header _ _).sends_bytes
  · change Sends W _ s _ fun _ => frameBytes 0x83 _ 7 (mieId48.take 28) ++
      frameBytes 0x83 _ 5 ((mieId48.drop 28).take 20)
    refine Writes.sends_bytes ?_
    have h28 : (mieId48.take 28).length = 28 := by decide
    rw [frameBytes, frameBytes, List.append_assoc, storesOf_append, storesOf_append,
      storesOf_append, wordBytes_length, wordBytes_length, h28, Nat.add_assoc, Nat.add_assoc]
    exact (writes_store32 _ _).append fun _ => (writes_xmemcpyReply _ _).append fun _ =>
      (writes_store32 _ _).append fun _ => writes_xmemcpyReply _ _
  · refine .load8 ((isRam_p2Addr _).2 (hlist 0x0d (by decide))) ?_
    have hbyte : s.mem (ramCell (p2Addr (frame + 0x0d))) =
        (descriptorAt s.mem frame).payload 1 := congrArg s.mem (ramCell_p2Addr _)
    rw [hbyte]
    change Sends W (ite _ _ _) s _ fun _ => ite _ _ _
    split
    · exact (writes_header _ _).sends_bytes
    · refine Sends.after (writes_sumBytes _ _) (fun h => exec_sumBytes (fun i hi => ?_) h) ?_
      · rw [Nat.add_assoc]
        exact hlist _ (by omega)
      · refine Writes.sends_bytes ?_
        have hmod : (descriptorAt s.mem frame).chunkSum % 256 =
            (descriptorAt s.mem frame).chunkSum &&& 0xff :=
          (Nat.and_two_pow_sub_one_eq_mod _ 8).symm
        rw [frameBytes, frameBytes, List.append_assoc, storesOf_append, storesOf_append,
          wordBytes_length, wordBytes_length, List.append_nil, Nat.zero_shiftLeft, Nat.or_zero,
          hmod, Nat.add_assoc]
        exact (writes_store32 _ _).append fun _ => (writes_store32 _ _).append fun _ =>
          writes_store32 _ _
  · rename_i h1 h2 h3 h4 h82 h80
    have hother : cmd ∉ [0x01, 0x02, 0x80, 0x82] := by
      simp only [List.mem_cons, List.not_mem_nil, or_false, not_or]
      exact ⟨h1, h2, h80, h82⟩
    rw [probeAnswer_other hother]
    exact (writes_header _ _).sends_bytes

/-! ### A frame -/

/-- The state with a JVS command on the way. -/
def pendingState (s : State Mem) (pending : ℕ) : State Mem :=
  { s with statics := Function.update s.statics .pendingJvs pending }

/-- The state after the frame latched its JVS command. -/
def latched (s : State Mem) (x : Descriptor) : State Mem :=
  pendingState s (x.latch (s.statics .pendingJvs))

theorem latched_pending (s : State Mem) (x : Descriptor) :
    (latched s x).statics .pendingJvs = x.latch (s.statics .pendingJvs) :=
  Function.update_self Static.pendingJvs _ s.statics

theorem writes_latchJvs (sub addr : ℕ) : Writes W (latchJvs sub addr) (· = []) := by
  have hload : Writes W (do
      let b ← load8 .list (p2Addr (addr + 0x14))
      putStatic .pendingJvs b.toNat) (· = []) :=
    .mute trivial (by simp) fun _ => .mute trivial (by simp) fun _ => writes_ret () rfl
  unfold latchJvs
  split
  · exact hload
  · exact hload
  · exact hload
  · exact .mute trivial (by simp) fun _ => writes_ret () rfl
  · exact writes_ret () rfl

variable {addr : ℕ}

theorem exec_latchJvs (haddr : isRam (addr + 0x14)) {tr : List (Event shimSig)}
    {o : Outcome shimSig Unit}
    (h : Exec (flatMachine W) (latchJvs (descriptorAt s.mem addr).sub addr) s tr o s') :
    o = .ret () ∧ s' = latched s (descriptorAt s.mem addr) := by
  have hload : ∀ {tr o s'}, Exec (flatMachine W) (do
      let b ← load8 .list (p2Addr (addr + 0x14))
      putStatic .pendingJvs b.toNat) s tr o s' → o = .ret () ∧
        s' = pendingState s (descriptorAt s.mem addr).jvs := by
    intro tr o s' h
    obtain ⟨b, s₁, tr₁, rfl, hstep, hput⟩ := h.of_op
    obtain ⟨hb, m, hm, rfl⟩ := (step_load8 ((isRam_p2Addr _).2 haddr)).1 hstep
    cases hm
    obtain ⟨u, s₂, tr₂, rfl, hs, hret⟩ := hput.of_op
    cases hret
    have hb : b = (descriptorAt s.mem addr).payload 8 :=
      hb.trans (congrArg s.mem (ramCell_p2Addr _))
    exact ⟨rfl, by rw [Descriptor.jvs, ← hb]; exact hs⟩
  unfold latchJvs at h
  unfold latched Descriptor.latch
  split at h
  · next hsub => simpa only [hsub] using hload h
  · next hsub => simpa only [hsub] using hload h
  · next hsub => simpa only [hsub] using hload h
  · next hsub =>
    obtain ⟨u, s₂, tr₂, rfl, hs, hret⟩ := h.of_op
    cases hret
    have hs : s' = pendingState s 0xff := hs
    exact ⟨rfl, by simpa only [hsub] using hs⟩
  · cases h
    have hsame : s = pendingState s (s.statics .pendingJvs) := by
      rw [pendingState, Function.update_eq_self]
    exact ⟨rfl, by simpa only using hsame⟩

/-- The diagnostics read the first payload word of the first frame. -/
theorem exec_firstLoad {b : Prop} [Decidable b] (haddr : isRam (p2Addr addr))
    {tr : List (Event shimSig)} {o : Outcome shimSig Unit}
    (h : Exec (flatMachine W) (Prog.whenever b do let _ ← load32 .list (p2Addr addr)) s tr o s') :
    o = .ret () ∧ s' = s ∧ repliesOf tr = [] := by
  by_cases hb : b
  · rw [Prog.whenever_pos hb] at h
    obtain ⟨v, s₁, tr₁, rfl, hstep, hret⟩ := h.of_op
    obtain ⟨-, m, hm, rfl⟩ := (step_load32 haddr).1 hstep
    cases hm
    cases hret
    exact ⟨rfl, rfl, rfl⟩
  · rw [Prog.whenever_neg hb] at h
    cases h
    exact ⟨rfl, rfl, rfl⟩

/-- The code refines the responder: an answered frame leaves its answer. -/
theorem sends_serveFrame {first : Bool} {rcv : ℕ} (hlo : 0x0c000000 ≤ addr)
    (hhi : addr < 0x0f000000) (hw : inWindow rcv) {a : Answer}
    (ha : (descriptorAt s.mem addr).answer d (s.statics .pendingJvs) = some a) :
    Sends W (serveFrame d first addr rcv) s (p2Addr rcv) (a.bytes d) := by
  have hlist (i : ℕ) (hi : i < 0x100) : isRam (addr + i) :=
    isRam_of_bounds (by omega) (by omega)
  have hram (i : ℕ) (hi : i < 0x100) : isRam (p2Addr (addr + i)) :=
    (isRam_p2Addr _).2 (hlist i hi)
  unfold serveFrame
  refine .load32 (hram 0x08 (by decide)) ?_
  change Sends W (Prog.whenever _ _ >>= fun _ => ite (Descriptor.Mie (descriptorAt s.mem addr)) _
    _) s _ _
  refine Sends.after (.whenever (fun _ => .mute trivial (by simp) fun _ =>
    writes_ret () rfl) fun _ => rfl) (fun h =>
      ⟨(exec_firstLoad (hram 0x0c (by decide)) h).1,
        (exec_firstLoad (hram 0x0c (by decide)) h).2.1⟩) ?_
  unfold Descriptor.answer at ha
  by_cases hmie : (descriptorAt s.mem addr).Mie
  · rw [if_pos hmie] at ha ⊢
    refine .load8 (hram 0x0c (by decide)) ?_
    have hsub : (s.mem (ramCell (p2Addr (addr + 0x0c)))).toNat = (descriptorAt s.mem addr).sub :=
      congrArg (fun c => (s.mem c).toNat) (ramCell_p2Addr _)
    change Sends W (latchJvs (UInt8.toNat _) addr >>= fun _ => Prog.whenever (inWindow rcv)
      (mapleReply d (UInt8.toNat _) rcv addr)) s _ _
    rw [hsub, Prog.whenever_pos hw]
    refine Sends.after (writes_latchJvs _ _) (fun h => exec_latchJvs (hlist 0x14 (by decide)) h) ?_
    refine sends_mapleReply d hw ?_
    rwa [latched_pending]
  · rw [if_neg hmie] at ha ⊢
    cases ha
    rw [Prog.whenever_pos hw]
    exact sends_mieProbeReply hlo hhi

/-- A subcommand without an answer is the end of the shim. -/
theorem mapleReply_eq_die {sub pending rcv frame : ℕ} (h : mieAnswer d pending sub = none) :
    mapleReply d sub rcv frame = shimDie 3 sub rcv := by
  unfold mieAnswer at h
  unfold mapleReply
  split at h
  · cases h
  · split at h <;> cases h
  · cases h
  · cases h
  · cases h
  · cases h
  · cases h
  · cases h
  · cases h
  · cases h
  · cases h
  · cases h
  · simp only

/-- What is left of a frame once it is read and its JVS command latched. -/
theorem exec_serveFrame {first : Bool} {rcv : ℕ} (hlo : 0x0c000000 ≤ addr)
    (hhi : addr < 0x0f000000) {tr : List (Event shimSig)} {o : Outcome shimSig Unit}
    (h : Exec (flatMachine W) (serveFrame d first addr rcv) s tr o s') :
    ∃ tr₀ tr₁ s₁, tr = tr₀ ++ tr₁ ∧ repliesOf tr₀ = [] ∧ s₁.mem = s.mem ∧
      s₁.statics .pendingJvs = (descriptorAt s.mem addr).pendingAfter (s.statics .pendingJvs) ∧
      Exec (flatMachine W) (Prog.whenever (inWindow rcv)
        (if (descriptorAt s.mem addr).Mie then
          mapleReply d (descriptorAt s.mem addr).sub rcv addr
        else mieProbeReply ((descriptorAt s.mem addr).header &&& 0xff)
          (descriptorAt s.mem addr).header rcv addr)) s₁ tr₁ o s' := by
  have hlist (i : ℕ) (hi : i < 0x100) : isRam (addr + i) :=
    isRam_of_bounds (by omega) (by omega)
  have hram (i : ℕ) (hi : i < 0x100) : isRam (p2Addr (addr + i)) :=
    (isRam_p2Addr _).2 (hlist i hi)
  obtain ⟨fh, s₁, tr₁, rfl, hstep, h₁⟩ := h.of_op
  obtain ⟨hfh, m, hm, rfl⟩ := (step_load32 (hram 0x08 (by decide))).1 hstep
  cases hm
  have hfh : fh = (descriptorAt s.mem addr).header := hfh
  subst hfh
  have h₁ : Exec (flatMachine W) (Prog.whenever (first = true) (do
      let _ ← load32 .list (p2Addr (addr + 0x0c))) >>= fun _ =>
        if (descriptorAt s.mem addr).Mie then do
          let sub ← load8 .list (p2Addr (addr + 0x0c))
          latchJvs sub.toNat addr
          Prog.whenever (inWindow rcv) (mapleReply d sub.toNat rcv addr)
        else Prog.whenever (inWindow rcv) (mieProbeReply ((descriptorAt s.mem addr).header &&& 0xff)
          (descriptorAt s.mem addr).header rcv addr)) s tr₁ o s' := h₁
  rcases h₁.of_bind with ⟨e, -, hhalt⟩ | ⟨tr₂, tr₃, u, s₂, rfl, hfirst, h₂⟩
  · cases (exec_firstLoad (hram 0x0c (by decide)) hhalt).1
  obtain ⟨-, hs, hnil⟩ := exec_firstLoad (hram 0x0c (by decide)) hfirst
  have hloads : ∀ tr', repliesOf (⟨.load32 .list (p2Addr (addr + 0x08)),
      (descriptorAt s.mem addr).header⟩ :: (tr₂ ++ tr')) = repliesOf tr' := by
    intro tr'
    rw [repliesOf_mute (c := .load32 .list (p2Addr (addr + 0x08))) trivial, repliesOf_append,
      hnil, List.nil_append]
  subst hs
  by_cases hmie : (descriptorAt s₂.mem addr).Mie
  · rw [if_pos hmie] at h₂ ⊢
    obtain ⟨sub, s₃, tr₄, rfl, hstep, h₃⟩ := h₂.of_op
    obtain ⟨hsub, m, hm, rfl⟩ := (step_load8 (hram 0x0c (by decide))).1 hstep
    cases hm
    have hsub : sub.toNat = (descriptorAt s₂.mem addr).sub := by
      rw [show sub = s₂.mem (ramCell (p2Addr (addr + 0x0c))) from hsub]
      exact congrArg (fun c => (s₂.mem c).toNat) (ramCell_p2Addr _)
    have h₃ : Exec (flatMachine W) (latchJvs sub.toNat addr >>= fun _ =>
        Prog.whenever (inWindow rcv) (mapleReply d sub.toNat rcv addr)) s₂ tr₄ o s' := h₃
    rw [hsub] at h₃
    rcases h₃.of_bind with ⟨e, -, hhalt⟩ | ⟨tr₅, tr₆, u, s₄, rfl, hlatch, h₄⟩
    · obtain ⟨a, ha⟩ := ((writes_latchJvs _ _).sound hhalt).1
      cases ha
    · obtain ⟨-, rfl⟩ := exec_latchJvs (hlist 0x14 (by decide)) hlatch
      refine ⟨⟨.load32 .list (p2Addr (addr + 0x08)), (descriptorAt s₂.mem addr).header⟩ ::
        (tr₂ ++ ⟨.load8 .list (p2Addr (addr + 0x0c)), sub⟩ :: tr₅), tr₆,
        latched s₂ (descriptorAt s₂.mem addr), by simp, ?_, rfl, ?_, h₄⟩
      · rw [hloads, repliesOf_mute (c := .load8 .list (p2Addr (addr + 0x0c))) trivial]
        exact ((writes_latchJvs _ _).sound hlatch).2
      · rw [latched_pending, Descriptor.pendingAfter, if_pos hmie]
  · rw [if_neg hmie] at h₂ ⊢
    refine ⟨⟨.load32 .list (p2Addr (addr + 0x08)), (descriptorAt s₂.mem addr).header⟩ ::
      (tr₂ ++ []), tr₃, s₂, by simp, ?_, rfl, ?_, h₂⟩
    · rw [hloads]
      rfl
    · rw [Descriptor.pendingAfter, if_neg hmie]

/-- A frame without an answer, or with a receive address outside the window, leaves
nothing. -/
theorem serveFrame_unanswered {first : Bool} {rcv : ℕ} (hlo : 0x0c000000 ≤ addr)
    (hhi : addr < 0x0f000000) {tr : List (Event shimSig)} {o : Outcome shimSig Unit}
    (hno : ¬ inWindow rcv ∨
      (descriptorAt s.mem addr).answer d (s.statics .pendingJvs) = none)
    (h : Exec (flatMachine W) (serveFrame d first addr rcv) s tr o s') : repliesOf tr = [] := by
  obtain ⟨tr₀, tr₁, s₁, rfl, hnil, -, -, h₁⟩ := exec_serveFrame d hlo hhi h
  rw [repliesOf_append, hnil, List.nil_append]
  by_cases hw : inWindow rcv
  · have hnone := hno.resolve_left (not_not.2 hw)
    rw [Prog.whenever_pos hw] at h₁
    unfold Descriptor.answer at hnone
    by_cases hmie : (descriptorAt s.mem addr).Mie
    · rw [if_pos hmie] at hnone h₁
      rw [mapleReply_eq_die d hnone] at h₁
      obtain ⟨_, _, _, rfl, -, h₁⟩ := h₁.of_op
      obtain ⟨_, _, _, rfl, -, h₁⟩ := h₁.of_op
      obtain ⟨_, _, _, rfl, -, h₁⟩ := h₁.of_op
      obtain ⟨_, _, _, rfl, -, h₁⟩ := h₁.of_op
      cases h₁
      rfl
    · rw [if_neg hmie] at hnone
      cases hnone
  · rw [Prog.whenever_neg hw] at h₁
    cases h₁
    rfl

end Service

end Cfp2Dreamcast
