import Cfp2Dreamcast.Maple.Reply
import Cfp2Dreamcast.Machine.Devices
import Cfp2Dreamcast.Machine.Frame
import Cfp2Dreamcast.Program.Halts

/-!
# Input polls over a run

The digital read of the game is answered from the pad words of the last refresh, and
a refresh is made when the timer says that the last one is too old. The timer is a
free-running down-counter of 32 bits: at the tick `t` it shows `tcnt c t`. A run is
any number of polls at any times; the invariant of the run is that the time since the
last refresh, as the code computes it, is the true one and within the threshold.
-/

namespace Cfp2Dreamcast

open Program Memory

/-- `TCNT0` at the tick `t` of a counter that started at `c`. -/
def tcnt (c t : ℕ) : ℕ := sub32 c t

/-- The ticks of 8 ms that `jvs_digital` computes from `TCR0`. -/
def threshOf (tcr : ℕ) : ℕ := (50000000 >>> (tpscShifts.getD (tcr &&& 7) 0)) / 125

/-- As long as it does not wrap, the computed time grows as the true one does. -/
theorem sub32_tcnt_add {l c t g : ℕ} (h : sub32 l (tcnt c t) + g < 2 ^ 32) :
    sub32 l (tcnt c (t + g)) = sub32 l (tcnt c t) + g := by
  unfold tcnt sub32 at *
  omega

theorem sub32_self (x : ℕ) : sub32 x x = 0 := by
  unfold sub32
  omega

/-! ## The reported frame -/

/-- The index of the checksum that `extract_jvs_replies.py` computes for a reply: the
length byte follows the sync and the node. -/
def harvestCsum (raw : List UInt8) : ℕ :=
  raw.idxOf 0xe0 + 2 + (raw.getD (raw.idxOf 0xe0 + 2) 0).toNat

/-- `jvs_checksum` of `extract_jvs_replies.py`. -/
def harvestSum (b : List UInt8) (e0 csum : ℕ) : UInt8 := ((b.take csum).drop (e0 + 1)).sum

/-- The frame shows the words `j` and `j2` in the idle template and passes the check of
the harvest script. -/
structure FrameShows (f : List UInt8) (j j2 : UInt16) : Prop where
  length : f.length = 64
  words : (f.drop 0x20).take 4 = [(j >>> 8).toUInt8, j.toUInt8, (j2 >>> 8).toUInt8, j2.toUInt8]
  template : ∀ i, i ∉ [0x20, 0x21, 0x22, 0x23, 0x3a] → f[i]? = jvsHasdata[i]?
  sync : f.idxOf 0xe0 = 0x1a
  csum : harvestCsum f = 0x3a
  sum : f[0x3a]? = some (harvestSum f (f.idxOf 0xe0) (harvestCsum f))

theorem digitalFrame_shows (raw raw2 : UInt16) :
    FrameShows (digitalFrame raw raw2) (dcToJvs raw) (dcToJvs raw2) := by
  have hlow : ∀ j : UInt16, (j &&& 0xff).toUInt8 = j.toUInt8 := fun j => by
    apply UInt8.toNat.inj
    simp only [UInt16.toNat_toUInt8, UInt16.toNat_and]
    change (j.toNat &&& (2 ^ 8 - 1)) % 2 ^ 8 = _
    rw [Nat.and_two_pow_sub_one_eq_mod, Nat.mod_mod]
  have hsync : (digitalFrame raw raw2).idxOf 0xe0 = 0x1a := rfl
  have hcsum : harvestCsum (digitalFrame raw raw2) = 0x3a := by
    rw [harvestCsum, hsync]
    rfl
  refine ⟨digitalFrame_length raw raw2, ?_, fun i hi => ?_, hsync, hcsum, ?_⟩
  · rw [← hlow (dcToJvs raw), ← hlow (dcToJvs raw2)]
    rfl
  · simp only [List.mem_cons, List.not_mem_nil, or_false, not_or] at hi
    obtain ⟨h0, h1, h2, h3, h4⟩ := hi
    simp only [digitalFrame]
    rw [List.getElem?_set_ne (Ne.symm h4), List.getElem?_set_ne (Ne.symm h3),
      List.getElem?_set_ne (Ne.symm h2), List.getElem?_set_ne (Ne.symm h1),
      List.getElem?_set_ne (Ne.symm h0)]
  · rw [hsync, hcsum, digitalFrame_checksum, jvsChecksum, harvestSum, List.drop_take]

/-! ## What a poll shows in its trace -/

/-- The values assigned to a static. -/
def putsOf (x : Static) (tr : List (Event shimSig)) : List ℕ :=
  tr.filterMap fun ev => match ev with
    | ⟨.put y v, _⟩ => if y = x then some v else none
    | _ => none

/-- The pad words that a poll read, if it was a refresh. -/
def refreshOf (tr : List (Event shimSig)) : Option (ℕ × ℕ) :=
  match putsOf .rawCacheA tr, putsOf .rawCacheB tr with
  | [a], [b] => some (a, b)
  | _, _ => none

/-- The bytes that a poll reports. -/
def frameOf (tr : List (Event shimSig)) : List UInt8 :=
  tr.filterMap fun ev => match ev with
    | ⟨.store8 .reply _ v, _⟩ => some v
    | _ => none

@[simp] theorem putsOf_append (x : Static) (tr tr' : List (Event shimSig)) :
    putsOf x (tr ++ tr') = putsOf x tr ++ putsOf x tr' := List.filterMap_append

@[simp] theorem frameOf_append (tr tr' : List (Event shimSig)) :
    frameOf (tr ++ tr') = frameOf tr ++ frameOf tr' := List.filterMap_append

/-- Every timer read of the trace is made at the tick `t`. -/
def Timed (c tcr t : ℕ) (tr : List (Event shimSig)) : Prop :=
  (∀ v : ℕ, (⟨Cmd.load32 .own 0xffd8000c, v⟩ : Event shimSig) ∈ tr → v = tcnt c t) ∧
    ∀ v : ℕ, (⟨Cmd.load16 0xffd80010, v⟩ : Event shimSig) ∈ tr → v = tcr

section Poll

variable {μ : Type} {B : Bus μ} {W : World μ} {s s' : State μ} {tr : List (Event shimSig)}

/-- The cells of the frame that is transmitted to a pad and of the pad's reply. -/
def InPadBuffers (c : ℕ) : Prop := 0xfc9000 ≤ c ∧ c < 0xfc9010 ∨ 0xfc9040 ≤ c ∧ c < 0xfc9440

instance (c : ℕ) : Decidable (InPadBuffers c) := inferInstanceAs (Decidable (_ ∨ _))

/-- The commands of `maple_getcond`: stores to the pad buffers and to the registers of
the real Maple bus, and the flag of the set-up. -/
def BusCmd : Cmd → Prop
  | .load32 _ _ => True
  | .store32 o a _ => o = .own ∧ (isRam a → ∀ i < 4, InPadBuffers (ramCell (a + i)))
  | .get _ => True
  | .put x _ => x = .busInitDone
  | .awaitMaple => True
  | _ => False

/-- The bus code always returns. -/
def busGuard : Guard shimSig := ⟨BusCmd, fun _ => False, fun _ => False⟩

theorem bus_store {α : Type} {a v : ℕ} {k : Unit → Shim α}
    (ha : isRam a → ∀ i < 4, InPadBuffers (ramCell (a + i))) (hk : ∀ r, Keeps busGuard (k r)) :
    Keeps busGuard (.op (.store32 .own a v) k) := .op ⟨rfl, ha⟩ hk

theorem bus_runTransfer : Keeps busGuard runTransfer :=
  bus_store (by decide) fun _ => bus_store (by decide) fun _ => bus_store (by decide) fun _ =>
    bus_store (by decide) fun _ => .op trivial fun _ => trivial

theorem bus_probeDevinfo (port : ℕ) : Keeps busGuard (probeDevinfo port) :=
  bus_store (by decide) fun _ => bus_store (by decide) fun _ => bus_store (by decide) fun _ =>
    bus_store (by decide) fun _ => .op trivial fun _ => .op trivial fun _ =>
      bus_runTransfer.bind fun _ => .op trivial fun _ => trivial

theorem bus_getcondAttempt (port : ℕ) : Keeps busGuard (getcondAttempt port) :=
  bus_store (by decide) fun _ => bus_store (by decide) fun _ => bus_store (by decide) fun _ =>
    bus_store (by decide) fun _ => bus_store (by decide) fun _ => .op trivial fun _ =>
      .op trivial fun _ => bus_runTransfer.bind fun _ => .op trivial fun _ => trivial

theorem bus_getcondAttempts (port left : ℕ) : Keeps busGuard (getcondAttempts port left) := by
  induction left with
  | zero => trivial
  | succ left ih =>
      refine (bus_getcondAttempt port).bind fun _ => .op trivial fun hdr => ?_
      change Keeps _ (ite _ _ _)
      split
      · exact .op trivial fun _ => trivial
      · exact ih

theorem bus_busInit : Keeps busGuard busInit :=
  .op trivial fun _ => Keeps.whenever fun _ => .op rfl fun _ => bus_store (by decide) fun _ =>
    bus_store (by decide) fun _ => bus_store (by decide) fun _ => bus_store (by decide) fun _ =>
      (bus_probeDevinfo 0).bind fun _ => bus_probeDevinfo 1

theorem bus_mapleGetcond (port : ℕ) : Keeps busGuard (mapleGetcond port) :=
  bus_busInit.bind fun _ => bus_getcondAttempts port 2

/-- The commands of `maple_getcond`, as far as a poll is concerned. -/
def GetcondCmd : Cmd → Prop
  | .put x _ => x = .busInitDone
  | .store8 o _ _ => o ≠ .reply
  | _ => True

def getcondGuard : Guard shimSig := ⟨GetcondCmd, fun _ => False, fun _ => False⟩

theorem BusCmd.getcondCmd {c : Cmd} (h : BusCmd c) : GetcondCmd c := by
  cases c with
  | put x v => exact h
  | store8 o a v => exact h.elim
  | _ => trivial

theorem keeps_mapleGetcond (port : ℕ) : Keeps getcondGuard (mapleGetcond port) :=
  (bus_mapleGetcond port).mono (fun _ => BusCmd.getcondCmd) (fun _ h => h) fun _ h => h

/-- The pad statics. -/
def padStatics : List Static := [.inTcnt, .rawCacheA, .rawCacheB, .padThresh]

/-- What `maple_getcond` leaves alone. -/
theorem exec_mapleGetcond {port a : ℕ}
    (h : Exec (shimMachine B W) (mapleGetcond port) s tr (.ret a) s') :
    (∀ x ∈ padStatics, putsOf x tr = [] ∧ s'.statics x = s.statics x) ∧ frameOf tr = [] := by
  have hcmd : ∀ ev ∈ tr, GetcondCmd ev.cmd := (keeps_mapleGetcond port).exec_ret h
  refine ⟨fun x hx => ⟨?_, exec_static h fun ev hev v hc => ?_⟩, ?_⟩
  · refine List.filterMap_eq_nil_iff.2 fun ev hev => ?_
    have hev := hcmd ev hev
    obtain ⟨c, r⟩ := ev
    cases c with
    | put y v =>
        have hy : y ≠ x := by
          rintro rfl
          rw [show y = .busInitDone from hev] at hx
          revert hx
          decide
        exact if_neg hy
    | _ => rfl
  · have hev := hcmd ev hev
    rw [hc] at hev
    rw [show x = .busInitDone from hev] at hx
    revert hx
    decide
  · refine List.filterMap_eq_nil_iff.2 fun ev hev => ?_
    have hev := hcmd ev hev
    obtain ⟨c, r⟩ := ev
    cases c with
    | store8 o a v =>
        cases o with
        | reply => exact absurd rfl hev
        | _ => rfl
    | _ => rfl

theorem statics_put_self (s : State μ) (x : Static) (v : ℕ) :
    ({ s with statics := Function.update s.statics x v } : State μ).statics x = v :=
  Function.update_self x v s.statics

theorem statics_put_ne (s : State μ) {x y : Static} (v : ℕ) (h : y ≠ x) :
    ({ s with statics := Function.update s.statics x v } : State μ).statics y = s.statics y :=
  Function.update_of_ne h v s.statics

/-- A trace that moves no pad data and reports nothing. -/
structure Idle (tr : List (Event shimSig)) : Prop where
  puts : ∀ x ∈ [Static.rawCacheA, Static.rawCacheB], putsOf x tr = []
  frame : frameOf tr = []
  transfer : ∀ ev ∈ tr, ev.cmd ≠ Cmd.awaitMaple

theorem exec_padThreshold {tcr : ℕ} (h : Exec (shimMachine B W) padThreshold s tr (.ret ()) s')
    (htcr : ∀ v : ℕ, (⟨Cmd.load16 0xffd80010, v⟩ : Event shimSig) ∈ tr → v = tcr)
    (hthresh : s.statics .padThresh = 1 ∨ s.statics .padThresh = threshOf tcr) :
    Idle tr ∧ s'.statics .padThresh = threshOf tcr ∧
      ∀ x, x ≠ .padThresh → s'.statics x = s.statics x := by
  obtain ⟨thresh, s₁, tr₁, rfl, ⟨hget, hs₁⟩, hrest⟩ := h.of_op
  subst hs₁
  have hwhen : Exec (shimMachine B W) (Prog.whenever (thresh = 1) do
      let tcr ← load16 0xffd80010
      putStatic .padThresh ((50000000 >>> (tpscShifts.getD (tcr &&& 7) 0)) / 125))
      s₁ tr₁ (.ret ()) s' := hrest
  by_cases hone : thresh = 1
  · rw [Prog.whenever_pos hone] at hwhen
    obtain ⟨v, s₂, tr₂, rfl, ⟨-, hs₂⟩, hstore⟩ := hwhen.of_op
    subst hs₂
    obtain ⟨u, s₃, tr₃, rfl, hput, hret⟩ := hstore.of_op
    cases hret
    have hv : v = tcr := htcr v (by simp)
    subst hv
    have hput : s' = { s₂ with statics := Function.update s₂.statics .padThresh (threshOf v) } :=
      hput
    refine ⟨⟨?_, rfl, by simp⟩, ?_, fun x hx => ?_⟩
    · intro x hx
      simp only [List.mem_cons, List.not_mem_nil, or_false] at hx
      rcases hx with rfl | rfl
      · rfl
      · rfl
    · rw [hput]
      exact statics_put_self _ _ _
    · rw [hput]
      exact statics_put_ne _ _ hx
  · rw [Prog.whenever_neg hone] at hwhen
    cases hwhen
    refine ⟨⟨?_, rfl, by simp⟩, ?_, fun x hx => rfl⟩
    · intro x hx
      rfl
    · exact hthresh.resolve_left fun h1 => hone (hget.trans h1)

/-- The words that the two calls of `maple_getcond` in the trace returned. -/
def WordsRead (B : Bus μ) (W : World μ) (tr : List (Event shimSig)) (a b : ℕ) : Prop :=
  ∃ before trA mid trB after s₁ s₂ s₃ s₄, tr = before ++ trA ++ mid ++ trB ++ after ∧
    Exec (shimMachine B W) (mapleGetcond 0) s₁ trA (.ret a) s₂ ∧
    Exec (shimMachine B W) (mapleGetcond 1) s₃ trB (.ret b) s₄

/-- What a poll at a moment when the last refresh is `elapsed` ticks old does. -/
inductive PollResult (B : Bus μ) (W : World μ) (now thresh elapsed : ℕ) (s s' : State μ)
    (tr : List (Event shimSig)) : Prop where
  | cached (hle : elapsed ≤ thresh) (hnone : refreshOf tr = none)
      (hidle : ∀ ev ∈ tr, ev.cmd ≠ Cmd.awaitMaple)
      (hkeep : ∀ x ∈ [Static.inTcnt, .rawCacheA, .rawCacheB], s'.statics x = s.statics x)
  | refresh (hlt : thresh < elapsed) (hsome : refreshOf tr =
        some (s'.statics .rawCacheA, s'.statics .rawCacheB))
      (hread : WordsRead B W tr (s'.statics .rawCacheA) (s'.statics .rawCacheB))
      (hlast : s'.statics .inTcnt = now)

/-- The part of `jvs_digital` that reads both pads anew. -/
def refreshPads (now : ℕ) : Shim Unit := do
  putStatic .inTcnt now
  let rawA ← mapleGetcond 0
  putStatic .rawCacheA rawA
  let rawB ← mapleGetcond 1
  putStatic .rawCacheB rawB
  if dcResetCombo (UInt16.ofNat rawA) ∨ dcResetCombo (UInt16.ofNat rawB) then padReboot
  else pure ()

/-- Both pads have been read into the cache. -/
structure Refreshed (B : Bus μ) (W : World μ) (now : ℕ) (s s' : State μ)
    (tr : List (Event shimSig)) : Prop where
  last : s'.statics .inTcnt = now
  thresh : s'.statics .padThresh = s.statics .padThresh
  putsA : putsOf .rawCacheA tr = [s'.statics .rawCacheA]
  putsB : putsOf .rawCacheB tr = [s'.statics .rawCacheB]
  frame : frameOf tr = []
  read : WordsRead B W tr (s'.statics .rawCacheA) (s'.statics .rawCacheB)

/-- One pad: its word is read and put into the cache. -/
theorem exec_readPad {x : Static} {port : ℕ} {f : ℕ → Shim Unit}
    (h : Exec (shimMachine B W) (do
      let raw ← mapleGetcond port
      putStatic x raw
      f raw) s tr (.ret ()) s') :
    ∃ raw trG trF s₁ s₂ u, tr = trG ++ ⟨.put x raw, u⟩ :: trF ∧
      Exec (shimMachine B W) (mapleGetcond port) s trG (.ret raw) s₁ ∧
      s₂.statics x = raw ∧ (∀ y ∈ padStatics, y ≠ x → s₂.statics y = s.statics y) ∧
      Exec (shimMachine B W) (f raw) s₂ trF (.ret ()) s' := by
  obtain ⟨trG, tr₁, raw, s₁, rfl, hget, h₁⟩ := h.ret_of_bind
  obtain ⟨u, s₂, trF, rfl, hput, h₂⟩ := h₁.of_op
  have hput : s₂ = { s₁ with statics := Function.update s₁.statics x raw } := hput
  refine ⟨raw, trG, trF, s₁, s₂, u, rfl, hget, ?_, fun y hy hne => ?_, h₂⟩
  · rw [hput]
    exact statics_put_self _ _ _
  · rw [hput, ← ((exec_mapleGetcond hget).1 y hy).2]
    exact statics_put_ne _ _ hne

theorem exec_refreshPads {now : ℕ}
    (h : Exec (shimMachine B W) (refreshPads now) s tr (.ret ()) s') :
    Refreshed B W now s s' tr := by
  obtain ⟨u, s₁, tr₁, rfl, hput, h₁⟩ := h.of_op
  have hput : s₁ = { s with statics := Function.update s.statics .inTcnt now } := hput
  obtain ⟨a, trA, tr₂, s₂, s₃, uA, rfl, hgetA, hA, hkeepA, h₂⟩ := exec_readPad h₁
  obtain ⟨b, trB, tr₃, s₄, s₅, uB, rfl, hgetB, hB, hkeepB, h₃⟩ := exec_readPad h₂
  -- with the reset combination held it does not return
  have hend : tr₃ = [] ∧ s' = s₅ := by
    split at h₃
    · cases h₃
    · cases h₃
      exact ⟨rfl, rfl⟩
  obtain ⟨rfl, rfl⟩ := hend
  obtain ⟨hputsA, hframeA⟩ := exec_mapleGetcond hgetA
  obtain ⟨hputsB, hframeB⟩ := exec_mapleGetcond hgetB
  have hrawA : s'.statics .rawCacheA = a := (hkeepB _ (by decide) (by decide)).trans hA
  have hkeep : ∀ y ∈ padStatics, y ≠ .rawCacheA → y ≠ .rawCacheB →
      s'.statics y = s₁.statics y := fun y hy hneA hneB =>
    (hkeepB y hy hneB).trans (hkeepA y hy hneA)
  refine ⟨?_, ?_, ?_, ?_, ?_, ?_⟩
  · rw [hkeep _ (by decide) (by decide) (by decide), hput]
    exact statics_put_self _ _ _
  · rw [hkeep _ (by decide) (by decide) (by decide), hput]
    exact statics_put_ne _ _ (by decide)
  · change putsOf .rawCacheA (trA ++ _) = _
    rw [putsOf_append, (hputsA _ (by decide)).1, List.nil_append, hrawA]
    change a :: putsOf .rawCacheA (trB ++ _) = _
    rw [putsOf_append, (hputsB _ (by decide)).1]
    rfl
  · change putsOf .rawCacheB (trA ++ _) = _
    rw [putsOf_append, (hputsA _ (by decide)).1, List.nil_append, hB]
    change putsOf .rawCacheB (trB ++ _) = _
    rw [putsOf_append, (hputsB _ (by decide)).1]
    rfl
  · change frameOf (trA ++ _) = _
    rw [frameOf_append, hframeA, List.nil_append]
    change frameOf (trB ++ _) = _
    rw [frameOf_append, hframeB]
    rfl
  · rw [hrawA, hB]
    exact ⟨[⟨.put .inTcnt now, u⟩], trA, [⟨.put .rawCacheA a, uA⟩], trB,
      [⟨.put .rawCacheB b, uB⟩], s₁, s₂, s₃, s₄, by simp, hgetA, hgetB⟩

/-- What a poll looks at before it decides: the timer, the time of the last refresh and the
threshold. -/
theorem exec_pollPads_reads {c tcr t : ℕ}
    (h : Exec (shimMachine B W) pollPads s tr (.ret ()) s') (ht : Timed c tcr t tr)
    (hthresh : s.statics .padThresh = 1 ∨ s.statics .padThresh = threshOf tcr) :
    ∃ trR trP s₁, tr = trR ++ trP ∧ Idle trR ∧ s₁.statics .padThresh = threshOf tcr ∧
      (∀ x, x ≠ .padThresh → s₁.statics x = s.statics x) ∧
      Exec (shimMachine B W) (Prog.whenever
        (sub32 (s.statics .inTcnt) (tcnt c t) > threshOf tcr) (refreshPads (tcnt c t)))
        s₁ trP (.ret ()) s' := by
  obtain ⟨tr₁, tr₂, u, s₁, rfl, hpt, h₁⟩ := h.ret_of_bind
  obtain ⟨hidle, hth, hkeep⟩ := exec_padThreshold hpt
    (fun v hv => ht.2 v (List.mem_append_left _ hv)) hthresh
  obtain ⟨now, s₂, tr₃, rfl, hload, h₂⟩ := h₁.of_op
  have hnow : now = tcnt c t := ht.1 now (by simp)
  have hs₂ : s₂ = s₁ := ((step_load32_io (by decide)).1 hload).2
  subst hs₂ hnow
  obtain ⟨last, s₃, tr₄, rfl, ⟨hlast, hs₃⟩, h₃⟩ := h₂.of_op
  subst hs₃
  obtain ⟨thresh, s₄, tr₅, rfl, ⟨hthr, hs₄⟩, h₄⟩ := h₃.of_op
  subst hs₄
  rw [hth] at hthr
  rw [hkeep .inTcnt (by decide)] at hlast
  subst hthr hlast
  refine ⟨tr₁ ++ [⟨.load32 .own 0xffd8000c, tcnt c t⟩, ⟨.get .inTcnt, s.statics .inTcnt⟩,
    ⟨.get .padThresh, threshOf tcr⟩], tr₅, s₄, by simp, ⟨fun x hx => ?_, ?_, fun ev hev => ?_⟩,
    hth, hkeep, h₄⟩
  · rw [putsOf_append, hidle.puts x hx]
    rfl
  · rw [frameOf_append, hidle.frame]
    rfl
  · rcases List.mem_append.1 hev with hev | hev
    · exact hidle.transfer ev hev
    · simp only [List.mem_cons, List.not_mem_nil, or_false] at hev
      rcases hev with rfl | rfl | rfl <;> simp

theorem exec_pollPads {c tcr t : ℕ} (h : Exec (shimMachine B W) pollPads s tr (.ret ()) s')
    (ht : Timed c tcr t tr)
    (hthresh : s.statics .padThresh = 1 ∨ s.statics .padThresh = threshOf tcr) :
    s'.statics .padThresh = threshOf tcr ∧ frameOf tr = [] ∧
      PollResult B W (tcnt c t) (threshOf tcr) (sub32 (s.statics .inTcnt) (tcnt c t)) s s' tr := by
  obtain ⟨trR, trP, s₁, rfl, hidle, hth, hkeep, hwhen⟩ := exec_pollPads_reads h ht hthresh
  rw [frameOf_append, hidle.frame, List.nil_append]
  have hputs : refreshOf (trR ++ trP) = refreshOf trP := by
    rw [refreshOf, putsOf_append, putsOf_append, hidle.puts _ (by decide),
      hidle.puts _ (by decide)]
    rfl
  by_cases hold : sub32 (s.statics .inTcnt) (tcnt c t) > threshOf tcr
  · rw [Prog.whenever_pos hold] at hwhen
    obtain ⟨hlast, hthresh', hputsA, hputsB, hframe, before, trA, mid, trB, after, s₂, s₃, s₄, s₅,
      rfl, hgetA, hgetB⟩ := exec_refreshPads hwhen
    refine ⟨hthresh'.trans hth, hframe, .refresh hold ?_ ?_ hlast⟩
    · rw [hputs, refreshOf, hputsA, hputsB]
    · exact ⟨trR ++ before, trA, mid, trB, after, s₂, s₃, s₄, s₅, by simp, hgetA, hgetB⟩
  · rw [Prog.whenever_neg hold] at hwhen
    cases hwhen
    rw [List.append_nil]
    refine ⟨hth, rfl, .cached (not_lt.1 hold) ?_ hidle.transfer fun x hx => hkeep x ?_⟩
    · rw [refreshOf, hidle.puts _ (by decide), hidle.puts _ (by decide)]
    · rintro rfl
      revert hx
      decide

theorem exec_xmemcpyReply {d : ℕ} {bs : List UInt8}
    (h : Exec (shimMachine B W) (xmemcpyReply d bs) s tr (.ret ()) s') :
    frameOf tr = bs ∧ (∀ x, putsOf x tr = []) ∧ s'.statics = s.statics ∧
      ∀ ev ∈ tr, ev.cmd ≠ Cmd.awaitMaple := by
  induction bs generalizing d s tr with
  | nil =>
      cases h
      exact ⟨rfl, fun _ => rfl, rfl, fun ev hev => by cases hev⟩
  | cons b bs ih =>
      obtain ⟨u, s₁, tr₁, rfl, hstore, hrest⟩ := h.of_op
      obtain ⟨hframe, hputs, hstatics, htransfer⟩ := ih hrest
      have hs₁ : s₁.statics = s.statics := by
        by_cases ha : isRam d
        · obtain ⟨m, -, rfl⟩ := (step_store8 ha).1 hstore
          rfl
        · rw [(step_store8_io ha).1 hstore]
      refine ⟨congrArg (b :: ·) hframe, hputs, hstatics.trans hs₁, fun ev hev => ?_⟩
      rcases List.mem_cons.1 hev with rfl | hev
      · simp
      · exact htransfer ev hev

/-- What a poll that returns has done. -/
theorem exec_jvsDigital {c tcr t rx : ℕ}
    (h : Exec (shimMachine B W) (jvsDigital rx) s tr (.ret ()) s') (ht : Timed c tcr t tr)
    (hthresh : s.statics .padThresh = 1 ∨ s.statics .padThresh = threshOf tcr) :
    s'.statics .padThresh = threshOf tcr ∧
      frameOf tr = digitalFrame (UInt16.ofNat (s'.statics .rawCacheA))
        (UInt16.ofNat (s'.statics .rawCacheB)) ∧
      PollResult B W (tcnt c t) (threshOf tcr) (sub32 (s.statics .inTcnt) (tcnt c t)) s s' tr := by
  obtain ⟨trP, tr₂, u, s₁, rfl, hpoll, h₁⟩ := h.ret_of_bind
  obtain ⟨hth, hframe, hresult⟩ := exec_pollPads hpoll
    ⟨fun v hv => ht.1 v (List.mem_append_left _ hv),
      fun v hv => ht.2 v (List.mem_append_left _ hv)⟩ hthresh
  obtain ⟨raw, s₂, tr₃, rfl, ⟨hraw, hs₂⟩, h₂⟩ := h₁.of_op
  subst hs₂
  obtain ⟨raw2, s₃, tr₄, rfl, ⟨hraw2, hs₃⟩, h₃⟩ := h₂.of_op
  subst hs₃ hraw hraw2
  obtain ⟨hcopy, hputs, hstatics, htransfer⟩ := exec_xmemcpyReply h₃
  have hrefresh : refreshOf (trP ++ ⟨.get .rawCacheA, s₃.statics .rawCacheA⟩ ::
      ⟨.get .rawCacheB, s₃.statics .rawCacheB⟩ :: tr₄) = refreshOf trP := by
    have htail : ∀ x, putsOf x ((⟨.get .rawCacheA, s₃.statics .rawCacheA⟩ : Event shimSig) ::
        ⟨.get .rawCacheB, s₃.statics .rawCacheB⟩ :: tr₄) = [] := hputs
    rw [refreshOf, putsOf_append, putsOf_append, htail, htail, List.append_nil, List.append_nil]
    rfl
  refine ⟨by rw [hstatics, hth], ?_, ?_⟩
  · rw [frameOf_append, hframe, hstatics, List.nil_append]
    exact hcopy
  · cases hresult with
    | cached hle hnone hidle hkeep =>
        refine .cached hle (hrefresh.trans hnone) (fun ev hev => ?_) fun x hx => ?_
        · rcases List.mem_append.1 hev with hev | hev
          · exact hidle ev hev
          · rcases List.mem_cons.1 hev with rfl | hev
            · simp
            · rcases List.mem_cons.1 hev with rfl | hev
              · simp
              · exact htransfer ev hev
        · rw [hstatics]
          exact hkeep x hx
    | refresh hlt hsome hread hlast =>
        rw [← hstatics] at hsome hread hlast
        refine .refresh hlt (hrefresh.trans hsome) ?_ hlast
        obtain ⟨before, trA, mid, trB, after, t₁, t₂, t₃, t₄, rfl, hA, hB⟩ := hread
        exact ⟨before, trA, mid, trB, _, t₁, t₂, t₃, t₄, by rw [List.append_assoc], hA, hB⟩

end Poll

section Run

variable {μ : Type} {B : Bus μ} {W : World μ} {c tcr : ℕ} {s s' : State μ}

/-- A poll of a run: the tick at which it read the timer, and its trace. -/
structure PollEntry where
  time : ℕ
  trace : List (Event shimSig)

def PollEntry.refresh (e : PollEntry) : Option (ℕ × ℕ) := refreshOf e.trace

def PollEntry.frame (e : PollEntry) : List UInt8 := frameOf e.trace

/-- A run of polls, the last one first. Between two polls anything but the pad statics
may change, and less than `2 ^ 32 - pad_thresh` ticks pass. -/
inductive PollRun (B : Bus μ) (W : World μ) (c tcr : ℕ) (s : State μ) :
    List PollEntry → State μ → Prop where
  | start : PollRun B W c tcr s [] s
  | poll {log : List PollEntry} {s₁ s₂ s₃ : State μ} {rx t : ℕ} {tr : List (Event shimSig)}
      (h : PollRun B W c tcr s log s₁)
      (hkeep : ∀ x ∈ padStatics, s₂.statics x = s₁.statics x)
      (hgap : ∀ e ∈ log.head?, e.time ≤ t ∧ t - e.time < 2 ^ 32 - threshOf tcr)
      (hexec : Exec (shimMachine B W) (jvsDigital rx) s₂ tr (.ret ()) s₃)
      (ht : Timed c tcr t tr) : PollRun B W c tcr s (⟨t, tr⟩ :: log) s₃

/-- The pad statics before the first poll. -/
structure PadsFresh (s : State μ) : Prop where
  tcnt : s.statics .inTcnt = 1
  thresh : s.statics .padThresh = 1
  rawA : s.statics .rawCacheA = 0xffff
  rawB : s.statics .rawCacheB = 0xffff

/-- No poll of the log was a refresh. -/
def NoRefresh (log : List PollEntry) : Prop := ∀ f ∈ log, f.refresh = none

/-- What the statics say about the log, the last poll of which was at the tick `t`:
they hold the words of the last refresh and its time, or are idle. -/
def PadsHold (c : ℕ) (log : List PollEntry) (t : ℕ) (s : State μ) : Prop :=
  (∃ f ∈ log, f.refresh = some (s.statics .rawCacheA, s.statics .rawCacheB) ∧ f.time ≤ t ∧
    sub32 (s.statics .inTcnt) (tcnt c t) = t - f.time ∧
    ∀ g ∈ log, g.refresh ≠ none → g.time ≤ f.time) ∨
  NoRefresh log ∧ s.statics .rawCacheA = 0xffff ∧ s.statics .rawCacheB = 0xffff ∧
    ∀ f ∈ log, f.time ≤ t ∧ t - f.time ≤ sub32 (s.statics .inTcnt) (tcnt c t)

/-- The invariant of a run. -/
structure PadsInv (c tcr : ℕ) (log : List PollEntry) (s : State μ) : Prop where
  thresh : log ≠ [] → s.statics .padThresh = threshOf tcr
  recent : ∀ e ∈ log.head?, sub32 (s.statics .inTcnt) (tcnt c e.time) ≤ threshOf tcr
  holds : ∀ e ∈ log.head?, PadsHold c log e.time s

/-- What is claimed of a poll with the polls before it. -/
structure PollOk (B : Bus μ) (W : World μ) (thresh : ℕ) (e : PollEntry)
    (older : List PollEntry) : Prop where
  fresh : (∃ f ∈ e :: older, ∃ a b, f.refresh = some (a, b) ∧ WordsRead B W f.trace a b ∧
      f.time ≤ e.time ∧ e.time - f.time ≤ thresh ∧
      FrameShows e.frame (dcToJvs (UInt16.ofNat a)) (dcToJvs (UInt16.ofNat b))) ∨
    NoRefresh (e :: older) ∧ FrameShows e.frame (dcToJvs 0xffff) (dcToJvs 0xffff) ∧
      ∀ f ∈ older, f.time ≤ e.time ∧ e.time - f.time ≤ thresh
  spaced : ∀ f ∈ older, e.refresh ≠ none → f.refresh ≠ none → thresh < e.time - f.time
  quiet : e.refresh = none → ∀ ev ∈ e.trace, ev.cmd ≠ Cmd.awaitMaple

theorem PadsHold.later {log : List PollEntry} {t t' : ℕ} (h : PadsHold c log t s) (htt : t ≤ t')
    (hsub : sub32 (s.statics .inTcnt) (tcnt c t') =
      sub32 (s.statics .inTcnt) (tcnt c t) + (t' - t)) : PadsHold c log t' s := by
  rcases h with ⟨f, hf, hwords, hle, hel, hmax⟩ | ⟨hnone, hA, hB, hall⟩
  · exact .inl ⟨f, hf, hwords, hle.trans htt, by omega, hmax⟩
  · refine .inr ⟨hnone, hA, hB, fun f hf => ?_⟩
    have := hall f hf
    omega

theorem PadsHold.congr {log : List PollEntry} {t : ℕ} (h : PadsHold c log t s)
    (hkeep : ∀ x ∈ [Static.inTcnt, .rawCacheA, .rawCacheB], s'.statics x = s.statics x) :
    PadsHold c log t s' := by
  unfold PadsHold
  rw [hkeep .inTcnt (by decide), hkeep .rawCacheA (by decide), hkeep .rawCacheB (by decide)]
  exact h

/-- What the statics say at the next poll, which does not come too late. -/
theorem PadsInv.before {log : List PollEntry} {t : ℕ} (h : PadsInv c tcr log s)
    (hfresh : log = [] → PadsFresh s)
    (hgap : ∀ e ∈ log.head?, e.time ≤ t ∧ t - e.time < 2 ^ 32 - threshOf tcr) :
    PadsHold c log t s := by
  cases log with
  | nil =>
      exact .inr ⟨fun f hf => absurd hf List.not_mem_nil, (hfresh rfl).rawA, (hfresh rfl).rawB,
        fun f hf => absurd hf List.not_mem_nil⟩
  | cons e rest =>
      obtain ⟨hle, hlt⟩ := hgap e rfl
      have hrecent := h.recent e rfl
      refine (h.holds e rfl).later hle ?_
      have hadd := sub32_tcnt_add (l := s.statics .inTcnt) (c := c) (t := e.time)
        (g := t - e.time) (by omega)
      rwa [Nat.add_sub_cancel' hle] at hadd

theorem NoRefresh.cons {log : List PollEntry} {e : PollEntry} (h : NoRefresh log)
    (he : e.refresh = none) : NoRefresh (e :: log) := by
  intro f hf
  rcases List.mem_cons.1 hf with rfl | hf
  · exact he
  · exact h f hf

section Step

variable {log : List PollEntry} {t : ℕ} {tr : List (Event shimSig)} {thresh : ℕ}

/-- A poll that answers from the cache. -/
theorem PadsHold.cached (h : PadsHold c log t s)
    (hread : ∀ f ∈ log, ∀ a b, f.refresh = some (a, b) → WordsRead B W f.trace a b)
    (hle : sub32 (s.statics .inTcnt) (tcnt c t) ≤ thresh) (hnone : refreshOf tr = none)
    (hidle : ∀ ev ∈ tr, ev.cmd ≠ Cmd.awaitMaple)
    (hframe : FrameShows (frameOf tr) (dcToJvs (UInt16.ofNat (s.statics .rawCacheA)))
      (dcToJvs (UInt16.ofNat (s.statics .rawCacheB)))) :
    PadsHold c (⟨t, tr⟩ :: log) t s ∧ PollOk B W thresh ⟨t, tr⟩ log := by
  rcases h with ⟨f, hf, hwords, htime, hel, hmax⟩ | ⟨hno, hA, hB, hall⟩
  · refine ⟨.inl ⟨f, List.mem_cons_of_mem _ hf, hwords, htime, hel, fun g hg hr => ?_⟩, ?_,
      fun g _ hr => absurd hnone hr, fun _ => hidle⟩
    · rcases List.mem_cons.1 hg with rfl | hg
      · exact absurd hnone hr
      · exact hmax g hg hr
    · exact .inl ⟨f, List.mem_cons_of_mem _ hf, _, _, hwords, hread f hf _ _ hwords, htime,
        hel ▸ hle, hframe⟩
  · refine ⟨.inr ⟨hno.cons hnone, hA, hB, fun f hf => ?_⟩,
      .inr ⟨hno.cons hnone, ?_, fun f hf => ?_⟩, fun g _ hr => absurd hnone hr, fun _ => hidle⟩
    · rcases List.mem_cons.1 hf with rfl | hf
      · exact ⟨le_rfl, by simp⟩
      · exact hall f hf
    · rw [hA, hB] at hframe
      exact hframe
    · exact ⟨(hall f hf).1, (hall f hf).2.trans hle⟩

/-- A poll that refreshes the cache. -/
theorem PadsHold.refreshed (h : PadsHold c log t s)
    (hlt : thresh < sub32 (s.statics .inTcnt) (tcnt c t))
    (hsome : refreshOf tr = some (s'.statics .rawCacheA, s'.statics .rawCacheB))
    (hread : WordsRead B W tr (s'.statics .rawCacheA) (s'.statics .rawCacheB))
    (hlast : s'.statics .inTcnt = tcnt c t)
    (hframe : FrameShows (frameOf tr) (dcToJvs (UInt16.ofNat (s'.statics .rawCacheA)))
      (dcToJvs (UInt16.ofNat (s'.statics .rawCacheB)))) :
    PadsHold c (⟨t, tr⟩ :: log) t s' ∧ PollOk B W thresh ⟨t, tr⟩ log := by
  have hold : ∀ g ∈ log, g.refresh ≠ none → g.time ≤ t ∧ thresh < t - g.time := by
    intro g hg hr
    rcases h with ⟨f, hf, hwords, htime, hel, hmax⟩ | ⟨hno, -⟩
    · have := hmax g hg hr
      omega
    · exact absurd (hno g hg) hr
  refine ⟨.inl ⟨⟨t, tr⟩, List.mem_cons_self, hsome, le_rfl, ?_, fun g hg hr => ?_⟩,
    .inl ⟨⟨t, tr⟩, List.mem_cons_self, _, _, hsome, hread, le_rfl, by simp, hframe⟩,
    fun g hg _ hr => (hold g hg hr).2, fun hnone => ?_⟩
  · rw [hlast, sub32_self]
    exact (Nat.sub_self t).symm
  · rcases List.mem_cons.1 hg with rfl | hg
    · exact le_rfl
    · exact (hold g hg hr).1
  · cases hsome.symm.trans hnone

end Step

/-- What every run keeps. -/
theorem PollRun.invariant {log : List PollEntry} (hs : PadsFresh s)
    (h : PollRun B W c tcr s log s') :
    PadsInv c tcr log s' ∧ (log = [] → PadsFresh s') ∧
      (∀ f ∈ log, ∀ a b, f.refresh = some (a, b) → WordsRead B W f.trace a b) ∧
      ∀ e older, e :: older <:+ log → PollOk B W (threshOf tcr) e older := by
  induction h with
  | start =>
      refine ⟨⟨fun h => absurd rfl h, fun e he => (by cases he), fun e he => (by cases he)⟩,
        fun _ => hs, fun f hf => absurd hf List.not_mem_nil, fun e older hsuf => ?_⟩
      cases List.suffix_nil.1 hsuf
  | @poll log s₁ s₂ s₃ rx t tr hrun hkeep hgap hexec ht ih =>
      obtain ⟨hinv, hfresh, hreadlog, hall⟩ := ih
      have hkeep3 : ∀ x ∈ [Static.inTcnt, .rawCacheA, .rawCacheB],
          s₂.statics x = s₁.statics x := by
        intro x hx
        refine hkeep x ?_
        revert x
        decide
      have hthresh : s₂.statics .padThresh = 1 ∨ s₂.statics .padThresh = threshOf tcr := by
        rw [hkeep .padThresh (by decide)]
        by_cases hlog : log = []
        · exact .inl (hfresh hlog).thresh
        · exact .inr (hinv.thresh hlog)
      have hbefore : PadsHold c log t s₂ := (hinv.before hfresh hgap).congr hkeep3
      obtain ⟨hth, hframe, hresult⟩ := exec_jvsDigital hexec ht hthresh
      have hshows := digitalFrame_shows (UInt16.ofNat (s₃.statics .rawCacheA))
        (UInt16.ofNat (s₃.statics .rawCacheB))
      rw [← hframe] at hshows
      have hsuffix : ∀ {P : PollEntry → List PollEntry → Prop}, P ⟨t, tr⟩ log →
          (∀ e older, e :: older <:+ log → P e older) →
          ∀ e older, e :: older <:+ ⟨t, tr⟩ :: log → P e older := by
        intro P hhead htail e older hsuf
        rcases List.suffix_cons_iff.1 hsuf with heq | hsuf
        · cases heq
          exact hhead
        · exact htail e older hsuf
      cases hresult with
      | cached hle hnone hidle hstay =>
          rw [hstay .rawCacheA (by decide), hstay .rawCacheB (by decide)] at hshows
          obtain ⟨hhold, hok⟩ := hbefore.cached hreadlog hle hnone hidle hshows
          refine ⟨⟨fun _ => hth, fun e he => ?_, fun e he => ?_⟩,
            fun h => absurd h (List.cons_ne_nil _ _), fun f hf a b hab => ?_, hsuffix hok hall⟩
          · cases he
            rw [hstay .inTcnt (by decide)]
            exact hle
          · cases he
            exact hhold.congr hstay
          · rcases List.mem_cons.1 hf with rfl | hf
            · cases hnone.symm.trans hab
            · exact hreadlog f hf a b hab
      | refresh hlt hsome hread hlast =>
          obtain ⟨hhold, hok⟩ := hbefore.refreshed hlt hsome hread hlast hshows
          refine ⟨⟨fun _ => hth, fun e he => ?_, fun e he => ?_⟩,
            fun h => absurd h (List.cons_ne_nil _ _), fun f hf a b hab => ?_, hsuffix hok hall⟩
          · cases he
            rw [hlast, sub32_self]
            exact Nat.zero_le _
          · cases he
            exact hhold
          · rcases List.mem_cons.1 hf with rfl | hf
            · cases hsome.symm.trans hab
              exact hread
            · exact hreadlog f hf a b hab

end Run

/-- Every poll of a run from the first one on reports the words of one refresh that is
within the threshold in a frame that is well formed, and refreshes are apart. -/
theorem polls_fresh {μ : Type} {B : Bus μ} {W : World μ} {c tcr : ℕ} {s s' : State μ}
    {log : List PollEntry} (hs : PadsFresh s) (h : PollRun B W c tcr s log s')
    {e : PollEntry} {older : List PollEntry} (he : e :: older <:+ log) :
    PollOk B W (threshOf tcr) e older :=
  (h.invariant hs).2.2.2 e older he

/-- Pads that answer every frame with Start held, and a timer at 16. -/
def startPads : Devices :=
  ⟨fun m => (0, m), fun a => if a = 0xffd8000c then 16 else 0,
    fun _ => [8, 0, 0, 0, 0, 0, 0, 0, 0xf7, 0xff, 0, 0]⟩

/-- The pad statics as the image has them. -/
def padsInit : State Mem where
  mem _ := 0
  statics x := match x with
    | .inTcnt | .padThresh => 1
    | .rawCacheA | .rawCacheB => 0xffff
    | .busInitDone => 0x10000
    | _ => 0
  drive := .idle
  regs _ := 0

/-- Pads that answer with the word `a` in the first port and `b` in the second, and a timer
at `timer`. -/
def portPads (timer a b : ℕ) : Devices :=
  ⟨fun m => (0, m), fun r => if r = 0xffd8000c then timer else 0,
    fun m => [8, 0, 0, 0, 0, 0, 0, 0] ++
      wordBytes (if (ramWord m (p2Addr mapleTx) >>> 16) &&& 3 = 0 then a else b)⟩

/-- A timer read of the trace shows `timer`, and the prescaler is 0. -/
def timerShows (timer : ℕ) : Event shimSig → Bool
  | ⟨.load32 _ a, v⟩ => decide (a = 0xffd8000c → (show ℕ from v) = timer)
  | ⟨.load16 _, v⟩ => decide ((show ℕ from v) = 0)
  | _ => true

/-- One more poll, against these devices. -/
theorem PollRun.polled {c : ℕ} {s s₁ : State Mem} {log : List PollEntry}
    (h : PollRun flatBus startPads.world c 0 s log s₁) (t a b : ℕ)
    (hhalted : ((jvsDigital 0x0c200000).run (portPads (tcnt c t) a b).answer s₁).2.1.halted = none)
    (htimer : ((jvsDigital 0x0c200000).run (portPads (tcnt c t) a b).answer s₁).1.all
      (timerShows (tcnt c t)) = true)
    (hgap : ∀ e ∈ log.head?, e.time ≤ t ∧ t - e.time < 2 ^ 32 - threshOf 0) :
    PollRun flatBus startPads.world c 0 s
      (⟨t, ((jvsDigital 0x0c200000).run (portPads (tcnt c t) a b).answer s₁).1⟩ :: log)
      ((jvsDigital 0x0c200000).run (portPads (tcnt c t) a b).answer s₁).2.2 := by
  obtain ⟨u, hret⟩ := Outcome.of_not_halted hhalted
  have hexec := (portPads (tcnt c t) a b).exec startPads.in_world (jvsDigital 0x0c200000) s₁
  rw [hret] at hexec
  rw [List.all_eq_true] at htimer
  exact h.poll (fun x _ => rfl) hgap hexec
    ⟨fun v hv => of_decide_eq_true (htimer _ hv) rfl, fun v hv => of_decide_eq_true (htimer _ hv)⟩

/-- The first poll refreshes, the second one is answered from the cache, and the third one,
after the timer went through zero, reads other words. -/
theorem polls_fresh_sample :
    ∃ tr tr' tr'', refreshOf tr = some (0xfff7, 0xfffb) ∧ refreshOf tr' = none ∧
      refreshOf tr'' = some (0xfffd, 0xffff) ∧
      PollOk flatBus startPads.world (threshOf 0) ⟨16, tr'⟩ [⟨0, tr⟩] ∧
      PollOk flatBus startPads.world (threshOf 0) ⟨200000, tr''⟩ [⟨16, tr'⟩, ⟨0, tr⟩] := by
  have hstart : PollRun flatBus startPads.world 16 0 padsInit [] padsInit := .start
  have hfirst := hstart.polled 0 0xfff7 0xfffb (by decide +kernel) (by decide +kernel)
    fun e he => (by cases he)
  have hsecond := hfirst.polled 16 0xffff 0xffff (by decide +kernel) (by decide +kernel)
    fun e he => (by cases he; decide)
  have hthird := hsecond.polled 200000 0xfffd 0xffff (by decide +kernel) (by decide +kernel)
    fun e he => (by cases he; decide)
  have hfresh : PadsFresh padsInit := ⟨rfl, rfl, rfl, rfl⟩
  exact ⟨_, _, _, by decide +kernel, by decide +kernel, by decide +kernel,
    polls_fresh hfresh hthird (List.suffix_cons _ _), polls_fresh hfresh hthird List.suffix_rfl⟩

end Cfp2Dreamcast
