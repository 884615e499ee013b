import Cfp2Dreamcast.Cart.Footprint
import Cfp2Dreamcast.Cart.Progress
import Cfp2Dreamcast.System.VmuSafety

/-!
# Delivery under interrupts

The cart service runs in the game's main thread. Between any two of its commands the
drive may go on writing the buffers it was given, and the vertical-blank interrupt may
run the Maple service from beginning to end. As long as the interrupt writes neither
the destination, the bounce buffer nor the register mirror, every call does what it
would have done alone: the request is served whole or the shim dies.
-/

namespace Cfp2Dreamcast

open Program Memory

/-- A foreign step leaves the statics of the service alone, and a command of the
interrupt what the service relies on for the request in the mirror. -/
def Calm (c : Option Cmd) (s s' : State Mem) : Prop :=
  (∀ y, ownStatic y → s'.statics y = s.statics y) ∧
    (c ≠ none → ∀ x, Owned (requestAt s.mem) x → s'.mem x = s.mem x)

/-- The call found the request that is still in the mirror, and the execution `t` of the
call alone is behind the system. -/
structure Alongside (s₁ t s : State Mem) : Prop where
  behind : Behind (Owned (requestAt s₁.mem)) ownStatic t s
  request : requestAt t.mem = requestAt s₁.mem
  within : t.drive.Within OffRequest

theorem requestAt_congr {m m' : Mem}
    (h : ∀ x, 0xfc8800 ≤ x → x < 0xfc8c0c → m' x = m x) : requestAt m' = requestAt m := by
  have hword : ∀ off, off + 4 ≤ 0x40c →
      ramWord m' (p2Addr g1Mirror + off) = ramWord m (p2Addr g1Mirror + off) := by
    intro off hoff
    refine ramWord_congr fun i hi => h _ ?_ ?_
    · rw [Nat.add_assoc, ramCell_p2Addr_add, g1Mirror_eq]
      unfold ramCell
      omega
    · rw [Nat.add_assoc, ramCell_p2Addr_add, g1Mirror_eq]
      unfold ramCell
      omega
  unfold requestAt
  rw [hword 0x0c (by decide), hword 0x10 (by decide), hword 0x408 (by decide),
    hword 0x404 (by decide)]

theorem owned_mirror (q : Request) {x : ℕ} (hlo : 0xfc8800 ≤ x) (hhi : x < 0xfc8c1c) :
    Owned q x := by
  refine .inr (.inr ⟨p2Addr g1Mirror + (x - 0xfc8800), range_add (by omega), ?_⟩)
  rw [ramCell_p2Addr_add, g1Mirror_eq]
  unfold ramCell
  omega

theorem not_cellsOf_offRequest {V : ℕ → Prop} (hV : ∀ a, V a → OffRequest a) {x : ℕ}
    (hlo : 0xfc8800 ≤ x) (hhi : x < 0xfc8c0c) : ¬ cellsOf V x := by
  rintro ⟨a, ha, rfl⟩
  rcases hV a ha with h | h
  · omega
  · omega

section Steps

variable {b : Build} {d : Embedded} {W : World Mem} {s₁ t s s' : State Mem}

/-- The system still has the request of the call in the mirror. -/
theorem Alongside.requestAt_eq (h : Alongside s₁ t s) :
    requestAt s.mem = requestAt s₁.mem := by
  rw [← h.request]
  exact requestAt_congr fun x hlo hhi =>
    h.behind.read (owned_mirror _ hlo (by omega)) (not_cellsOf_offRequest h.within hlo hhi)

theorem alongside_refl (hs : s.drive = .idle) : Alongside s s s :=
  ⟨.refl s, rfl, hs ▸ Drive.idle_within _⟩

/-- A command of the service. -/
theorem Alongside.step {c : Cmd} {r : c.Resp} (h : Alongside s₁ t s)
    (hc : Footprint (requestAt s₁.mem) t c) (hstep : (flatMachine W).step s c r s') :
    ∃ t', (flatMachine W).step t c r t' ∧ Alongside s₁ t' s' := by
  obtain ⟨t', ht, hbehind⟩ := h.behind.step hc.alone hstep
  obtain ⟨hrun, hwithin⟩ := shimStep_run ht hc.within h.within
  refine ⟨t', ht, hbehind, ?_, hwithin⟩
  rw [← h.request]
  exact requestAt_congr fun x hlo hhi =>
    flat_run_agreeOff hrun x (not_cellsOf_offRequest (fun _ ha => ha) hlo hhi)

/-- The call alone is the call in the system. -/
theorem shimSystem_serial : (shimSystem b d W).Serial Calm (mapleMonitor .call)
    (fun s => s.drive = .idle) (fun s₁ => Footprint (requestAt s₁.mem)) Alongside where
  isr := tracked_shimMapleSteady d
  start hs := ⟨alongside_refl hs, before_shimCartService hs⟩
  main_step h hc hstep := h.step hc hstep
  env_step henv hcalm h := ⟨h.behind.transfers henv.2 hcalm.1, h.request, h.within⟩
  isr_step hstep hok hcalm h := by
    refine ⟨h.behind.disturb (fun x hx => hcalm.2 (by simp) x ?_) ?_ hcalm.1, h.request,
      h.within⟩
    · rwa [h.requestAt_eq]
    · exact shimStep_drive hstep hok.not_gdc
  back hs₁ hexec h := by
    obtain ⟨hgood, tr', hserve⟩ := good_of_returned hexec
    exact (h.behind.idle ((tame_serveRequest (Request.accepted hgood)).idle hs₁ hserve)).1
  env_rest := by
    rintro s s' ⟨-, htr⟩ hs
    rw [hs] at htr
    exact congrArg Prod.snd htr.of_idle
  idle_rest h hs := Eq.trans h hs
  isr_rest hstep hok hs := (shimStep_drive hstep hok.not_gdc).trans hs

/-- The request in the mirror has been served: its bytes are in place, SB_GDST of the
mirror is clear and the drive is idle. -/
structure Arrived (cart : ℕ → UInt8) (s : State Mem) : Prop where
  good : ¬ (requestAt s.mem).bad
  data : ∀ i < (requestAt s.mem).len,
    s.mem (ramCell ((requestAt s.mem).dest + i)) = cart ((requestAt s.mem).off + i)
  done : ramWord s.mem sbGdst = 0
  idle : s.drive = .idle

theorem Alongside.arrived {cart : ℕ → UInt8} {tr : List (Event shimSig)} {u : Unit}
    (hdisc : Mastered b W.disc cart) (hs₁ : s₁.drive = .idle)
    (hexec : Exec (flatMachine W) (shimCartService b) s₁ tr (.ret u) t)
    (h : Alongside s₁ t s) : Arrived cart s := by
  obtain ⟨hgood, -⟩ := good_of_returned hexec
  have hS := served_of_returned hdisc hs₁ hexec
  obtain ⟨hidle, hmem⟩ := h.behind.idle hS.idle
  have hreq := h.requestAt_eq
  refine ⟨hreq ▸ hgood, fun i hi => ?_, ?_, hidle⟩
  · rw [hreq] at hi ⊢
    rw [← hmem _ (.inl ⟨_, range_add hi, rfl⟩)]
    exact hS.data i hi
  · rw [← hS.done]
    refine ramWord_congr fun i hi => (hmem _ ?_).symm
    rw [ramCell_sbGdst hi]
    exact owned_mirror _ (by omega) (by omega)

/-- In every calm run, whatever the drive and the interrupts do between the commands
of the service: between calls the drive is idle, a call that returns has served the
request in the mirror, and a call that dies has refused a bad one or given up on the
drive. -/
theorem cart_delivers_amid_interrupts {cart : ℕ → UInt8} (hdisc : Mastered b W.disc cart)
    {s₀ : State Mem} (hdrive : s₀.drive = .idle) {y : Config shimSig (State Mem) Unit ℤ}
    (hrun : (shimSystem b d W).CalmRun Calm ⟨s₀, none, none⟩ y) :
    (y.main = none → y.state.drive = .idle) ∧
    (y.main = some (.ret ()) → Arrived cart y.state) ∧
    ∀ e, y.main = some (.halt e) →
      (requestAt y.state.mem).bad ∧
          e = .die 2 (requestAt y.state.mem).off (requestAt y.state.mem).dest ∨
        ¬ (requestAt y.state.mem).bad ∧ ∃ x z, e = .die 4 x z ∨ e = .die 5 x z := by
  have : Nonempty Known := ⟨.nothing⟩
  have hinv := Preempt.serial_run shimSystem_serial hrun
    ⟨fun p hp => (by cases hp), fun _ => hdrive, fun q hq => (by cases hq)⟩
  refine ⟨hinv.rest, fun hret => ?_, fun e hhalt => ?_⟩
  · obtain ⟨s₁, tr, t, hs₁, hreach, -, halong⟩ := hinv.busy _ hret
    exact halong.arrived hdisc hs₁ hreach.exec_ret
  · obtain ⟨s₁, tr, t, hs₁, hreach, -, halong⟩ := hinv.busy _ hhalt
    rw [halong.requestAt_eq]
    exact code_of_halted hreach.exec_halt

/-- The cells of the sample request are not those of the free-play flag. -/
theorem sample_spared {x : ℕ} (hx : Owned ⟨100, 5000, 0x0c100000⟩ x) :
    setBytes ramCell sampleMirror freePlay (wordBytes 1) x = sampleMirror x := by
  refine setBytes_off ramCell _ _ fun i hi h => ?_
  have hi : i < 4 := hi
  have hflag : ramCell (freePlay + i) = 0x1c9790 + i := by
    unfold ramCell freePlay
    omega
  rw [hflag] at h
  rcases hx with ⟨a, ⟨hlo, hhi⟩, ha⟩ | ⟨a, ha, hcell⟩ | ⟨a, ⟨hlo, hhi⟩, ha⟩
  · simp only at hlo hhi
    unfold ramCell at ha
    omega
  · have := (ramCell_bounce ha).1
    omega
  · have hbase : p2Addr g1Mirror = 0xacfc8800 := rfl
    rw [hbase] at hlo hhi
    unfold ramCell at ha
    omega

/-- The release build, called with the sample request and interrupted before its first
command by a call of the Maple service that finds no transfer triggered. -/
theorem cart_delivers_amid_interrupts_sample :
    let W : World Mem :=
      ⟨fun fad j => UInt8.ofNat (2048 * (fad - 451878) + j), fun m r m' => r = 0 ∧ m' = m⟩
    let s : State Mem := ⟨sampleMirror, fun _ => 0, .idle, fun _ => 0⟩
    ∃ y, (shimSystem .gdi .blank W).CalmRun Calm ⟨s, none, none⟩ y ∧
      (y.main = some (.ret ()) ∧ Arrived UInt8.ofNat y.state ∨
        ∃ e, y.main = some (.halt e)) := by
  intro W s
  have hdisc : Mastered .gdi W.disc UInt8.ofNat := mastered_sample
  let s₁ : State Mem := { s with mem := setBytes ramCell sampleMirror freePlay (wordBytes 1) }
  have hstamp : (flatMachine W).step s (.store32 .own freePlay 1) () s₁ :=
    (step_store32 (by decide)).2 ⟨_, flat_storeRun.2 rfl, rfl⟩
  have hengine : (flatMachine W).step s₁ .engine (0 : ℤ) s₁ := ⟨_, _, ⟨rfl, rfl⟩, rfl⟩
  have hmdst : (flatMachine W).step s₁ (.load32 .own (mmir 0x18)) (0 : ℕ) s₁ := by
    refine (step_load32 (by decide)).2 ⟨?_, _, rfl, rfl⟩
    show 0 = ramWord (setBytes ramCell sampleMirror freePlay (wordBytes 1)) (mmir 0x18)
    decide +kernel
  obtain ⟨tr, o, s', hexec⟩ := shimCartService_exists .gdi W s₁
  obtain ⟨q, hcalls, hret, hhalt⟩ := Preempt.calmRun_of_exec (P := shimSystem .gdi .blank W)
    (E := Calm) hexec
  have hsame : ∀ c (s : State Mem), Calm c s s := fun _ _ => ⟨fun _ _ => rfl, fun _ _ _ => rfl⟩
  have hcalm : Calm (some (.store32 .own freePlay 1)) s s₁ :=
    ⟨fun _ _ => rfl, fun _ x hx => sample_spared (requestAt_sampleMirror ▸ hx)⟩
  have hrun : (shimSystem .gdi .blank W).CalmRun Calm ⟨s, none, none⟩ ⟨s', some q, none⟩ :=
    .head ⟨none, .call, fun h => absurd rfl h⟩
      (.head ⟨none, .interrupt, fun _ _ => hsame _ _⟩
        (.head ⟨_, .isr hstamp, fun _ _ => hcalm⟩
          (.head ⟨_, .isr hengine, fun _ _ => hsame _ _⟩
            (.head ⟨_, .isr hmdst, fun _ _ => hsame _ _⟩
              (.head ⟨none, .iret, fun _ _ => hsame _ _⟩ hcalls)))))
  have hall := cart_delivers_amid_interrupts hdisc (rfl : s.drive = .idle) hrun
  refine ⟨_, hrun, ?_⟩
  cases o with
  | ret a => exact .inl ⟨congrArg some (hret a rfl), hall.2.1 (congrArg some (hret a rfl))⟩
  | halt e => exact .inr ⟨e, congrArg some (hhalt e rfl)⟩

end Steps

end Cfp2Dreamcast
