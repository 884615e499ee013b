import Cfp2Dreamcast.Cart.ServiceGuard
import Cfp2Dreamcast.Maple.Cable

/-!
# The video cable

Three things tell the game what display it drives: the DIP switches in the reply to a MIE
request, the monitor record of the settings, and the mode that reaches the video
initialisation of its SDK. Each asks `shim_cable_is_vga`, which latches what the port
shows at the first call. The game can ask in any order and the port may show something
else every time; it is still told of one cable only.
-/

namespace Cfp2Dreamcast

open Program Memory

/-- `shim_monitor_set`. -/
def shimMonitorSet : Shim ℤ := do
  let vga ← shimCableIsVga
  store32 .own 0x8c0c451c (if vga = true then 0 else 2)
  store32 .own 0x8c0c4524 (if vga = true then 0 else 1)
  store32 .own 0x8c0c4520 0
  store32 .own 0x8c0c4518 1
  pure 0

/-- The mode that `shim_vid_init` passes on. -/
def vidMode (mode : ℕ) : Shim ℕ := do
  let vga ← shimCableIsVga
  pure (if vga = true then mode else mode &&& (0xffffffff - 3))

/-- `shim_vid_init`, over the video initialisation of the game's SDK at 0x8c034020. -/
def shimVidInit (loadbar : Bool) (sdk : ℕ → ℕ → ℕ → ℕ → Shim ℤ) (mode b c d : ℕ) : Shim ℤ := do
  let mode ← vidMode mode
  let r ← sdk mode b c d
  Prog.whenever (loadbar = true) (loadbarPaint 0)
  pure r

/-- What the game is told. -/
inductive Told where
  | dip (reply : List UInt8)
  | monitor (record : List ℕ)
  | video (asked given : ℕ)

/-- It goes with the cable: bit 0 of the DIP byte, the monitor 0 or 1, and the class of the
mode. -/
def Told.Fits (d : Embedded) (vga : Bool) : Told → Prop
  | dip reply => reply = dipBytes d vga
  | monitor record => record = if vga then [1, 0, 0, 0] else [1, 2, 0, 1]
  | video asked given => given = if vga then asked else asked &&& (0xffffffff - 3)

/-- The four words of the monitor record. -/
def monitorRecord (m : Mem) : List ℕ :=
  [0x8c0c4518, 0x8c0c451c, 0x8c0c4520, 0x8c0c4524].map (ramWord m)

/-- Any number of calls that ask for the cable, in any order, and whatever else runs between
them: only `shim_cable_is_vga` writes its latch. -/
inductive CableRun (d : Embedded) (W : World Mem) (s : State Mem) :
    List Told → List (Event shimSig) → State Mem → Prop
  | start : CableRun d W s [] [] s
  | other {l : List Told} {tr : List (Event shimSig)} {s₁ s₂ : State Mem}
      (h : CableRun d W s l tr s₁)
      (hlatch : s₂.statics .cableLatch = s₁.statics .cableLatch) : CableRun d W s l tr s₂
  | dip {l : List Told} {tr tr₁ : List (Event shimSig)} {s₁ s₂ : State Mem} {rcv frame : ℕ}
      (h : CableRun d W s l tr s₁) (hlo : 0x0c000000 ≤ rcv) (hhi : rcv < 0x0e000000)
      (hexec : Exec (flatMachine W) (mapleReply d 0x31 rcv frame) s₁ tr₁ (.ret ()) s₂) :
      CableRun d W s (l ++ [.dip (ramBytes s₂.mem (p2Addr rcv) d.mieSub31.length)])
        (tr ++ tr₁) s₂
  | monitor {l : List Told} {tr tr₁ : List (Event shimSig)} {s₁ s₂ : State Mem} {r : ℤ}
      (h : CableRun d W s l tr s₁)
      (hexec : Exec (flatMachine W) shimMonitorSet s₁ tr₁ (.ret r) s₂) :
      CableRun d W s (l ++ [.monitor (monitorRecord s₂.mem)]) (tr ++ tr₁) s₂
  | video {l : List Told} {tr tr₁ : List (Event shimSig)} {s₁ s₂ : State Mem} {asked given : ℕ}
      (h : CableRun d W s l tr s₁)
      (hexec : Exec (flatMachine W) (vidMode asked) s₁ tr₁ (.ret given) s₂) :
      CableRun d W s (l ++ [.video asked given]) (tr ++ tr₁) s₂

section Calls

variable {W : World Mem} {s s' : State Mem} {tr : List (Event shimSig)}

/-- `shim_vid_init` asks before it calls the SDK. -/
theorem exec_vidMode {asked : ℕ} {o : Outcome shimSig ℕ}
    (h : Exec (flatMachine W) (vidMode asked) s tr o s') :
    ∃ vga, o = .ret (if vga = true then asked else asked &&& (0xffffffff - 3)) ∧
      Asked s tr vga s' := by
  rcases h.of_bind with ⟨e, -, hdies⟩ | ⟨tr₁, tr₂, vga, s₁, rfl, hask, hrest⟩
  · obtain ⟨vga, ho, -⟩ := exec_shimCableIsVga hdies
    cases ho
  · obtain ⟨vga', ho, -, hasked⟩ := exec_shimCableIsVga hask
    cases ho
    cases hrest
    rw [List.append_nil]
    exact ⟨vga, rfl, hasked⟩

/-- A store to RAM, and what comes after it. -/
theorem exec_store32_ram {α : Type} {a v : ℕ} {k : Unit → Shim α} {o : Outcome shimSig α}
    (ha : isRam a) (h : Exec (flatMachine W) (.op (Cmd.store32 .own a v) k) s tr o s') :
    ∃ s₁ tr₁, tr.countP isPortRead = tr₁.countP isPortRead ∧ s₁.statics = s.statics ∧
      s₁.mem = setBytes ramCell s.mem a (wordBytes v) ∧
      Exec (flatMachine W) (k ()) s₁ tr₁ o s' := by
  obtain ⟨_, s₁, tr₁, rfl, hstore, hrest⟩ := h.of_op
  obtain ⟨m, hm, rfl⟩ := (step_store32 ha).1 hstore
  refine ⟨_, tr₁, rfl, ?_, ?_, hrest⟩
  · rfl
  · exact flat_storeRun.1 hm

theorem ramWord_setBytes_far (m : Mem) {a b v : ℕ}
    (h : ∀ i < 4, ∀ j < 4, ramCell (a + j) ≠ ramCell (b + i)) :
    ramWord (setBytes ramCell m a (wordBytes v)) b = ramWord m b :=
  ramWord_congr fun i hi => setBytes_off ramCell m _ fun j hj => h i hi j (by simpa using hj)

/-- The record of the monitor. -/
theorem exec_shimMonitorSet {o : Outcome shimSig ℤ}
    (h : Exec (flatMachine W) shimMonitorSet s tr o s') :
    ∃ vga, o = .ret 0 ∧ Asked s tr vga s' ∧
      monitorRecord s'.mem = if vga = true then [1, 0, 0, 0] else [1, 2, 0, 1] := by
  rcases h.of_bind with ⟨e, -, hdies⟩ | ⟨tr₁, tr₂, vga, s₁, rfl, hask, h⟩
  · obtain ⟨_, ho, -⟩ := exec_shimCableIsVga hdies
    cases ho
  obtain ⟨vga', ho, -, hasked⟩ := exec_shimCableIsVga hask
  cases ho
  obtain ⟨s₃, tr₃, hcount₃, hs₃, hm₃, h₃⟩ := exec_store32_ram (by decide) h
  obtain ⟨s₄, tr₄, hcount₄, hs₄, hm₄, h₄⟩ := exec_store32_ram (by decide) h₃
  obtain ⟨s₅, tr₅, hcount₅, hs₅, hm₅, h₅⟩ := exec_store32_ram (by decide) h₄
  obtain ⟨s₆, tr₆, hcount₆, hs₆, hm₆, h₆⟩ := exec_store32_ram (by decide) h₅
  cases h₆
  have hcount : tr₂.countP isPortRead = 0 := by
    rw [hcount₃, hcount₄, hcount₅, hcount₆]
    rfl
  have hstatics : s'.statics = s₁.statics := by rw [hs₆, hs₅, hs₄, hs₃]
  have hall : Asked s ([] ++ (tr₁ ++ tr₂)) vga s' := hasked.extend rfl hstatics rfl hcount
  refine ⟨vga, rfl, hall, ?_⟩
  have hvga : ∀ v w : ℕ, v < 2 ^ 32 → w < 2 ^ 32 → (if vga = true then v else w) < 2 ^ 32 := by
    intro v w hv hw
    split
    · exact hv
    · exact hw
  have h4518 : ramWord s'.mem 0x8c0c4518 = 1 := by
    rw [hm₆, ramWord_setBytes _ (by decide)]
  have h4520 : ramWord s'.mem 0x8c0c4520 = 0 := by
    rw [hm₆, ramWord_setBytes_far _ (by decide), hm₅, ramWord_setBytes _ (by decide)]
  have h4524 : ramWord s'.mem 0x8c0c4524 = if vga = true then 0 else 1 := by
    rw [hm₆, ramWord_setBytes_far _ (by decide), hm₅, ramWord_setBytes_far _ (by decide), hm₄,
      ramWord_setBytes _ (hvga 0 1 (by decide) (by decide))]
  have h451c : ramWord s'.mem 0x8c0c451c = if vga = true then 0 else 2 := by
    rw [hm₆, ramWord_setBytes_far _ (by decide), hm₅, ramWord_setBytes_far _ (by decide), hm₄,
      ramWord_setBytes_far _ (by decide), hm₃,
      ramWord_setBytes _ (hvga 0 2 (by decide) (by decide))]
  simp only [monitorRecord, List.map_cons, List.map_nil, h4518, h451c, h4520, h4524]
  cases vga with
  | true => rfl
  | false => rfl

end Calls

/-- What holds after every run: before the first question nothing was told and the port was
not read; after it the port has been read once, and all that was told goes with it. -/
structure CableInv (d : Embedded) (l : List Told) (tr : List (Event shimSig)) (s : State Mem) :
    Prop where
  unset : 3 < s.statics .cableLatch → l = [] ∧ tr.countP isPortRead = 0
  set : s.statics .cableLatch ≤ 3 → ∃ r : ℕ, (⟨Cmd.load16 0xff800030, r⟩ : Event shimSig) ∈ tr ∧
    tr.countP isPortRead = 1 ∧ s.statics .cableLatch = (r >>> 8) &&& 3 ∧
      ∀ x ∈ l, x.Fits d (decide (s.statics .cableLatch = 0))

section Run

variable {d : Embedded} {W : World Mem} {s s₁ s₂ : State Mem} {l : List Told}
  {tr tr₁ : List (Event shimSig)}

/-- One more question. -/
theorem CableInv.ask {x : Told} {vga : Bool} (h : CableInv d l tr s₁) (hask : Asked s₁ tr₁ vga s₂)
    (hx : x.Fits d vga) : CableInv d (l ++ [x]) (tr ++ tr₁) s₂ := by
  rw [hask.answer] at hx
  by_cases hset : s₁.statics .cableLatch ≤ 3
  · obtain ⟨hlatch, hcount⟩ := hask.latched hset
    obtain ⟨r, hr, hone, hrlatch, hall⟩ := h.set hset
    refine ⟨fun hgt => absurd (hlatch ▸ hgt) (not_lt.2 hset), fun _ => ⟨r, ?_, ?_, ?_, ?_⟩⟩
    · exact List.mem_append_left _ hr
    · rw [List.countP_append, hone, hcount]
    · exact hlatch.trans hrlatch
    · intro y hy
      rcases List.mem_append.1 hy with hy | hy
      · rw [hlatch]
        exact hall y hy
      · rwa [List.mem_singleton.1 hy]
  · obtain ⟨rfl, hnone⟩ := h.unset (not_le.1 hset)
    obtain ⟨r, hr, hone, hrlatch⟩ := hask.reads (not_le.1 hset)
    have hle : s₂.statics .cableLatch ≤ 3 := hrlatch ▸ Nat.and_le_right
    refine ⟨fun hgt => absurd hle (not_le.2 hgt), fun _ => ⟨r, ?_, ?_, hrlatch, ?_⟩⟩
    · exact List.mem_append_right _ hr
    · rw [List.countP_append, hone, hnone]
    · intro y hy
      rwa [List.mem_singleton.1 hy]

theorem CableRun.inv (hs : 3 < s.statics .cableLatch) (h : CableRun d W s l tr s₁) :
    CableInv d l tr s₁ := by
  induction h with
  | start => exact ⟨fun _ => ⟨rfl, rfl⟩, fun hle => absurd hs (not_lt.2 hle)⟩
  | other _ hlatch ih =>
      refine ⟨fun hgt => ih.unset (hlatch ▸ hgt), fun hle => ?_⟩
      rw [hlatch]
      exact ih.set (hlatch ▸ hle)
  | dip _ hlo hhi hexec ih =>
      have hram := fun i (hi : i < d.mieSub31.length) =>
        isRam_reply hlo hhi (hi.le.trans (d.fits d.mieSub31 (by simp)))
      obtain ⟨vga, -, hask, hbytes, -⟩ := exec_dipReply hram hexec
      exact ih.ask hask hbytes
  | monitor _ hexec ih =>
      obtain ⟨vga, -, hask, hrecord⟩ := exec_shimMonitorSet hexec
      exact ih.ask hask hrecord
  | video _ hexec ih =>
      obtain ⟨vga, ho, hask⟩ := exec_vidMode hexec
      cases ho
      exact ih.ask hask rfl

/-- A whole `shim_vid_init` is a question and two things that leave the latch alone: the
SDK, which is part of the game, called with the mode that the game is told, and the bar. -/
theorem CableRun.vidInit {loadbar : Bool} {sdk : ℕ → ℕ → ℕ → ℕ → Shim ℤ} {asked x y z : ℕ}
    {r : ℤ} (h : CableRun d W s l tr s₁)
    (hexec : Exec (flatMachine W) (shimVidInit loadbar sdk asked x y z) s₁ tr₁ (.ret r) s₂)
    (hsdk : ∀ m s tr o s', Exec (flatMachine W) (sdk m x y z) s tr o s' →
      s'.statics .cableLatch = s.statics .cableLatch) :
    ∃ given tr₂ tr₃ t t', Exec (flatMachine W) (sdk given x y z) t tr₃ (.ret r) t' ∧
      CableRun d W s (l ++ [.video asked given]) (tr ++ tr₂) s₂ := by
  obtain ⟨tr₂, tr', given, t, rfl, hmode, hrest⟩ := hexec.ret_of_bind
  obtain ⟨tr₃, tr₄, r', t', rfl, hcall, hbar⟩ := hrest.ret_of_bind
  obtain ⟨tr₅, tr₆, u, t'', rfl, hpaint, hret⟩ := hbar.ret_of_bind
  cases hret
  have hkeeps : Keeps barGuard (Prog.whenever (loadbar = true) (loadbarPaint 0)) :=
    .whenever fun _ => loadbarPaint_keeps 0
  have hlatch : s₂.statics .cableLatch = t'.statics .cableLatch := by
    refine exec_static hpaint fun ev hev v hput => ?_
    have hcmd : BarCmd ev.cmd := hkeeps.exec_ret hpaint ev hev
    rw [hput] at hcmd
    cases hcmd
  exact ⟨given, tr₂, tr₃, t, t', hcall,
    .other (.video h hmode) (hlatch.trans (hsdk given _ _ _ _ hcall))⟩

/-- The game is told of one cable. In every run that starts with the latch unset, whatever
the port shows whenever it is read, it is read at most once; and once it has been, each DIP
reply, each monitor record and each mode goes with what it showed then. -/
theorem cable_told_once (hs : 3 < s.statics .cableLatch) (h : CableRun d W s l tr s₁) :
    (l = [] ∧ tr.countP isPortRead = 0) ∨
      ∃ r : ℕ, (⟨Cmd.load16 0xff800030, r⟩ : Event shimSig) ∈ tr ∧ tr.countP isPortRead = 1 ∧
        ∀ x ∈ l, x.Fits d (decide ((r >>> 8) &&& 3 = 0)) := by
  have hinv := h.inv hs
  rcases Nat.lt_or_ge 3 (s₁.statics .cableLatch) with hgt | hle
  · exact .inl (hinv.unset hgt)
  · obtain ⟨r, hr, hone, hlatch, hall⟩ := hinv.set hle
    rw [hlatch] at hall
    exact .inr ⟨r, hr, hone, hall⟩

/-- The game asks for the monitor and then for a mode; both answers are of the same cable. -/
theorem cable_told_once_sample :
    let s : State Mem := ⟨fun _ => 0, fun _ => 0xff, .idle, fun _ => 0⟩
    ∃ record given tr s₁, CableRun .blank Devices.absent.world s
        [.monitor record, .video 0x31 given] tr s₁ ∧ tr.countP isPortRead = 1 ∧
      (record = [1, 0, 0, 0] ∧ given = 0x31 ∨ record = [1, 2, 0, 1] ∧ given = 0x30) := by
  intro s
  have hD := Devices.absent.in_world
  have hmonitor := Devices.exec hD shimMonitorSet s
  obtain ⟨_, ho, -⟩ := exec_shimMonitorSet hmonitor
  rw [ho] at hmonitor
  have hvideo := Devices.exec hD (vidMode 0x31) (shimMonitorSet.run Devices.absent.answer s).2.2
  obtain ⟨vga, ho, -⟩ := exec_vidMode hvideo
  rw [ho] at hvideo
  have hrun := CableRun.video (d := .blank) (.monitor .start hmonitor) hvideo
  refine ⟨_, _, _, _, hrun, ?_⟩
  rcases cable_told_once (by decide) hrun with ⟨hl, -⟩ | ⟨r, -, hone, hall⟩
  · simp at hl
  · have hrecord := hall _ List.mem_cons_self
    have hgiven := hall _ (List.mem_cons_of_mem _ List.mem_cons_self)
    refine ⟨hone, ?_⟩
    by_cases hr : (r >>> 8) &&& 3 = 0
    · rw [decide_eq_true hr] at hrecord hgiven
      exact .inl ⟨hrecord, hgiven⟩
    · rw [decide_eq_false hr] at hrecord hgiven
      exact .inr ⟨hrecord, hgiven⟩

end Run

end Cfp2Dreamcast
