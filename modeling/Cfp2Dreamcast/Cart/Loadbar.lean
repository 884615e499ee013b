import Cfp2Dreamcast.Cart.Picture
import Cfp2Dreamcast.Cart.Progress

/-!
# The boot progress bar

`pb_left` counts down the bytes of the boot preload over all calls of the cart
service. A session is any number of calls that return. Its invariant is that
`pb_left` is what the bytes served so far leave of `PB_TOTAL`.
-/

namespace Cfp2Dreamcast

open Program Memory

/-- Nothing is stored to the picture. -/
def NoPaint (tr : List (Event shimSig)) : Prop := ∀ ev ∈ tr, ¬ PictureCmd ev.cmd

/-- The pixels of the bar by row and column: the outline, and 320 columns inside. -/
def BarBox (y x : ℕ) : Prop :=
  (y = 417 ∨ y = 428) ∧ 158 ≤ x ∧ x ≤ 482 ∨
    418 ≤ y ∧ y ≤ 427 ∧ (x = 158 ∨ x = 482) ∨
    420 ≤ y ∧ y ≤ 425 ∧ 160 ≤ x ∧ x ≤ 479

/-- Their colour: the first `fill` columns inside are lit, all else is black. -/
def barColour (fill y x : ℕ) : ℕ :=
  if 420 ≤ y ∧ y ≤ 425 ∧ 160 ≤ x ∧ x ≤ 479 ∧ x - 160 < fill then 0x7984 else 0

/-- The pixels that a trace stores. -/
def pixelStores : Event shimSig → List (ℕ × ℕ)
  | ⟨.store16 a v, _⟩ => [(a, v)]
  | _ => []

/-- The run leaves a bar with the given fill in the picture that is scanned out, whatever
was there before, and stores to no other pixel. -/
def Paints (fill : ℕ) (tr : List (Event shimSig)) : Prop :=
  ∃ sof : ℕ, (⟨Cmd.load32 .own 0xa05f8050, sof⟩ : Event shimSig) ∈ tr ∧
    (∀ pic y x, BarBox y x →
      shown pixelStores pic tr (fbPixel (scanout sof) y x) = barColour fill y x) ∧
    ∀ ev ∈ tr, PictureCmd ev.cmd →
      ∃ y x v, BarBox y x ∧ ev.cmd = .store16 (fbPixel (scanout sof) y x) v

/-- A run that paints is none that does not. -/
theorem Paints.not_noPaint {fill : ℕ} {tr : List (Event shimSig)} (h : Paints fill tr) :
    ¬ NoPaint tr := by
  intro hno
  obtain ⟨sof, -, hshown, -⟩ := h
  have hblank : ∀ pic : ℕ → ℕ, shown pixelStores pic tr = pic := by
    intro pic
    clear hshown
    induction tr generalizing pic with
    | nil => rfl
    | cons ev tr ih =>
        have hev : pixelStores ev = [] := by
          have hc := hno ev List.mem_cons_self
          obtain ⟨c, r⟩ := ev
          cases c with
          | store16 a v => exact absurd trivial hc
          | _ => rfl
        have hrest := ih (fun ev hev => hno ev (List.mem_cons_of_mem _ hev)) pic
        rw [shown, List.foldl_cons, hev]
        exact hrest
  -- a white pixel of the outline would stay white
  have hpixel := hshown (fun _ => 0x7fff) 417 158 (.inl ⟨.inl rfl, by decide⟩)
  rw [hblank] at hpixel
  revert hpixel
  unfold barColour
  rw [if_neg (by omega)]
  decide

/-- The commands of a paint on the picture at `fb`. -/
def PaintCmd (fb : ℕ) : Cmd → Prop
  | .store16 a _ => ∃ y x, BarBox y x ∧ a = fbPixel fb y x
  | .load32 _ a => a = 0xa05f80e8
  | .store32 _ a _ => a = 0xa05f80e8
  | _ => False

def paintGuard (fb : ℕ) : Guard shimSig := ⟨PaintCmd fb, fun _ => False, fun _ => False⟩

theorem PaintCmd.of_picture {fb : ℕ} {c : Cmd} (h : PaintCmd fb c) (hc : PictureCmd c) :
    ∃ y x v, BarBox y x ∧ c = .store16 (fbPixel fb y x) v := by
  cases c with
  | store16 a v =>
      obtain ⟨y, x, hbox, rfl⟩ := h
      exact ⟨y, x, v, hbox, rfl⟩
  | store32 o a v =>
      have hvideo : phys a / 2 ^ 26 = 1 := hc
      rw [show a = 0xa05f80e8 from h] at hvideo
      exact absurd hvideo (by decide)
  | store8 => exact h.elim
  | _ => exact hc.elim

section Paint

variable {W : World Mem} {s s' : State Mem} {tr : List (Event shimSig)} {fb fill : ℕ}

theorem keeps_fbStore {y x c : ℕ} (hbox : BarBox y x) :
    Keeps (paintGuard fb) (fbStore fb y x c) := .op ⟨y, x, hbox, rfl⟩ fun _ => trivial

/-- `loadbar_paint` once it knows the base: the loops, and the video is unblanked. -/
def paintBar (fb fill : ℕ) : Shim Unit := do
  forPixels 158 (fun x => do
    fbStore fb 428 x 0
    fbStore fb 417 x 0) 325
  forPixels 418 (fun y => do
    fbStore fb y 482 0
    fbStore fb y 158 0) 10
  forPixels 420 (fun y =>
    forPixels 0 (fun x =>
      fbStore fb y (160 + x) (if x < fill then 0x7984 else 0)) 320) 6
  let vo ← load32 .own 0xa05f80e8
  store32 .own 0xa05f80e8 (vo &&& (0xffffffff - 8))

theorem paintBar_keeps : Keeps (paintGuard fb) (paintBar fb fill) := by
  refine Keeps.bind (forPixels_keeps fun i hi => ?_) fun _ =>
    Keeps.bind (forPixels_keeps fun i hi => ?_) fun _ =>
      Keeps.bind (forPixels_keeps fun i hi => forPixels_keeps fun j hj => keeps_fbStore ?_)
        fun _ => .op rfl fun _ => .op rfl fun _ => trivial
  · exact Keeps.bind (keeps_fbStore (.inl ⟨.inr rfl, by omega, by omega⟩)) fun _ =>
      keeps_fbStore (.inl ⟨.inl rfl, by omega, by omega⟩)
  · exact Keeps.bind (keeps_fbStore (.inr (.inl ⟨by omega, by omega, .inr rfl⟩))) fun _ =>
      keeps_fbStore (.inr (.inl ⟨by omega, by omega, .inl rfl⟩))
  · exact .inr (.inr ⟨by omega, by omega, by omega, by omega⟩)

/-- The colour of a pixel of the bar by its address. -/
def barColourAt (fb fill a : ℕ) : ℕ :=
  barColour fill ((a - fb) / 2 / 640) ((a - fb) / 2 % 640)

theorem barColourAt_fbPixel {y x : ℕ} (hx : x < 640) :
    barColourAt fb fill (fbPixel fb y x) = barColour fill y x := by
  have hp : (fbPixel fb y x - fb) / 2 = y * 640 + x := by
    unfold fbPixel
    omega
  have hrow : (y * 640 + x) / 640 = y := by omega
  have hcol : (y * 640 + x) % 640 = x := by omega
  rw [barColourAt, hp, hrow, hcol]

theorem barColour_black {y x : ℕ} (h : ¬ (420 ≤ y ∧ y ≤ 425 ∧ 160 ≤ x ∧ x ≤ 479)) :
    barColour fill y x = 0 := if_neg fun hin => h ⟨hin.1, hin.2.1, hin.2.2.1, hin.2.2.2.1⟩

/-- The loops draw the bar. -/
theorem draws_paintBar {M : Machine shimSig (State Mem)} :
    Draws M pixelStores (fun a => ∃ y x, BarBox y x ∧ a = fbPixel fb y x)
      (barColourAt fb fill) (paintBar fb fill) := by
  have hblack : ∀ y x, x < 640 → ¬ (420 ≤ y ∧ y ≤ 425 ∧ 160 ≤ x ∧ x ≤ 479) →
      Draws M pixelStores (· = fbPixel fb y x) (barColourAt fb fill) (fbStore fb y x 0) :=
    fun y x hx hout => draws_fbStore (fun _ _ _ => rfl)
      ((barColourAt_fbPixel hx).trans (barColour_black hout)).symm
  have hinside : ∀ y x, 420 ≤ y → y < 426 → x < 320 →
      Draws M pixelStores (· = fbPixel fb y (160 + x)) (barColourAt fb fill)
        (fbStore fb y (160 + x) (if x < fill then 0x7984 else 0)) := by
    intro y x hlo hhi hx
    refine draws_fbStore (fun _ _ _ => rfl) ?_
    rw [barColourAt_fbPixel (by omega), barColour]
    exact if_congr (by omega) rfl rfl
  have hunblank : Draws M pixelStores (fun _ => False) (barColourAt fb fill) (do
      let vo ← load32 .own 0xa05f80e8
      store32 .own 0xa05f80e8 (vo &&& (0xffffffff - 8))) := by
    refine (Draws.op [] (fun _ => rfl) (by simp) fun _ =>
      Draws.op [] (fun _ => rfl) (by simp) fun _ => draws_ret ()).congr (fun a => ?_) fun _ _ => rfl
    simp
  refine ((draws_forPixels fun x hlo hhi => (hblack 428 x (by omega) (by omega)).bind fun _ =>
    hblack 417 x (by omega) (by omega)).bind fun _ =>
      (draws_forPixels fun y hlo hhi => (hblack y 482 (by omega) (by omega)).bind fun _ =>
        hblack y 158 (by omega) (by omega)).bind fun _ =>
          (draws_forPixels fun y hlo hhi => draws_forPixels fun x _ hx =>
            hinside y x hlo (by omega) (by omega)).bind fun _ =>
              hunblank).congr (fun a => ⟨?_, ?_⟩) fun _ _ => rfl
  · rintro (⟨x, hlo, hhi, rfl | rfl⟩ | ⟨y, hlo, hhi, rfl | rfl⟩ | ⟨y, hlo, hhi, x, -, hx, rfl⟩ | h)
    · exact ⟨428, x, .inl ⟨.inr rfl, hlo, by omega⟩, rfl⟩
    · exact ⟨417, x, .inl ⟨.inl rfl, hlo, by omega⟩, rfl⟩
    · exact ⟨y, 482, .inr (.inl ⟨hlo, by omega, .inr rfl⟩), rfl⟩
    · exact ⟨y, 158, .inr (.inl ⟨hlo, by omega, .inl rfl⟩), rfl⟩
    · exact ⟨y, 160 + x, .inr (.inr ⟨hlo, by omega, by omega, by omega⟩), rfl⟩
    · exact h.elim
  · rintro ⟨y, x, (⟨rfl | rfl, hlo, hhi⟩ | ⟨hlo, hhi, rfl | rfl⟩ | ⟨hlo, hhi, hx, hx'⟩), rfl⟩
    · exact .inl ⟨x, hlo, by omega, .inr rfl⟩
    · exact .inl ⟨x, hlo, by omega, .inl rfl⟩
    · exact .inr (.inl ⟨y, hlo, by omega, .inr rfl⟩)
    · exact .inr (.inl ⟨y, hlo, by omega, .inl rfl⟩)
    · obtain ⟨i, rfl⟩ := Nat.exists_eq_add_of_le hx
      exact .inr (.inr (.inl ⟨y, hlo, by omega, i, Nat.zero_le _, by omega, rfl⟩))

/-- The fill saturates. -/
theorem barColour_min (fill y x : ℕ) :
    barColour (if fill > 320 then 320 else fill) y x = barColour fill y x := by
  unfold barColour
  split_ifs <;> first | rfl | omega

/-- A paint leaves the bar. -/
theorem exec_loadbarPaint {o : Outcome shimSig Unit}
    (h : Exec (flatMachine W) (loadbarPaint fill) s tr o s') :
    Paints fill tr ∧ ∀ ev ∈ tr, ∀ x v, ev.cmd ≠ .put x v := by
  unfold loadbarPaint fbBase at h
  simp only [Prog.op_bind, Prog.ret_bind] at h
  obtain ⟨sof, s₁, rest, rfl, -, h⟩ := h.of_op
  have h : Exec (flatMachine W) (paintBar (scanout sof) (if fill > 320 then 320 else fill)) s₁
      rest o s' := h
  have hcmd : ∀ ev ∈ rest, PaintCmd (scanout sof) ev.cmd := fun ev hev =>
    (paintBar_keeps.exec h ev hev).resolve_right id
  refine ⟨⟨sof, by simp, fun pic y x hbox => ?_, fun ev hev hc => ?_⟩, fun ev hev x v hput => ?_⟩
  · have hx : x < 640 := by
      unfold BarBox at hbox
      omega
    rw [← barColour_min, ← barColourAt_fbPixel hx]
    exact ((draws_paintBar pic s₁ rest o s' h).2 _).1 ⟨y, x, hbox, rfl⟩
  · rcases List.mem_cons.1 hev with rfl | hev
    · exact hc.elim
    · exact (hcmd ev hev).of_picture hc
  · rcases List.mem_cons.1 hev with rfl | hev
    · cases hput
    · have := hcmd ev hev
      rw [hput] at this
      exact this

end Paint

section Call

variable {b : Build} {W : World Mem} {s s' : State Mem} {tr : List (Event shimSig)}

/-- What `pb_left` is after a request of `len` bytes. -/
def barLeft (left len : ℕ) : ℕ := if len ≥ left then 0 else left - len

/-- Counting down from `n`. -/
theorem barLeft_sub (n k len : ℕ) : barLeft (n - k) len = n - (k + len) := by
  unfold barLeft
  split <;> omega

theorem sub_sub_eq_min (n k : ℕ) : n - (n - k) = min k n := by omega

/-- What runs before a paint and is not seen. -/
theorem Paints.after {fill : ℕ} {before bar : List (Event shimSig)} (hno : NoPaint before)
    (h : Paints fill bar) : Paints fill (before ++ bar) := by
  obtain ⟨sof, hsof, hshown, honly⟩ := h
  refine ⟨sof, List.mem_append_right _ hsof, fun pic y x hbox => ?_, fun ev hev hc => ?_⟩
  · rw [shown_append]
    exact hshown _ y x hbox
  · rcases List.mem_append.1 hev with hev | hev
    · exact absurd hc (hno ev hev)
    · exact honly ev hev hc

theorem NoPaint.append {tr' : List (Event shimSig)} (h : NoPaint tr) (h' : NoPaint tr') :
    NoPaint (tr ++ tr') := fun ev hev =>
  (List.mem_append.1 hev).elim (h ev) (h' ev)

theorem NoPaint.cons {c : Cmd} {r : c.Resp} (hc : ¬ PictureCmd c) (h : NoPaint tr) :
    NoPaint (⟨c, r⟩ :: tr) := by
  intro ev hev
  rcases List.mem_cons.1 hev with rfl | hev
  · exact hc
  · exact h ev hev

theorem noPaint_nil : NoPaint [] := fun _ hev => absurd hev List.not_mem_nil

theorem exec_loadbarStep {len : ℕ}
    (h : Exec (flatMachine W) (loadbarStep len) s tr (.ret ()) s') :
    (s.statics .pbLeft = 0 ∧ NoPaint tr ∧ s'.statics .pbLeft = 0) ∨
      (s.statics .pbLeft ≠ 0 ∧ s'.statics .pbLeft = barLeft (s.statics .pbLeft) len ∧
        Paints ((pbTotal - barLeft (s.statics .pbLeft) len) >>> 15) tr) := by
  obtain ⟨left, s₁, tr₁, rfl, ⟨hleft, hs₁⟩, hrest⟩ := h.of_op
  subst hs₁
  have hwhen : Exec (flatMachine W) (Prog.whenever (left ≠ 0) (do
      putStatic .pbLeft (barLeft left len)
      loadbarPaint ((pbTotal - barLeft left len) >>> 15))) s₁ tr₁ (.ret ()) s' := hrest
  have hget : ¬ PictureCmd (.get .pbLeft) := id
  by_cases hz : s₁.statics .pbLeft = 0
  · rw [Prog.whenever_neg (by rw [hleft, hz]; decide)] at hwhen
    cases hwhen
    exact .inl ⟨hz, noPaint_nil.cons hget, hz⟩
  · rw [Prog.whenever_pos (by rw [hleft]; exact hz)] at hwhen
    obtain ⟨u, s₂, tr₂, rfl, hput, hbar⟩ := hwhen.of_op
    have hs₂ : s₂ = { s₁ with
        statics := Function.update s₁.statics .pbLeft (barLeft left len) } := hput
    obtain ⟨hpaints, hkeep⟩ := exec_loadbarPaint hbar
    rw [← hleft]
    refine .inr ⟨hleft ▸ hz, ?_, ?_⟩
    · rw [exec_static hbar fun ev hev v => hkeep ev hev _ v, hs₂]
      exact Function.update_self Static.pbLeft _ s₁.statics
    · exact hpaints.after (noPaint_nil.cons id |>.cons hget)

/-- The part of a served call before the bar. -/
theorem cartRead_noPaint {q : Request} (hq : ¬ q.bad) {u : Unit}
    (h : Exec (flatMachine W) (cartRead b q.off q.len q.dest) s tr (.ret u) s') :
    NoPaint tr ∧ s'.statics .pbLeft = s.statics .pbLeft := by
  have hacc := q.accepted hq
  have hcmd := (cartRead_keeps b hacc).exec_ret h
  refine ⟨fun ev hev hc => ?_, exec_static h fun ev hev v hc => ?_⟩
  · have hin := hcmd ev hev
    obtain ⟨c, r⟩ := ev
    cases c with
    | store16 a v => exact hin
    | store8 o a v =>
        have hrange : range (p2Addr q.dest) q.len a := hin.2
        obtain ⟨i, rfl⟩ := Nat.exists_eq_add_of_le hrange.1
        have hvideo : phys (p2Addr q.dest + i) / 2 ^ 26 = 1 := hc
        have hlow := hacc.low
        have hhigh := hacc.high
        have hlt := hrange.2
        rw [phys_p2Addr_add, phys_of_lt (by omega)] at hvideo
        omega
    | store32 o a v =>
        have hreg : ∀ a ∈ gdRegs, ¬ phys a / 2 ^ 26 = 1 := by decide
        exact hreg a hin.2 hc
    | _ => exact hc
  · have := hcmd ev hev
    rw [hc] at this
    cases this

/-- One call that returns. -/
theorem exec_shimCartService_bar (hbar : b.loadbar = true)
    (h : Exec (flatMachine W) (shimCartService b) s tr (.ret ()) s') :
    (s.statics .pbLeft = 0 ∧ NoPaint tr ∧ s'.statics .pbLeft = 0) ∨
      (s.statics .pbLeft ≠ 0 ∧
        s'.statics .pbLeft = barLeft (s.statics .pbLeft) (requestAt s.mem).len ∧
        Paints ((pbTotal - barLeft (s.statics .pbLeft) (requestAt s.mem).len) >>> 15) tr) := by
  obtain ⟨loads, tr', rfl, hloads, hanswer⟩ := (shimCartService_request b s).exec h
  have hgood : ¬ (requestAt s.mem).bad := by
    intro hbad
    unfold answerRequest at hanswer
    rw [if_pos ((requestAt_refused_iff s.mem).2 hbad)] at hanswer
    have hdies : Dooms ⟨DieCmd, DieCmd, fun _ => True⟩
        (shimDie 2 (requestAt s.mem).off (requestAt s.mem).dest : Shim Unit) :=
      dooms_shimDie (fun _ hc => hc) trivial
    obtain ⟨-, e, he, -⟩ := hdies.exec hanswer
    cases he
  unfold answerRequest at hanswer
  rw [if_neg (fun hr => hgood ((requestAt_refused_iff s.mem).1 hr))] at hanswer
  obtain ⟨e, he, -⟩ | ⟨tr₁, tr₂, u, s₁, rfl, hread, hrest⟩ := Exec.of_bind hanswer
  · cases he
  obtain ⟨hno, hleft⟩ := cartRead_noPaint hgood hread
  obtain ⟨u', s₂, tr₃, rfl, hstore, hwhen⟩ := hrest.of_op
  have hbarExec : Exec (flatMachine W) (loadbarStep (requestAt s.mem).len) s₂ tr₃
      (.ret ()) s' := by
    have := hwhen
    rwa [Prog.whenever_pos hbar] at this
  have hleft₂ : s₂.statics .pbLeft = s.statics .pbLeft := by
    rw [← hleft]
    have hram : isRam (p2Addr g1Mirror + 0x418) := by decide
    obtain ⟨m, -, rfl⟩ := (step_store32 hram).1 hstore
    rfl
  have hbefore : NoPaint (loads ++ (tr₁ ++ [⟨.store32 .own (p2Addr g1Mirror + 0x418) 0, u'⟩])) := by
    have hclear : ¬ PictureCmd (.store32 .own (p2Addr g1Mirror + 0x418) 0) := by
      show ¬ phys (p2Addr g1Mirror + 0x418) / 2 ^ 26 = 1
      decide
    refine NoPaint.append (fun ev hev hc => ?_) (hno.append (noPaint_nil.cons hclear))
    obtain ⟨a, ha⟩ := hloads ev hev
    rw [ha] at hc
    exact hc
  have htr : ∀ rest, loads ++ (tr₁ ++ ⟨.store32 .own (p2Addr g1Mirror + 0x418) 0, u'⟩ :: rest) =
      loads ++ (tr₁ ++ [⟨.store32 .own (p2Addr g1Mirror + 0x418) 0, u'⟩]) ++ rest := by
    intro rest
    simp
  rw [htr, ← hleft₂]
  exact (exec_loadbarStep hbarExec).imp (fun h => ⟨h.1, hbefore.append h.2.1, h.2.2⟩)
    fun h => ⟨h.1, h.2.1, h.2.2.after hbefore⟩

end Call

/-- Any number of calls that return, each with the length of its request and its
trace. Between two calls anything may happen, except to `pb_left`. -/
inductive Session (b : Build) (W : World Mem) (s : State Mem) :
    List (ℕ × List (Event shimSig)) → State Mem → Prop
  | start : Session b W s [] s
  | call {log : List (ℕ × List (Event shimSig))} {s₁ s₂ s₃ : State Mem}
      {tr : List (Event shimSig)} (h : Session b W s log s₁)
      (hleft : s₂.statics .pbLeft = s₁.statics .pbLeft)
      (hexec : Exec (flatMachine W) (shimCartService b) s₂ tr (.ret ()) s₃) :
      Session b W s (log ++ [((requestAt s₂.mem).len, tr)]) s₃

/-- `S_k`: the bytes of the first `k` requests. -/
def servedBytes (log : List (ℕ × List (Event shimSig))) (k : ℕ) : ℕ :=
  ((log.take k).map Prod.fst).sum

/-- The fill after the request with index `k`. -/
def fillOf (log : List (ℕ × List (Event shimSig))) (k : ℕ) : ℕ :=
  min (servedBytes log (k + 1)) pbTotal >>> 15

theorem servedBytes_succ {log : List (ℕ × List (Event shimSig))} {k : ℕ} (hk : k < log.length) :
    servedBytes log (k + 1) = servedBytes log k + log[k].1 := by
  unfold servedBytes
  rw [List.take_succ_eq_append_getElem hk, List.map_append, List.sum_append]
  simp

theorem servedBytes_append {log : List (ℕ × List (Event shimSig))}
    {x : ℕ × List (Event shimSig)} {k : ℕ} (hk : k ≤ log.length) :
    servedBytes (log ++ [x]) k = servedBytes log k := by
  unfold servedBytes
  rw [List.take_append_of_le_length hk]

theorem servedBytes_mono (log : List (ℕ × List (Event shimSig))) {j k : ℕ} (h : j ≤ k) :
    servedBytes log j ≤ servedBytes log k := by
  unfold servedBytes
  rw [← List.take_append_drop j (log.take k), List.take_take, Nat.min_eq_left h, List.map_append,
    List.sum_append]
  exact Nat.le_add_right _ _

section Session

variable {b : Build} {W : World Mem} {s s' : State Mem} {log : List (ℕ × List (Event shimSig))}

/-- The request with index `k` paints while the earlier ones left bytes to count. -/
def BarAt (log : List (ℕ × List (Event shimSig))) (k : ℕ) (tr : List (Event shimSig)) : Prop :=
  (servedBytes log k < pbTotal → Paints (fillOf log k) tr) ∧
    (pbTotal ≤ servedBytes log k → NoPaint tr)

/-- Every request of a session, and what is left to count. -/
theorem Session.invariant (hbar : b.loadbar = true) (hleft : s.statics .pbLeft = pbTotal)
    (h : Session b W s log s') :
    s'.statics .pbLeft = pbTotal - servedBytes log log.length ∧
      ∀ k, (hk : k < log.length) → BarAt log k log[k].2 := by
  induction h with
  | start => exact ⟨hleft, fun k hk => absurd hk (Nat.not_lt_zero k)⟩
  | @call log s₁ s₂ s₃ tr _ hkeep hexec ih =>
      obtain ⟨hinv, hall⟩ := ih
      rw [← hkeep] at hinv
      generalize hx : ((requestAt s₂.mem).len, tr) = x
      have hlen : (log ++ [x]).length = log.length + 1 := by simp
      have hlast : log.length < (log ++ [x]).length := by omega
      have hget : (log ++ [x])[log.length] = x := by simp
      have hbefore : servedBytes (log ++ [x]) log.length = servedBytes log log.length :=
        servedBytes_append le_rfl
      have hafter : servedBytes (log ++ [x]) (log.length + 1) =
          servedBytes log log.length + (requestAt s₂.mem).len := by
        rw [servedBytes_succ hlast, hbefore, hget, ← hx]
      have hfill : fillOf (log ++ [x]) log.length =
          (pbTotal - barLeft (s₂.statics .pbLeft) (requestAt s₂.mem).len) >>> 15 := by
        unfold fillOf
        rw [hafter, hinv, barLeft_sub, sub_sub_eq_min]
      have hnew : s₃.statics .pbLeft = pbTotal - servedBytes (log ++ [x]) (log.length + 1) ∧
          BarAt (log ++ [x]) log.length tr := by
        unfold BarAt
        rw [hbefore, hfill, hafter]
        rcases exec_shimCartService_bar hbar hexec with ⟨hz, hno, hz'⟩ | ⟨hnz, hnew, hpaint⟩
        · rw [hz] at hinv
          refine ⟨by omega, fun hlt => absurd hinv (by omega), fun _ => hno⟩
        · refine ⟨?_, fun _ => hpaint, fun hle => absurd hnz (by rw [hinv]; omega)⟩
          rw [hnew, hinv, barLeft_sub]
      refine ⟨by rw [hlen]; exact hnew.1, fun k hk => ?_⟩
      rcases Nat.lt_or_eq_of_le (Nat.le_of_lt_succ (hlen ▸ hk)) with hk' | rfl
      · have hold := hall k hk'
        unfold BarAt fillOf at hold ⊢
        rw [servedBytes_append hk'.le, servedBytes_append hk', List.getElem_append_left hk']
        exact hold
      · rw [hget, ← hx] at *
        exact hnew.2

/-- The bar over a session: the request with index `k` stores to the picture exactly while
the bytes before it do not reach `PB_TOTAL`, and then it paints the bar with the fill of
the bytes up to it. The fills never decrease nor exceed 320, the request that reaches
`PB_TOTAL` fills the bar, and every pixel stored is one of the bar at the scanout base
just read. -/
theorem loadbar_session (hbar : b.loadbar = true) (hleft : s.statics .pbLeft = pbTotal)
    (h : Session b W s log s') :
    (∀ k, (hk : k < log.length) →
      (servedBytes log k < pbTotal → Paints (fillOf log k) log[k].2) ∧
        (NoPaint log[k].2 ↔ pbTotal ≤ servedBytes log k)) ∧
    (∀ j k, j ≤ k → fillOf log j ≤ fillOf log k) ∧ (∀ k, fillOf log k ≤ 320) ∧
    (∀ k, pbTotal ≤ servedBytes log (k + 1) → fillOf log k = 320) ∧
    ∀ fill tr, Paints fill tr → ∀ ev ∈ tr, PictureCmd ev.cmd → ∃ sof y x v : ℕ,
      (⟨Cmd.load32 .own 0xa05f8050, sof⟩ : Event shimSig) ∈ tr ∧
        417 ≤ y ∧ y ≤ 428 ∧ 158 ≤ x ∧ x ≤ 482 ∧
          ev.cmd = .store16 (fbPixel (scanout sof) y x) v := by
  have htotal : pbTotal = 320 * 2 ^ 15 := by decide
  refine ⟨fun k hk => ?_, fun j k hjk => ?_, fun k => ?_, fun k hk => ?_, ?_⟩
  · obtain ⟨hpaints, hno⟩ := (h.invariant hbar hleft).2 k hk
    exact ⟨hpaints, fun hblank => not_lt.1 fun hlt => (hpaints hlt).not_noPaint hblank, hno⟩
  · have hmono := servedBytes_mono log (Nat.add_le_add_right hjk 1)
    unfold fillOf
    rw [Nat.shiftRight_eq_div_pow, Nat.shiftRight_eq_div_pow]
    exact Nat.div_le_div_right (by omega)
  · unfold fillOf
    rw [Nat.shiftRight_eq_div_pow]
    omega
  · unfold fillOf
    rw [Nat.shiftRight_eq_div_pow]
    omega
  · rintro fill tr ⟨sof, hsof, -, honly⟩ ev hev hc
    obtain ⟨y, x, v, hbox, hstore⟩ := honly ev hev hc
    unfold BarBox at hbox
    exact ⟨sof, y, x, v, hsof, by omega, by omega, by omega, by omega, hstore⟩

/-- A mirror that asks for 6 MB from the start of the cart. -/
def bootMirror : State Mem where
  mem := ofWords [(p2Addr g1Mirror + 0x408, 0x600000), (p2Addr g1Mirror + 0x404, 0x0c100000)]
  statics _ := pbTotal
  drive := .idle
  regs _ := 0

theorem requestAt_bootMirror : requestAt bootMirror.mem = ⟨0, 0x600000, 0x0c100000⟩ := by
  decide +kernel

/-- Another request of 6 MB, in a session that is not over. -/
theorem Session.boot (h : Session .gdi Devices.absent.world bootMirror log s) :
    ∃ tr s', Session .gdi Devices.absent.world bootMirror (log ++ [(0x600000, tr)]) s' := by
  have hgood : ¬ (requestAt bootMirror.mem).bad := by
    rw [← requestAt_refused_iff, requestAt_bootMirror]
    decide
  let s₁ : State Mem := { s with mem := bootMirror.mem, drive := .idle }
  have hgood₁ : ¬ (requestAt s₁.mem).bad := hgood
  have hidle : s₁.drive = .idle := rfl
  obtain ⟨tr, s', hexec, -⟩ := exists_served hidle hgood₁
  have hcall := h.call (show s₁.statics .pbLeft = s.statics .pbLeft from rfl) hexec
  rw [show requestAt s₁.mem = _ from requestAt_bootMirror] at hcall
  exact ⟨tr, s', hcall⟩

/-- Three requests of 6 MB: the first two paint, the second one fills the bar, and the third
one does not paint. -/
theorem loadbar_session_sample : ∃ tr tr' tr'' s',
    Session .gdi Devices.absent.world bootMirror [(0x600000, tr), (0x600000, tr'),
      (0x600000, tr'')] s' ∧ Paints 192 tr ∧ Paints 320 tr' ∧ NoPaint tr'' := by
  obtain ⟨tr, s₁, h₁⟩ := Session.boot .start
  obtain ⟨tr', s₂, h₂⟩ := h₁.boot
  obtain ⟨tr'', s₃, h₃⟩ := h₂.boot
  have hsession : Session .gdi Devices.absent.world bootMirror
    [(0x600000, tr), (0x600000, tr'), (0x600000, tr'')] s₃ := h₃
  have hbytes : ∀ k < 4, servedBytes [(0x600000, tr), (0x600000, tr'), (0x600000, tr'')] k =
      k * 0x600000 := by
    intro k hk
    interval_cases k <;> simp [servedBytes]
  have hbar := (loadbar_session rfl rfl hsession).1
  obtain ⟨hfirst, -⟩ := hbar 0 (Nat.zero_lt_succ 2)
  obtain ⟨hsecond, -⟩ := hbar 1 (Nat.succ_lt_succ (Nat.zero_lt_succ 1))
  obtain ⟨-, hthird⟩ := hbar 2 (Nat.lt_succ_self 2)
  rw [fillOf, hbytes 0 (by decide), hbytes 1 (by decide)] at hfirst
  rw [fillOf, hbytes 1 (by decide), hbytes 2 (by decide)] at hsecond
  rw [hbytes 2 (by decide)] at hthird
  exact ⟨tr, tr', tr'', s₃, hsession, hfirst (by decide), hsecond (by decide),
    hthird.2 (by decide)⟩

end Session

end Cfp2Dreamcast
