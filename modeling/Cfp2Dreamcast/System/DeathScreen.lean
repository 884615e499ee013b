import Cfp2Dreamcast.Cart.Picture
import Cfp2Dreamcast.Cart.Progress
import Mathlib.Tactic.IntervalCases

/-!
# The death screen

When the shim dies it fills the video memory with the colour of the code and paints the
code and two words over it as hexadecimal digits, for a television set is all there is to
see on real hardware. The digits can be read back off the pixels: whatever the words are
and wherever the picture is scanned out from, the screen says why the shim died.
-/

namespace Cfp2Dreamcast

open Program Memory

/-- `hexfont`. -/
def hexfont : List (List ℕ) := [
  [7, 5, 5, 5, 7], [2, 6, 2, 2, 7], [7, 1, 7, 4, 7], [7, 1, 7, 1, 7],
  [5, 5, 7, 1, 1], [7, 4, 7, 1, 7], [7, 4, 7, 5, 7], [7, 1, 2, 2, 2],
  [7, 5, 7, 5, 7], [7, 5, 7, 1, 7], [2, 5, 7, 5, 5], [6, 5, 6, 5, 6],
  [7, 4, 4, 4, 7], [6, 5, 5, 5, 6], [7, 4, 7, 4, 7], [7, 4, 7, 4, 4]]

/-- The glyph of the digit is set at the row and the column. -/
def fontBit (nib r c : ℕ) : Bool :=
  decide ((((hexfont.getD nib []).getD r 0) >>> (2 - c)) % 2 = 1)

/-- The digit `d` of the value, from the left. -/
def nibble (val d : ℕ) : ℕ := (val >>> ((7 - d) * 4)) % 16

/-- The body of the loops of `hex_paint_c`: one dot of a glyph, two pixels by two. -/
def hexDot (fb x y val fg bg d r c : ℕ) : Shim Unit := do
  let px := if fontBit (nibble val d) r c then fg else bg
  let pxX := x + d * 10 + c * 2
  let pxY := y + r * 2
  fbStore fb pxY pxX px
  fbStore fb pxY (pxX + 1) px
  fbStore fb (pxY + 1) pxX px
  fbStore fb (pxY + 1) (pxX + 1) px

def hexDots (fb x y val fg bg : ℕ) : Shim Unit :=
  forPixels 0 (fun d => forPixels 0 (fun r => forPixels 0 (fun c =>
    hexDot fb x y val fg bg d r c) 3) 5) 8

/-- `hex_paint_c`. -/
def hexPaintC (x y val fg bg : ℕ) : Shim Unit := do
  let vo ← load32 .own 0xa05f80e8
  store32 .own 0xa05f80e8 (vo &&& (0xffffffff - 8))
  let fb ← fbBase
  hexDots fb x y val fg bg

def hexPaint (x y val : ℕ) : Shim Unit := hexPaintC x y val 0x07ff 0x0000

/-- Two pixels of the colour of a code. -/
def dieFill (code : ℕ) : ℕ :=
  if code = 2 then 0xffe0ffe0
  else if code = 3 then 0xf81ff81f
  else if code = 4 then 0xf800f800
  else if code = 5 then 0x001f001f
  else 0x07ff07ff

/-- What `shim_die` paints, after the error block and before it loops for ever. -/
def diePaint (code a b : ℕ) : Shim Unit := do
  forPixels 0 (fun i => store32 .own (0xa5000000 + i * 4) (dieFill code)) (0x100000 / 4)
  hexPaint 20 100 code
  hexPaint 20 114 a
  hexPaint 20 128 b

/-! What is seen. -/

/-- The stores to the video memory, pixel by pixel. -/
def vramStores : Event shimSig → List (ℕ × ℕ)
  | ⟨.store16 a v, _⟩ => [(a, v)]
  | ⟨.store32 _ a v, _⟩ =>
      if 0xa5000000 ≤ a then [(a, v % 2 ^ 16), (a + 2, v / 2 ^ 16 % 2 ^ 16)] else []
  | _ => []

/-- The digit whose glyph the dots show. -/
def readDigit (pic : ℕ → ℕ) (fb x y d : ℕ) : Option ℕ :=
  (List.range 16).find? fun n => (List.range 5).all fun r => (List.range 3).all fun c =>
    decide (pic (fbPixel fb (y + r * 2) (x + d * 10 + c * 2)) = 0x07ff) == fontBit n r c

/-- The digits from the first one on. -/
def readDigits (pic : ℕ → ℕ) (fb x y : ℕ) : ℕ → Option ℕ
  | 0 => some 0
  | d + 1 => (readDigits pic fb x y d).bind fun hi =>
      (readDigit pic fb x y d).map fun lo => hi * 16 + lo

/-- The number that is painted at the place. -/
def readHex (pic : ℕ → ℕ) (fb x y : ℕ) : Option ℕ := readDigits pic fb x y 8

/-- The pixels of eight digits. -/
def HexBox (fb x y a : ℕ) : Prop :=
  ∃ d < 8, ∃ r < 5, ∃ c < 3, ∃ dy < 2, ∃ dx < 2,
    a = fbPixel fb (y + r * 2 + dy) (x + d * 10 + c * 2 + dx)

/-- The colour of a pixel of the digits. -/
def hexColour (fb x y val fg bg a : ℕ) : ℕ :=
  let p := (a - fb) / 2
  let col := p % 640 - x
  if fontBit (nibble val (col / 10)) ((p / 640 - y) / 2) (col % 10 / 2) then fg else bg

theorem hexColour_at {fb x y val fg bg d r c dy dx : ℕ} (hx : x + 80 ≤ 640) (hd : d < 8)
    (hc : c < 3) (hdy : dy < 2) (hdx : dx < 2) :
    hexColour fb x y val fg bg (fbPixel fb (y + r * 2 + dy) (x + d * 10 + c * 2 + dx)) =
      if fontBit (nibble val d) r c then fg else bg := by
  have hp : (fbPixel fb (y + r * 2 + dy) (x + d * 10 + c * 2 + dx) - fb) / 2 =
      (y + r * 2 + dy) * 640 + (x + d * 10 + c * 2 + dx) := by
    unfold fbPixel
    omega
  have hrow : ((y + r * 2 + dy) * 640 + (x + d * 10 + c * 2 + dx)) / 640 = y + r * 2 + dy := by
    omega
  have hcol : ((y + r * 2 + dy) * 640 + (x + d * 10 + c * 2 + dx)) % 640 - x =
      d * 10 + c * 2 + dx := by
    omega
  have hdigit : (d * 10 + c * 2 + dx) / 10 = d ∧ (d * 10 + c * 2 + dx) % 10 / 2 = c := by
    omega
  have hline : (y + r * 2 + dy - y) / 2 = r := by omega
  unfold hexColour
  dsimp only
  rw [hp, hrow, hcol, hdigit.1, hdigit.2, hline]

/-- The font tells the digits apart. -/
theorem fontBit_injective : ∀ m < 16, ∀ n < 16,
    (∀ r < 5, ∀ c < 3, fontBit m r c = fontBit n r c) → m = n := by
  decide

section Read

variable {pic : ℕ → ℕ} {fb x y val : ℕ}

/-- The dots of the value are on the screen. -/
def DotsShow (pic : ℕ → ℕ) (fb x y val : ℕ) : Prop :=
  ∀ d < 8, ∀ r < 5, ∀ c < 3, (pic (fbPixel fb (y + r * 2) (x + d * 10 + c * 2)) = 0x07ff ↔
    fontBit (nibble val d) r c = true)

theorem readDigit_eq (h : DotsShow pic fb x y val) {d : ℕ} (hd : d < 8) :
    readDigit pic fb x y d = some (nibble val d) := by
  have hlt : nibble val d < 16 := Nat.mod_lt _ (by decide)
  have hmatch : ∀ n, ((List.range 5).all fun r => (List.range 3).all fun c =>
      decide (pic (fbPixel fb (y + r * 2) (x + d * 10 + c * 2)) = 0x07ff) == fontBit n r c) = true ↔
      ∀ r < 5, ∀ c < 3, fontBit (nibble val d) r c = fontBit n r c := by
    intro n
    simp only [List.all_eq_true, List.mem_range, beq_iff_eq]
    refine forall₄_congr fun r hr c hc => ?_
    have hdot : decide (pic (fbPixel fb (y + r * 2) (x + d * 10 + c * 2)) = 0x07ff) =
        fontBit (nibble val d) r c := by
      rw [Bool.eq_iff_iff, decide_eq_true_iff]
      exact h d hd r hr c hc
    rw [hdot]
  unfold readDigit
  refine List.find?_range_eq_some.2 ⟨(hmatch _).2 fun _ _ _ _ => rfl, List.mem_range.2 hlt, ?_⟩
  intro n hn
  rw [Bool.not_eq_true', ← Bool.not_eq_true, hmatch n]
  intro heq
  exact hn.ne' (fontBit_injective _ hlt n (hn.trans hlt) heq)

theorem readHex_eq (h : DotsShow pic fb x y val) : readHex pic fb x y = some (val % 2 ^ 32) := by
  have hdigits : ∀ d ≤ 8, readDigits pic fb x y d = some (val / 16 ^ (8 - d) % 16 ^ d) := by
    intro d hd
    induction d with
    | zero => simp [readDigits, Nat.mod_one]
    | succ d ih =>
        obtain ⟨e, he⟩ : ∃ e, 8 - (d + 1) = e := ⟨_, rfl⟩
        have hnext : 8 - d = e + 1 := by omega
        have hnib : nibble val d = val / 16 ^ e % 16 := by
          unfold nibble
          rw [Nat.shiftRight_eq_div_pow, Nat.mul_comm, Nat.pow_mul, show 7 - d = e by omega]
        have hdiv : val / 16 ^ (e + 1) = val / 16 ^ e / 16 := by
          rw [Nat.pow_succ, Nat.div_div_eq_div_mul]
        rw [readDigits, ih (by omega), readDigit_eq h (by omega), hnext, he, hnib, hdiv,
          Nat.pow_succ, Nat.mul_comm (16 ^ d), Nat.mod_mul, Option.bind_some, Option.map_some,
          Nat.mul_comm, Nat.add_comm]
  have hall := hdigits 8 le_rfl
  rw [Nat.sub_self, Nat.pow_zero, Nat.div_one] at hall
  exact hall

end Read

/-! What is painted. -/

section Paint

variable {σ : Type} {M : Machine shimSig σ} {f : ℕ → ℕ}

variable {fb x y val fg bg : ℕ}

theorem draws_hexDot {d r c : ℕ} (hx : x + 80 ≤ 640) (hd : d < 8) (hc : c < 3) :
    Draws M vramStores
      (fun a => ∃ dy < 2, ∃ dx < 2, a = fbPixel fb (y + r * 2 + dy) (x + d * 10 + c * 2 + dx))
      (hexColour fb x y val fg bg) (hexDot fb x y val fg bg d r c) := by
  have hdot : ∀ dy < 2, ∀ dx < 2, Draws M vramStores
      (· = fbPixel fb (y + r * 2 + dy) (x + d * 10 + c * 2 + dx)) (hexColour fb x y val fg bg)
      (fbStore fb (y + r * 2 + dy) (x + d * 10 + c * 2 + dx)
        (if fontBit (nibble val d) r c then fg else bg)) :=
    fun dy hdy dx hdx =>
    draws_fbStore (fun _ _ _ => rfl) (hexColour_at hx hd hc hdy hdx).symm
  refine ((hdot 0 (by decide) 0 (by decide)).bind fun _ =>
    (hdot 0 (by decide) 1 (by decide)).bind fun _ =>
      (hdot 1 (by decide) 0 (by decide)).bind fun _ =>
        hdot 1 (by decide) 1 (by decide)).congr (fun a => ⟨?_, ?_⟩) fun _ _ => rfl
  · rintro (ha | ha | ha | ha)
    · exact ⟨0, by decide, 0, by decide, ha⟩
    · exact ⟨0, by decide, 1, by decide, ha⟩
    · exact ⟨1, by decide, 0, by decide, ha⟩
    · exact ⟨1, by decide, 1, by decide, ha⟩
  · rintro ⟨dy, hdy, dx, hdx, ha⟩
    interval_cases dy <;> interval_cases dx
    · exact .inl ha
    · exact .inr (.inl ha)
    · exact .inr (.inr (.inl ha))
    · exact .inr (.inr (.inr ha))

theorem draws_hexDots (hx : x + 80 ≤ 640) :
    Draws M vramStores (HexBox fb x y) (hexColour fb x y val fg bg)
      (hexDots fb x y val fg bg) := by
  refine (draws_forPixels fun d _ hd => draws_forPixels fun r _ _ => draws_forPixels fun c _ hc =>
    draws_hexDot hx (by omega) (by omega)).congr (fun a => ⟨?_, ?_⟩) fun _ _ => rfl
  · rintro ⟨d, -, hd, r, -, hr, c, -, hc, hdot⟩
    exact ⟨d, by omega, r, by omega, c, by omega, hdot⟩
  · rintro ⟨d, hd, r, hr, c, hc, hdot⟩
    exact ⟨d, by omega, by omega, r, by omega, by omega, c, by omega, by omega, hdot⟩

/-- What the digits are painted over stays, but for their box. -/
theorem shown_hexPaintC {s s' : σ} {tr : List (Event shimSig)} {o : Outcome shimSig Unit}
    (hx : x + 80 ≤ 640) (h : Exec M (hexPaintC x y val fg bg) s tr o s') : o = .ret () ∧
      ∃ sof : ℕ, (⟨Cmd.load32 .own 0xa05f8050, sof⟩ : Event shimSig) ∈ tr ∧ ∀ pic a,
        (HexBox (scanout sof) x y a →
          shown vramStores pic tr a = hexColour (scanout sof) x y val fg bg a) ∧
        (¬ HexBox (scanout sof) x y a → shown vramStores pic tr a = pic a) := by
  unfold hexPaintC fbBase at h
  simp only [Prog.op_bind, Prog.ret_bind, Prog.pure_eq] at h
  obtain ⟨vo, s₁, tr₁, rfl, -, h⟩ := h.of_op
  obtain ⟨_, s₂, tr₂, rfl, -, h⟩ := h.of_op
  obtain ⟨sof, s₃, tr₃, rfl, -, h⟩ := h.of_op
  have hdraw := fun pic => draws_hexDots hx pic s₃ tr₃ o s' h
  obtain ⟨⟨u, ho⟩, -⟩ := hdraw fun _ => 0
  refine ⟨ho, sof, by simp, fun pic a => ?_⟩
  exact (hdraw pic).2 a

/-- The first megabyte of the video memory, pixel by pixel. -/
def FillArea (a : ℕ) : Prop := 0xa5000000 ≤ a ∧ a < 0xa5100000 ∧ a % 2 = 0

theorem dieFill_halves (code : ℕ) :
    dieFill code / 2 ^ 16 % 2 ^ 16 = dieFill code % 2 ^ 16 := by
  unfold dieFill
  split_ifs <;> rfl

theorem vramStores_store32 {a v : ℕ} {r : Unit} (ha : 0xa5000000 ≤ a) :
    vramStores ⟨Cmd.store32 .own a v, r⟩ = [(a, v % 2 ^ 16), (a + 2, v / 2 ^ 16 % 2 ^ 16)] :=
  if_pos ha

theorem draws_fill (code : ℕ) : Draws M vramStores FillArea (fun _ => dieFill code % 2 ^ 16)
    (forPixels 0 (fun i => store32 .own (0xa5000000 + i * 4) (dieFill code)) (0x100000 / 4)) := by
  have hstore : ∀ i, Draws M vramStores (fun a => a = 0xa5000000 + i * 4 ∨ a = 0xa5000002 + i * 4)
      (fun _ => dieFill code % 2 ^ 16) (store32 .own (0xa5000000 + i * 4) (dieFill code)) := by
    intro i
    have hstores : ∀ r, vramStores ⟨Cmd.store32 .own (0xa5000000 + i * 4) (dieFill code), r⟩ =
        [(0xa5000000 + i * 4, dieFill code % 2 ^ 16),
          (0xa5000002 + i * 4, dieFill code % 2 ^ 16)] := by
      intro r
      have hnext : 0xa5000002 + i * 4 = 0xa5000000 + i * 4 + 2 := by omega
      rw [vramStores_store32 (Nat.le_add_right _ _), dieFill_halves, hnext]
    refine (Draws.op _ hstores (by simp) fun _ => draws_ret ()).congr (fun a => ?_) fun _ _ => rfl
    simp [eq_comm]
  refine (draws_forPixels fun i _ _ => hstore i).congr (fun a => ⟨?_, ?_⟩) fun _ _ => rfl
  · rintro ⟨i, -, hi, rfl | rfl⟩
    · exact ⟨by omega, by omega, by omega⟩
    · exact ⟨by omega, by omega, by omega⟩
  · rintro ⟨hlo, hhi, heven⟩
    refine ⟨(a - 0xa5000000) / 4, Nat.zero_le _, by omega, ?_⟩
    omega

/-- Digits that nothing else is painted over are read as the number. -/
theorem readHex_of_colour {pic : ℕ → ℕ} (hx : x + 80 ≤ 640)
    (hpic : ∀ a, HexBox fb x y a → pic a = hexColour fb x y val 0x07ff 0 a) :
    readHex pic fb x y = some (val % 2 ^ 32) := by
  refine readHex_eq fun d hd r hr c hc => ?_
  have hbox : HexBox fb x y (fbPixel fb (y + r * 2) (x + d * 10 + c * 2)) :=
    ⟨d, hd, r, hr, c, hc, 0, by decide, 0, by decide, rfl⟩
  have hcolour : hexColour fb x y val 0x07ff 0 (fbPixel fb (y + r * 2) (x + d * 10 + c * 2)) =
      if fontBit (nibble val d) r c then 0x07ff else 0 := by
    have hdot := @hexColour_at fb x y val 0x07ff 0 d r c 0 0 hx hd hc (by decide) (by decide)
    rwa [Nat.add_zero, Nat.add_zero] at hdot
  rw [hpic _ hbox, hcolour]
  by_cases hbit : fontBit (nibble val d) r c = true
  · rw [if_pos hbit]
    exact iff_of_true rfl hbit
  · rw [if_neg hbit]
    exact iff_of_false (by decide) hbit

/-- Boxes of the same picture on different lines do not meet. -/
theorem HexBox.apart {a y' : ℕ} (hy : y + 10 ≤ y' ∨ y' + 10 ≤ y)
    (h : HexBox fb x y a) : ¬ HexBox fb x y' a := by
  obtain ⟨d, hd, r, hr, c, hc, dy, hdy, dx, hdx, rfl⟩ := h
  rintro ⟨d', hd', r', hr', c', hc', dy', hdy', dx', hdx', heq⟩
  unfold fbPixel at heq
  omega

/-- The screen after the death of the shim. -/
structure ScreenShows (pic : ℕ → ℕ) (fb code a b : ℕ) : Prop where
  code_eq : readHex pic fb 20 100 = some (code % 2 ^ 32)
  first_eq : readHex pic fb 20 114 = some (a % 2 ^ 32)
  second_eq : readHex pic fb 20 128 = some (b % 2 ^ 32)
  /-- All around is the colour of the code. -/
  fill_eq : ∀ v, FillArea v → ¬ HexBox fb 20 100 v → ¬ HexBox fb 20 114 v → ¬ HexBox fb 20 128 v →
    pic v = dieFill code % 2 ^ 16

theorem diePaint_shows {s s' : σ} {tr : List (Event shimSig)} {o : Outcome shimSig Unit}
    {code a b sof : ℕ} (h : Exec M (diePaint code a b) s tr o s')
    (hsof : ∀ r : ℕ, (⟨Cmd.load32 .own 0xa05f8050, r⟩ : Event shimSig) ∈ tr → r = sof)
    (pic : ℕ → ℕ) : o = .ret () ∧ ScreenShows (shown vramStores pic tr) (scanout sof) code a b := by
  unfold diePaint at h
  rcases h.of_bind with ⟨e, -, hdies⟩ | ⟨tr₀, tr', u, s₀, rfl, hfill, h⟩
  · obtain ⟨⟨u, hu⟩, -⟩ := draws_fill code pic s tr _ s' hdies
    cases hu
  obtain ⟨-, hfill⟩ := draws_fill code pic s tr₀ _ s₀ hfill
  rcases h.of_bind with ⟨e, -, hdies⟩ | ⟨tr₁, tr', u, s₁, rfl, h₁, h⟩
  · cases (shown_hexPaintC (by decide) hdies).1
  obtain ⟨-, sof₁, hmem₁, h₁⟩ := shown_hexPaintC (by decide) h₁
  rcases h.of_bind with ⟨e, -, hdies⟩ | ⟨tr₂, tr₃, u, s₂, rfl, h₂, h₃⟩
  · cases (shown_hexPaintC (by decide) hdies).1
  obtain ⟨-, sof₂, hmem₂, h₂⟩ := shown_hexPaintC (by decide) h₂
  obtain ⟨ho, sof₃, hmem₃, h₃⟩ := shown_hexPaintC (by decide) h₃
  obtain rfl := hsof sof₁ (by simp [hmem₁])
  obtain rfl := hsof sof₂ (by simp [hmem₂])
  obtain rfl := hsof sof₃ (by simp [hmem₃])
  refine ⟨ho, ?_, ?_, ?_, fun v hv hv₁ hv₂ hv₃ => ?_⟩
  · refine readHex_of_colour (by decide) fun v hv => ?_
    rw [shown_append, shown_append, shown_append, (h₃ _ v).2 (hv.apart (.inl (by decide))),
      (h₂ _ v).2 (hv.apart (.inl (by decide))), (h₁ _ v).1 hv]
  · refine readHex_of_colour (by decide) fun v hv => ?_
    rw [shown_append, shown_append, shown_append, (h₃ _ v).2 (hv.apart (.inl (by decide))),
      (h₂ _ v).1 hv]
  · refine readHex_of_colour (by decide) fun v hv => ?_
    rw [shown_append, shown_append, shown_append, (h₃ _ v).1 hv]
  · rw [shown_append, shown_append, shown_append, (h₃ _ v).2 hv₃, (h₂ _ v).2 hv₂, (h₁ _ v).2 hv₁]
    exact (hfill v).1 hv

end Paint

/-- The commands of the screen. -/
def ScreenCmd : Cmd → Prop
  | .load32 _ a => ¬ isRam a
  | .store32 _ a _ => ¬ isRam a
  | .store16 a _ => ¬ isRam a
  | _ => False

def screenGuard : Guard shimSig := ⟨ScreenCmd, fun _ => False, fun _ => False⟩

theorem hexPaint_keeps {x y val : ℕ} (hx : x + 80 ≤ 640) (hy : y + 10 ≤ 480) :
    Keeps screenGuard (hexPaint x y val) := by
  have hvo : ¬ isRam 0xa05f80e8 := by decide
  have hsof : ¬ isRam 0xa05f8050 := by decide
  refine .op hvo fun _ => .op hvo fun _ => .op hsof fun (sof : ℕ) => ?_
  have hbase : sof &&& 0x00fffffc ≤ 0x00fffffc := Nat.and_le_right
  refine forPixels_keeps fun d hd => forPixels_keeps fun r hr => forPixels_keeps fun c hc => ?_
  have hdot : ∀ {yy xx v : ℕ}, yy < 480 → xx < 640 →
      Keeps screenGuard (fbStore (0xa5000000 + (sof &&& 0x00fffffc)) yy xx v) := by
    refine fun hyy hxx => .op (fun hram => ?_) fun _ => trivial
    unfold isRam phys at hram
    omega
  exact (hdot (by omega) (by omega)).bind fun _ => (hdot (by omega) (by omega)).bind fun _ =>
    (hdot (by omega) (by omega)).bind fun _ => hdot (by omega) (by omega)

theorem diePaint_keeps (code a b : ℕ) : Keeps screenGuard (diePaint code a b) := by
  refine (forPixels_keeps fun i hi => .op (fun hram => ?_) fun _ => keeps_ret _).bind fun _ =>
    (hexPaint_keeps (by decide) (by decide)).bind fun _ =>
      (hexPaint_keeps (by decide) (by decide)).bind fun _ => hexPaint_keeps (by decide) (by decide)
  unfold isRam phys at hram
  omega

/-- The screen is no part of RAM. -/
theorem screen_mem {α : Type} {W : World Mem} {p : Shim α} {s s' : State Mem}
    {tr : List (Event shimSig)} {o : Outcome shimSig α} (h : Exec (flatMachine W) p s tr o s')
    (htr : ∀ ev ∈ tr, ScreenCmd ev.cmd) : s'.mem = s.mem := by
  induction h with
  | ret a s => rfl
  | halt e s => rfl
  | @op c k s s₁ s₂ r tr o hstep hrest ih =>
      rw [ih fun ev hev => htr ev (List.mem_cons_of_mem _ hev)]
      have hcmd := htr _ List.mem_cons_self
      cases c with
      | load32 o a => rw [((step_load32_io hcmd).1 hstep).2]
      | store32 o a v => rw [(step_store32_io hcmd).1 hstep]
      | store16 a v => rw [(step_store16_io hcmd).1 hstep]
      | _ => exact hcmd.elim

/-- A call of the cart service that dies says so on the screen, wherever the picture is
scanned out from and whatever was on it: in the colour of the code, the code and the two
words that it died with. Code 2 goes with the offset and the destination of the request
that was refused, and codes 4 and 5 with a good request. -/
theorem death_screen_names_cause {b : Build} {W : World Mem} {s s' : State Mem}
    {tr : List (Event shimSig)} {e : Halt}
    (h : Exec (flatMachine W) (shimCartService b) s tr (.halt e) s') :
    ∃ code x y, e = .die code x y ∧
      ((requestAt s.mem).bad → code = 2 ∧ x = (requestAt s.mem).off ∧ y = (requestAt s.mem).dest) ∧
      (¬ (requestAt s.mem).bad → code = 4 ∨ code = 5) ∧
      ∀ tr' o t, Exec (flatMachine W) (diePaint code x y) s' tr' o t → ∀ sof : ℕ,
        (∀ r : ℕ, (⟨Cmd.load32 .own 0xa05f8050, r⟩ : Event shimSig) ∈ tr' → r = sof) →
          o = .ret () ∧ t.mem = s'.mem ∧
            ∀ pic, ScreenShows (shown vramStores pic tr') (scanout sof) code x y := by
  have hpaint : ∀ code x y tr' o t, Exec (flatMachine W) (diePaint code x y) s' tr' o t →
      ∀ sof : ℕ, (∀ r : ℕ, (⟨Cmd.load32 .own 0xa05f8050, r⟩ : Event shimSig) ∈ tr' → r = sof) →
        o = .ret () ∧ t.mem = s'.mem ∧
          ∀ pic, ScreenShows (shown vramStores pic tr') (scanout sof) code x y := by
    intro code x y tr' o t hexec sof hsof
    obtain ⟨rfl, -⟩ := diePaint_shows hexec hsof fun _ => 0
    exact ⟨rfl, screen_mem hexec ((diePaint_keeps code x y).exec_ret hexec),
      fun pic => (diePaint_shows hexec hsof pic).2⟩
  rcases code_of_halted h with ⟨hbad, rfl⟩ | ⟨hgood, x, y, rfl | rfl⟩
  · exact ⟨2, _, _, rfl, fun _ => ⟨rfl, rfl, rfl⟩, fun h => absurd hbad h, hpaint _ _ _⟩
  · exact ⟨4, x, y, rfl, fun h => absurd h hgood, fun _ => .inl rfl, hpaint _ _ _⟩
  · exact ⟨5, x, y, rfl, fun h => absurd h hgood, fun _ => .inr rfl, hpaint _ _ _⟩

/-- The empty request is refused, and the screen says so. -/
theorem death_screen_names_cause_sample :
    let s : State Mem := ⟨fun _ => 0, fun _ => 0, .idle, fun _ => 0⟩
    ∃ tr s' x y tr' t,
      Exec (flatMachine Devices.absent.world) (shimCartService .gdi) s tr (.halt (.die 2 x y)) s' ∧
      Exec (flatMachine Devices.absent.world) (diePaint 2 x y) s' tr' (.ret ()) t ∧
      readHex (shown vramStores (fun _ => 0) tr') 0xa5000000 20 100 = some 2 := by
  intro s
  have hbad : (requestAt s.mem).bad := by
    rw [← requestAt_refused_iff]
    decide
  have hD := Devices.absent.in_world
  have hexec := Devices.exec hD (shimCartService .gdi) s
  generalize (shimCartService .gdi).run Devices.absent.answer s = run at hexec
  obtain ⟨tr, o, s'⟩ := run
  cases o with
  | ret u => exact absurd hbad (good_of_returned hexec).1
  | halt e =>
      obtain ⟨code, x, y, rfl, hcode, -, hscreen⟩ := death_screen_names_cause hexec
      obtain ⟨rfl, -, -⟩ := hcode hbad
      have hpaint := Devices.exec hD (diePaint 2 x y) s'
      obtain ⟨ho, -, hshows⟩ := hscreen _ _ _ hpaint 0 fun r hr => by
        obtain ⟨t, ht⟩ := Prog.run_answers hr
        exact ht
      rw [ho] at hpaint
      exact ⟨tr, s', x, y, _, _, hexec, hpaint, (hshows fun _ => 0).code_eq⟩

end Cfp2Dreamcast
