import Cfp2Dreamcast.Cart.Gd

/-!
# The cart service

`cart.c` without its compiled-out diagnostics. A request is split into a
partial head sector, whole sectors and a partial tail sector; head and tail go
through the bounce buffer, the whole sectors go straight to the destination, by
DMA when the build has it and the destination allows it.
-/

namespace Cfp2Dreamcast

open Program Memory

/-- `split_t`. The FADs are cart-relative sector indices. -/
structure Split where
  headFad : ℕ
  headSkip : ℕ
  headTake : ℕ
  bodyFad : ℕ
  bodySect : ℕ
  tailFad : ℕ
  tailTake : ℕ
  deriving DecidableEq, Repr

/-- The part of `cart_split` after the head: `len` bytes from sector `sec` on. -/
def Split.rest (headFad headSkip headTake sec len : ℕ) : Split where
  headFad := headFad
  headSkip := headSkip
  headTake := headTake
  bodyFad := sec
  bodySect := len / 2048
  tailFad := if len % 2048 = 0 then 0 else sec + len / 2048
  tailTake := len % 2048

def cartSplit (off len : ℕ) : Split :=
  let sec := off / 2048
  let skip := off % 2048
  if skip = 0 then .rest 0 0 0 sec len
  else
    let take := min (2048 - skip) len
    .rest sec skip take (sec + 1) (len - take)

def gdOrDie (b : Build) (dst relFad n : ℕ) : Shim Unit := do
  let r ← gdReadSectors b dst (b.cartFad + relFad) n
  if r < 0 then do
    let e ← getStatic .gdLastErr
    shimDie 4 relFad e
  else pure ()

def gdOrDieDma (b : Build) (p relFad n : ℕ) : Shim Unit := do
  let r ← gdReadSectorsDma b p (b.cartFad + relFad) n
  if r < 0 then do
    let e ← getStatic .gdLastErr
    shimDie 4 relFad e
  else pure ()

/-- The partial head or tail: one sector into the bounce buffer, and `take`
bytes of it, from `skip` on, to the destination. -/
def cartBounce (b : Build) (dst relFad skip take : ℕ) : Shim Unit := do
  gdOrDie b shimBounce relFad 1
  xmemcpy dst (shimBounce + skip) take

/-- The whole sectors go by DMA exactly when this holds. -/
def bodyByDma (b : Build) (bodyPhys : ℕ) : Prop :=
  b.gdDma = true ∧ bodyPhys &&& 31 = 0

instance (b : Build) (bodyPhys : ℕ) : Decidable (bodyByDma b bodyPhys) :=
  inferInstanceAs (Decidable (_ ∧ _))

def cartBody (b : Build) (dst bodyPhys relFad n : ℕ) : Shim Unit :=
  if bodyByDma b bodyPhys then gdOrDieDma b bodyPhys relFad n
  else gdOrDie b dst relFad n

def cartRead (b : Build) (off len destPhys : ℕ) : Shim Unit := do
  let dst := p2Addr destPhys
  let s := cartSplit off len
  Prog.whenever (s.headTake ≠ 0) (cartBounce b dst s.headFad s.headSkip s.headTake)
  let dst := dst + s.headTake
  Prog.whenever (s.bodySect ≠ 0)
    (cartBody b dst (destPhys + s.headTake) s.bodyFad s.bodySect)
  let dst := dst + s.bodySect * 2048
  Prog.whenever (s.tailTake ≠ 0) (cartBounce b dst s.tailFad 0 s.tailTake)

/-- The framebuffer of the current scanout and one of its pixels. -/
def fbBase : Shim ℕ := do
  let sof ← load32 .own 0xa05f8050
  pure (0xa5000000 + (sof &&& 0x00fffffc))

def fbStore (fb y x colour : ℕ) : Shim Unit :=
  store16 (fb + (y * 640 + x) * 2) colour

/-- Pixels `x`, `x + 1`, ... of row `y`, `n` of them; `paint` is the body of the
loop over the row. -/
def forPixels (x : ℕ) (paint : ℕ → Shim Unit) : ℕ → Shim Unit
  | 0 => pure ()
  | n + 1 => do
      paint x
      forPixels (x + 1) paint n

/-- The bar of `loadbar_paint`: outline rows, outline sides, fill and track. -/
def loadbarPaint (fill : ℕ) : Shim Unit := do
  let fill := if fill > 320 then 320 else fill
  let fb ← fbBase
  let yb := 417
  forPixels 158 (fun x => do
    fbStore fb (yb + 11) x 0
    fbStore fb yb x 0) (483 - 158)
  forPixels (yb + 1) (fun y => do
    fbStore fb y 482 0
    fbStore fb y 158 0) 10
  forPixels (yb + 3) (fun y =>
    forPixels 0 (fun x =>
      fbStore fb y (160 + x) (if x < fill then 0x7984 else 0)) 320) 6
  let vo ← load32 .own 0xa05f80e8
  store32 .own 0xa05f80e8 (vo &&& (0xffffffff - 8))

/-- `PB_TOTAL`. -/
def pbTotal : ℕ := 320 <<< 15

/-- The decoded request: offset, length and destination. -/
structure Request where
  off : ℕ
  len : ℕ
  dest : ℕ
  deriving DecidableEq, Repr

def decodeRequest (offH offL len star : ℕ) : Request where
  off := (((offH &&& 0xffff) <<< 16) ||| (offL &&& 0xffff)) &&& 0x0fffffff
  len := len
  dest := star &&& 0x1fffffff

/-- The guard of `shim_cart_service`, as the code computes it on 32-bit words. -/
def Request.refused (q : Request) : Prop :=
  q.len = 0 ∨ q.len > 0x01000000 ∨ u32 (q.off + q.len) > cartSize ∨
    q.dest &&& 0x1f000000 ≠ 0x0c000000 ∨
    u32 (q.dest + q.len) > shimBase &&& 0x1fffffff

instance (q : Request) : Decidable q.refused :=
  inferInstanceAs (Decidable (_ ∨ _))

/-- The progress bar after a served request of `len` bytes. -/
def loadbarStep (len : ℕ) : Shim Unit := do
  let left ← getStatic .pbLeft
  Prog.whenever (left ≠ 0) do
    let left' := if len ≥ left then 0 else left - len
    putStatic .pbLeft left'
    loadbarPaint ((pbTotal - left') >>> 15)

/-- `shim_cart_service` past its guard. -/
def serveRequest (b : Build) (q : Request) : Shim Unit := do
  cartRead b q.off q.len q.dest
  store32 .own (p2Addr g1Mirror + 0x418) 0
  Prog.whenever (b.loadbar = true) (loadbarStep q.len)

/-- The guard of `shim_cart_service` and what follows it. -/
def answerRequest (b : Build) (q : Request) : Shim Unit :=
  if q.refused then shimDie 2 q.off q.dest else serveRequest b q

def shimCartService (b : Build) : Shim Unit := do
  let m := p2Addr g1Mirror
  let offH ← load32 .own (m + 0x0c)
  let offL ← load32 .own (m + 0x10)
  let len ← load32 .own (m + 0x408)
  let star ← load32 .own (m + 0x404)
  answerRequest b (decodeRequest offH offL len star)

end Cfp2Dreamcast
