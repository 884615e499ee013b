import Cfp2Dreamcast.Mastering.Disc
import Cfp2Dreamcast.Memory.Interleave

/-!
# Textures

The pixel tools around the disc art: `patch_gdtex` of `make_gdi.py` twiddles RGB565
pixels, `pvrview.py` decodes a PVR file and writes it as BMP, and `bmp2rgb565.py` turns
a BMP back into RGB565 pixels. `none` stands for an exception.
-/

namespace Cfp2Dreamcast

open Memory

/-- `struct.pack("<H", v)`. -/
def packH (v : ℕ) : List UInt8 := (wordBytes v).take 2

/-- `struct.unpack("<nH", data)`. -/
def halves : List UInt8 → List ℕ
  | lo :: hi :: bs => (lo.toNat + 2 ^ 8 * hi.toNat) :: halves bs
  | _ => []

/-! `patch_gdtex`. -/

/-- The entry `v` of the table `spread`. -/
def spread (v : ℕ) : ℕ := ((List.range 8).map fun b => ((v >>> b) &&& 1) <<< (2 * b)).sum

/-- One pixel of the twiddle loop. -/
def twiddlePixel (src dst : List UInt8) (p : ℕ × ℕ) : List UInt8 :=
  let ro := p.2 * 512
  let o := (spread p.2 ||| spread p.1 <<< 1) * 2
  (dst.set o (src.getD (ro + p.1 * 2) 0)).set (o + 1) (src.getD (ro + p.1 * 2 + 1) 0)

/-- The pixels `(x, y)` of a picture, row by row. -/
def pixels (w h : ℕ) : List (ℕ × ℕ) :=
  (List.range h).flatMap fun y => (List.range w).map fun x => (x, y)

def twiddle (src : List UInt8) : List UInt8 :=
  (pixels 256 256).foldl (twiddlePixel src) (List.replicate src.length 0)

/-! `pvrview.py`. -/

/-- Red, green and blue. -/
abbrev Rgb := ℕ × ℕ × ℕ

def detwiddleIndex (x y : ℕ) : ℕ :=
  (List.range 10).foldl (fun idx i =>
    idx ||| (((y >>> i) &&& 1) <<< (2 * i) ||| ((x >>> i) &&& 1) <<< (2 * i + 1))) 0

def pxToRgb (v fmt : ℕ) : Option Rgb :=
  if fmt = 0 then
    some (((v >>> 10) &&& 31) <<< 3, ((v >>> 5) &&& 31) <<< 3, (v &&& 31) <<< 3)
  else if fmt = 1 then
    some (((v >>> 11) &&& 31) <<< 3, ((v >>> 5) &&& 63) <<< 2, (v &&& 31) <<< 3)
  else if fmt = 2 then
    some (((v >>> 8) &&& 15) <<< 4, ((v >>> 4) &&& 15) <<< 4, (v &&& 15) <<< 4)
  else none

/-- The rows of a picture whose pixel at `(x, y)` is `get x y`. -/
def imageRows (w h fmt : ℕ) (get : ℕ → ℕ → Option ℕ) : Option (List (List Rgb)) :=
  (List.range h).mapM fun y => (List.range w).mapM fun x => (get x y).bind (pxToRgb · fmt)

/-- `decode` from the pixel data on. -/
def decodePixels (fmt typ w h : ℕ) (data : List UInt8) : Option (List (List Rgb)) :=
  if data.length < w * h * 2 then none
  else
    let px := halves (data.take (w * h * 2))
    if typ = 0x09 then imageRows w h fmt fun x y => px[y * w + x]?
    else if typ = 0x01 then
      if w = h then imageRows w h fmt fun x y => px[detwiddleIndex x y]? else none
    else none

/-- `decode`: the width, the height and the rows. -/
def decode (b : List UInt8) : Option (ℕ × ℕ × List (List Rgb)) :=
  match find b (asciiBytes "PVRT") 0 with
  | none => none
  | some o =>
      let hdr := (b.drop (o + 8)).take 8
      if hdr.length < 8 then none
      else
        let w := fromBytesLittle ((hdr.drop 4).take 2)
        let h := fromBytesLittle ((hdr.drop 6).take 2)
        (decodePixels (hdr.getD 0 0).toNat (hdr.getD 1 0).toNat w h (b.drop (o + 16))).map
          fun rows => (w, h, rows)

/-- `bytes((bl, g, r))`. -/
def bgr (c : Rgb) : List UInt8 := [UInt8.ofNat c.2.2, UInt8.ofNat c.2.1, UInt8.ofNat c.1]

/-- `(-w * 3) % 4`. -/
def bmpPad (w : ℕ) : ℕ := ((-(w : ℤ) * 3) % 4).toNat

def bmpHeader (w h n : ℕ) : List UInt8 :=
  asciiBytes "BM" ++ wordBytes (54 + n) ++ packH 0 ++ packH 0 ++ wordBytes 54 ++
    (wordBytes 40 ++ wordBytes w ++ wordBytes h ++ packH 1 ++ packH 24 ++ wordBytes 0 ++
      wordBytes n ++ wordBytes 2835 ++ wordBytes 2835 ++ wordBytes 0 ++ wordBytes 0)

/-- The file that `write_bmp` writes, unless a field of the header is too small. -/
def writeBmp (w h : ℕ) (rows : List (List Rgb)) : Option (List UInt8) :=
  match (List.range h).reverse.mapM fun y =>
      rows[y]?.map fun row => row.flatMap bgr ++ List.replicate (bmpPad w) 0 with
  | none => none
  | some blocks =>
      let body := blocks.flatten
      if 54 + body.length < 2 ^ 32 ∧ w < 2 ^ 31 ∧ h < 2 ^ 31 then
        some (bmpHeader w h body.length ++ body)
      else none

/-! `bmp2rgb565.py`. -/

/-- A little-endian field of `n` bytes. -/
def field (b : List UInt8) (a n : ℕ) : ℕ := fromBytesLittle ((b.drop a).take n)

/-- The value of a signed 32-bit field. -/
def signed (v : ℕ) : ℤ := if v < 2 ^ 31 then v else v - 2 ^ 32

/-- The RGB565 bytes of the pixel whose bytes start at `a`. -/
def bmpPixel (b : List UInt8) (a : ℕ) : Option (List UInt8) := do
  let bl ← b[a]?
  let g ← b[a + 1]?
  let r ← b[a + 2]?
  return packH ((r.toNat >>> 3) <<< 11 ||| (g.toNat >>> 2) <<< 5 ||| bl.toNat >>> 3)

/-- The file that `bmp2rgb565.py` writes for the expected size `ew`, `eh`. -/
def bmp2rgb565 (b : List UInt8) (ew eh : ℕ) : Option (List UInt8) :=
  let off := field b 0x0a 4
  let w := signed (field b 0x12 4)
  let h := signed (field b 0x16 4)
  let bpp := field b 0x1c 2
  let comp := field b 0x1e 4
  if b.take 2 = asciiBytes "BM" ∧ 0x22 ≤ b.length ∧ comp = 0 ∧ (bpp = 24 ∨ bpp = 32) ∧
      w = ew ∧ h.natAbs = eh then
    let px := bpp / 8
    let stride := (ew * px + 3) / 4 * 4
    let rows := if h > 0 then (List.range eh).reverse else List.range eh
    (rows.mapM fun y => ((List.range ew).mapM fun x =>
      bmpPixel b (off + y * stride + x * px)).map List.flatten).map List.flatten
  else none

section Lists

variable {α β : Type}

theorem mapM_eq_some_map {f : α → Option β} {g : α → β} {l : List α}
    (h : ∀ a ∈ l, f a = some (g a)) : l.mapM f = some (l.map g) := by
  induction l with
  | nil => rfl
  | cons a l ih =>
      rw [List.mapM_cons, h a List.mem_cons_self, ih fun b hb => h b (List.mem_cons_of_mem a hb)]
      rfl

/-- A position inside a list of blocks of one length. -/
theorem getElem?_flatten_block {blocks : List (List α)} {s k i : ℕ}
    (hs : ∀ block ∈ blocks, block.length = s) (hi : i < s) :
    blocks.flatten[k * s + i]? = blocks[k]?.bind fun block => block[i]? := by
  induction blocks generalizing k with
  | nil => simp
  | cons block blocks ih =>
      have hlen := hs block List.mem_cons_self
      rw [List.flatten_cons]
      cases k with
      | zero =>
          rw [Nat.zero_mul, Nat.zero_add, List.getElem?_append_left (by omega)]
          rfl
      | succ k =>
          rw [List.getElem?_append_right (by rw [hlen, Nat.succ_mul]; omega), hlen]
          have hsub : (k + 1) * s + i - s = k * s + i := by
            rw [Nat.succ_mul]
            omega
          rw [hsub, ih fun b hb => hs b (List.mem_cons_of_mem block hb)]
          rfl

theorem length_flatten_block {blocks : List (List α)} {s : ℕ}
    (hs : ∀ block ∈ blocks, block.length = s) : blocks.flatten.length = blocks.length * s := by
  induction blocks with
  | nil => simp
  | cons block blocks ih =>
      rw [List.flatten_cons, List.length_append, hs block List.mem_cons_self,
        ih fun b hb => hs b (List.mem_cons_of_mem block hb), List.length_cons, Nat.succ_mul,
        Nat.add_comm]

/-- Rows read in file order are the rows of the picture from the bottom up. -/
theorem map_reverse_range (h : ℕ) (f : ℕ → α) :
    (List.range h).reverse.map (fun y => f (h - 1 - y)) = (List.range h).map f := by
  apply List.ext_getElem?
  intro i
  rw [List.getElem?_map, List.getElem?_map]
  by_cases hi : i < h
  · rw [List.getElem?_reverse (by rw [List.length_range]; exact hi), List.length_range,
      List.getElem?_range (by omega), List.getElem?_range hi, Option.map_some, Option.map_some]
    congr 2
    omega
  · rw [List.getElem?_eq_none (by rw [List.length_reverse, List.length_range]; omega),
      List.getElem?_eq_none (by rw [List.length_range]; omega)]
    rfl

/-- A table read row by row is the table read in order. -/
theorem flatten_rows (w h : ℕ) (f : ℕ → List α) :
    ((List.range h).map fun y => ((List.range w).map fun x => f (y * w + x)).flatten).flatten =
      ((List.range (h * w)).map f).flatten := by
  induction h with
  | zero => simp
  | succ h ih =>
      rw [List.range_succ, List.map_append, List.flatten_append, ih, Nat.succ_mul,
        List.range_add, List.map_append, List.flatten_append, List.map_map]
      simp only [List.map_cons, List.map_nil, List.flatten_cons, List.flatten_nil,
        List.append_nil]
      rfl

end Lists

section Pixels

theorem halves_getElem? {bs : List UInt8} {i : ℕ} {lo hi : UInt8}
    (hlo : bs[2 * i]? = some lo) (hhi : bs[2 * i + 1]? = some hi) :
    (halves bs)[i]? = some (lo.toNat + 2 ^ 8 * hi.toNat) := by
  induction bs using halves.induct generalizing i with
  | case1 lo' hi' bs ih =>
      cases i with
      | zero =>
          cases hlo
          cases hhi
          rfl
      | succ i =>
          rw [halves, List.getElem?_cons_succ]
          refine ih ?_ ?_
          · simpa [Nat.mul_succ] using hlo
          · simpa [Nat.mul_succ] using hhi
  | case2 bs hbs =>
      match bs with
      | [] => cases hlo
      | [_] => simp at hhi
      | lo' :: hi' :: bs => exact absurd rfl (hbs lo' hi' bs)

theorem length_halves {bs : List UInt8} {n : ℕ} (h : bs.length = 2 * n) :
    (halves bs).length = n := by
  induction bs using halves.induct generalizing n with
  | case1 lo hi bs ih =>
      rw [halves, List.length_cons]
      rw [List.length_cons, List.length_cons] at h
      have := ih (n := n - 1) (by omega)
      omega
  | case2 bs hbs =>
      match bs with
      | [] =>
          rw [List.length_nil] at h
          have : n = 0 := by omega
          subst this
          rfl
      | [_] =>
          rw [List.length_singleton] at h
          omega
      | lo :: hi :: bs => exact absurd rfl (hbs lo hi bs)

theorem packH_half (lo hi : UInt8) : packH (lo.toNat + 2 ^ 8 * hi.toNat) = [lo, hi] := by
  have h1 := lo.toNat_lt
  have h2 := hi.toNat_lt
  have hdiv : (lo.toNat + 2 ^ 8 * hi.toNat) / 2 ^ 8 = hi.toNat := by omega
  have hmod : UInt8.ofNat (lo.toNat + 2 ^ 8 * hi.toNat) = lo := by
    apply UInt8.toNat_inj.1
    rw [UInt8.toNat_ofNat']
    omega
  rw [packH, wordBytes, hdiv, hmod, UInt8.ofNat_toNat]
  rfl

theorem flatten_packH_halves {bs : List UInt8} {n : ℕ} (h : bs.length = 2 * n) :
    ((halves bs).map packH).flatten = bs := by
  induction bs using halves.induct generalizing n with
  | case1 lo hi bs ih =>
      rw [List.length_cons, List.length_cons] at h
      rw [halves, List.map_cons, List.flatten_cons, packH_half, ih (n := n - 1) (by omega)]
      rfl
  | case2 bs hbs =>
      match bs with
      | [] => rfl
      | [_] =>
          rw [List.length_singleton] at h
          omega
      | lo :: hi :: bs => exact absurd rfl (hbs lo hi bs)

theorem halves_lt {bs : List UInt8} {v : ℕ} (h : v ∈ halves bs) : v < 2 ^ 16 := by
  induction bs using halves.induct with
  | case1 lo hi bs ih =>
      rw [halves] at h
      rcases List.mem_cons.1 h with rfl | h
      · have h1 := lo.toNat_lt
        have h2 := hi.toNat_lt
        omega
      · exact ih h
  | case2 bs hbs =>
      match bs with
      | [] => cases h
      | [_] => cases h
      | lo :: hi :: bs => exact absurd rfl (hbs lo hi bs)

/-- The components of an RGB565 pixel. -/
def rgb565 (v : ℕ) : Rgb :=
  (((v >>> 11) &&& 31) <<< 3, ((v >>> 5) &&& 63) <<< 2, (v &&& 31) <<< 3)

theorem pxToRgb_one (v : ℕ) : pxToRgb v 1 = some (rgb565 v) := rfl

theorem rgb565_lt (v : ℕ) :
    (rgb565 v).1 < 2 ^ 8 ∧ (rgb565 v).2.1 < 2 ^ 8 ∧ (rgb565 v).2.2 < 2 ^ 8 := by
  have h31 : ∀ x : ℕ, x &&& 31 < 32 := fun x => Nat.lt_succ_of_le Nat.and_le_right
  have h63 : ∀ x : ℕ, x &&& 63 < 64 := fun x => Nat.lt_succ_of_le Nat.and_le_right
  have h1 := h31 (v >>> 11)
  have h2 := h63 (v >>> 5)
  have h3 := h31 v
  refine ⟨?_, ?_, ?_⟩ <;> simp only [rgb565, Nat.shiftLeft_eq] <;> omega

/-- The components shifted back are the pixel. -/
theorem rgb565_back {v : ℕ} (hv : v < 2 ^ 16) :
    ((rgb565 v).1 >>> 3) <<< 11 ||| ((rgb565 v).2.1 >>> 2) <<< 5 ||| (rgb565 v).2.2 >>> 3 = v := by
  refine Nat.eq_of_testBit_eq fun i => ?_
  simp only [rgb565]
  have h31 : (31 : ℕ) = 2 ^ 5 - 1 := rfl
  have h63 : (63 : ℕ) = 2 ^ 6 - 1 := rfl
  rw [h31, h63]
  simp only [Nat.testBit_or, Nat.testBit_shiftLeft, Nat.testBit_shiftRight, Nat.testBit_and,
    Nat.testBit_two_pow_sub_one]
  by_cases h16 : i < 16
  · interval_cases i <;> simp
  · have hbit : ∀ k, i ≤ k → v.testBit k = false := fun k hk =>
      Nat.testBit_lt_two_pow (hv.trans_le (Nat.pow_le_pow_right (by decide) (by omega)))
    have h11 : ¬ i - 11 < 5 := by omega
    have h5 : ¬ i - 5 < 6 := by omega
    have h0 : ¬ i < 5 := by omega
    simp [h11, h5, h0, hbit i le_rfl]

end Pixels

section Bmp

/-- The bytes of a row of the file. -/
def bmpStride (w : ℕ) : ℕ := (w * 3 + 3) / 4 * 4

theorem mul_three_add_bmpPad (w : ℕ) : w * 3 + bmpPad w = bmpStride w := by
  unfold bmpPad bmpStride
  omega

theorem fromBytesLittle_wordBytes {v : ℕ} (hv : v < 2 ^ 32) :
    fromBytesLittle (wordBytes v) = v := by
  simp only [wordBytes, fromBytesLittle, UInt8.toNat_ofNat']
  omega

theorem fromBytesLittle_packH {v : ℕ} (hv : v < 2 ^ 16) : fromBytesLittle (packH v) = v := by
  simp only [packH, wordBytes, List.take_succ_cons, List.take_zero, fromBytesLittle,
    UInt8.toNat_ofNat']
  omega

variable {w h : ℕ} {c : ℕ → ℕ → Rgb}

/-- The rows of a picture given by its pixels. -/
def rowsOf (w h : ℕ) (c : ℕ → ℕ → Rgb) : List (List Rgb) :=
  (List.range h).map fun y => (List.range w).map fun x => c x y

/-- A row of the file. -/
def bmpRow (w : ℕ) (c : ℕ → ℕ → Rgb) (y : ℕ) : List UInt8 :=
  ((List.range w).map fun x => bgr (c x y)).flatten ++ List.replicate (bmpPad w) 0

theorem length_bmpRow (y : ℕ) : (bmpRow w c y).length = bmpStride w := by
  rw [bmpRow, List.length_append, length_flatten_block (s := 3), List.length_map,
    List.length_range, List.length_replicate, mul_three_add_bmpPad]
  intro block hblock
  obtain ⟨x, -, rfl⟩ := List.mem_map.1 hblock
  rfl

def bmpBody (w h : ℕ) (c : ℕ → ℕ → Rgb) : List UInt8 :=
  ((List.range h).reverse.map (bmpRow w c)).flatten

theorem bmpBody_rows {block : List UInt8}
    (hblock : block ∈ (List.range h).reverse.map (bmpRow w c)) :
    block.length = bmpStride w := by
  obtain ⟨y, -, rfl⟩ := List.mem_map.1 hblock
  exact length_bmpRow y

theorem length_bmpBody : (bmpBody w h c).length = h * bmpStride w := by
  rw [bmpBody, length_flatten_block fun _ => bmpBody_rows, List.length_map, List.length_reverse,
    List.length_range]

theorem writeBmp_rowsOf (hw : w < 2 ^ 16) (hh : h < 2 ^ 16) :
    writeBmp w h (rowsOf w h c) =
      if 54 + h * bmpStride w < 2 ^ 32 then
        some (bmpHeader w h (h * bmpStride w) ++ bmpBody w h c)
      else none := by
  have hblocks : ((List.range h).reverse.mapM fun y => (rowsOf w h c)[y]?.map fun row =>
      row.flatMap bgr ++ List.replicate (bmpPad w) 0) =
        some ((List.range h).reverse.map (bmpRow w c)) := by
    refine mapM_eq_some_map fun y hy => ?_
    have hy : y < h := List.mem_range.1 (List.mem_reverse.1 hy)
    rw [rowsOf, List.getElem?_map, List.getElem?_range hy, Option.map_some, Option.map_some,
      List.flatMap_def, List.map_map]
    rfl
  have hbody : ((List.range h).reverse.map (bmpRow w c)).flatten = bmpBody w h c := rfl
  unfold writeBmp
  rw [hblocks]
  simp only [hbody, length_bmpBody]
  by_cases hfit : 54 + h * bmpStride w < 2 ^ 32
  · rw [if_pos ⟨hfit, by omega, by omega⟩, if_pos hfit]
  · rw [if_neg fun h => hfit h.1, if_neg hfit]

/-- A byte of the body: row `y` of the file is row `h - 1 - y` of the picture. -/
theorem bmpBody_getElem? {x y i : ℕ} (hx : x < w) (hy : y < h) (hi : i < 3) :
    (bmpBody w h c)[y * bmpStride w + x * 3 + i]? = (bgr (c x (h - 1 - y)))[i]? := by
  have hlen : x * 3 + i < w * 3 := by omega
  have hstride : w * 3 ≤ bmpStride w := by
    rw [← mul_three_add_bmpPad]
    exact Nat.le_add_right _ _
  have hrow : ((List.range h).reverse.map (bmpRow w c))[y]? = some (bmpRow w c (h - 1 - y)) := by
    rw [List.getElem?_map, List.getElem?_reverse (by rwa [List.length_range]),
      List.length_range, List.getElem?_range (by omega), Option.map_some]
  have hthree : ∀ block ∈ (List.range w).map fun x => bgr (c x (h - 1 - y)),
      block.length = 3 := by
    intro block hblock
    obtain ⟨x', -, rfl⟩ := List.mem_map.1 hblock
    rfl
  rw [Nat.add_assoc, bmpBody, getElem?_flatten_block (fun _ => bmpBody_rows) (by omega), hrow,
    Option.bind_some, bmpRow, List.getElem?_append_left, getElem?_flatten_block hthree hi,
    List.getElem?_map, List.getElem?_range hx, Option.map_some, Option.bind_some]
  rw [length_flatten_block hthree, List.length_map, List.length_range]
  exact hlen

theorem length_bmpHeader (n : ℕ) : (bmpHeader w h n).length = 54 := rfl

theorem bmpPixel_bmpBody {n x y : ℕ} (hx : x < w) (hy : y < h)
    (hlt : ∀ x y, (c x y).1 < 2 ^ 8 ∧ (c x y).2.1 < 2 ^ 8 ∧ (c x y).2.2 < 2 ^ 8) :
    bmpPixel (bmpHeader w h n ++ bmpBody w h c) (54 + y * bmpStride w + x * 3) =
      some (packH (((c x (h - 1 - y)).1 >>> 3) <<< 11 ||| ((c x (h - 1 - y)).2.1 >>> 2) <<< 5 |||
        (c x (h - 1 - y)).2.2 >>> 3)) := by
  have hbyte : ∀ i < 3, (bmpHeader w h n ++ bmpBody w h c)[54 + y * bmpStride w + x * 3 + i]? =
      (bgr (c x (h - 1 - y)))[i]? := by
    intro i hi
    rw [List.getElem?_append_right (by rw [length_bmpHeader]; omega), length_bmpHeader,
      ← bmpBody_getElem? hx hy hi]
    congr 1
    omega
  obtain ⟨h1, h2, h3⟩ := hlt x (h - 1 - y)
  have h0 := hbyte 0 (by decide)
  rw [Nat.add_zero] at h0
  unfold bmpPixel
  rw [h0, hbyte 1 (by decide), hbyte 2 (by decide)]
  simp only [bgr, List.getElem?_cons_zero, List.getElem?_cons_succ, Option.bind_eq_bind,
    Option.bind_some, UInt8.toNat_ofNat', Nat.mod_eq_of_lt h1, Nat.mod_eq_of_lt h2,
    Nat.mod_eq_of_lt h3]
  rfl

/-- The file that `write_bmp` writes is read back as the pixels it was given. -/
theorem bmp2rgb565_bmpBody (hw : w < 2 ^ 16) (hh : h < 2 ^ 16)
    (hlt : ∀ x y, (c x y).1 < 2 ^ 8 ∧ (c x y).2.1 < 2 ^ 8 ∧ (c x y).2.2 < 2 ^ 8) {n : ℕ} :
    bmp2rgb565 (bmpHeader w h n ++ bmpBody w h c) w h =
      some ((List.range h).map fun y => ((List.range w).map fun x =>
        packH (((c x y).1 >>> 3) <<< 11 ||| ((c x y).2.1 >>> 2) <<< 5 |||
          (c x y).2.2 >>> 3)).flatten).flatten := by
  have hoff : field (bmpHeader w h n ++ bmpBody w h c) 0x0a 4 = 54 :=
    fromBytesLittle_wordBytes (v := 54) (by decide)
  have hwf : field (bmpHeader w h n ++ bmpBody w h c) 0x12 4 = w :=
    fromBytesLittle_wordBytes (by omega)
  have hhf : field (bmpHeader w h n ++ bmpBody w h c) 0x16 4 = h :=
    fromBytesLittle_wordBytes (by omega)
  have hbpp : field (bmpHeader w h n ++ bmpBody w h c) 0x1c 2 = 24 :=
    fromBytesLittle_packH (v := 24) (by decide)
  have hcomp : field (bmpHeader w h n ++ bmpBody w h c) 0x1e 4 = 0 :=
    fromBytesLittle_wordBytes (v := 0) (by decide)
  have hlen : 0x22 ≤ (bmpHeader w h n ++ bmpBody w h c).length := by
    rw [List.length_append, length_bmpHeader]
    omega
  have hsigned : ∀ {v : ℕ}, v < 2 ^ 16 → signed v = v := fun hv => if_pos (by omega)
  have hrows : (if (signed h) > 0 then (List.range h).reverse else List.range h) =
      (List.range h).reverse := by
    rw [hsigned hh]
    split
    · rfl
    · have : h = 0 := by omega
      subst this
      rfl
  unfold bmp2rgb565
  simp only [hoff, hwf, hhf, hbpp, hcomp]
  rw [if_pos ⟨rfl, hlen, trivial, .inl trivial, hsigned hw, by rw [hsigned hh]; rfl⟩, hrows]
  have hread : ((List.range h).reverse.mapM fun y => ((List.range w).mapM fun x =>
      bmpPixel (bmpHeader w h n ++ bmpBody w h c)
        (54 + y * ((w * (24 / 8) + 3) / 4 * 4) + x * (24 / 8))).map List.flatten) =
      some ((List.range h).reverse.map fun y => ((List.range w).map fun x =>
        packH (((c x (h - 1 - y)).1 >>> 3) <<< 11 ||| ((c x (h - 1 - y)).2.1 >>> 2) <<< 5 |||
          (c x (h - 1 - y)).2.2 >>> 3)).flatten) := by
    refine mapM_eq_some_map fun y hy => ?_
    have hy : y < h := List.mem_range.1 (List.mem_reverse.1 hy)
    have hpixel : ∀ x ∈ List.range w, bmpPixel (bmpHeader w h n ++ bmpBody w h c)
        (54 + y * ((w * (24 / 8) + 3) / 4 * 4) + x * (24 / 8)) = some (packH
          (((c x (h - 1 - y)).1 >>> 3) <<< 11 ||| ((c x (h - 1 - y)).2.1 >>> 2) <<< 5 |||
            (c x (h - 1 - y)).2.2 >>> 3)) := fun x hx =>
      bmpPixel_bmpBody (List.mem_range.1 hx) hy hlt
    rw [mapM_eq_some_map hpixel]
    rfl
  rw [hread, Option.map_some]
  exact congrArg (fun rows => some (List.flatten rows)) (map_reverse_range h fun y =>
    ((List.range w).map fun x => packH (((c x y).1 >>> 3) <<< 11 |||
      ((c x y).2.1 >>> 2) <<< 5 ||| (c x y).2.2 >>> 3)).flatten)

end Bmp

section Decode

/-- A PVRT header; the length field is not read. -/
def pvrHeader (len : ℕ) (fmt typ : UInt8) (w h : ℕ) : List UInt8 :=
  asciiBytes "PVRT" ++ wordBytes len ++ [fmt, typ, 0, 0] ++ packH w ++ packH h

theorem find_zero {xs pat : List UInt8} (h : occursAt xs pat 0 = true) :
    find xs pat 0 = some 0 := by
  rw [find, Nat.sub_zero, List.range'_succ, List.find?_cons_of_pos h]

variable {len w h : ℕ} {fmt typ : UInt8} {data : List UInt8}

theorem decode_pvrHeader (hw : w < 2 ^ 16) (hh : h < 2 ^ 16) :
    decode (pvrHeader len fmt typ w h ++ data) =
      (decodePixels fmt.toNat typ.toNat w h data).map fun rows => (w, h, rows) := by
  have hfind : find (pvrHeader len fmt typ w h ++ data) (asciiBytes "PVRT") 0 = some 0 :=
    find_zero (by
      rw [occursAt, List.drop_zero, List.isPrefixOf_iff_prefix, pvrHeader]
      simp only [List.append_assoc]
      exact List.prefix_append _ _)
  have hhdr : ((pvrHeader len fmt typ w h ++ data).drop (0 + 8)).take 8 =
      [fmt, typ, 0, 0] ++ packH w ++ packH h := rfl
  have hdata : (pvrHeader len fmt typ w h ++ data).drop (0 + 16) = data := rfl
  have hwf : fromBytesLittle ((([fmt, typ, 0, 0] ++ packH w ++ packH h).drop 4).take 2) = w :=
    fromBytesLittle_packH hw
  have hhf : fromBytesLittle ((([fmt, typ, 0, 0] ++ packH w ++ packH h).drop 6).take 2) = h :=
    fromBytesLittle_packH hh
  unfold decode
  rw [hfind]
  simp only [hhdr, hdata, hwf, hhf]
  rfl

/-- The pixel with index `i`. -/
def pixelAt (data : List UInt8) (i : ℕ) : ℕ := (halves data).getD i 0

theorem halves_eq_pixelAt {n i : ℕ} (hdata : data.length = 2 * n) (hi : i < n) :
    (halves data)[i]? = some (pixelAt data i) := by
  have hlt : i < (halves data).length := by rwa [length_halves hdata]
  rw [pixelAt, List.getD_eq_getElem?_getD, List.getElem?_eq_getElem hlt]
  rfl

theorem imageRows_one {get : ℕ → ℕ → Option ℕ} {v : ℕ → ℕ → ℕ}
    (hget : ∀ x < w, ∀ y < h, get x y = some (v x y)) :
    imageRows w h 1 get = some (rowsOf w h fun x y => rgb565 (v x y)) := by
  refine mapM_eq_some_map fun y hy => mapM_eq_some_map fun x hx => ?_
  rw [hget x (List.mem_range.1 hx) y (List.mem_range.1 hy)]
  rfl

/-- The picture whose pixels are the data in order. -/
def pictureOf (w h : ℕ) (data : List UInt8) : List (List Rgb) :=
  rowsOf w h fun x y => rgb565 (pixelAt data (y * w + x))

theorem index_lt {x y : ℕ} (hx : x < w) (hy : y < h) : y * w + x < w * h := by
  calc y * w + x < y * w + w := by omega
    _ = (y + 1) * w := (Nat.succ_mul y w).symm
    _ ≤ h * w := Nat.mul_le_mul_right w hy
    _ = w * h := Nat.mul_comm h w

theorem decodePixels_rectangle (hdata : data.length = w * h * 2) :
    decodePixels 1 0x09 w h data = some (pictureOf w h data) := by
  rw [decodePixels, if_neg (by omega), List.take_of_length_le (by omega), if_pos rfl]
  exact imageRows_one fun x hx y hy =>
    halves_eq_pixelAt (n := w * h) (by omega) (index_lt hx hy)

/-- Writing a picture as BMP and converting it gives the pixel bytes. -/
theorem bmp_of_picture (hw : w < 2 ^ 16) (hh : h < 2 ^ 16) (hdata : data.length = w * h * 2) :
    bmp2rgb565 (bmpHeader w h (h * bmpStride w) ++
      bmpBody w h fun x y => rgb565 (pixelAt data (y * w + x))) w h = some data := by
  have hlen : data.length = 2 * (w * h) := by omega
  rw [bmp2rgb565_bmpBody hw hh fun x y => rgb565_lt _]
  have hpacked : ((List.range h).map fun y => ((List.range w).map fun x =>
      packH (((rgb565 (pixelAt data (y * w + x))).1 >>> 3) <<< 11 |||
        ((rgb565 (pixelAt data (y * w + x))).2.1 >>> 2) <<< 5 |||
          (rgb565 (pixelAt data (y * w + x))).2.2 >>> 3)).flatten) =
      (List.range h).map fun y => ((List.range w).map fun x =>
        packH (pixelAt data (y * w + x))).flatten := by
    refine List.map_congr_left fun y hy => congrArg List.flatten (List.map_congr_left ?_)
    intro x hx
    have hi := halves_eq_pixelAt hlen (index_lt (List.mem_range.1 hx) (List.mem_range.1 hy))
    rw [rgb565_back (halves_lt (List.mem_of_getElem? hi))]
  have hall : (List.range (h * w)).map (fun i => packH (pixelAt data i)) =
      (halves data).map packH := by
    apply List.ext_getElem?
    intro i
    rw [List.getElem?_map, List.getElem?_map]
    by_cases hi : i < w * h
    · rw [List.getElem?_range (by rwa [Nat.mul_comm]), halves_eq_pixelAt hlen hi]
      rfl
    · rw [List.getElem?_eq_none (by rw [List.length_range, Nat.mul_comm]; omega),
        List.getElem?_eq_none (by rw [length_halves hlen]; omega)]
      rfl
  rw [hpacked, flatten_rows w h fun i => packH (pixelAt data i), hall,
    flatten_packH_halves hlen]

end Decode

section Twiddle

theorem sum_eq_evenBits (n v : ℕ) :
    ((List.range n).map fun b => ((v >>> b) &&& 1) <<< (2 * b)).sum = evenBits n v := by
  induction n with
  | zero => rfl
  | succ n ih =>
      rw [List.range_succ, List.map_append, List.sum_append, ih, evenBits,
        Nat.shiftLeft_eq (bitAt v n), or_high_eq_add (evenBits_lt n v), List.map_cons, List.map_nil,
        List.sum_singleton, Nat.shiftLeft_eq]
      rfl

theorem detwiddle_eq_interleave (n x y : ℕ) :
    (List.range n).foldl (fun idx i =>
      idx ||| (((y >>> i) &&& 1) <<< (2 * i) ||| ((x >>> i) &&& 1) <<< (2 * i + 1))) 0 =
      interleave n x y := by
  induction n with
  | zero => simp [interleave, evenBits]
  | succ n ih =>
      rw [List.range_succ, List.foldl_append, ih]
      simp only [List.foldl_cons, List.foldl_nil, interleave, evenBits, bitAt,
        Nat.shiftLeft_or_distrib, ← Nat.shiftLeft_add]
      ac_rfl

theorem evenBits_of_lt {n v : ℕ} (hv : v < 2 ^ n) (k : ℕ) : evenBits (n + k) v = evenBits n v := by
  refine Nat.eq_of_testBit_eq fun j => ?_
  rw [testBit_evenBits, testBit_evenBits]
  by_cases hj : j / 2 < n
  · have hj' : j / 2 < n + k := by omega
    simp [hj, hj']
  · rw [Nat.testBit_lt_two_pow (hv.trans_le (Nat.pow_le_pow_right (by decide) (not_lt.1 hj)))]
    simp

theorem spread_eq_evenBits (v : ℕ) : spread v = evenBits 8 v := sum_eq_evenBits 8 v

theorem detwiddleIndex_eq (x y : ℕ) : detwiddleIndex x y = interleave 10 x y :=
  detwiddle_eq_interleave 10 x y

/-- Both tools order the pixels of the disc art in the same way. -/
theorem detwiddleIndex_eq_spread {x y : ℕ} (hx : x < 256) (hy : y < 256) :
    detwiddleIndex x y = (spread y ||| spread x <<< 1) := by
  rw [detwiddleIndex_eq, interleave, spread_eq_evenBits, spread_eq_evenBits,
    evenBits_of_lt (n := 8) (by omega) 2, evenBits_of_lt (n := 8) (by omega) 2]

theorem detwiddleIndex_bijOn {k : ℕ} (hk : k ≤ 10) :
    Set.BijOn (fun p : ℕ × ℕ => detwiddleIndex p.1 p.2)
      (Set.Iio (2 ^ k) ×ˢ Set.Iio (2 ^ k)) (Set.Iio (2 ^ k * 2 ^ k)) := by
  simp only [detwiddleIndex_eq]
  exact interleave_bijOn hk

/-- The pixel of the twiddled data at the index of `p`. -/
def twiddleIndex (p : ℕ × ℕ) : ℕ := spread p.2 ||| spread p.1 <<< 1

theorem twiddleIndex_eq (p : ℕ × ℕ) : twiddleIndex p = interleave 8 p.1 p.2 := by
  rw [twiddleIndex, spread_eq_evenBits, spread_eq_evenBits, interleave]

theorem twiddleIndex_lt {p : ℕ × ℕ} (hx : p.1 < 256) (hy : p.2 < 256) :
    twiddleIndex p < 65536 := by
  rw [twiddleIndex_eq]
  exact interleave_lt (k := 8) hx hy

theorem twiddleIndex_inj {p q : ℕ × ℕ} (hp : p.1 < 256 ∧ p.2 < 256) (hq : q.1 < 256 ∧ q.2 < 256)
    (h : twiddleIndex p = twiddleIndex q) : p = q := by
  rw [twiddleIndex_eq, twiddleIndex_eq] at h
  obtain ⟨hx, hy⟩ := interleave_injective (n := 8) hp.1 hp.2 hq.1 hq.2 h
  exact Prod.ext hx hy

variable {src dst : List UInt8} {q : ℕ × ℕ} {i : ℕ}

theorem length_twiddlePixel (p : ℕ × ℕ) : (twiddlePixel src dst p).length = dst.length := by
  rw [twiddlePixel, List.length_set, List.length_set]

theorem twiddlePixel_eq (p : ℕ × ℕ) : twiddlePixel src dst p =
    (dst.set (twiddleIndex p * 2) (src.getD (p.2 * 512 + p.1 * 2) 0)).set
      (twiddleIndex p * 2 + 1) (src.getD (p.2 * 512 + p.1 * 2 + 1) 0) := rfl

theorem twiddlePixel_self (hq : twiddleIndex q * 2 + 1 < dst.length) (hi : i < 2) :
    (twiddlePixel src dst q)[twiddleIndex q * 2 + i]? =
      some (src.getD (q.2 * 512 + q.1 * 2 + i) 0) := by
  rw [twiddlePixel_eq]
  have hi : i = 0 ∨ i = 1 := by omega
  rcases hi with rfl | rfl
  · simp only [Nat.add_zero]
    rw [List.getElem?_set_ne (by omega), List.getElem?_set_self (by omega)]
  · rw [List.getElem?_set_self (by rw [List.length_set]; exact hq)]

theorem twiddlePixel_ne {p : ℕ × ℕ} (hne : twiddleIndex p ≠ twiddleIndex q) (hi : i < 2) :
    (twiddlePixel src dst p)[twiddleIndex q * 2 + i]? = dst[twiddleIndex q * 2 + i]? := by
  rw [twiddlePixel_eq, List.getElem?_set_ne (by omega), List.getElem?_set_ne (by omega)]

/-- After the loop over `ps` the pixels of `ps` are those of the source. -/
theorem foldl_twiddlePixel {ps : List (ℕ × ℕ)} (hps : ∀ p ∈ ps, p.1 < 256 ∧ p.2 < 256)
    (hq : q.1 < 256 ∧ q.2 < 256) (hlen : twiddleIndex q * 2 + 1 < dst.length) (hi : i < 2) :
    (ps.foldl (twiddlePixel src) dst)[twiddleIndex q * 2 + i]? =
      if q ∈ ps then some (src.getD (q.2 * 512 + q.1 * 2 + i) 0)
      else dst[twiddleIndex q * 2 + i]? := by
  induction ps generalizing dst with
  | nil => simp
  | cons p ps ih =>
      rw [List.foldl_cons, ih (fun p' hp' => hps p' (List.mem_cons_of_mem p hp'))
        (by rwa [length_twiddlePixel])]
      by_cases hmem : q ∈ ps
      · rw [if_pos hmem, if_pos (List.mem_cons_of_mem p hmem)]
      · rw [if_neg hmem]
        by_cases hpq : q = p
        · subst hpq
          rw [if_pos List.mem_cons_self, twiddlePixel_self hlen hi]
        · have hcons : q ∉ p :: ps := fun h => (List.mem_cons.1 h).elim hpq hmem
          rw [if_neg hcons, twiddlePixel_ne (fun h => hpq ?_) hi]
          exact (twiddleIndex_inj (hps p List.mem_cons_self) hq h).symm

theorem length_twiddle : (twiddle src).length = src.length := by
  have hfold : ∀ (ps : List (ℕ × ℕ)) (dst : List UInt8),
      (ps.foldl (twiddlePixel src) dst).length = dst.length := by
    intro ps
    induction ps with
    | nil => exact fun _ => rfl
    | cons p ps ih => exact fun dst => (ih _).trans (length_twiddlePixel p)
  rw [twiddle, hfold, List.length_replicate]

theorem mem_pixels {w h : ℕ} {p : ℕ × ℕ} : p ∈ pixels w h ↔ p.1 < w ∧ p.2 < h := by
  simp only [pixels, List.mem_flatMap, List.mem_map, List.mem_range]
  constructor
  · rintro ⟨y, hy, x, hx, rfl⟩
    exact ⟨hx, hy⟩
  · rintro ⟨hx, hy⟩
    exact ⟨p.2, hy, p.1, hx, rfl⟩

theorem halves_twiddle (hsrc : src.length = 256 * 256 * 2) (hq : q.1 < 256 ∧ q.2 < 256) :
    (halves (twiddle src))[twiddleIndex q]? = some (pixelAt src (q.2 * 256 + q.1)) := by
  have hidx := twiddleIndex_lt hq.1 hq.2
  have hbyte : ∀ i < 2, (twiddle src)[2 * twiddleIndex q + i]? =
      some (src.getD (2 * (q.2 * 256 + q.1) + i) 0) := by
    intro i hi
    have hcomm : 2 * twiddleIndex q = twiddleIndex q * 2 := Nat.mul_comm _ _
    have hpos : 2 * (q.2 * 256 + q.1) = q.2 * 512 + q.1 * 2 := by omega
    rw [hcomm, hpos, twiddle, foldl_twiddlePixel (fun p hp => mem_pixels.1 hp) hq
      (by rw [List.length_replicate]; omega) hi, if_pos (mem_pixels.2 hq)]
  have hsrc_byte : ∀ i < 2, src[2 * (q.2 * 256 + q.1) + i]? =
      some (src.getD (2 * (q.2 * 256 + q.1) + i) 0) := by
    intro i hi
    have hlt : 2 * (q.2 * 256 + q.1) + i < src.length := by omega
    rw [List.getD_eq_getElem?_getD, List.getElem?_eq_getElem hlt]
    rfl
  have htwiddled := halves_getElem? (hbyte 0 (by decide)) (hbyte 1 (by decide))
  have hplain := halves_getElem? (hsrc_byte 0 (by decide)) (hsrc_byte 1 (by decide))
  rw [htwiddled, ← hplain]
  exact halves_eq_pixelAt (n := 256 * 256) (by omega) (by omega)

theorem decodePixels_twiddle (hsrc : src.length = 256 * 256 * 2) :
    decodePixels 1 0x01 256 256 (twiddle src) = some (pictureOf 256 256 src) := by
  have hlen : (twiddle src).length = 256 * 256 * 2 := length_twiddle.trans hsrc
  rw [decodePixels, if_neg (by omega), List.take_of_length_le (by omega), if_neg (by decide),
    if_pos rfl, if_pos rfl]
  refine imageRows_one fun x hx y hy => ?_
  rw [detwiddleIndex_eq_spread hx hy]
  exact halves_twiddle (q := (x, y)) hsrc ⟨hx, hy⟩

end Twiddle

theorem pictureOf_getElem? {w h : ℕ} {data : List UInt8} (hdata : data.length = w * h * 2)
    {x y : ℕ} (hx : x < w) (hy : y < h) :
    ((pictureOf w h data)[y]?.bind fun row => row[x]?) =
      (halves data)[y * w + x]?.bind fun v => pxToRgb v 1 := by
  rw [halves_eq_pixelAt (n := w * h) (by omega) (index_lt hx hy), pictureOf, rowsOf,
    List.getElem?_map, List.getElem?_range hy, Option.map_some, Option.bind_some,
    List.getElem?_map, List.getElem?_range hx, Option.map_some, Option.bind_some, pxToRgb_one]

/-- The twiddled disc art decodes to its source and survives the way through BMP, the
twiddle index is a bijection for every square, and a rectangle of any size survives as
long as its BMP file is shorter than 4 GB. -/
theorem textures_round_trip :
    (∀ len src, src.length = 256 * 256 * 2 → ∃ rows bmp,
      decode (pvrHeader len 1 1 256 256 ++ twiddle src) = some (256, 256, rows) ∧
        (∀ x < 256, ∀ y < 256, (rows[y]?.bind fun row => row[x]?) =
          (halves src)[y * 256 + x]?.bind fun v => pxToRgb v 1) ∧
        writeBmp 256 256 rows = some bmp ∧ bmp2rgb565 bmp 256 256 = some src) ∧
    (∀ k ≤ 10, Set.BijOn (fun p : ℕ × ℕ => detwiddleIndex p.1 p.2)
      (Set.Iio (2 ^ k) ×ˢ Set.Iio (2 ^ k)) (Set.Iio (2 ^ k * 2 ^ k))) ∧
    ∀ len w h data, w < 2 ^ 16 → h < 2 ^ 16 → data.length = w * h * 2 → ∃ rows,
      decode (pvrHeader len 1 9 w h ++ data) = some (w, h, rows) ∧
        (54 + h * bmpStride w < 2 ^ 32 →
          ∃ bmp, writeBmp w h rows = some bmp ∧ bmp2rgb565 bmp w h = some data) ∧
        (2 ^ 32 ≤ 54 + h * bmpStride w → writeBmp w h rows = none) := by
  refine ⟨fun len src hsrc => ?_, fun k hk => detwiddleIndex_bijOn hk,
    fun len w h data hw hh hdata => ?_⟩
  · refine ⟨pictureOf 256 256 src, _, ?_, fun x hx y hy => pictureOf_getElem? hsrc hx hy, ?_,
      bmp_of_picture (by decide) (by decide) hsrc⟩
    · rw [decode_pvrHeader (by decide) (by decide)]
      exact congrArg (Option.map _) (decodePixels_twiddle hsrc)
    · rw [pictureOf, writeBmp_rowsOf (by decide) (by decide), if_pos (by decide)]
  · refine ⟨pictureOf w h data, ?_, fun hfit => ⟨_, ?_, bmp_of_picture hw hh hdata⟩, fun hbig => ?_⟩
    · rw [decode_pvrHeader hw hh]
      exact congrArg (Option.map _) (decodePixels_rectangle hdata)
    · rw [pictureOf, writeBmp_rowsOf hw hh, if_pos hfit]
    · rw [pictureOf, writeBmp_rowsOf hw hh, if_neg (not_lt.2 hbig)]

theorem writeBmp_of_decode {len w h : ℕ} {data : List UInt8} {rows : List (List Rgb)}
    (hw : w < 2 ^ 16) (hh : h < 2 ^ 16) (hdata : data.length = w * h * 2)
    (hdecode : decode (pvrHeader len 1 9 w h ++ data) = some (w, h, rows))
    (hbig : 2 ^ 32 ≤ 54 + h * bmpStride w) : writeBmp w h rows = none := by
  have hpicture : decode (pvrHeader len 1 9 w h ++ data) = some (w, h, pictureOf w h data) := by
    rw [decode_pvrHeader hw hh]
    exact congrArg (Option.map _) (decodePixels_rectangle hdata)
  have hrows : pictureOf w h data = rows :=
    (Prod.mk.inj (Prod.mk.inj (Option.some.inj (hpicture.symm.trans hdecode))).2).2
  rw [← hrows, pictureOf, writeBmp_rowsOf hw hh, if_neg (not_lt.2 hbig)]

/-- The largest picture a PVR header can describe does not fit a BMP file. -/
theorem textures_overflow :
    ¬ ∀ data : List UInt8, data.length = 65535 * 65535 * 2 → ∃ rows bmp,
      decode (pvrHeader 0 1 9 65535 65535 ++ data) = some (65535, 65535, rows) ∧
        writeBmp 65535 65535 rows = some bmp ∧ bmp2rgb565 bmp 65535 65535 = some data := by
  intro hall
  have hdata := List.length_replicate (n := 65535 * 65535 * 2) (a := (0 : UInt8))
  obtain ⟨rows, bmp, hdecode, hwrite, -⟩ := hall _ hdata
  have hnone := writeBmp_of_decode (by decide) (by decide) hdata hdecode (by decide)
  cases hnone.symm.trans hwrite

end Cfp2Dreamcast
