import Cfp2Dreamcast.Mastering.Texture
import Cfp2Dreamcast.Memory.File

/-!
# The third track

`make_gdi.py` copies the donor's track 3 and edits the copy in place: `brand_ip` writes
the device information of IP.BIN, `patch_gdtex` the pixels of the disc art and
`patch_iplogo` the logo of the license screen. The last two are skipped when there is
no picture; of a picture the model keeps the bytes that the conversion gives.
-/

namespace Cfp2Dreamcast

open Memory Memory.Edit

/-! `brand_ip`. -/

def ipProduct : List UInt8 := asciiBytes "T-CFP001M"
def ipVersion : List UInt8 := asciiBytes "V1.000"
def ipDate : List UInt8 := asciiBytes "20260723"
def ipCompany : List UInt8 := asciiBytes "SEGA LC-T-99"

/-- `s.ljust(n).encode()`. -/
def ljust (bs : List UInt8) (n : ℕ) (fill : UInt8) : List UInt8 :=
  bs ++ List.replicate (n - bs.length) fill

/-- One bit of `ip_crc16`. -/
def crcBit (n : ℕ) : ℕ :=
  if n &&& 0x8000 ≠ 0 then ((n <<< 1) ^^^ 0x1021) &&& 0xffff else (n <<< 1) &&& 0xffff

def ipCrc16 (data : List UInt8) : ℕ :=
  data.foldl (fun n b => crcBit^[8] (n ^^^ b.toNat <<< 8)) 0xffff

def hexUpper (d : ℕ) : UInt8 := UInt8.ofNat (if d < 10 then 0x30 + d else 0x41 + (d - 10))

/-- `b"%04X" % n` of a 16-bit number. -/
def hex04 (n : ℕ) : List UInt8 :=
  [hexUpper (n / 16 ^ 3 % 16), hexUpper (n / 16 ^ 2 % 16), hexUpper (n / 16 % 16),
    hexUpper (n % 16)]

/-- The header with the texts of the game. -/
def brandTexts (hdr : List UInt8) : List UInt8 :=
  let hdr := setSlice hdr 0x40 0x4a (ljust ipProduct 10 0x20)
  let hdr := setSlice hdr 0x4a 0x50 (ljust ipVersion 6 0x20)
  let hdr := setSlice hdr 0x50 0x60 (ljust ipDate 16 0x20)
  let hdr := setSlice hdr 0x70 0x80 (ljust ipCompany 16 0x20)
  setSlice hdr 0x80 0x100 (ljust ipTitle 128 0x20)

/-- The header that `brand_ip` writes back. -/
def brandHeader (hdr : List UInt8) : List UInt8 :=
  let hdr := brandTexts hdr
  setSlice hdr 0x20 0x24 (hex04 (ipCrc16 ((hdr.drop 0x40).take 0x10)))

def brandIp : Edit Unit := do
  check (ipProduct.length ≤ 10 ∧ ipVersion.length ≤ 6) "serial/version too long"
  check (ipDate.length ≤ 16 ∧ ipCompany.length ≤ 16) "date/company too long"
  check (ipTitle.length ≤ 128) "title too long"
  let hdr ← read 256
  seek 0
  write (brandHeader hdr)

/-! `patch_gdtex`. -/

def gdtexName : List UInt8 := asciiBytes "0GDTEX.PVR;1"

/-- The fields of the directory record whose name is found at `i`. -/
def recordLba (head : List UInt8) (i : ℕ) : ℕ := field head (i - 33 + 2) 4
def recordSize (head : List UInt8) (i : ℕ) : ℕ := field head (i - 33 + 10) 4

/-- The position of the extent in track 3, which starts at LBA 45000. -/
def extentOff (lba : ℕ) : ℤ := ((lba : ℤ) - 45000) * sector

/-- The part of `patch_gdtex` that has found the extent: check it and overwrite its
pixels. -/
def overwriteArt (dst : List UInt8) (off : ℤ) (size : ℕ) : Edit Unit := do
  seek off
  let hdr ← read 32
  check (hdr.take 4 = asciiBytes "GBIX" ∧ (hdr.drop 16).take 4 = asciiBytes "PVRT")
    "extent is not a PVR"
  check ((hdr.drop 24).take 2 = [1, 1]) "donor PVR not RGB565 square-twiddled"
  check ((hdr.drop 28).take 4 = [0, 1, 0, 1]) "donor PVR not 256x256"
  check (32 + dst.length = size) "encoded PVR size != donor extent size"
  seek (off + 32)
  write dst

/-- The part after the picture is converted to `src`; `find` gives -1 for no hit. -/
def patchGdtexFrom (src : List UInt8) : Edit Unit := do
  check (src.length = 256 * 256 * 2) ""
  let dst := twiddle src
  let head ← read (1 <<< 20)
  let i : ℤ := ((find head gdtexName 0).map Int.ofNat).getD (-1)
  check (i > 33) "0GDTEX.PVR directory record not found in donor track03"
  overwriteArt dst (extentOff (recordLba head i.toNat)) (recordSize head i.toNat)

/-- `patch_gdtex`, for the RGB565 bytes of the picture if there is one. -/
def patchGdtex (raw : Option (List UInt8)) : Edit Unit :=
  match raw with
  | none => pure ()
  | some src => patchGdtexFrom src

/-! `patch_iplogo`. -/

def patchIplogoFrom (mr : List UInt8) : Edit Unit := do
  check (mr.take 2 = asciiBytes "MR") "iplogo.mr: no MR signature"
  check (fromBytesLittle ((mr.drop 2).take 4) = mr.length)
    "iplogo.mr: MR header size field != file size (truncated download?)"
  check (mr.length ≤ 8192)
    ("iplogo.mr too big for the IP.BIN slot (" ++ toString mr.length ++ " > 8192)")
  seek 0x3820
  let slot ← read 8192
  check (slot = List.replicate 8192 0)
    "track03 logo slot is not the donor's zero run -- donor swap? refusing"
  seek 0x3820
  write (ljust mr 8192 0)

/-- `patch_iplogo`, for the bytes of `iplogo.mr` if it exists. -/
def patchIplogo (mr : Option (List UInt8)) : Edit Unit :=
  match mr with
  | none => pure ()
  | some mr => patchIplogoFrom mr

/-- The edits of `main` on the copy of the donor's track; the first that raises ends
the script. -/
def masterTrack (donor : List UInt8) (raw mr : Option (List UInt8)) : Except String (List UInt8) :=
  let branded := brandIp.run donor
  let art := (patchGdtex raw).run branded.2
  let logo := (patchIplogo mr).run art.2
  do
    branded.1
    art.1
    logo.1
    return logo.2

section Brand

variable {hdr bytes : List UInt8} {i : ℕ}

/-- The bytes of the texts that `brand_ip` writes. -/
def BrandText (i : ℕ) : Prop := 0x40 ≤ i ∧ i < 0x60 ∨ 0x70 ≤ i ∧ i < 0x100

/-- The bytes that `brand_ip` writes. -/
def Branded (i : ℕ) : Prop := 0x20 ≤ i ∧ i < 0x24 ∨ BrandText i

theorem brandTexts_eq (hdr : List UInt8) :
    brandTexts hdr = splice (splice (splice (splice (splice hdr 0x40 (ljust ipProduct 10 0x20))
      0x4a (ljust ipVersion 6 0x20)) 0x50 (ljust ipDate 16 0x20)) 0x70
      (ljust ipCompany 16 0x20)) 0x80 (ljust ipTitle 128 0x20) := by
  have h1 : 0x40 + (ljust ipProduct 10 0x20).length = 0x4a := rfl
  have h2 : 0x4a + (ljust ipVersion 6 0x20).length = 0x50 := rfl
  have h3 : 0x50 + (ljust ipDate 16 0x20).length = 0x60 := rfl
  have h4 : 0x70 + (ljust ipCompany 16 0x20).length = 0x80 := rfl
  have h5 : 0x80 + (ljust ipTitle 128 0x20).length = 0x100 := rfl
  simp only [brandTexts, setSlice_eq_splice h1, setSlice_eq_splice h2, setSlice_eq_splice h3,
    setSlice_eq_splice h4, setSlice_eq_splice h5]

theorem brandTexts_frame (hhdr : hdr.length = 256) :
    (brandTexts hdr).length = 256 ∧ ∀ i, ¬ BrandText i → (brandTexts hdr)[i]? = hdr[i]? := by
  have h1 : (ljust ipProduct 10 0x20).length = 10 := rfl
  have h2 : (ljust ipVersion 6 0x20).length = 6 := rfl
  have h3 : (ljust ipDate 16 0x20).length = 16 := rfl
  have h4 : (ljust ipCompany 16 0x20).length = 16 := rfl
  have h5 : (ljust ipTitle 128 0x20).length = 128 := rfl
  rw [brandTexts_eq]
  generalize ljust ipProduct 10 0x20 = s1 at h1
  generalize ljust ipVersion 6 0x20 = s2 at h2
  generalize ljust ipDate 16 0x20 = s3 at h3
  generalize ljust ipCompany 16 0x20 = s4 at h4
  generalize ljust ipTitle 128 0x20 = s5 at h5
  have hlen : ∀ (xs ys : List UInt8) (a : ℕ), xs.length = 256 → a + ys.length ≤ 256 →
      (splice xs a ys).length = 256 := fun xs ys a hxs hys =>
    (length_splice (by omega)).trans hxs
  have l1 := hlen hdr s1 0x40 hhdr (by omega)
  have l2 := hlen _ s2 0x4a l1 (by omega)
  have l3 := hlen _ s3 0x50 l2 (by omega)
  have l4 := hlen _ s4 0x70 l3 (by omega)
  have l5 := hlen _ s5 0x80 l4 (by omega)
  refine ⟨by omega, fun i hi => ?_⟩
  unfold BrandText at hi
  rw [getElem?_splice_of_not_mem (by omega) (by omega),
    getElem?_splice_of_not_mem (by omega) (by omega),
    getElem?_splice_of_not_mem (by omega) (by omega),
    getElem?_splice_of_not_mem (by omega) (by omega),
    getElem?_splice_of_not_mem (by omega) (by omega)]

theorem brandHeader_eq (hdr : List UInt8) : brandHeader hdr =
    splice (brandTexts hdr) 0x20 (hex04 (ipCrc16 (((brandTexts hdr).drop 0x40).take 0x10))) :=
  setSlice_eq_splice (by rfl)

theorem brandHeader_frame (hhdr : hdr.length = 256) :
    (brandHeader hdr).length = 256 ∧ ∀ i, ¬ Branded i → (brandHeader hdr)[i]? = hdr[i]? := by
  obtain ⟨hlen, hframe⟩ := brandTexts_frame hhdr
  rw [brandHeader_eq]
  have hcrc : (hex04 (ipCrc16 (((brandTexts hdr).drop 0x40).take 0x10))).length = 4 := rfl
  generalize hex04 (ipCrc16 (((brandTexts hdr).drop 0x40).take 0x10)) = s at hcrc
  refine ⟨?_, fun i hi => ?_⟩
  · rw [length_splice (by omega), hlen]
  · unfold Branded at hi
    rw [getElem?_splice_of_not_mem (by omega) (by omega), hframe i fun h => hi (.inr h)]

/-- The check sum of the written header is that of its own texts. -/
theorem brandHeader_crc (hhdr : hdr.length = 256) :
    ((brandHeader hdr).drop 0x20).take 4 =
      hex04 (ipCrc16 (((brandHeader hdr).drop 0x40).take 0x10)) := by
  obtain ⟨hlen, -⟩ := brandTexts_frame hhdr
  have hslice : ((brandHeader hdr).drop 0x40).take 0x10 =
      ((brandTexts hdr).drop 0x40).take 0x10 := by
    apply List.ext_getElem?
    intro i
    rw [List.getElem?_take, List.getElem?_take, List.getElem?_drop, List.getElem?_drop,
      brandHeader_eq]
    have hcrc : (hex04 (ipCrc16 (((brandTexts hdr).drop 0x40).take 0x10))).length = 4 := rfl
    generalize hex04 (ipCrc16 (((brandTexts hdr).drop 0x40).take 0x10)) = s at hcrc
    rw [getElem?_splice_of_not_mem (by omega) (by omega)]
  rw [hslice, brandHeader_eq]
  have hcrc : (hex04 (ipCrc16 (((brandTexts hdr).drop 0x40).take 0x10))).length = 4 := rfl
  generalize hex04 (ipCrc16 (((brandTexts hdr).drop 0x40).take 0x10)) = s at hcrc ⊢
  rw [← hcrc]
  exact take_drop_eq_iff.2 fun i hlo hhi => getElem?_splice_of_mem (by omega) hlo hhi

/-- The track that `brand_ip` leaves. -/
def brandedTrack (donor : List UInt8) : List UInt8 :=
  splice donor 0 (brandHeader (donor.take 256))

theorem brandIp_edits (bytes : List UInt8) :
    Edits brandIp ⟨bytes, 0⟩ fun _ b => b = brandedTrack bytes := by
  refine edits_check fun _ => edits_check fun _ => edits_check fun _ =>
    edits_read fun hdr _ hhdr => edits_seek fun pos hpos => edits_write ?_
  have hpos : pos = 0 := by omega
  rw [hpos, hhdr]
  simp [brandedTrack]

theorem brandedTrack_frame (hlen : 256 ≤ bytes.length) :
    (brandedTrack bytes).length = bytes.length ∧
      (∀ i, ¬ Branded i → (brandedTrack bytes)[i]? = bytes[i]?) ∧
      ((brandedTrack bytes).drop 0x20).take 4 =
        hex04 (ipCrc16 (((brandedTrack bytes).drop 0x40).take 0x10)) := by
  have hhdr : (bytes.take 256).length = 256 := by
    rw [List.length_take]
    omega
  obtain ⟨hlen', hframe⟩ := brandHeader_frame hhdr
  have hsplice : 0 + (brandHeader (bytes.take 256)).length ≤ bytes.length := by omega
  have hhead : ∀ i < 256, (brandedTrack bytes)[i]? = (brandHeader (bytes.take 256))[i]? :=
    fun i hi => getElem?_splice_of_mem hsplice (Nat.zero_le i) (by omega)
  have hslice : ∀ a n, a + n ≤ 256 → ((brandedTrack bytes).drop a).take n =
      ((brandHeader (bytes.take 256)).drop a).take n := by
    intro a n han
    apply List.ext_getElem?
    intro i
    rw [List.getElem?_take, List.getElem?_take]
    split
    · rw [List.getElem?_drop, List.getElem?_drop, hhead _ (by omega)]
    · rfl
  refine ⟨length_splice hsplice, fun i hi => ?_, ?_⟩
  · by_cases hi256 : i < 256
    · rw [hhead i hi256, hframe i hi, List.getElem?_take_of_lt hi256]
    · exact getElem?_splice_of_not_mem hsplice (.inr (by omega))
  · rw [hslice 0x20 4 (by decide), hslice 0x40 0x10 (by decide), brandHeader_crc hhdr]

/-- Behind the header the track is the donor's. -/
theorem drop_brandedTrack {a : ℕ} (hlen : 256 ≤ bytes.length) (ha : 256 ≤ a) :
    (brandedTrack bytes).drop a = bytes.drop a := by
  have hhdr : (brandHeader (bytes.take 256)).length = 256 :=
    (brandHeader_frame (by rw [List.length_take]; omega)).1
  have hsum : 0 + 256 + (a - 256) = a := by omega
  rw [brandedTrack, splice, List.take_zero, List.nil_append, List.drop_append,
    List.drop_eq_nil_of_le (by omega), List.nil_append, List.drop_drop, hhdr, hsum]

end Brand

section Art

variable {bytes src mr : List UInt8}

/-- The extent that the directory record found in a track describes. -/
def artExtent (track : List UInt8) : Option (ℤ × ℕ) :=
  let head := track.take (1 <<< 20)
  (find head gdtexName 0).map fun i => (extentOff (recordLba head i), recordSize head i)

theorem overwriteArt_edits {dst : List UInt8} {off : ℤ} {size pos : ℕ} :
    Edits (overwriteArt dst off size) ⟨bytes, pos⟩ fun _ b => ∃ a : ℕ, (a : ℤ) = off ∧
      32 + dst.length = size ∧
        b = splice (bytes ++ List.replicate (a + 32 - bytes.length) 0) (a + 32) dst := by
  refine edits_seek fun a ha => edits_read fun hdr _ _ => edits_check fun _ =>
    edits_check fun _ => edits_check fun _ => edits_check fun hsize =>
      edits_seek fun pos' hpos => edits_write ⟨a, ha, hsize, ?_⟩
  have hpos : pos' = a + 32 := by omega
  rw [hpos]

theorem patchGdtexFrom_edits (src bytes : List UInt8) :
    Edits (patchGdtexFrom src) ⟨bytes, 0⟩ fun _ b => ∃ a : ℕ,
      artExtent bytes = some ((a : ℤ), 32 + 256 * 256 * 2) ∧ src.length = 256 * 256 * 2 ∧
        b = splice (bytes ++ List.replicate (a + 32 - bytes.length) 0) (a + 32)
          (twiddle src) := by
  refine edits_check fun hsrc => edits_read fun head pos hhead => edits_check fun hi => ?_
  rw [List.drop_zero] at hhead
  subst hhead
  cases hfind : find (bytes.take (1 <<< 20)) gdtexName 0 with
  | none =>
      rw [hfind] at hi
      exact absurd hi (by decide)
  | some i =>
      refine overwriteArt_edits.mono fun _ b ⟨a, ha, hsize, hb⟩ => ⟨a, ?_, hsrc, hb⟩
      rw [artExtent, hfind, Option.map_some, ha, ← hsrc, ← length_twiddle, hsize]
      rfl

theorem patchIplogoFrom_edits (mr bytes : List UInt8) :
    Edits (patchIplogoFrom mr) ⟨bytes, 0⟩ fun _ b =>
      0x3820 + (ljust mr 8192 0).length ≤ bytes.length ∧ (ljust mr 8192 0).length = 8192 ∧
        b = splice bytes 0x3820 (ljust mr 8192 0) := by
  refine edits_check fun _ => edits_check fun _ => edits_check fun hlen =>
    edits_seek fun pos hpos => edits_read fun slot _ hread => edits_check fun hslot =>
      edits_seek fun pos' hpos' => edits_write ?_
  have hpos : pos = 0x3820 := by omega
  have hpos' : pos' = 0x3820 := by omega
  subst hpos hpos'
  have hslot_len := congrArg List.length (hread.symm.trans hslot)
  rw [List.length_take, List.length_drop, List.length_replicate] at hslot_len
  have hljust : (ljust mr 8192 0).length = 8192 := by
    rw [ljust, List.length_append, List.length_replicate]
    omega
  have hin : 0x3820 + 8192 ≤ bytes.length := by
    have h : min 8192 (bytes.length - 0x3820) = 8192 := hslot_len
    omega
  refine ⟨by omega, hljust, ?_⟩
  have hpad : 0x3820 - bytes.length = 0 := by omega
  rw [hpad, List.replicate_zero, List.append_nil]

/-- The pixels of the disc art. -/
def ArtPixel (off : ℤ) (size i : ℕ) : Prop := off + 32 ≤ i ∧ (i : ℤ) < off + size

variable {raw logo : Option (List UInt8)} {off : ℤ} {size : ℕ}

theorem patchGdtex_edits (raw : Option (List UInt8)) (bytes : List UInt8) :
    Edits (patchGdtex raw) ⟨bytes, 0⟩ fun _ b => ∀ off size,
      artExtent bytes = some (off, size) → 0 ≤ off → off + size ≤ bytes.length →
        b.length = bytes.length ∧ ∀ i, ¬ ArtPixel off size i → b[i]? = bytes[i]? := by
  cases raw with
  | none => exact edits_pure fun _ _ _ _ _ => ⟨rfl, fun _ _ => rfl⟩
  | some src =>
      refine (patchGdtexFrom_edits src bytes).mono ?_
      rintro - b ⟨a, hext, hsrc, rfl⟩ off size hext' - hin
      obtain ⟨rfl, rfl⟩ := Prod.mk.inj (Option.some.inj (hext.symm.trans hext'))
      have hlen : (twiddle src).length = 256 * 256 * 2 := length_twiddle.trans hsrc
      have hpad : a + 32 - bytes.length = 0 := by omega
      rw [hpad, List.replicate_zero, List.append_nil]
      refine ⟨length_splice (by omega), fun i hi => ?_⟩
      unfold ArtPixel at hi
      exact getElem?_splice_of_not_mem (by omega) (by omega)

theorem patchIplogo_edits (logo : Option (List UInt8)) (bytes : List UInt8) :
    Edits (patchIplogo logo) ⟨bytes, 0⟩ fun _ b => b.length = bytes.length ∧
      ∀ i, ¬ (0x3820 ≤ i ∧ i < 0x5820) → b[i]? = bytes[i]? := by
  cases logo with
  | none => exact edits_pure ⟨rfl, fun _ _ => rfl⟩
  | some mr =>
      refine (patchIplogoFrom_edits mr bytes).mono ?_
      rintro - b ⟨hin, hlen, rfl⟩
      exact ⟨length_splice hin, fun i hi => getElem?_splice_of_not_mem hin (by omega)⟩

/-- The edit of a track whose extent is the texture that the picture is encoded to. -/
theorem patchGdtexFrom_run {i a : ℕ} (hsrc : src.length = 256 * 256 * 2)
    (hfind : find (bytes.take (1 <<< 20)) gdtexName 0 = some i) (hi : 33 < i)
    (hoff : extentOff (recordLba (bytes.take (1 <<< 20)) i) = a)
    (hsize : recordSize (bytes.take (1 <<< 20)) i = 32 + 256 * 256 * 2)
    (hin : a + 32 ≤ bytes.length)
    (hkind : ((bytes.drop a).take 32).take 4 = asciiBytes "GBIX" ∧
      (((bytes.drop a).take 32).drop 16).take 4 = asciiBytes "PVRT")
    (hformat : (((bytes.drop a).take 32).drop 24).take 2 = [1, 1])
    (hdim : (((bytes.drop a).take 32).drop 28).take 4 = [0, 1, 0, 1]) :
    (patchGdtexFrom src).run bytes = (.ok (), splice bytes (a + 32) (twiddle src)) := by
  have hpad : a + 32 - bytes.length = 0 := by omega
  have hend : (a : ℤ) + 32 = ((a + 32 : ℕ) : ℤ) := by omega
  have hfound : ((find (bytes.take (1 <<< 20)) gdtexName 0).map Int.ofNat).getD (-1) = i := by
    rw [hfind]
    rfl
  have hgt : (i : ℤ) > 33 := by omega
  have hart : ∀ pos, overwriteArt (twiddle src) (a : ℤ) (32 + 256 * 256 * 2) ⟨bytes, pos⟩ =
      (.ok (), ⟨splice bytes (a + 32) (twiddle src), a + 32 + (twiddle src).length⟩) := by
    intro pos
    unfold overwriteArt
    rw [seek_bind rfl]
    obtain ⟨pos', hread⟩ := read_bind (f := ⟨bytes, a⟩) (n := 32)
    rw [hread, check_bind hkind, check_bind hformat, check_bind hdim,
      check_bind (by rw [length_twiddle, hsrc]), seek_bind hend, write, hpad,
      List.replicate_zero, List.append_nil]
  have hall : patchGdtexFrom src ⟨bytes, 0⟩ =
      (.ok (), ⟨splice bytes (a + 32) (twiddle src), a + 32 + (twiddle src).length⟩) := by
    unfold patchGdtexFrom
    rw [check_bind hsrc]
    obtain ⟨pos, hread⟩ := read_bind (f := ⟨bytes, 0⟩) (n := 1 <<< 20)
    rw [hread, List.drop_zero, hfound, check_bind hgt, Int.toNat_natCast, hoff, hsize]
    exact hart pos
  rw [Edit.run, hall]

/-- The edit of a track whose slot is blank. -/
theorem patchIplogoFrom_run (hsig : mr.take 2 = asciiBytes "MR")
    (hfield : fromBytesLittle ((mr.drop 2).take 4) = mr.length) (hmr : mr.length ≤ 8192)
    (hslot : (bytes.drop 0x3820).take 8192 = List.replicate 8192 0) :
    (patchIplogoFrom mr).run bytes = (.ok (), splice bytes 0x3820 (ljust mr 8192 0)) := by
  have hlen := congrArg List.length hslot
  rw [List.length_take, List.length_drop, List.length_replicate] at hlen
  have hpad : 0x3820 - bytes.length = 0 := by omega
  have hseek : (0x3820 : ℤ) = ((0x3820 : ℕ) : ℤ) := rfl
  have hall : patchIplogoFrom mr ⟨bytes, 0⟩ =
      (.ok (), ⟨splice bytes 0x3820 (ljust mr 8192 0), 0x3820 + (ljust mr 8192 0).length⟩) := by
    unfold patchIplogoFrom
    rw [check_bind hsig, check_bind hfield, check_bind hmr, seek_bind hseek]
    obtain ⟨pos, hread⟩ := read_bind (f := ⟨bytes, 0x3820⟩) (n := 8192)
    rw [hread, check_bind hslot, seek_bind hseek, write, hpad, List.replicate_zero,
      List.append_nil]
  rw [Edit.run, hall]

theorem brandIp_run (donor : List UInt8) (h : (brandIp.run donor).1 = .ok ()) :
    (brandIp.run donor).2 = brandedTrack donor := (brandIp_edits donor).run_ok h

/-- A script that succeeds has made its three edits. -/
theorem of_masterTrack {donor track : List UInt8} (h : masterTrack donor raw logo = .ok track) :
    ((patchGdtex raw).run (brandedTrack donor)).1 = .ok () ∧
      ((patchIplogo logo).run ((patchGdtex raw).run (brandedTrack donor)).2).1 = .ok () ∧
      track = ((patchIplogo logo).run ((patchGdtex raw).run (brandedTrack donor)).2).2 := by
  unfold masterTrack at h
  cases hbrand : (brandIp.run donor).1 with
  | error e =>
      simp only [hbrand] at h
      cases h
  | ok =>
      simp only [hbrand, brandIp_run donor hbrand] at h
      cases hart : ((patchGdtex raw).run (brandedTrack donor)).1 with
      | error e =>
          simp only [hart] at h
          cases h
      | ok =>
          simp only [hart] at h
          cases hlogo : ((patchIplogo logo).run
              ((patchGdtex raw).run (brandedTrack donor)).2).1 with
          | error e =>
              simp only [hlogo] at h
              cases h
          | ok =>
              simp only [hlogo] at h
              cases h
              exact ⟨rfl, rfl, rfl⟩

end Art

section Record

/-- What `brand_ip` writes does not depend on the header it finds. -/
theorem brandTexts_congr {hdr hdr' : List UInt8} (h : hdr.length = 256) (h' : hdr'.length = 256)
    {i : ℕ} (hi : BrandText i) : (brandTexts hdr)[i]? = (brandTexts hdr')[i]? := by
  have h1 : (ljust ipProduct 10 0x20).length = 10 := rfl
  have h2 : (ljust ipVersion 6 0x20).length = 6 := rfl
  have h3 : (ljust ipDate 16 0x20).length = 16 := rfl
  have h4 : (ljust ipCompany 16 0x20).length = 16 := rfl
  have h5 : (ljust ipTitle 128 0x20).length = 128 := rfl
  rw [brandTexts_eq, brandTexts_eq]
  generalize ljust ipProduct 10 0x20 = s1 at h1
  generalize ljust ipVersion 6 0x20 = s2 at h2
  generalize ljust ipDate 16 0x20 = s3 at h3
  generalize ljust ipCompany 16 0x20 = s4 at h4
  generalize ljust ipTitle 128 0x20 = s5 at h5
  have hlen : ∀ (xs ys : List UInt8) (a : ℕ), xs.length = 256 → a + ys.length ≤ 256 →
      (splice xs a ys).length = 256 := fun xs ys a hxs hys =>
    (length_splice (by omega)).trans hxs
  have l1 := hlen _ s1 0x40 h (by omega)
  have l1' := hlen _ s1 0x40 h' (by omega)
  have l2 := hlen _ s2 0x4a l1 (by omega)
  have l2' := hlen _ s2 0x4a l1' (by omega)
  have l3 := hlen _ s3 0x50 l2 (by omega)
  have l3' := hlen _ s3 0x50 l2' (by omega)
  have l4 := hlen _ s4 0x70 l3 (by omega)
  have l4' := hlen _ s4 0x70 l3' (by omega)
  unfold BrandText at hi
  refine getElem?_splice_congr (by omega) (by omega) fun h80 => ?_
  refine getElem?_splice_congr (by omega) (by omega) fun h70 => ?_
  refine getElem?_splice_congr (by omega) (by omega) fun h50 => ?_
  refine getElem?_splice_congr (by omega) (by omega) fun h4a => ?_
  refine getElem?_splice_congr (by omega) (by omega) fun h40 => ?_
  omega

theorem brandHeader_congr {hdr hdr' : List UInt8} (h : hdr.length = 256)
    (h' : hdr'.length = 256) {i : ℕ} (hi : Branded i) :
    (brandHeader hdr)[i]? = (brandHeader hdr')[i]? := by
  have hslice : ((brandTexts hdr).drop 0x40).take 0x10 =
      ((brandTexts hdr').drop 0x40).take 0x10 := by
    apply List.ext_getElem?
    intro j
    rw [List.getElem?_take, List.getElem?_take]
    split
    · rw [List.getElem?_drop, List.getElem?_drop]
      exact brandTexts_congr h h' (.inl ⟨by omega, by omega⟩)
    · rfl
  have hlen := (brandTexts_frame h).1
  have hlen' := (brandTexts_frame h').1
  have hcrc : (hex04 (ipCrc16 (((brandTexts hdr').drop 0x40).take 0x10))).length = 4 := rfl
  rw [brandHeader_eq, brandHeader_eq, hslice]
  refine getElem?_splice_congr (by omega) (by omega) fun hout => ?_
  refine brandTexts_congr h h' (hi.resolve_left fun hin => ?_)
  omega

instance : DecidablePred Branded := fun i =>
  inferInstanceAs (Decidable (0x20 ≤ i ∧ i < 0x24 ∨ 0x40 ≤ i ∧ i < 0x60 ∨ 0x70 ≤ i ∧ i < 0x100))

/-- The name of the disc art does not fit what `brand_ip` writes: at each position of
the header it lies outside, or differs in a written byte. The exception is the last
digit of the check sum, which is the first character of the name. -/
theorem gdtexName_clash : ∀ j < 256, j ≠ 0x23 → (∀ k < 12, ¬ Branded (j + k)) ∨
    ∃ k < 12, Branded (j + k) ∧
      (brandHeader (List.replicate 256 0))[j + k]? ≠ gdtexName[k]? := by
  decide +kernel

theorem occursAt_iff {xs pat : List UInt8} {j : ℕ} :
    occursAt xs pat j = true ↔ ∀ k < pat.length, xs[j + k]? = pat[k]? := by
  rw [occursAt, List.isPrefixOf_iff_prefix, List.prefix_iff_getElem?]
  constructor
  · intro h k hk
    rw [← List.getElem?_drop, h k hk, List.getElem?_eq_getElem hk]
  · intro h k hk
    rw [List.getElem?_drop, h k hk, List.getElem?_eq_getElem hk]

variable {donor : List UInt8} {i : ℕ}

/-- The name of a directory record behind IP.BIN's header is found before and after the
branding, unless the check sum completes another. -/
theorem find_brandedTrack (hlen : 256 ≤ donor.length)
    (hfind : find (donor.take (1 <<< 20)) gdtexName 0 = some i) (hi : 256 ≤ i)
    (htail : (donor.drop 0x24).take 11 ≠ asciiBytes "GDTEX.PVR;1") :
    find ((brandedTrack donor).take (1 <<< 20)) gdtexName 0 = some i := by
  obtain ⟨hblen, hframe, -⟩ := brandedTrack_frame hlen
  have hhdr : (donor.take 256).length = 256 := by
    rw [List.length_take]
    omega
  have hhead : ∀ a < 256, (brandedTrack donor)[a]? = (brandHeader (donor.take 256))[a]? :=
    fun a ha => getElem?_splice_of_mem
      (by rw [(brandHeader_frame hhdr).1]; omega) (Nat.zero_le a)
      (by rw [(brandHeader_frame hhdr).1]; omega)
  have hbranded : ∀ a, Branded a → a < 256 := by
    intro a ha
    unfold Branded BrandText at ha
    omega
  have hbyte : ∀ a, ¬ Branded a →
      ((brandedTrack donor).take (1 <<< 20))[a]? = (donor.take (1 <<< 20))[a]? := by
    intro a ha
    rw [List.getElem?_take, List.getElem?_take, hframe a ha]
  have hname : gdtexName.length = 12 := rfl
  have hocc : ∀ j, 256 ≤ j → occursAt ((brandedTrack donor).take (1 <<< 20)) gdtexName j =
      occursAt (donor.take (1 <<< 20)) gdtexName j := by
    intro j hj
    rw [Bool.eq_iff_iff, occursAt_iff, occursAt_iff]
    have hsame : ∀ k, ((brandedTrack donor).take (1 <<< 20))[j + k]? =
        (donor.take (1 <<< 20))[j + k]? := fun k =>
      hbyte _ fun h => by have := hbranded _ h; omega
    simp only [hsame]
  rw [find, List.find?_range'_eq_some] at hfind ⊢
  obtain ⟨hat, hmem, hfirst⟩ := hfind
  refine ⟨(hocc i (by omega)).trans hat, ?_, fun j _ hj => ?_⟩
  · rw [List.length_take, hblen, ← List.length_take]
    exact hmem
  · by_cases hj256 : 256 ≤ j
    · rw [hocc j hj256]
      exact hfirst j (Nat.zero_le j) hj
    · have hnot : occursAt (donor.take (1 <<< 20)) gdtexName j ≠ true := by
        have := hfirst j (Nat.zero_le j) hj
        simpa using this
      rw [Bool.not_eq_true', ← Bool.not_eq_true, occursAt_iff]
      intro hall
      have hne : j ≠ 0x23 := by
        rintro rfl
        have h11 : (asciiBytes "GDTEX.PVR;1").length = 11 := rfl
        rw [← h11] at htail
        refine htail (take_drop_eq_iff.2 fun a hlo hhi => ?_)
        have hk : (0x23 : ℕ) + (a - 0x23) = a := by omega
        have h := hall (a - 0x23) (by rw [hname]; omega)
        have hcons : gdtexName[a - 0x23]? = (asciiBytes "GDTEX.PVR;1")[a - 0x24]? := by
          have hsucc : a - 0x23 = a - 0x24 + 1 := by omega
          rw [hsucc]
          rfl
        rw [hk, hbyte a (by unfold Branded BrandText; omega), hcons,
          List.getElem?_take_of_lt (by omega)] at h
        exact h
      rcases gdtexName_clash j (by omega) hne with hfree | ⟨k, hk, hb, hne⟩
      · refine hnot (occursAt_iff.2 fun k hk => ?_)
        rw [← hbyte _ (hfree k hk)]
        exact hall k hk
      · refine hne ?_
        rw [← hall k hk, List.getElem?_take_of_lt (by have := hbranded _ hb; omega),
          hhead _ (hbranded _ hb)]
        exact (brandHeader_congr hhdr (List.length_replicate ..) hb).symm

/-- So are the fields of the record. -/
theorem field_brandedTrack {a n : ℕ} (hlen : 256 ≤ donor.length) (ha : 256 ≤ a) :
    field ((brandedTrack donor).take (1 <<< 20)) a n = field (donor.take (1 <<< 20)) a n := by
  rw [field, field, List.drop_take, List.drop_take, drop_brandedTrack hlen ha]

theorem artExtent_brandedTrack (hlen : 256 ≤ donor.length)
    (hfind : find (donor.take (1 <<< 20)) gdtexName 0 = some i) (hi : 256 + 33 ≤ i)
    (htail : (donor.drop 0x24).take 11 ≠ asciiBytes "GDTEX.PVR;1") :
    artExtent (brandedTrack donor) = artExtent donor := by
  have hfind' := find_brandedTrack hlen hfind (by omega) htail
  unfold artExtent
  simp only [hfind, hfind', Option.map_some]
  rw [recordLba, recordSize, field_brandedTrack hlen (by omega),
    field_brandedTrack hlen (by omega)]
  rfl

end Record

/-- Mastering the third track changes nothing but the device information, the slot of
the logo and the pixels of the disc art, and the check sum it writes is that of the
final texts; an optional edit that raises has written nothing. The extent is the one
that `patch_gdtex` finds, which is the one of the donor's directory unless the header
of IP.BIN has the name of the file, or will have it with the check sum. -/
theorem masterTrack_frame {donor track : List UInt8} {raw logo : Option (List UInt8)}
    {off : ℤ} {size : ℕ} (hlen : 0x8000 ≤ donor.length)
    (hext : artExtent (brandedTrack donor) = some (off, size)) (hoff : 0x8000 ≤ off)
    (hin : off + size ≤ donor.length) :
    (masterTrack donor raw logo = .ok track →
      track.length = donor.length ∧
      (∀ i, ¬ Branded i → ¬ (0x3820 ≤ i ∧ i < 0x5820) → ¬ ArtPixel off size i →
        track[i]? = donor[i]?) ∧
      (track.drop 0x20).take 4 = hex04 (ipCrc16 ((track.drop 0x40).take 0x10))) ∧
    (∀ bytes e, ((patchGdtex raw).run bytes).1 = .error e →
      ((patchGdtex raw).run bytes).2 = bytes) ∧
    (∀ bytes e, ((patchIplogo logo).run bytes).1 = .error e →
      ((patchIplogo logo).run bytes).2 = bytes) ∧
    ∀ i, find (donor.take (1 <<< 20)) gdtexName 0 = some i → 256 + 33 ≤ i →
      (donor.drop 0x24).take 11 ≠ asciiBytes "GDTEX.PVR;1" →
        artExtent donor = some (off, size) := by
  have hdonor : 256 ≤ donor.length := by omega
  obtain ⟨hblen, hbframe, hcrc⟩ := brandedTrack_frame hdonor
  refine ⟨fun htrack => ?_, fun bytes e h => (patchGdtex_edits raw bytes).run_error h,
    fun bytes e h => (patchIplogo_edits logo bytes).run_error h,
    fun i hfind hi htail =>
      (artExtent_brandedTrack (by omega) hfind hi htail).symm.trans hext⟩
  obtain ⟨hart, hlogo, rfl⟩ := of_masterTrack htrack
  obtain ⟨halen, haframe⟩ := (patchGdtex_edits raw _).run_ok hart off size hext (by omega)
    (by omega)
  obtain ⟨hllen, hlframe⟩ := (patchIplogo_edits logo _).run_ok hlogo
  have hlow : ∀ i < 0x3820, ((patchIplogo logo).run
      ((patchGdtex raw).run (brandedTrack donor)).2).2[i]? = (brandedTrack donor)[i]? := by
    intro i hi
    rw [hlframe i (by omega), haframe i fun h => ?_]
    unfold ArtPixel at h
    omega
  have hslice : ∀ a n, a + n ≤ 0x3820 → (((patchIplogo logo).run
      ((patchGdtex raw).run (brandedTrack donor)).2).2.drop a).take n =
        ((brandedTrack donor).drop a).take n := by
    intro a n han
    apply List.ext_getElem?
    intro i
    rw [List.getElem?_take, List.getElem?_take]
    split
    · rw [List.getElem?_drop, List.getElem?_drop, hlow _ (by omega)]
    · rfl
  refine ⟨hllen.trans (halen.trans hblen), fun i hb hl ha => ?_, ?_⟩
  · rw [hlframe i hl, haframe i ha, hbframe i hb]
  · rw [hslice 0x20 4 (by decide), hslice 0x40 0x10 (by decide), hcrc]

/-- The script, when both optional edits are made. -/
theorem masterTrack_run {donor src mr art track : List UInt8}
    (hart : (patchGdtexFrom src).run (brandedTrack donor) = (.ok (), art))
    (hlogo : (patchIplogoFrom mr).run art = (.ok (), track)) :
    masterTrack donor (some src) (some mr) = .ok track := by
  have hok : (brandIp.run donor).1 = .ok () := rfl
  unfold masterTrack patchGdtex patchIplogo
  simp only [hok, brandIp_run donor hok, hart, hlogo]
  rfl

/-- A directory record up to the name: the LBA 45017 and the size 131104. -/
def sampleRecord : List UInt8 :=
  [0x2e, 0, 0xd9, 0xaf, 0, 0, 0, 0, 0xaf, 0xd9, 0x20, 0, 2, 0, 0, 2, 0, 0x20] ++
    List.replicate 15 0

/-- The header of a 256x256 RGB565 texture, square-twiddled. -/
def sampleArtHeader : List UInt8 :=
  asciiBytes "GBIX" ++ [8, 0, 0, 0] ++ List.replicate 8 0 ++ asciiBytes "PVRT" ++
    [8, 0, 2, 0, 1, 1, 0, 0, 0, 1, 0, 1]

/-- Behind IP.BIN: one sector with the record, and the texture. -/
def sampleFiles : List UInt8 :=
  sampleRecord ++ (gdtexName ++ (List.replicate 2003 0 ++
    (sampleArtHeader ++ List.replicate (256 * 256 * 2) 0xff)))

/-- A donor with a blank IP.BIN and its disc art at `0x8800`. -/
def sampleDonor : List UInt8 := List.replicate 0x8000 0 ++ sampleFiles

/-- The RGB565 bytes of a cover. -/
def sampleCover : List UInt8 :=
  (List.range (256 * 256 * 2)).map fun i => UInt8.ofNat (i % 251)

/-- An `iplogo.mr` of eight bytes. -/
def sampleLogo : List UInt8 := asciiBytes "MR" ++ [8, 0, 0, 0, 0x11, 0x22]

section Sample

theorem sampleCover_length : sampleCover.length = 256 * 256 * 2 := by
  rw [sampleCover, List.length_map, List.length_range]

theorem sampleDonor_length : sampleDonor.length = 0x8800 + (32 + 256 * 256 * 2) := by
  have hrecord : sampleRecord.length = 33 := rfl
  have hname : gdtexName.length = 12 := rfl
  have hheader : sampleArtHeader.length = 32 := rfl
  simp only [sampleDonor, sampleFiles, List.length_append, List.length_replicate, hrecord,
    hname, hheader]

theorem drop_sampleDonor (k : ℕ) : sampleDonor.drop (0x8000 + k) = sampleFiles.drop k := by
  have hlen : (List.replicate 0x8000 (0 : UInt8)).length = 0x8000 := List.length_replicate
  rw [sampleDonor, List.drop_append, hlen, List.drop_eq_nil_of_le (by rw [hlen]; omega),
    List.nil_append, Nat.add_sub_cancel_left]

theorem take_sampleDonor : sampleDonor.take (1 <<< 20) = sampleDonor :=
  List.take_of_length_le (by rw [sampleDonor_length]; decide)

theorem find_sampleDonor : find (sampleDonor.take (1 <<< 20)) gdtexName 0 = some 0x8021 := by
  have hname : gdtexName = 0x30 :: asciiBytes "GDTEX.PVR;1" := rfl
  have hnot : (0x30 : UInt8) ∉ List.replicate 0x8000 0 ++ sampleRecord := by
    rw [List.mem_append, not_or]
    refine ⟨fun h => absurd (List.eq_of_mem_replicate h) (by decide), by decide⟩
  have hlen : (List.replicate 0x8000 (0 : UInt8) ++ sampleRecord).length = 0x8021 := by
    rw [List.length_append, List.length_replicate]
    rfl
  rw [take_sampleDonor, sampleDonor, sampleFiles, ← List.append_assoc, hname,
    find_of_not_mem hnot, hlen]

theorem find_brandedSample :
    find ((brandedTrack sampleDonor).take (1 <<< 20)) gdtexName 0 = some 0x8021 := by
  refine find_brandedTrack ?_ find_sampleDonor (by decide) (by decide +kernel)
  rw [sampleDonor_length]
  decide

theorem fields_brandedSample :
    extentOff (recordLba ((brandedTrack sampleDonor).take (1 <<< 20)) 0x8021) = 0x8800 ∧
      recordSize ((brandedTrack sampleDonor).take (1 <<< 20)) 0x8021 = 32 + 256 * 256 * 2 := by
  have hlen : 256 ≤ sampleDonor.length := by
    rw [sampleDonor_length]
    decide
  have hlba : recordLba (sampleDonor.take (1 <<< 20)) 0x8021 = 45017 := by
    rw [recordLba, field, take_sampleDonor, show 0x8021 - 33 + 2 = 0x8000 + 2 from rfl,
      drop_sampleDonor]
    decide +kernel
  have hsize : recordSize (sampleDonor.take (1 <<< 20)) 0x8021 = 32 + 256 * 256 * 2 := by
    rw [recordSize, field, take_sampleDonor, show 0x8021 - 33 + 10 = 0x8000 + 10 from rfl,
      drop_sampleDonor]
    decide +kernel
  constructor
  · rw [recordLba, field_brandedTrack hlen (by decide), ← recordLba, hlba]
    decide
  · rw [recordSize, field_brandedTrack hlen (by decide), ← recordSize, hsize]

/-- The art is replaced, behind its header. -/
theorem art_brandedSample : (patchGdtexFrom sampleCover).run (brandedTrack sampleDonor) =
    (.ok (), splice (brandedTrack sampleDonor) 0x8820 (twiddle sampleCover)) := by
  have hlen : 256 ≤ sampleDonor.length := by
    rw [sampleDonor_length]
    decide
  have hheader : ((brandedTrack sampleDonor).drop 0x8800).take 32 = sampleArtHeader := by
    rw [drop_brandedTrack hlen (by decide), show 0x8800 = 0x8000 + 2048 from rfl,
      drop_sampleDonor]
    decide +kernel
  refine patchGdtexFrom_run sampleCover_length find_brandedSample (by decide)
    fields_brandedSample.1 fields_brandedSample.2 ?_ ?_ ?_ ?_
  · rw [(brandedTrack_frame hlen).1, sampleDonor_length]
    decide
  · rw [hheader]
    decide
  · rw [hheader]
    decide
  · rw [hheader]
    decide

/-- The slot of the logo is blank until then. -/
theorem slot_brandedSample :
    ((splice (brandedTrack sampleDonor) 0x8820 (twiddle sampleCover)).drop 0x3820).take 8192 =
      List.replicate 8192 0 := by
  have hlen : 256 ≤ sampleDonor.length := by
    rw [sampleDonor_length]
    decide
  have hzeros : (List.replicate 0x8000 (0 : UInt8)).length = 0x8000 := List.length_replicate
  rw [take_drop_splice, drop_brandedTrack hlen (by decide), sampleDonor,
    List.drop_append_of_le_length (by rw [hzeros]; decide), List.drop_replicate,
    List.take_append_of_le_length (by rw [List.length_replicate]; decide), List.take_replicate]
  · rfl
  · rw [(brandedTrack_frame hlen).1, sampleDonor_length, length_twiddle, sampleCover_length]
  · decide

end Sample

/-- All three editors act on this donor: the cover and the logo are in the track, and
off the pixels, the slot and the device information it is the donor's. -/
theorem masterTrack_frame_sample :
    ∃ track, masterTrack sampleDonor (some sampleCover) (some sampleLogo) = .ok track ∧
      (track.drop 0x8820).take (256 * 256 * 2) = twiddle sampleCover ∧
      (track.drop 0x3820).take 8192 = ljust sampleLogo 8192 0 ∧
      track.length = sampleDonor.length ∧
      ∀ i, ¬ Branded i → ¬ (0x3820 ≤ i ∧ i < 0x5820) →
        ¬ ArtPixel 0x8800 (32 + 256 * 256 * 2) i → track[i]? = sampleDonor[i]? := by
  have hlen : 0x8000 ≤ sampleDonor.length := by
    rw [sampleDonor_length]
    decide
  have hext : artExtent (brandedTrack sampleDonor) = some (0x8800, 32 + 256 * 256 * 2) := by
    rw [artExtent, find_brandedSample, Option.map_some, fields_brandedSample.1,
      fields_brandedSample.2]
  have hin : (0x8800 : ℤ) + (32 + 256 * 256 * 2 : ℕ) ≤ sampleDonor.length := by
    rw [sampleDonor_length]
    decide
  have hcover : (twiddle sampleCover).length = 256 * 256 * 2 :=
    length_twiddle.trans sampleCover_length
  have hlogo_len : (ljust sampleLogo 8192 0).length = 8192 := by
    rw [ljust, List.length_append, List.length_replicate]
    rfl
  have hlogo := @patchIplogoFrom_run _ sampleLogo rfl (by decide) (by decide)
    slot_brandedSample
  have hrun := masterTrack_run art_brandedSample hlogo
  obtain ⟨hsame, hframe, -⟩ := (masterTrack_frame hlen hext (by decide) hin).1 hrun
  have hart_len : (splice (brandedTrack sampleDonor) 0x8820 (twiddle sampleCover)).length =
      sampleDonor.length := by
    rw [length_splice, (brandedTrack_frame (by omega)).1]
    rw [(brandedTrack_frame (by omega)).1, sampleDonor_length, hcover]
  have hart : ∀ i, 0x8820 ≤ i → i < 0x8820 + (twiddle sampleCover).length →
      (splice (brandedTrack sampleDonor) 0x8820 (twiddle sampleCover))[i]? =
        (twiddle sampleCover)[i - 0x8820]? := fun i hlo hhi => by
    refine getElem?_splice_of_mem ?_ hlo hhi
    rw [(brandedTrack_frame (by omega)).1, sampleDonor_length, hcover]
  have hdonor := sampleDonor_length
  generalize splice (brandedTrack sampleDonor) 0x8820 (twiddle sampleCover) = art at *
  generalize ljust sampleLogo 8192 0 = slot at *
  refine ⟨_, hrun, ?_, ?_, hsame, hframe⟩
  · have hpixels : ((splice art 0x3820 slot).drop 0x8820).take (twiddle sampleCover).length =
        twiddle sampleCover := by
      refine take_drop_eq_iff.2 fun i hlo hhi => ?_
      rw [getElem?_splice_of_not_mem (by omega) (by omega)]
      exact hart i hlo hhi
    rwa [hcover] at hpixels
  · have hslot : ((splice art 0x3820 slot).drop 0x3820).take slot.length = slot :=
      take_drop_eq_iff.2 fun i hlo hhi => getElem?_splice_of_mem (by omega) hlo hhi
    rwa [hlogo_len] at hslot

end Cfp2Dreamcast
