import Cfp2Dreamcast.Cart.Deliver
import Cfp2Dreamcast.Mastering.Marks

/-!
# Mastered discs

`make_gdi.py` writes track 4 of the GDI, `make_cdi.py` the data image of the CDI.
Both put the cart behind a boot region of fixed size, at the FAD that the shim of
that build adds to every request. The files that other tools make (the donor's
tracks, IP.BIN, the ISO9660 file system) are inputs here.
-/

namespace Cfp2Dreamcast

open Memory

def sector : ℕ := 2048

/-! `make_gdi.py`. -/

def bootRegion : ℕ := 3538944
def bootFileSize : ℕ := 3538016
def cartLba : ℕ := 450000 + bootRegion / sector
def romSize : ℕ := 0x6800000

/-- The track 4 that `make_gdi.py` writes, if no assertion fails. The first two
check the script against `shim_iface.h`. -/
def makeGdi (ldr rom : List UInt8) : Option (List UInt8) :=
  if cartLba + 150 = Build.gdi.cartFad ∧ cartSize = romSize ∧ rom.length = romSize ∧
      ldr.length ≤ bootFileSize ∧ cdiMarks ldr = [] then
    some (ldr ++ List.replicate (bootRegion - ldr.length) 0 ++ rom)
  else none

/-! `make_cdi.py`. -/

def session2Lba : ℕ := 11702
def fsSectors : ℕ := 1792
def cartFadCd : ℕ := 150 + session2Lba + fsSectors

/-- The bytes of an ASCII string. -/
def asciiBytes (s : String) : List UInt8 := s.toList.map fun c => UInt8.ofNat c.toNat

/-- `IP_TITLE`. -/
def ipTitle : List UInt8 := asciiBytes "CLEOPATRA FORTUNE PLUS"

/-- The data image that `make_cdi.py` writes, if no assertion fails. `ip` is the
IP.BIN of `mkdcdisc` and `fs` the file system of `mkisofs`. -/
def makeCdi (ldr rom ip fs : List UInt8) : Option (List UInt8) :=
  if cdiMarks ldr = [cartFadCd] ∧ rom.length = romSize ∧
      (ip.drop 0x25).take 9 = asciiBytes "CD-ROM1/1" ∧
      (ip.drop 0x80).take ipTitle.length = ipTitle ∧
      fs.length ≤ fsSectors * sector then
    some (fs ++ List.replicate (fsSectors * sector - fs.length) 0 ++ rom)
  else none

/-- The sector at an absolute FAD of a track that starts at LBA `start`. -/
def sectorAt (start : ℕ) (track : List UInt8) (fad : ℕ) : List UInt8 :=
  (track.drop ((fad - 150 - start) * sector)).take sector

/-- Behind a padded region the cart starts where the padding ends. -/
theorem sectorAt_padded {region rom : List UInt8} {n start fad k : ℕ}
    (hregion : region.length ≤ n * sector) (hfad : fad = start + 150 + n) :
    sectorAt start (region ++ List.replicate (n * sector - region.length) 0 ++ rom)
      (fad + k) = (rom.drop (2048 * k)).take 2048 := by
  have hlen : (region ++ List.replicate (n * sector - region.length) 0).length =
      n * sector := by
    rw [List.length_append, List.length_replicate]
    omega
  have hsub : fad + k - 150 - start = n + k := by omega
  unfold sectorAt
  rw [hsub, Nat.add_mul, List.drop_append, hlen, Nat.add_sub_cancel_left,
    List.drop_eq_nil_of_le (by rw [hlen]; omega), List.nil_append, Nat.mul_comm k]
  rfl

theorem makeGdi_eq_some {ldr rom t : List UInt8} (h : makeGdi ldr rom = some t) :
    (ldr.length ≤ bootFileSize ∧ cdiMarks ldr = [] ∧ rom.length = cartSize) ∧
      t = ldr ++ List.replicate (bootRegion - ldr.length) 0 ++ rom := by
  unfold makeGdi at h
  split at h
  · next hc =>
    obtain ⟨-, hsize, hrom, hldr, hmarks⟩ := hc
    exact ⟨⟨hldr, hmarks, hrom.trans hsize.symm⟩, (Option.some.inj h).symm⟩
  · cases h

theorem makeCdi_eq_some {ldr rom ip fs t : List UInt8} (h : makeCdi ldr rom ip fs = some t) :
    (cdiMarks ldr = [cartFadCd] ∧ rom.length = cartSize ∧ fs.length ≤ fsSectors * sector) ∧
      t = fs ++ List.replicate (fsSectors * sector - fs.length) 0 ++ rom := by
  unfold makeCdi at h
  split at h
  · next hc =>
    obtain ⟨hmarks, hrom, -, -, hfs⟩ := hc
    exact ⟨⟨hmarks, hrom, hfs⟩, (Option.some.inj h).symm⟩
  · cases h

/-- Sector `FAD + k` of an accepted GDI is sector `k` of the cart. -/
theorem makeGdi_sector {ldr rom t : List UInt8} (h : makeGdi ldr rom = some t) (k : ℕ) :
    sectorAt 450000 t (Build.gdi.cartFad + k) = (rom.drop (2048 * k)).take 2048 := by
  obtain ⟨⟨hldr, -, -⟩, rfl⟩ := makeGdi_eq_some h
  have hpad : bootRegion = 1728 * sector := by decide
  rw [hpad]
  refine sectorAt_padded ?_ (by decide)
  have : bootFileSize ≤ 1728 * sector := by decide
  omega

/-- Sector `FAD + k` of an accepted CDI image is sector `k` of the cart. -/
theorem makeCdi_sector {ldr rom ip fs t : List UInt8} (h : makeCdi ldr rom ip fs = some t)
    (k : ℕ) : sectorAt 11702 t (Build.cdi.cartFad + k) = (rom.drop (2048 * k)).take 2048 := by
  obtain ⟨⟨-, -, hfs⟩, rfl⟩ := makeCdi_eq_some h
  exact sectorAt_padded hfs (by decide)

/-- The disc that a track starting at LBA `start` makes. -/
def discOf (start : ℕ) (track : List UInt8) : Disc :=
  fun fad j => (sectorAt start track fad).getD j 0

/-- A disc whose sectors are those of the ROM serves the shim of its build. -/
theorem mastered_of_sectors {b : Build} {start : ℕ} {track rom : List UInt8}
    (h : ∀ k, sectorAt start track (b.cartFad + k) = (rom.drop (2048 * k)).take 2048) :
    Mastered b (discOf start track) fun i => rom.getD i 0 := by
  intro k _ j hj
  simp only [discOf, h, List.getD_eq_getElem?_getD, List.getElem?_take_of_lt hj,
    List.getElem?_drop]

theorem makeGdi_mastered {ldr rom t : List UInt8} (h : makeGdi ldr rom = some t) :
    Mastered .gdi (discOf 450000 t) fun i => rom.getD i 0 :=
  mastered_of_sectors (makeGdi_sector h)

theorem makeCdi_mastered {ldr rom ip fs t : List UInt8} (h : makeCdi ldr rom ip fs = some t) :
    Mastered .cdi (discOf 11702 t) fun i => rom.getD i 0 :=
  mastered_of_sectors (makeCdi_sector h)

/-- The mastered discs and the shim agree on where the cart is, and the marks tell
the two builds apart. An entry of `cdi_marks` is the little-endian word of the four
bytes behind its mark. -/
theorem mastering_agrees :
    (∀ ldr rom t, makeGdi ldr rom = some t → rom.length = cartSize ∧
      ∀ k < cartSize / 2048, sectorAt 450000 t (Build.gdi.cartFad + k) =
        (rom.drop (2048 * k)).take 2048) ∧
    (∀ ldr rom ip fs t, makeCdi ldr rom ip fs = some t → rom.length = cartSize ∧
      ∀ k < cartSize / 2048, sectorAt 11702 t (Build.cdi.cartFad + k) =
        (rom.drop (2048 * k)).take 2048) ∧
    (Build.gdi.cartFad = 451878 ∧ Build.cdi.cartFad = 13644) ∧
    (∀ ldr, (markPositions ldr).Pairwise (· < ·) ∧
      (∀ i, i ∈ markPositions ldr ↔ MarkAt ldr i) ∧
      cdiMarks ldr = (markPositions ldr).map fun i => ofBytes (ldr.getD (i + 4) 0)
        (ldr.getD (i + 5) 0) (ldr.getD (i + 6) 0) (ldr.getD (i + 7) 0)) ∧
    (∀ ldr rom t, makeGdi ldr rom = some t → ∀ i, ¬ MarkAt ldr i) ∧
    (∀ ldr rom ip fs t, makeCdi ldr rom ip fs = some t →
      ∃ i, (∀ j, MarkAt ldr j ↔ j = i) ∧ ofBytes (ldr.getD (i + 4) 0)
        (ldr.getD (i + 5) 0) (ldr.getD (i + 6) 0) (ldr.getD (i + 7) 0) = 13644) ∧
    ¬ ∃ ldr rom rom' ip fs t t', makeGdi ldr rom = some t ∧
      makeCdi ldr rom' ip fs = some t' := by
  refine ⟨?_, ?_, ⟨rfl, rfl⟩, ?_, ?_, ?_, ?_⟩
  · intro ldr rom t h
    exact ⟨(makeGdi_eq_some h).1.2.2, fun k _ => makeGdi_sector h k⟩
  · intro ldr rom ip fs t h
    exact ⟨(makeCdi_eq_some h).1.2.1, fun k _ => makeCdi_sector h k⟩
  · intro ldr
    refine ⟨markPositions_pairwise ldr, fun i => mem_markPositions, ?_⟩
    rw [cdiMarks_eq]
    exact List.map_congr_left fun i _ => markValue_eq ldr i
  · intro ldr rom t h i hi
    have hmarks := (makeGdi_eq_some h).1.2.1
    rw [cdiMarks_eq, List.map_eq_nil_iff] at hmarks
    have hmem := mem_markPositions.2 hi
    rw [hmarks] at hmem
    cases hmem
  · intro ldr rom ip fs t h
    have hmarks := (makeCdi_eq_some h).1.1
    rw [cdiMarks_eq] at hmarks
    obtain ⟨i, hi, hvalue⟩ := List.map_eq_singleton_iff.1 hmarks
    refine ⟨i, fun j => ?_, (markValue_eq ldr i).symm.trans hvalue⟩
    rw [← mem_markPositions, hi, List.mem_singleton]
  · rintro ⟨ldr, rom, rom', ip, fs, t, t', hgdi, hcdi⟩
    have hnone := (makeGdi_eq_some hgdi).1.2.1
    have hone := (makeCdi_eq_some hcdi).1.1
    rw [hnone] at hone
    cases hone

/-- A loader with the mark of the CD build. -/
def sampleLoader : List UInt8 := [0x09] ++ magic ++ [0x4c, 0x35, 0, 0] ++ [0x0b, 0x00]

/-- An IP.BIN with the two strings that `make_cdi.py` looks for. -/
def sampleIp : List UInt8 :=
  List.replicate 0x25 0 ++ asciiBytes "CD-ROM1/1" ++ List.replicate 0x52 0 ++ ipTitle

/-- A cart whose sector `k` is filled with `k + 1`. -/
def countingRom : List UInt8 :=
  (List.range romSize).map fun i => UInt8.ofNat (i / 2048 + 1)

theorem countingRom_length : countingRom.length = romSize := by
  rw [countingRom, List.length_map, List.length_range]

theorem countingRom_sector {k : ℕ} (hk : k < romSize / 2048) :
    (countingRom.drop (2048 * k)).take 2048 = List.replicate 2048 (UInt8.ofNat (k + 1)) := by
  have hsize : romSize = 53248 * 2048 := by decide
  refine List.eq_replicate_iff.2 ⟨?_, fun v hv => ?_⟩
  · rw [List.length_take, List.length_drop, countingRom_length]
    omega
  · obtain ⟨j, hj, rfl⟩ := List.mem_iff_getElem.1 hv
    have hlt : j < 2048 := Nat.lt_of_lt_of_le hj (List.length_take_le _ _)
    have hdiv : (2048 * k + j) / 2048 = k := by omega
    simp only [countingRom, List.getElem_take, List.getElem_drop, List.getElem_map,
      List.getElem_range, hdiv]

/-- Both scripts accept this cart behind a loader or a file system of their own, and
its sectors are where the shim looks. -/
theorem mastering_agrees_sample :
    (∃ t, makeGdi [0x09, 0x00] countingRom = some t ∧
      sectorAt 450000 t 451878 = List.replicate 2048 1 ∧
      sectorAt 450000 t (451878 + 5) = List.replicate 2048 6) ∧
    ∃ t, makeCdi sampleLoader countingRom sampleIp [0x43, 0x44] = some t ∧
      sectorAt 11702 t 13644 = List.replicate 2048 1 ∧
      sectorAt 11702 t (13644 + 5) = List.replicate 2048 6 := by
  have hnone : cdiMarks [0x09, 0x00] = [] := by
    rw [cdiMarks_eq]
    decide
  have hone : cdiMarks sampleLoader = [cartFadCd] := by
    rw [cdiMarks_eq]
    decide
  have hgdi : makeGdi [0x09, 0x00] countingRom = some _ :=
    if_pos ⟨by decide, by decide, countingRom_length, by decide, hnone⟩
  have hcdi : makeCdi sampleLoader countingRom sampleIp [0x43, 0x44] = some _ :=
    if_pos ⟨hone, countingRom_length, by decide, by decide, by decide⟩
  have hfirst := countingRom_sector (k := 0) (by decide)
  have hsixth := countingRom_sector (k := 5) (by decide)
  refine ⟨⟨_, hgdi, ?_, ?_⟩, ⟨_, hcdi, ?_, ?_⟩⟩
  · exact ((mastering_agrees.1 _ _ _ hgdi).2 0 (by decide)).trans hfirst
  · exact ((mastering_agrees.1 _ _ _ hgdi).2 5 (by decide)).trans hsixth
  · exact ((mastering_agrees.2.1 _ _ _ _ _ hcdi).2 0 (by decide)).trans hfirst
  · exact ((mastering_agrees.2.1 _ _ _ _ _ hcdi).2 5 (by decide)).trans hsixth

end Cfp2Dreamcast
