import Cfp2Dreamcast.Loader.Routines

/-!
# The handoff delivers the image

The loader leaves the patched image, the shim, the BIOS slices and the stub in RAM
with a cache that does not disagree, and the mirrors zero in RAM in clean lines.
The stub touches no cached memory, so nothing is written back between its copy and
the write to CCR, which drops what is left of the loader's dirty lines.
-/

namespace Cfp2Dreamcast

open Program Memory

/-- The bytes of the list are placed from the physical address `x` on. -/
def PlacedAt (m : Cached) (x : ℕ) (bs : List UInt8) : Prop :=
  ∀ i v, bs[i]? = some v → m.Placed lineOf (x + i) v

/-- A physical address of one of the two register mirrors. -/
def InMirror (x : ℕ) : Prop :=
  Within (phys g1Mirror) 0x800 x ∨ Within (phys mapleMirror) mapleMirrorLen x

/-- The mirrors are zero in RAM, and their lines are clean. -/
def Zeroed (m : Cached) : Prop := ∀ x, InMirror x → m.Quiet (lineOf x) ∧ m.ram x = 0

theorem home_iff (x : ℕ) :
    Home x ↔ (0x0cd00000 ≤ x ∧ x < 0x0ce00000) ∨ (0x0ce00000 ≤ x ∧ x < 0x0ce00030) ∨
      (0x0cfc0000 ≤ x ∧ x < 0x0cfd3100) := by
  unfold Home
  rw [Stub.length_handoffStub]
  rfl

theorem inMirror_iff (x : ℕ) :
    InMirror x ↔ (0x0cfc8800 ≤ x ∧ x < 0x0cfc9000) ∨ (0x0cfd3000 ≤ x ∧ x < 0x0cfd3100) :=
  Iff.rfl

theorem phys_bss {n : ℕ} (hn : n ≤ 0x8000) : phys (shimBase + n) = 0x0cfc0000 + n := by
  simp only [phys, shimBase_eq]
  omega

/-- The bytes of shim home that are stored through the cache, and the stub. -/
def ShimStores (x : ℕ) : Prop :=
  (0x0cfc0000 ≤ x ∧ x < 0x0cfc8000) ∨ (0x0cfcb000 ≤ x ∧ x < 0x0cfd2070) ∨
    (0x0ce00000 ≤ x ∧ x < 0x0ce00030)

/-- What is in place for the handoff, by the predicate that says so. -/
structure InPlace (At : ℕ → List UInt8 → Prop) (shimBin biosData : List UInt8) : Prop where
  shim : At (phys shimBase) shimBin
  bss : At (phys (shimBase + shimBin.length)) (List.replicate (shimCodeMax - shimBin.length) 0)
  bios60000 : At (phys biosData60000) (biosData.take biosData60000Len)
  bios1ffd00 : At (phys biosData1ffd00) ((biosData.drop biosData60000Len).take biosData1ffd00Len)
  stub : At (phys handoffScratch) handoffStub

variable {m m' : Cached} {shimBin biosData : List UInt8}

theorem home_mirror {x b : ℕ} (hx : InMirror x) (hb : lineOf b = lineOf x) : Home b := by
  rw [inMirror_iff] at hx
  rw [home_iff]
  unfold lineOf at hb
  omega

theorem Zeroed.of_spares {P : ℕ → Prop} {W : ℕ → Prop} (h : Zeroed m) (hs : Spares W P m m')
    (hW : ∀ x, InMirror x → ∀ b, lineOf b = lineOf x → ¬ W b) (hP : ∀ x, InMirror x → ¬ P x) :
    Zeroed m' := by
  intro x hx
  obtain ⟨hq, hz⟩ := h x hx
  obtain ⟨hq', hram⟩ := hs.flat x (fun b hb => ⟨home_mirror hx hb, hW x hx b hb⟩) (hP x hx) hq
  exact ⟨hq', hram.trans hz⟩

/-! `placeShim` in three phases: the copies through the cache, the mirrors past it,
and the stub. -/

def placeCopies (shimBin biosData : List UInt8) : Loader Unit := do
  memcpyBytes shimBase shimBin
  memset (shimBase + shimBin.length) 0 (shimCodeMax - shimBin.length)
  memcpyBytes biosData60000 (biosData.take biosData60000Len)
  memcpyBytes biosData1ffd00 ((biosData.drop biosData60000Len).take biosData1ffd00Len)

def zeroMirrors : Loader Unit := do
  zeroWords (p2Addr g1Mirror) (0x800 / 4)
  zeroWords (p2Addr mapleMirror) (mapleMirrorLen / 4)

theorem placeShim_eq (shimBin biosData : List UInt8) :
    placeShim shimBin biosData = (placeCopies shimBin biosData >>= fun _ =>
      zeroMirrors >>= fun _ => memcpyBytes handoffScratch handoffStub) := by
  simp only [placeShim, placeCopies, zeroMirrors, bind_assoc]

/-- A copy of at most `n` bytes to the physical address `x` of `Home`. -/
theorem yields_place {a x n : ℕ} {bs : List UInt8} (hx : phys a = x) (ha : Cachedly a n)
    (hn : bs.length ≤ n) (hhome : ∀ y, Within x n y → Home y) :
    Yields (memcpyBytes a bs) m fun _ m' =>
      Spares (Within x n) Nowhere m m' ∧ Shows m' x bs := by
  subst hx
  have hcached : Cachedly a bs.length := ⟨ha.1, (Nat.add_le_add_left hn a).trans ha.2⟩
  have hwithin {y : ℕ} (hy : Within (phys a) bs.length y) : Within (phys a) n y :=
    ⟨hy.1, hy.2.trans_le (Nat.add_le_add_left hn _)⟩
  refine (yields_memcpy hcached fun y hy => hhome y (hwithin hy)).mono fun _ m' h => ?_
  exact ⟨h.1.mono (fun y hy => hwithin hy) fun y hy => hy, h.2⟩

/-- The shim, the zeros after it and the two slices of the BIOS. -/
theorem yields_placeCopies (hshim : shimBin.length ≤ shimCodeMax) :
    Yields (placeCopies shimBin biosData) m fun _ m' =>
      Spares (fun x => Within 0x0cfc0000 0x8000 x ∨ Within 0x0cfcb000 0x7070 x) Nowhere m m' ∧
        Shows m' (phys shimBase) shimBin ∧
        Shows m' (phys (shimBase + shimBin.length))
          (List.replicate (shimCodeMax - shimBin.length) 0) ∧
        Shows m' (phys biosData60000) (biosData.take biosData60000Len) ∧
        Shows m' (phys biosData1ffd00)
          ((biosData.drop biosData60000Len).take biosData1ffd00Len) := by
  simp only [shimCodeMax_eq] at hshim ⊢
  have hbss := phys_bss hshim
  have hhome {a n : ℕ} (ha : 0x0cfc0000 ≤ a) (han : a + n ≤ 0x0cfd3100) (y : ℕ)
      (hy : Within a n y) : Home y := by
    obtain ⟨hlo, hhi⟩ := hy
    exact (home_iff y).2 (.inr (.inr ⟨ha.trans hlo, hhi.trans_le han⟩))
  have hcached {a n : ℕ} (ha : 0x8cfc0000 ≤ a) (han : a + n ≤ 0x8cfd3100) : Cachedly a n :=
    ⟨by omega, by omega⟩
  unfold placeCopies
  refine (yields_place (x := 0x0cfc0000) rfl
    (hcached le_rfl (by omega)) le_rfl (hhome le_rfl (by omega))).bind
      fun _ m₁ hm₁ => ?_
  obtain ⟨s₁, h₁⟩ := hm₁
  refine (yields_place hbss (n := 0x8000 - shimBin.length)
    (hcached (by rw [shimBase_eq]; omega) (by rw [shimBase_eq]; omega))
    (by rw [List.length_replicate, shimCodeMax_eq])
    (hhome (by omega) (by omega))).bind fun _ m₂ hm₂ => ?_
  obtain ⟨s₂, h₂⟩ := hm₂
  refine (yields_place (x := 0x0cfcb000) (n := 0x7000) rfl (hcached (by decide) (by decide))
    (List.length_take_le _ _) (hhome (by decide) (by decide))).bind fun _ m₃ hm₃ => ?_
  obtain ⟨s₃, h₃⟩ := hm₃
  refine (yields_place (x := 0x0cfd2000) (n := 0x70) rfl (hcached (by decide) (by decide))
    (List.length_take_le _ _) (hhome (by decide) (by decide))).mono fun _ m₄ hm₄ => ?_
  obtain ⟨s₄, h₄⟩ := hm₄
  -- what each copy left is spared by the ones after it
  have t₃ := s₃.trans s₄
  have t₂ := s₂.trans t₃
  refine ⟨(s₁.trans t₂).mono (fun x hx => ?_) fun x hx => hx.elim id (·.elim id (·.elim id id)),
    ?_, ?_, ?_, h₄⟩
  · simp only [Within] at hx ⊢
    omega
  · refine h₁.of_spares t₂ fun i hi => ?_
    simp only [home_iff, Within, Nowhere, or_false, not_false_eq_true, and_true]
    omega
  · rw [hbss]
    refine h₂.of_spares t₃ fun i hi => ?_
    rw [List.length_replicate, shimCodeMax_eq] at hi
    simp only [home_iff, Within, Nowhere, or_false, not_false_eq_true, and_true]
    omega
  · refine h₃.of_spares s₄ fun i hi => ?_
    have hi' : i < 0x7000 := hi.trans_le (List.length_take_le _ _)
    simp only [home_iff, Within, Nowhere, not_false_eq_true, and_true]
    omega

/-- The mirrors are zeroed past the cache, one after the other. -/
theorem yields_zeroMirrors (hq : ∀ x, InMirror x → m.Quiet (lineOf x)) :
    Yields zeroMirrors m fun _ m' => Spares Nowhere InMirror m m' ∧ Zeroed m' := by
  have hg₁ {x : ℕ} (hx : Within (phys (p2Addr g1Mirror)) (4 * (0x800 / 4)) x) : InMirror x := by
    rw [phys_p2Addr] at hx
    exact .inl hx
  have hmm {x : ℕ} (hx : Within (phys (p2Addr mapleMirror)) (4 * (mapleMirrorLen / 4)) x) :
      InMirror x := by
    rw [phys_p2Addr] at hx
    exact .inr hx
  unfold zeroMirrors
  refine (yields_zeroWords (a := p2Addr g1Mirror) ⟨by decide, by decide⟩
    (fun x hx b hb => home_mirror (hg₁ hx) hb) fun x hx => hq x (hg₁ hx)).bind fun _ m₁ hm₁ => ?_
  obtain ⟨s₁, z₁⟩ := hm₁
  have hq₁ : ∀ x, Within (phys (p2Addr mapleMirror)) (4 * (mapleMirrorLen / 4)) x →
      m₁.Quiet (lineOf x) := by
    intro x hx
    refine (s₁.flat x (fun b hb => ⟨home_mirror (hmm hx) hb, id⟩) (fun h => ?_)
      (hq x (hmm hx))).1
    rw [Within, show phys (p2Addr g1Mirror) = 0x0cfc8800 from rfl] at h
    rw [Within, show phys (p2Addr mapleMirror) = 0x0cfd3000 from rfl] at hx
    omega
  refine (yields_zeroWords (a := p2Addr mapleMirror) ⟨by decide, by decide⟩
    (fun x hx b hb => home_mirror (hmm hx) hb) hq₁).mono fun _ m₂ hm₂ => ?_
  obtain ⟨s₂, z₂⟩ := hm₂
  refine ⟨(s₁.trans s₂).mono (fun x hx => hx.elim id id) fun x hx => hx.elim hg₁ hmm,
    fun x hx => ?_⟩
  by_cases hm : Within (phys (p2Addr mapleMirror)) (4 * (mapleMirrorLen / 4)) x
  · exact z₂ x hm
  · obtain ⟨hq', hz⟩ := z₁ x (hx.resolve_right hm)
    obtain ⟨hq₂, hram⟩ := s₂.flat x (fun b hb => ⟨home_mirror hx hb, id⟩) hm hq'
    exact ⟨hq₂, hram.trans hz⟩

theorem yields_placeShim (hshim : shimBin.length ≤ shimCodeMax)
    (hq : ∀ x, InMirror x → m.Quiet (lineOf x)) :
    Yields (placeShim shimBin biosData) m fun _ m' => Spares ShimStores InMirror m m' ∧
      InPlace (Shows m') shimBin biosData ∧ Zeroed m' := by
  have hstub := Stub.length_handoffStub
  have hshimP : phys shimBase = 0x0cfc0000 := rfl
  rw [placeShim_eq]
  refine (yields_placeCopies hshim).bind fun _ m₁ hm₁ => ?_
  obtain ⟨s₁, hshow, hbss, hb₁, hb₂⟩ := hm₁
  have hq₁ : ∀ x, InMirror x → m₁.Quiet (lineOf x) := by
    intro x hx
    refine (s₁.flat x (fun b hb => ⟨home_mirror hx hb, fun h => ?_⟩) id (hq x hx)).1
    rw [inMirror_iff] at hx
    unfold lineOf at hb
    simp only [Within] at h
    omega
  refine (yields_zeroMirrors hq₁).bind fun _ m₂ hm₂ => ?_
  obtain ⟨s₂, hzero⟩ := hm₂
  refine (yields_place (x := 0x0ce00000) (n := 0x30) rfl ⟨by decide, by decide⟩ hstub.le
    fun y hy => (home_iff y).2 (.inr (.inl hy))).mono fun _ m₃ hm₃ => ?_
  obtain ⟨s₃, hstubAt⟩ := hm₃
  -- the copies are spared by the mirrors and the stub
  have hkeep {x : ℕ} {bs : List UInt8} (h : Shows m₁ x bs)
      (hin : ∀ i, i < bs.length → Within 0x0cfc0000 0x8000 (x + i) ∨
        Within 0x0cfcb000 0x7070 (x + i)) : Shows m₃ x bs := by
    refine h.of_spares (s₂.trans s₃) fun i hi => ?_
    have := hin i hi
    simp only [home_iff, inMirror_iff, Within, Nowhere, or_false, false_or] at this ⊢
    omega
  simp only [shimCodeMax_eq] at hshim
  refine ⟨(s₁.trans (s₂.trans s₃)).mono (fun x hx => ?_) fun x hx => ?_,
    ⟨hkeep hshow fun i hi => .inl ?_, hkeep hbss fun i hi => .inl ?_,
      hkeep hb₁ fun i hi => .inr ?_, hkeep hb₂ fun i hi => .inr ?_, hstubAt⟩,
    hzero.of_spares s₃ (fun x hx b hb h => ?_) fun _ _ => id⟩
  · simp only [Within, Nowhere, false_or] at hx
    unfold ShimStores
    omega
  · simpa only [Nowhere, or_false, false_or] using hx
  · rw [hshimP, Within]
    omega
  · rw [List.length_replicate, shimCodeMax_eq] at hi
    rw [phys_bss hshim, Within]
    omega
  · rw [List.length_take, biosData60000Len_eq] at hi
    rw [show phys biosData60000 = 0x0cfcb000 from rfl, Within]
    omega
  · rw [List.length_take, biosData1ffd00Len_eq] at hi
    rw [show phys biosData1ffd00 = 0x0cfd2000 from rfl, Within]
    omega
  · rw [inMirror_iff] at hx
    unfold lineOf at hb
    rw [Within] at h
    omega

/-- The ranges that the loader purges. -/
def Purged (x : ℕ) : Prop :=
  Within (phys stagingAddr) gameLen x ∨ Within (phys shimBase) shimCodeMax x ∨
    Within (phys handoffScratch) handoffStub.length x ∨
      Within (phys biosData60000) biosData60000Len x ∨
        Within (phys biosData1ffd00) biosData1ffd00Len x

theorem yields_purgeAll (m : Cached) : Yields purgeAll m fun _ m' => Flushes Purged m m' := by
  unfold purgeAll
  refine (yields_purge m _ _).bind fun _ m₁ f₁ => ?_
  refine (yields_purge m₁ _ _).bind fun _ m₂ f₂ => ?_
  refine (yields_purge m₂ _ _).bind fun _ m₃ f₃ => ?_
  refine (yields_purge m₃ _ _).bind fun _ m₄ f₄ => ?_
  exact (yields_purge m₄ _ _).mono fun _ m₅ f₅ =>
    f₁.trans (f₂.trans (f₃.trans (f₄.trans f₅)))

/-- What is in place lies in `Home`, and the purges cover it. -/
theorem InPlace.imp {At At' : ℕ → List UInt8 → Prop} (h : InPlace At shimBin biosData)
    (hshim : shimBin.length ≤ shimCodeMax)
    (himp : ∀ x bs, (∀ i, i < bs.length → Home (x + i) ∧ Purged (x + i)) → At x bs → At' x bs) :
    InPlace At' shimBin biosData := by
  have hstub := Stub.length_handoffStub
  have hshimP : phys shimBase = 0x0cfc0000 := rfl
  have hb₁P : phys biosData60000 = 0x0cfcb000 := rfl
  have hb₂P : phys biosData1ffd00 = 0x0cfd2000 := rfl
  have hsP : phys handoffScratch = 0x0ce00000 := rfl
  simp only [shimCodeMax_eq] at hshim
  have hbss := phys_bss hshim
  refine ⟨himp _ _ (fun i hi => ?_) h.shim, himp _ _ (fun i hi => ?_) h.bss,
    himp _ _ (fun i hi => ?_) h.bios60000, himp _ _ (fun i hi => ?_) h.bios1ffd00,
    himp _ _ (fun i hi => ?_) h.stub⟩
  · refine ⟨?_, .inr (.inl ?_)⟩
    · rw [hshimP, home_iff]
      omega
    · rw [Within, shimCodeMax_eq]
      omega
  · rw [List.length_replicate, shimCodeMax_eq] at hi
    rw [hbss]
    refine ⟨?_, .inr (.inl ?_)⟩
    · rw [home_iff]
      omega
    · rw [Within, hshimP, shimCodeMax_eq]
      omega
  · rw [List.length_take, biosData60000Len_eq] at hi
    refine ⟨?_, .inr (.inr (.inr (.inl ?_)))⟩
    · rw [hb₁P, home_iff]
      omega
    · rw [Within, biosData60000Len_eq]
      omega
  · rw [List.length_take, biosData1ffd00Len_eq] at hi
    refine ⟨?_, .inr (.inr (.inr (.inr ?_)))⟩
    · rw [hb₂P, home_iff]
      omega
    · rw [Within, biosData1ffd00Len_eq]
      omega
  · refine ⟨?_, .inr (.inr (.inl ?_))⟩
    · rw [hsP, home_iff]
      omega
    · rw [Within]
      omega

theorem yields_quietHardware (m : Cached) :
    Yields quietHardware m fun _ m' => Accesses m m' := by
  unfold quietHardware
  refine (yields_regStore (by decide) m).bind fun _ m₁ h₁ => ?_
  refine (yields_regStore (by decide) m₁).bind fun _ m₂ h₂ => ?_
  refine Yields.bind (Q := fun _ m₃ => Accesses m₂ m₃) (.op fun r m₀ m₃ hacc hst => ?_)
    fun _ m₃ h₃ => ?_
  · simp only [loaderAccess, if_neg (show ¬ isRam 0xa05f8008 by decide)] at hst
    exact .ret (hst.2 ▸ hacc)
  refine (yields_regStore (by decide) m₃).bind fun _ m₄ h₄ => ?_
  refine (yields_regStore (by decide) m₄).bind fun _ m₅ h₅ => ?_
  exact (yields_regStore (by decide) m₅).mono fun _ m₆ h₆ =>
    ((((h₁.trans h₂).trans h₃).trans h₄).trans h₅).trans h₆

theorem PlacedAt.of_accesses {x : ℕ} {bs : List UInt8} (h : PlacedAt m x bs)
    (hacc : Accesses m m') (hin : ∀ i, i < bs.length → Home (x + i)) : PlacedAt m' x bs := by
  intro i v hv
  exact (Spares.of_accesses (W := Nowhere) (P := Nowhere) hacc).placed _ v
    (hin i (List.getElem?_eq_some_iff.1 hv).1) id id (h i v hv)

/-- What a purge finds held it leaves placed. -/
theorem Flushes.placedAt {C : ℕ → Prop} {x : ℕ} {bs : List UInt8} (h : Flushes C m m')
    (hm : Shows m x bs) (hin : ∀ i, i < bs.length → Home (x + i) ∧ C (x + i)) :
    PlacedAt m' x bs := by
  intro i v hv
  obtain ⟨hhome, hC⟩ := hin i (List.getElem?_eq_some_iff.1 hv).1
  exact h.placed _ v hhome hC (hm i v hv)

/-- The loader's state when it calls the stub. -/
structure Ready (m : Cached) (img shimBin biosData : List UInt8) : Prop where
  staged : PlacedAt m (phys stagingAddr) img
  placed : InPlace (PlacedAt m) shimBin biosData
  zeroed : Zeroed m

variable {img : List UInt8} {table : List Patch}

theorem Ready.of_accesses (h : Ready m img shimBin biosData) (himg : img.length = gameLen)
    (hshim : shimBin.length ≤ shimCodeMax) (hacc : Accesses m m') :
    Ready m' img shimBin biosData where
  staged := h.staged.of_accesses hacc fun _ hi => home_staging (himg ▸ hi)
  placed := h.placed.imp hshim fun _ _ hin hp => hp.of_accesses hacc fun i hi => (hin i hi).1
  zeroed := h.zeroed.of_spares (.of_accesses (W := Nowhere) (P := Nowhere) hacc)
    (fun _ _ _ _ => id) fun _ _ => id

/-- The loader up to the call of the stub, on a table that applies. -/
theorem yields_loaderMain (hshim : shimBin.length ≤ shimCodeMax)
    (hin : ∀ p ∈ table, p.InImage) (himg : img.length = gameLen)
    (hok : (applyPatches table img).1 = 0) (hstaged : Shows m (phys stagingAddr) img)
    (hclean : ∀ x, Home x → m.Quiet (lineOf x)) :
    Yields (loaderMain shimBin biosData table) m fun _ m' =>
      Ready m' (applyPatches table img).2 shimBin biosData := by
  unfold loaderMain
  refine (yields_applyPatches hin himg hstaged).bind fun r m₁ hm₁ => ?_
  obtain ⟨hr, hlen, hspare, hshow⟩ := hm₁
  rw [hr, hok, if_neg (by simp)]
  have hq₁ : ∀ x, InMirror x → m₁.Quiet (lineOf x) := by
    intro x hx
    refine (hspare.flat x (fun b hb => ⟨home_mirror hx hb, fun h => ?_⟩) id
      (hclean x (home_mirror hx rfl))).1
    rw [inMirror_iff] at hx
    unfold lineOf at hb
    simp only [Within, show phys stagingAddr = 0x0cd00000 from rfl, gameLen_eq] at h
    omega
  refine (yields_placeShim hshim hq₁).bind fun _ m₂ hm₂ => ?_
  obtain ⟨hspare₂, hplace, hzero⟩ := hm₂
  have hshow₂ := hshow.of_spares hspare₂ fun i hi => by
    rw [hlen] at hi
    refine ⟨home_staging hi, ?_⟩
    simp only [gameLen_eq] at hi
    rw [show phys stagingAddr = 0x0cd00000 from rfl, inMirror_iff, ShimStores]
    omega
  refine (yields_purgeAll m₂).bind fun _ m₃ hflush => ?_
  have hready : Ready m₃ (applyPatches table img).2 shimBin biosData := by
    refine ⟨hflush.placedAt hshow₂ fun i hi => ?_,
      hplace.imp hshim fun _ _ hin hp => hflush.placedAt hp hin,
      hzero.of_spares hflush.spares (fun _ _ _ _ => id) fun _ _ => id⟩
    rw [hlen] at hi
    exact ⟨home_staging hi, .inl ⟨by omega, by omega⟩⟩
  exact (yields_quietHardware m₃).mono fun _ m₄ hacc => hready.of_accesses hlen hshim hacc

end Cfp2Dreamcast
