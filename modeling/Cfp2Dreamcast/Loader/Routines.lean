import Cfp2Dreamcast.Loader.Copy
import Cfp2Dreamcast.Loader.Spare

/-!
# The loader's routines

What each routine leaves in the cached memory: `memcpy` holds what it copied,
`memcmp` compares what is held, `apply_patches` leaves the patched list of bytes,
the mirrors are zero in RAM, and a purge places what it covers.
-/

namespace Cfp2Dreamcast

open Program Memory

/-- A range of the cached alias of area 3. -/
def Cachedly (a n : ℕ) : Prop := 0x8c000000 ≤ a ∧ a + n ≤ 0x90000000

/-- The bytes of the list are held from the physical address `x` on. -/
def Shows (m : Cached) (x : ℕ) (bs : List UInt8) : Prop :=
  ∀ i v, bs[i]? = some v → m.Held lineOf (x + i) v

def Nowhere (_ : ℕ) : Prop := False

section Cachedly

variable {a n : ℕ}

theorem Cachedly.not_uncached (h : Cachedly a n) (hn : 0 < n) : ¬ uncached a := by
  unfold Cachedly at h
  unfold uncached
  omega

theorem Cachedly.phys_succ (h : Cachedly a (n + 1)) : phys (a + 1) = phys a + 1 := by
  unfold Cachedly at h
  unfold phys
  omega

theorem Cachedly.tail (h : Cachedly a (n + 1)) : Cachedly (a + 1) n := by
  unfold Cachedly at h ⊢
  omega

end Cachedly

variable {m m' : Cached} {a x : ℕ} {bs xs img : List UInt8}

theorem Shows.of_spares {W P : ℕ → Prop} (h : Shows m x bs) (hs : Spares W P m m')
    (hin : ∀ i, i < bs.length → Home (x + i) ∧ ¬ W (x + i) ∧ ¬ P (x + i)) : Shows m' x bs := by
  intro i v hv
  obtain ⟨hhome, hW, hP⟩ := hin i (List.getElem?_eq_some_iff.1 hv).1
  exact hs.held _ v hhome hW hP (h i v hv)

theorem yields_memcpy (ha : Cachedly a bs.length)
    (hhome : ∀ x, Within (phys a) bs.length x → Home x) :
    Yields (memcpyBytes a bs) m fun _ m' =>
      Spares (Within (phys a) bs.length) Nowhere m m' ∧ Shows m' (phys a) bs := by
  induction bs generalizing a m with
  | nil => exact .ret ⟨.refl _ _ m, fun i v hv => by simp at hv⟩
  | cons b bs ih =>
      have hphys := ha.phys_succ
      refine .op fun r m₀ m₁ hacc hst => ?_
      obtain ⟨hspare, hheld⟩ := spares_store8 (ha.not_uncached (by simp)) hacc hst
      have hhome' : ∀ x, Within (phys (a + 1)) bs.length x → Home x := fun x hx =>
        hhome x ⟨by have := hx.1; omega, by have := hx.2; rw [List.length_cons]; omega⟩
      refine (ih ha.tail hhome').mono fun _ m' ⟨hrest, hshows⟩ => ⟨?_, ?_⟩
      · refine (hspare.trans hrest).mono (fun x hx => ?_) fun x hx => hx.elim id id
        rw [Within, hphys] at hx
        rw [Within, List.length_cons]
        omega
      · intro i v hv
        cases i with
        | zero =>
            obtain rfl : b = v := by simpa using hv
            refine hrest.held _ _ (hhome _ ⟨le_rfl, by simp⟩) (fun hx => ?_) (fun h => h) hheld
            have := hx.1
            omega
        | succ i =>
            have h := hshows i v (by simpa using hv)
            rwa [hphys, Nat.add_assoc, Nat.add_comm 1 i] at h

theorem yields_memcmp (ha : Cachedly a bs.length) (hlen : xs.length = bs.length)
    (hhome : ∀ x, Within (phys a) bs.length x → Home x) (hm : Shows m (phys a) xs) :
    Yields (memcmpBytes a bs) m fun r m' => Accesses m m' ∧ (r = true ↔ xs = bs) := by
  induction bs generalizing a m xs with
  | nil => exact .ret ⟨.refl, by simpa using hlen⟩
  | cons b bs ih =>
      cases xs with
      | nil => simp at hlen
      | cons y xs =>
          have hphys := ha.phys_succ
          have hun := ha.not_uncached (by simp)
          refine .op fun r m₀ m₁ hacc ⟨hr, htouch⟩ => ?_
          have hheld : m₀.Held lineOf (phys a) y :=
            (Spares.of_accesses (W := Nowhere) (P := Nowhere) hacc).held _ _
              (hhome _ ⟨le_rfl, by simp⟩) (fun h => h) (fun h => h) (hm 0 y rfl)
          obtain rfl : r = y := by
            rw [hr]
            simp only [cachedBus, if_neg hun]
            exact hheld.view_eq
          have hown : Accesses m m₁ := hacc.trans (accesses_touch htouch)
          by_cases hb : r = b
          · have hhome' : ∀ x, Within (phys (a + 1)) bs.length x → Home x := fun x hx =>
              hhome x ⟨by have := hx.1; omega, by have := hx.2; rw [List.length_cons]; omega⟩
            have hm' : Shows m₁ (phys (a + 1)) xs := by
              intro i v hv
              have hi := (List.getElem?_eq_some_iff.1 hv).1
              have h := hm (i + 1) v (by simpa using hv)
              rw [hphys, Nat.add_assoc, Nat.add_comm 1 i]
              refine (Spares.of_accesses (W := Nowhere) (P := Nowhere) hown).held _ _
                (hhome _ ⟨by omega, ?_⟩) (fun h => h) (fun h => h) h
              simp only [List.length_cons] at hlen ⊢
              omega
            have hrest := ih ha.tail (by simpa using hlen) hhome' hm'
            simp only [if_pos hb]
            exact hrest.mono fun r' m' ⟨h, hiff⟩ => ⟨hown.trans h, by rw [hiff, hb]; simp⟩
          · simp only [if_neg hb]
            exact .ret ⟨hown, by simp [hb]⟩

/-! `apply_patches`. -/

/-- The entry patches bytes of the image. -/
def Patch.InImage (p : Patch) : Prop :=
  gameLoadAddr ≤ p.addr ∧ p.addr + p.old.length ≤ gameLoadAddr + gameLen

theorem phys_staging_add {i : ℕ} (hi : i ≤ gameLen) :
    phys (stagingAddr + i) = phys stagingAddr + i := by
  simp only [phys, stagingAddr_eq, gameLen_eq] at hi ⊢
  omega

theorem home_staging {i : ℕ} (hi : i < gameLen) : Home (phys stagingAddr + i) :=
  .inl ⟨by omega, by omega⟩

theorem yields_applyPatches {table : List Patch} (hin : ∀ p ∈ table, p.InImage)
    (hlen : img.length = gameLen) (hm : Shows m (phys stagingAddr) img) :
    Yields (applyPatchesAt stagingAddr table) m fun r m' =>
      r = (applyPatches table img).1 ∧ (applyPatches table img).2.length = gameLen ∧
        Spares (Within (phys stagingAddr) gameLen) Nowhere m m' ∧
          Shows m' (phys stagingAddr) (applyPatches table img).2 := by
  induction table generalizing m img with
  | nil => exact .ret ⟨rfl, hlen, .refl _ _ m, hm⟩
  | cons p ps ih =>
      obtain ⟨hlow, hhigh⟩ := hin p List.mem_cons_self
      have hoff : p.addr - gameLoadAddr + p.old.length ≤ gameLen := by omega
      have hnew := p.length_eq
      let off := p.addr - gameLoadAddr
      have hphys : phys (stagingAddr + off) = phys stagingAddr + off := phys_staging_add (by omega)
      have hspan : Cachedly (stagingAddr + off) p.old.length := by
        simp only [Cachedly, stagingAddr_eq, gameLen_eq] at hoff ⊢
        omega
      have hhome : ∀ x, Within (phys (stagingAddr + off)) p.old.length x → Home x := by
        rintro x ⟨hx, hx'⟩
        rw [hphys] at hx hx'
        rw [show x = phys stagingAddr + (x - phys stagingAddr) by omega]
        exact home_staging (by omega)
      have hslice : Shows m (phys (stagingAddr + off)) ((img.drop off).take p.old.length) := by
        intro i v hv
        have hi : i < p.old.length := by
          have := (List.getElem?_eq_some_iff.1 hv).1
          rw [List.length_take] at this
          omega
        rw [List.getElem?_take_of_lt hi, List.getElem?_drop] at hv
        rw [hphys, Nat.add_assoc]
        exact hm _ v hv
      have hslen : ((img.drop off).take p.old.length).length = p.old.length := by
        rw [List.length_take, List.length_drop]
        omega
      refine (yields_memcmp hspan hslen hhome hslice).bind fun same m₁ ⟨hacc, hsame⟩ => ?_
      have hm₁ : Shows m₁ (phys stagingAddr) img :=
        hm.of_spares (.of_accesses (W := Nowhere) (P := Nowhere) hacc) fun i hi =>
          ⟨home_staging (by omega), id, id⟩
      by_cases heq : (img.drop off).take p.old.length = p.old
      · have happly : applyPatches (p :: ps) img = applyPatches ps (splice img off p.new) :=
          if_pos heq
        rw [happly, if_pos (hsame.2 heq)]
        have hspan' : Cachedly (stagingAddr + off) p.new.length := hnew ▸ hspan
        refine (yields_memcpy hspan' (hnew ▸ hhome)).bind fun _ m₂ ⟨hspare, hshows⟩ => ?_
        have hfit : off + p.new.length ≤ img.length := by omega
        have hm₂ : Shows m₂ (phys stagingAddr) (splice img off p.new) := by
          intro i v hv
          by_cases hi : off ≤ i ∧ i < off + p.new.length
          · rw [getElem?_splice_of_mem hfit hi.1 hi.2] at hv
            have h := hshows (i - off) v hv
            rwa [hphys, Nat.add_assoc, Nat.add_sub_cancel' hi.1] at h
          · rw [getElem?_splice_of_not_mem hfit (by omega)] at hv
            have hlt := (List.getElem?_eq_some_iff.1 hv).1
            refine hspare.held _ v (home_staging (by omega)) (fun hx => hi ?_) id (hm₁ i v hv)
            rw [Within, hphys] at hx
            omega
        refine (ih (fun q hq => hin q (List.mem_cons_of_mem p hq))
          ((length_splice hfit).trans hlen) hm₂).mono fun r m' ⟨hr, hl, hrest, hshow⟩ =>
            ⟨hr, hl, ?_, hshow⟩
        refine (((Spares.of_accesses (W := Nowhere) (P := Nowhere) hacc).trans hspare).trans
          hrest).mono (fun x hx => ?_) fun x hx => hx.elim (fun h => h.elim id id) id
        rcases hx with (h | ⟨hx, hx'⟩) | h
        · exact h.elim
        · rw [hphys] at hx hx'
          exact ⟨by omega, by omega⟩
        · exact h
      · have happly : applyPatches (p :: ps) img = (-1, img) := if_neg heq
        rw [happly, if_neg fun h => heq (hsame.1 h)]
        exact .ret ⟨rfl, hlen, .of_accesses hacc, hm₁⟩

/-! Purges, mirrors and registers. -/

theorem mem_linesOf {len : ℕ} (hx : Within (phys a) len x) : lineOf x ∈ linesOf a len := by
  obtain ⟨hlo, hhi⟩ := hx
  refine List.mem_map.2 ⟨x / 32 - phys a / 32, List.mem_range.2 ?_, ?_⟩
  · omega
  · rw [lineOf]
    omega

/-- A step that writes back what is held of `C` and otherwise spares everything. -/
structure Flushes (C : ℕ → Prop) (m m' : Cached) : Prop where
  spares : Spares Nowhere Nowhere m m'
  placed : ∀ x v, Home x → C x → m.Held lineOf x v → m'.Placed lineOf x v

theorem Flushes.trans {C C' : ℕ → Prop} {m₁ : Cached} (h : Flushes C m m₁) (h' : Flushes C' m₁ m') :
    Flushes (fun x => C x ∨ C' x) m m' where
  spares := (h.spares.trans h'.spares).mono (fun _ hx => hx.elim id id) fun _ hx => hx.elim id id
  placed x v hx hC hm := by
    rcases hC with hC | hC
    · exact h'.spares.placed x v hx id id (h.placed x v hx hC hm)
    · exact h'.placed x v hx hC (h.spares.held x v hx id id hm)

theorem yields_purge (m : Cached) (a len : ℕ) :
    Yields (dcachePurgeRange a len) m fun _ m' => Flushes (Within (phys a) len) m m' := by
  refine .op fun r m₁ m' hacc hp => ?_
  obtain rfl : m' = m₁.purge lineOf (linesOf a len) := hp
  have hspares : Spares Nowhere Nowhere m m₁ := .of_accesses hacc
  exact .ret ⟨.of_accesses (hacc.trans (accesses_purge m₁ _)), fun x v hx hC hm =>
    (hspares.held x v hx id id hm).placed_purge (mem_linesOf hC)⟩

theorem yields_regStore {v : ℕ} (ha : ¬ isRam a) (m : Cached) :
    Yields (regStore a v) m fun _ m' => Accesses m m' := by
  refine .op fun r m₁ m' hacc hst => ?_
  obtain rfl : m' = m₁ := by
    simpa only [loaderAccess, if_neg ha] using hst
  exact .ret hacc

open Stub in
/-- One word of zeros past the cache. -/
theorem spares_zeroWord {m₁ : Cached} {r : Unit} (ha : Span a 4) (hacc : Accesses m m₁)
    (hst : loaderAccess m₁ (.store32 a 0) r m') :
    Spares Nowhere (Within (phys a) 4) m m' ∧ (∀ k, m₁.Quiet k → m'.Quiet k) ∧
      ∀ x, Within (phys a) 4 x → m'.ram x = 0 := by
  have hun (i : ℕ) (hi : i < 4) : uncached (a + i) := by
    unfold Span at ha
    unfold uncached
    omega
  have hphys (i : ℕ) (hi : i < 4) : phys (a + i) = phys a + i := ha.phys_add hi
  simp only [loaderAccess, if_pos (ha.direct (by decide)).2] at hst
  obtain ⟨m₂, h₂, m₃, h₃, m₄, h₄, m₅, h₅, rfl⟩ := hst
  simp only [cachedBus, if_pos (show uncached a from hun 0 (by decide))] at h₂
  simp only [cachedBus, if_pos (hun 1 (by decide))] at h₃
  simp only [cachedBus, if_pos (hun 2 (by decide)), Nat.add_assoc, Nat.reduceAdd] at h₄
  simp only [cachedBus, if_pos (hun 3 (by decide)), Nat.add_assoc, Nat.reduceAdd] at h₅
  subst h₂ h₃ h₄ h₅
  refine ⟨?_, fun k hq => hq, ?_⟩
  · refine (((((Spares.of_accesses (W := Nowhere) (P := Nowhere) hacc).trans
      (spares_poke _ _ _)).trans (spares_poke _ _ _)).trans (spares_poke _ _ _)).trans
        (spares_poke _ _ _)).mono (fun x hx => ?_) fun x hx => ?_
    · simp [Nowhere] at hx
    · have h₁ := hphys 1 (by decide)
      have h₂ := hphys 2 (by decide)
      have h₃ := hphys 3 (by decide)
      simp only [Nowhere, false_or] at hx
      rw [Within]
      omega
  · rintro x ⟨hx, hx'⟩
    obtain ⟨i, rfl⟩ := Nat.exists_eq_add_of_le hx
    have h₁ := hphys 1 (by decide)
    have h₂ := hphys 2 (by decide)
    have h₃ := hphys 3 (by decide)
    simp only [Cache.poke, h₁, h₂, h₃, Function.update_apply]
    have hi : i < 4 := by omega
    interval_cases i <;> simp

open Stub in
/-- The words are zero in RAM, where their lines are shim home's and clean. -/
theorem yields_zeroWords {n : ℕ} (ha : Span a (4 * n))
    (hline : ∀ x, Within (phys a) (4 * n) x → ∀ b, lineOf b = lineOf x → Home b)
    (hq : ∀ x, Within (phys a) (4 * n) x → m.Quiet (lineOf x)) :
    Yields (zeroWords a n) m fun _ m' => Spares Nowhere (Within (phys a) (4 * n)) m m' ∧
      ∀ x, Within (phys a) (4 * n) x → m'.Quiet (lineOf x) ∧ m'.ram x = 0 := by
  induction n generalizing a m with
  | zero => exact .ret ⟨.refl _ _ m, fun x hx => by have := hx.1; have := hx.2; omega⟩
  | succ n ih =>
      have ha₄ : Span a 4 := by
        unfold Span at ha ⊢
        omega
      refine .op fun r m₀ m₁ hacc hst => ?_
      obtain ⟨hspare, hquiet, hzero⟩ := spares_zeroWord ha₄ hacc hst
      have hq₁ : ∀ x, Within (phys a) (4 * (n + 1)) x → m₁.Quiet (lineOf x) := fun x hx =>
        hquiet _ ((Spares.of_accesses (W := Nowhere) (P := Nowhere) hacc).flat x
          (fun b hb => ⟨hline x hx b hb, id⟩) id (hq x hx)).1
      by_cases hn : n = 0
      · subst hn
        exact .ret ⟨hspare, fun x hx => ⟨hq₁ x hx, hzero x hx⟩⟩
      · have hphys : phys (a + 4) = phys a + 4 := ha.phys_add (by omega)
        have hsub : ∀ x, Within (phys (a + 4)) (4 * n) x → Within (phys a) (4 * (n + 1)) x := by
          rintro x ⟨hx, hx'⟩
          exact ⟨by omega, by omega⟩
        refine (ih ha.tail (fun x hx => hline x (hsub x hx)) fun x hx => hq₁ x (hsub x hx)).mono
          fun _ m' ⟨hrest, hzeros⟩ => ⟨?_, fun x hx => ?_⟩
        · refine (hspare.trans hrest).mono (fun x hx => hx.elim id id) fun x hx => ?_
          rcases hx with ⟨hx, hx'⟩ | hx
          · exact ⟨hx, by omega⟩
          · exact hsub x hx
        · by_cases hlow : Within (phys (a + 4)) (4 * n) x
          · exact hzeros x hlow
          · have hx₄ : Within (phys a) 4 x := by
              unfold Within at hx hlow ⊢
              omega
            obtain ⟨hq', hram⟩ := hrest.flat x (fun b hb => ⟨hline x hx b hb, id⟩) hlow (hq₁ x hx)
            exact ⟨hq', hram.trans (hzero x hx₄)⟩

end Cfp2Dreamcast
