import Cfp2Dreamcast.Loader.Deliver

/-!
# From the staged image to the entry of the game

Every run of the loader on a table that applies calls the stub, and from every call
the stub arrives at the entry of the game with the intended image in RAM and an
empty cache.
-/

namespace Cfp2Dreamcast

open Program Memory

/-! Every command has an outcome, so the loader runs. -/

theorem exists_cachedStore (m : Cached) (a : ℕ) (v : UInt8) : ∃ m', cachedBus.store m a v m' := by
  by_cases ha : uncached a
  · exact ⟨_, by simp only [cachedBus, if_pos ha]; rfl⟩
  · exact ⟨_, by simp only [cachedBus, if_neg ha]; exact ⟨m, .refl, rfl⟩⟩

theorem exists_touch_any (m : Cached) (a : ℕ) : ∃ m', cachedBus.touch m a m' := by
  by_cases ha : uncached a
  · exact ⟨_, by simp only [cachedBus, if_pos ha]; rfl⟩
  · exact ⟨_, by simp only [cachedBus, if_neg ha]; exact ⟨m, .refl, rfl⟩⟩

theorem exists_storeRun (m : Cached) (a : ℕ) (bs : List UInt8) :
    ∃ m', cachedBus.storeRun m a bs m' := by
  induction bs generalizing m a with
  | nil => exact ⟨m, rfl⟩
  | cons b bs ih =>
      obtain ⟨m₁, h⟩ := exists_cachedStore m a b
      obtain ⟨m', h'⟩ := ih m₁ (a + 1)
      exact ⟨m', m₁, h, h'⟩

theorem exists_access (m : Cached) (c : LoaderCmd) : ∃ r m', loaderAccess m c r m' := by
  cases c with
  | load8 a =>
      obtain ⟨m', h⟩ := exists_touch_any m a
      exact ⟨_, m', rfl, h⟩
  | load32 a =>
      by_cases ha : isRam a
      · obtain ⟨m', h⟩ := exists_touch_any m a
        exact ⟨cachedBus.word m a, m', by simp only [loaderAccess, if_pos ha, true_and]; exact h⟩
      · exact ⟨(0 : ℕ), m, by rw [loaderAccess, if_neg ha]; exact ⟨Nat.two_pow_pos 32, rfl⟩⟩
  | store8 a v =>
      obtain ⟨m', h⟩ := exists_cachedStore m a v
      exact ⟨(), m', h⟩
  | store32 a v =>
      by_cases ha : isRam a
      · obtain ⟨m', h⟩ := exists_storeRun m a (wordBytes v)
        exact ⟨(), m', by simp only [loaderAccess, if_pos ha]; exact h⟩
      · exact ⟨(), m, by simp only [loaderAccess, if_neg ha]⟩
  | purge a len => exact ⟨(), _, rfl⟩

theorem exists_loader_exec {α : Type} (p : Loader α) (m : Cached) :
    ∃ tr o m', Exec loaderMachine p m tr o m' := by
  induction p generalizing m with
  | ret a => exact ⟨[], _, m, .ret a m⟩
  | halt e => exact ⟨[], _, m, .halt e m⟩
  | op c k ih =>
      obtain ⟨r, m₁, h⟩ := exists_access m c
      obtain ⟨tr, o, m', hrest⟩ := ih r m₁
      exact ⟨_, o, m', .op ⟨m, .refl, h⟩ hrest⟩

/-! The handoff. -/

/-- RAM has the bytes of the list from the physical address `x` on. -/
def InRam (m : Cached) (x : ℕ) (bs : List UInt8) : Prop :=
  ∀ i v, bs[i]? = some v → m.ram (x + i) = v

/-- The memory that the game is to find at its entry. -/
structure Delivered (m : Cached) (img shimBin biosData : List UInt8) : Prop where
  game : InRam m (phys gameLoadAddr) img
  placed : InPlace (InRam m) shimBin biosData
  mirrors : ∀ x, InMirror x → m.ram x = 0
  /-- Nothing can be written back over it, and no stale line hides it. -/
  empty : ∀ k, m.line k = none

/-- The core arrives in one state only. -/
theorem Stub.Arrives.unique {entry : ℕ} {s s₁ s₂ : Stub} (h₁ : Arrives entry s s₁)
    (h₂ : Arrives entry s s₂) : s₂ = s₁ := by
  induction h₁ with
  | here h =>
      cases h₂ with
      | here => rfl
      | step h' => exact absurd h h'
  | step h hs _ ih =>
      cases h₂ with
      | here h' => exact absurd h' h
      | step _ hs' hrest =>
          rw [hs] at hs'
          cases hs'
          exact ih hrest

/-- What is placed is in RAM, at every address that the copy does not write. -/
theorem PlacedAt.copied {m : Cached} {x n src dst : ℕ} {bs : List UInt8} (h : PlacedAt m x bs)
    (hdst : Stub.Span dst (4 * n))
    (hx : ∀ i, i < bs.length → x + i < phys dst ∨ phys dst + 4 * n ≤ x + i) :
    InRam (Stub.copied m src dst n).discardAll x bs := by
  intro i v hv
  have hram : (Stub.copied m src dst n).ram (x + i) = m.ram (x + i) :=
    Stub.copied_ram_off hdst (hx i (List.getElem?_eq_some_iff.1 hv).1)
  exact hram.trans (h i v hv).1

/-- What is placed at the source is in RAM at the destination. -/
theorem PlacedAt.moved {m : Cached} {n src dst : ℕ} {bs : List UInt8}
    (h : PlacedAt m (phys src) bs) (hlen : bs.length = 4 * n) (hsrc : Stub.Span src (4 * n))
    (hdst : Stub.Span dst (4 * n))
    (hapart : phys src + 4 * n ≤ phys dst ∨ phys dst + 4 * n ≤ phys src) :
    InRam (Stub.copied m src dst n).discardAll (phys dst) bs := by
  intro i v hv
  have hi : i < 4 * n := hlen ▸ (List.getElem?_eq_some_iff.1 hv).1
  have hram : (Stub.copied m src dst n).ram (phys dst + i) = m.ram (phys src + i) :=
    Stub.copied_ram hsrc hdst hapart hi
  exact hram.trans (h i v hv).1

theorem Zeroed.copied {m : Cached} {n src dst : ℕ} (h : Zeroed m) (hdst : Stub.Span dst (4 * n))
    (hx : phys dst + 4 * n ≤ 0x0cfc8800) :
    ∀ x, InMirror x → (Stub.copied m src dst n).discardAll.ram x = 0 := by
  intro x hm
  have hlow := (inMirror_iff x).1 hm
  have hram : (Stub.copied m src dst n).ram x = m.ram x :=
    Stub.copied_ram_off hdst (.inr (by omega))
  exact hram.trans (h x hm).2

variable {m : Cached} {img shimBin biosData : List UInt8} {table : List Patch}

/-- The stub delivers what the loader has made ready. -/
theorem Ready.delivers (h : Ready m img shimBin biosData) (himg : img.length = gameLen)
    (hshim : shimBin.length ≤ shimCodeMax) (r : Sh4.Reg → ℕ) (t : Bool) :
    ∃ s, Stub.Arrives gameEntry (handoffCall r t (p2Addr stagingAddr) (p2Addr gameLoadAddr) gameLen
      gameEntry m) s ∧ Delivered s.mem img shimBin biosData := by
  have hsrcP : phys (p2Addr stagingAddr) = 0x0cd00000 := rfl
  have hdstP : phys (p2Addr gameLoadAddr) = 0x0c020000 := rfl
  have hlen : gameLen = 4 * (0x3ffff + 1) := rfl
  have hsrc : Stub.Span (p2Addr stagingAddr) (4 * (0x3ffff + 1)) := ⟨by decide, by decide⟩
  have hdst : Stub.Span (p2Addr gameLoadAddr) (4 * (0x3ffff + 1)) := ⟨by decide, by decide⟩
  have hloaded : Stub.Loaded m := fun i hi =>
    (h.placed.stub i _ (List.getElem?_eq_getElem hi)).1
  obtain ⟨r', t', harr⟩ := Stub.arrives_handoff (r := r) (t := t) hloaded hlen (hlen ▸ hsrc)
    (hlen ▸ hdst) (by rw [hdstP]; decide)
  simp only [shimCodeMax_eq] at hshim
  have hoff {x : ℕ} {bs : List UInt8} (hp : PlacedAt m x bs) (hx : 0x0c120000 ≤ x) :
      InRam (Stub.copied m (p2Addr stagingAddr) (p2Addr gameLoadAddr) (0x3ffff + 1)).discardAll
        x bs :=
    hp.copied hdst fun i _ => .inr (by rw [hdstP]; omega)
  have hstaged : PlacedAt m (phys (p2Addr stagingAddr)) img := by
    rw [phys_p2Addr]
    exact h.staged
  have hmoved := hstaged.moved (himg.trans hlen) hsrc hdst (by rw [hsrcP, hdstP]; decide)
  rw [phys_p2Addr] at hmoved
  refine ⟨_, harr, ⟨hmoved,
    ⟨hoff h.placed.shim (by decide), hoff h.placed.bss ?_, hoff h.placed.bios60000 (by decide),
      hoff h.placed.bios1ffd00 (by decide), hoff h.placed.stub (by decide)⟩,
    h.zeroed.copied hdst (by rw [hdstP]; decide), fun k => rfl⟩⟩
  rw [phys_bss hshim]
  omega

/-- The tables that the generator emits patch the image only. -/
theorem inImage_of_patchTable {boot : List UInt8} {ds : List Definition}
    (h : patchTable boot ds = some table) (hboot : boot.length = gameLen) :
    ∀ p ∈ table, p.InImage := by
  intro p hp
  obtain ⟨addr, new, hpatch⟩ := exists_patchOf_of_mem h p hp
  obtain ⟨old, hrd, hp⟩ := Option.bind_eq_some_iff.1 hpatch
  unfold rd at hrd
  split at hrd
  · next hrange =>
    split at hp
    · next hlen =>
      cases hp
      obtain ⟨hlow, hfit⟩ := hrange
      have hbase : bootBase = gameLoadAddr := rfl
      refine ⟨hbase ▸ hlow, ?_⟩
      show addr + old.length ≤ gameLoadAddr + gameLen
      omega
    · cases hp
  · cases hrd

theorem length_applyPatches (hin : ∀ p ∈ table, p.InImage) (himg : img.length = gameLen) :
    (applyPatches table img).2.length = gameLen := by
  induction table generalizing img with
  | nil => exact himg
  | cons p ps ih =>
      obtain ⟨hlow, hhigh⟩ := hin p List.mem_cons_self
      have hnew := p.length_eq
      have hfit : p.addr - gameLoadAddr + p.new.length ≤ img.length := by omega
      by_cases heq : (img.drop (p.addr - gameLoadAddr)).take p.old.length = p.old
      · rw [show applyPatches (p :: ps) img = applyPatches ps _ from if_pos heq]
        exact ih (fun q hq => hin q (List.mem_cons_of_mem p hq)) ((length_splice hfit).trans himg)
      · rw [show applyPatches (p :: ps) img = (-1, img) from if_neg heq]
        exact himg

/-- A table whose entries lie in the image is what the generator emits
(`inImage_of_patchTable`). The loader runs; every run of it on a table that applies calls
the stub; and from the call, after any further accesses of the loader to its own data, the
stub arrives at the entry of the game, once, with the image delivered. -/
theorem handoff_delivers (hshim : shimBin.length ≤ shimCodeMax)
    (hin : ∀ p ∈ table, p.InImage) (himg : img.length = gameLen)
    (hok : (applyPatches table img).1 = 0) (hstaged : Shows m (phys stagingAddr) img)
    (hclean : ∀ x, Home x → m.Quiet (lineOf x)) :
    (∃ tr o m₁, Exec loaderMachine (loaderMain shimBin biosData table) m tr o m₁) ∧
      ∀ tr o m₁, Exec loaderMachine (loaderMain shimBin biosData table) m tr o m₁ →
        o = .ret () ∧ ∀ m₂, Accesses m₁ m₂ → ∀ (r : Sh4.Reg → ℕ) (t : Bool),
          ∃ s, Stub.Arrives gameEntry (handoffCall r t (p2Addr stagingAddr) (p2Addr gameLoadAddr)
              gameLen gameEntry m₂) s ∧
            (∀ s', Stub.Arrives gameEntry (handoffCall r t (p2Addr stagingAddr)
              (p2Addr gameLoadAddr) gameLen gameEntry m₂) s' → s' = s) ∧
            Delivered s.mem (applyPatches table img).2 shimBin biosData := by
  refine ⟨exists_loader_exec _ m, fun tr o m₁ hexec => ?_⟩
  obtain ⟨u, ho, hready⟩ :=
    (yields_loaderMain hshim hin himg hok hstaged hclean).sound hexec
  refine ⟨ho, fun m₂ hacc r t => ?_⟩
  have hlen : (applyPatches table img).2.length = gameLen := length_applyPatches hin himg
  obtain ⟨s, harr, hd⟩ := (hready.of_accesses hlen hshim hacc).delivers hlen hshim r t
  exact ⟨s, harr, fun s' h' => harr.unique h', hd⟩

/-- A game of zeros, one patch of two bytes, and a shim of one byte. -/
theorem handoff_delivers_sample :
    ∃ tr m₁ s, Exec loaderMachine (loaderMain [0x2f] (List.replicate 0x7070 7)
        [⟨gameLoadAddr, [0, 0], [9, 5], rfl⟩]) ⟨fun _ => 0, fun _ => none⟩ tr (.ret ()) m₁ ∧
      Stub.Arrives gameEntry (handoffCall (fun _ => 0) false (p2Addr stagingAddr)
        (p2Addr gameLoadAddr) gameLen gameEntry m₁) s ∧
      s.mem.ram (phys gameLoadAddr) = 9 ∧ s.mem.ram (phys shimBase) = 0x2f := by
  have himg : (List.replicate gameLen (0 : UInt8)).length = gameLen := List.length_replicate
  have hslice : ((List.replicate gameLen (0 : UInt8)).drop (gameLoadAddr - gameLoadAddr)).take 2 =
      [0, 0] := by
    rw [Nat.sub_self, List.drop_zero, List.take_replicate]
    rfl
  have happly : applyPatches [⟨gameLoadAddr, [0, 0], [9, 5], rfl⟩] (List.replicate gameLen 0) =
      (0, splice (List.replicate gameLen 0) (gameLoadAddr - gameLoadAddr) [9, 5]) := by
    unfold applyPatches
    exact if_pos hslice
  have hin : ∀ p ∈ [(⟨gameLoadAddr, [0, 0], [9, 5], rfl⟩ : Patch)], p.InImage := by
    intro p hp
    rw [List.mem_singleton.1 hp]
    exact ⟨by decide, by decide⟩
  obtain ⟨⟨tr, o, m₁, hexec⟩, hall⟩ := @handoff_delivers ⟨fun _ => 0, fun _ => none⟩
    (List.replicate gameLen 0) [0x2f] (List.replicate 0x7070 7) _ (by decide)
    hin himg (by rw [happly])
    (fun i v hv => (List.eq_of_mem_replicate (List.mem_of_getElem? hv)).symm)
    (fun x _ l hl => by cases hl)
  obtain ⟨rfl, hcall⟩ := hall tr o m₁ hexec
  obtain ⟨s, hs, -, hd⟩ := hcall m₁ .refl (fun _ => 0) false
  refine ⟨tr, m₁, s, hexec, hs, hd.game 0 9 ?_, hd.placed.shim 0 0x2f rfl⟩
  rw [happly]
  exact (getElem?_splice_of_mem (by rw [himg]; decide) (by decide) (by decide)).trans rfl

end Cfp2Dreamcast
