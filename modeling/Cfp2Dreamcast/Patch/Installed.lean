import Cfp2Dreamcast.Loader.Boot
import Cfp2Dreamcast.Patch.Thunk

/-!
# The installed game

From the definitions of the generator to the memory that the game runs in: the generator
turns each definition into bytes, the loader writes them into the staged image, and the
stub copies the image to where the CPU fetches it. What a definition is for is stated over
that memory: a pool word reads as its new value, and a hooked function goes to the shim.
-/

namespace Cfp2Dreamcast

open Program Memory Sh4

/-- The CPU in front of the memory of the machine. -/
def coreAt (m : Cached) (r : Reg → ℕ) (pc : ℕ) : Core := ⟨r, pc, cachedBus.view m⟩

/-- What a definition does to the game that runs in the memory. -/
def Definition.InForce (m : Cached) : Definition → Prop
  | pool addr _ value => ∀ r pc, (coreAt m r pc).word addr = value
  | ptr addr _ target => ∀ r pc, (coreAt m r pc).word addr = target
  | insn16 addr _ value => ∀ r pc, (coreAt m r pc).half addr = value
  | hook fn _ target => ∀ r, (coreAt m r fn).step.bind Core.step =
      some (coreAt m (Function.update r 0 target) target)

/-- A hook is at the address of an instruction. -/
def Definition.Aligned : Definition → Prop
  | hook fn _ _ => fn % 2 = 0
  | _ => True

/-- The bytes of the patch are in RAM. -/
def Patch.Installed (m : Cached) (p : Patch) : Prop := InRam m (phys p.addr) p.new

section Emit

variable {boot : List UInt8} {d : Definition} {p : Patch}

/-- What a definition emits. -/
theorem emit_new (h : d.emit boot = some p) :
    match d with
    | .pool addr _ value => p.addr = addr ∧ p.new = wordBytes value ∧ value < 2 ^ 32
    | .ptr addr _ target => p.addr = addr ∧ p.new = wordBytes target ∧ target < 2 ^ 32
    | .insn16 addr _ value => p.addr = addr ∧ p.new = halfBytes value ∧ value < 2 ^ 16
    | .hook fn _ target => p.addr = fn ∧ p.new = hookCode fn target ∧ target < 2 ^ 32 := by
  have hpatch {addr : ℕ} {new : List UInt8} (h : patchOf boot addr new = some p) :
      p.addr = addr ∧ p.new = new := by
    obtain ⟨old, -, hp⟩ := Option.bind_eq_some_iff.1 h
    split at hp
    · cases hp
      exact ⟨rfl, rfl⟩
    · cases hp
  have hword {addr expect value : ℕ} (h : wordPatch boot addr expect value = some p) :
      p.addr = addr ∧ p.new = wordBytes value ∧ value < 2 ^ 32 := by
    obtain ⟨old, -, hp⟩ := Option.bind_eq_some_iff.1 h
    split at hp
    · next hguard => exact ⟨(hpatch hp).1, (hpatch hp).2, hguard.2⟩
    · cases hp
  cases d with
  | pool addr expect value => exact hword h
  | ptr addr expect target => exact hword h
  | insn16 addr expect value =>
      obtain ⟨old, -, hp⟩ := Option.bind_eq_some_iff.1 h
      split at hp
      · next hguard => exact ⟨(hpatch hp).1, (hpatch hp).2, hguard.2⟩
      · cases hp
  | hook fn expect target =>
      obtain ⟨old, -, hp⟩ := Option.bind_eq_some_iff.1 h
      split at hp
      · next hguard => exact ⟨(hpatch hp).1, (hpatch hp).2, hguard.2.2⟩
      · cases hp

end Emit

section View

variable {m : Cached} {p : Patch} {boot : List UInt8}

theorem view_of_empty (hempty : ∀ k, m.line k = none) (a : ℕ) :
    cachedBus.view m a = m.ram (phys a) := by
  show (if uncached a then m.ram (phys a) else m.view lineOf (phys a)) = _
  split
  · rfl
  · unfold Cache.view
    rw [hempty]

/-- The CPU sees an installed patch at its address. -/
theorem Patch.Installed.holds (h : p.Installed m) (hempty : ∀ k, m.line k = none)
    (hin : p.InImage) (r : Reg → ℕ) (pc : ℕ) : (coreAt m r pc).Holds p.addr p.new := by
  intro i hi
  have hphys : phys (p.addr + i) = phys p.addr + i := by
    obtain ⟨hlow, hhigh⟩ := hin
    have := p.length_eq
    simp only [phys, gameLoadAddr_eq, gameLen_eq] at hlow hhigh ⊢
    omega
  exact (view_of_empty hempty _).trans (hphys ▸ h i _ (List.getElem?_eq_getElem hi))

theorem word_of_wordBytes {s : Core} {a v : ℕ} (hs : s.Holds a (wordBytes v)) (hv : v < 2 ^ 32) :
    s.word a = v := by
  have h₀ := hs 0 (by simp)
  rw [Nat.add_zero] at h₀
  rw [Core.word, h₀, hs 1 (by simp), hs 2 (by simp), hs 3 (by simp)]
  exact ofBytes_wordBytes hv

theorem half_of_halfBytes {s : Core} {a v : ℕ} (hs : s.Holds a (halfBytes v)) (hv : v < 2 ^ 16) :
    s.half a = v := by
  have h₀ : s.mem a = UInt8.ofNat v := hs 0 (by simp [halfBytes])
  have h₁ : s.mem (a + 1) = UInt8.ofNat (v / 2 ^ 8) := hs 1 (by simp [halfBytes])
  rw [Core.half, h₀, h₁, UInt8.toNat_ofNat', UInt8.toNat_ofNat']
  omega

/-- Bytes that the CPU sees put the definition they were emitted for into force. -/
theorem Definition.inForce_of_installed {d : Definition} (hemit : d.emit boot = some p)
    (hal : d.Aligned) (hin : p.InImage) (hempty : ∀ k, m.line k = none) (h : p.Installed m) :
    d.InForce m := by
  have hholds := h.holds hempty hin
  have hnew := emit_new hemit
  cases d with
  | pool addr expect value =>
      obtain ⟨rfl, heq, hlt⟩ := hnew
      exact fun r pc => word_of_wordBytes (heq ▸ hholds r pc) hlt
  | ptr addr expect target =>
      obtain ⟨rfl, heq, hlt⟩ := hnew
      exact fun r pc => word_of_wordBytes (heq ▸ hholds r pc) hlt
  | insn16 addr expect value =>
      obtain ⟨rfl, heq, hlt⟩ := hnew
      exact fun r pc => half_of_halfBytes (heq ▸ hholds r pc) hlt
  | hook fn expect target =>
      obtain ⟨rfl, heq, hlt⟩ := hnew
      exact fun r => (run_hookCode hal hlt rfl (heq ▸ hholds r _)).2

end View

/-- Every definition has its entry in the table. -/
theorem exists_emit_of_patchTable {boot : List UInt8} {ds : List Definition} {table : List Patch}
    (h : patchTable boot ds = some table) : ∀ d ∈ ds, ∃ p ∈ table, d.emit boot = some p := by
  induction ds generalizing table with
  | nil => simp
  | cons d ds ih =>
      obtain ⟨p, hp, hrest⟩ := Option.bind_eq_some_iff.1 h
      obtain ⟨ps, hps, rfl⟩ := Option.map_eq_some_iff.1 hrest
      intro q hq
      rcases List.mem_cons.1 hq with rfl | hq
      · exact ⟨p, List.mem_cons_self, hp⟩
      · obtain ⟨p', hp', hemit⟩ := ih hps q hq
        exact ⟨p', List.mem_cons_of_mem _ hp', hemit⟩

section Game

variable {m : Cached} {boot img shimBin biosData : List UInt8} {ds : List Definition}
  {table : List Patch} {p : Patch}

/-- In the RAM of the game a patch is installed when the image has its bytes. -/
theorem installed_iff (hgame : InRam m (phys gameLoadAddr) img) (hlen : img.length = gameLen)
    (hin : p.InImage) : p.Installed m ↔ ∀ i, p.Covers i → img[i]? = p.byte i := by
  obtain ⟨hlow, hhigh⟩ := hin
  have hnew := p.length_eq
  have hoff : p.offset = p.addr - gameLoadAddr := rfl
  have hphys : phys p.addr = phys gameLoadAddr + p.offset := by
    simp only [hoff, phys, gameLoadAddr_eq, gameLen_eq] at hlow hhigh ⊢
    omega
  constructor
  · rintro h i ⟨hlo, hhi⟩
    have hi : i < img.length := by omega
    have hj : i - p.offset < p.new.length := by omega
    have hram := h (i - p.offset) _ (List.getElem?_eq_getElem hj)
    rw [hphys, Nat.add_assoc, Nat.add_sub_cancel' hlo, hgame i _ (List.getElem?_eq_getElem hi)]
      at hram
    rw [Patch.byte, List.getElem?_eq_getElem hi, List.getElem?_eq_getElem hj, hram]
  · intro h j v hv
    have hj : j < p.new.length := (List.getElem?_eq_some_iff.1 hv).1
    have hcov : p.Covers (p.offset + j) := ⟨Nat.le_add_right _ _, Nat.add_lt_add_left hj _⟩
    have hbyte := h _ hcov
    rw [Patch.byte, Nat.add_sub_cancel_left, hv] at hbyte
    rw [hphys, Nat.add_assoc]
    exact hgame _ v hbyte

/-- An image that the loader accepts keeps what no entry covers. -/
theorem applyPatches_off (hps : ∀ p ∈ table, p.Of boot) (hlen : img.length = boot.length)
    (hok : (applyPatches table img).1 = 0) {i : ℕ} (hi : ∀ p ∈ table, ¬ p.Covers i) :
    (applyPatches table img).2[i]? = img[i]? := by
  induction table generalizing img with
  | nil => rfl
  | cons p ps ih =>
      have hp := hps p List.mem_cons_self
      obtain ⟨hlen', -, hoff⟩ := hp.write hlen
      have hcheck := agrees_of_apply hps hlen hok p List.mem_cons_self
      rw [applyPatches_cons hp hcheck] at hok ⊢
      rw [ih (fun q hq => hps q (List.mem_cons_of_mem p hq)) hlen' hok fun q hq =>
        hi q (List.mem_cons_of_mem p hq)]
      exact hoff i (hi p List.mem_cons_self)

/-- After every run of the loader on an image that it accepts, the entries of the table are
in the memory of the game exactly when any two of them that meet at a byte leave it alone.
Then each definition of the generator is in force, for the CPU that fetches from that
memory (a hook when it is at the address of an instruction); and what no entry covers is as
in the staged image. -/
theorem game_installed (htable : patchTable boot ds = some table) (hboot : boot.length = gameLen)
    (hshim : shimBin.length ≤ shimCodeMax) (himg : img.length = gameLen)
    (hok : (applyPatches table img).1 = 0) (hstaged : Shows m (phys stagingAddr) img)
    (hclean : ∀ x, Home x → m.Quiet (lineOf x)) {tr : List (Event loaderSig)}
    {o : Outcome loaderSig Unit} {m₁ m₂ : Cached}
    (h : Exec loaderMachine (loaderMain shimBin biosData table) m tr o m₁)
    (hacc : Accesses m₁ m₂) (r : Reg → ℕ) (t : Bool) :
    o = .ret () ∧ ∃ s, Stub.Arrives gameEntry (handoffCall r t (p2Addr stagingAddr)
        (p2Addr gameLoadAddr) gameLen gameEntry m₂) s ∧
      ((∀ p ∈ table, p.Installed s.mem) ↔ table.Pairwise (Compatible boot)) ∧
      (table.Pairwise (Compatible boot) → ∀ d ∈ ds, d.Aligned → d.InForce s.mem) ∧
      ∀ i < gameLen, (∀ p ∈ table, ¬ p.Covers i) →
        img[i]? = some (cachedBus.view s.mem (gameLoadAddr + i)) := by
  have hin : ∀ p ∈ table, p.InImage := inImage_of_patchTable htable hboot
  have hof := of_patchTable htable
  have hlen : img.length = boot.length := himg.trans hboot.symm
  have hagree := agrees_of_apply hof hlen hok
  obtain ⟨u, rfl, hready⟩ := (yields_loaderMain hshim hin himg hok hstaged hclean).sound h
  have hlen' : (applyPatches table img).2.length = gameLen := length_applyPatches hin himg
  obtain ⟨s, harr, hd⟩ := (hready.of_accesses hlen' hshim hacc).delivers hlen' hshim r t
  have hinst : (∀ p ∈ table, p.Installed s.mem) ↔ table.Pairwise (Compatible boot) := by
    have hiff := fun p hp => installed_iff (p := p) hd.game hlen' (hin p hp)
    constructor
    · intro h
      exact compatible_of_patched hof hlen hok fun p hp => (hiff p hp).1 (h p hp)
    · intro hcompat p hp
      exact (hiff p hp).2 ((patched_of_compatible hof hlen hagree hcompat).2.2.1 p hp)
  refine ⟨rfl, s, harr, hinst, fun hcompat d hd' hal => ?_, fun i hi hfree => ?_⟩
  · obtain ⟨p, hp, hemit⟩ := exists_emit_of_patchTable htable d hd'
    exact d.inForce_of_installed hemit hal (hin p hp) hd.empty (hinst.2 hcompat p hp)
  · have hphys : phys (gameLoadAddr + i) = phys gameLoadAddr + i := by
      simp only [phys, gameLoadAddr_eq, gameLen_eq] at hi ⊢
      omega
    have hi' : i < (applyPatches table img).2.length := hlen'.symm ▸ hi
    have hram := hd.game i _ (List.getElem?_eq_getElem hi')
    rw [view_of_empty hd.empty, hphys, hram, ← List.getElem?_eq_getElem hi']
    exact (applyPatches_off hof hlen hok hfree).symm

/-- A game of zeros reaches its entry with the pool word and the hook in force. -/
theorem game_installed_sample :
    ∃ tr m₁ s, Exec loaderMachine (loaderMain [0x2f] (List.replicate 0x7070 7)
        mirrorAndHookTable) ⟨fun _ => 0, fun _ => none⟩ tr (.ret ()) m₁ ∧
      Stub.Arrives gameEntry (handoffCall (fun _ => 0) false (p2Addr stagingAddr)
        (p2Addr gameLoadAddr) gameLen gameEntry m₁) s ∧
      ∀ d ∈ mirrorAndHook, d.InForce s.mem := by
  have hlen : zeroBoot.length = gameLen := List.length_replicate
  have hpatched := patched_of_compatible (of_patchTable patchTable_mirrorAndHook) rfl
    (fun _ _ _ _ => rfl) compatible_mirrorAndHook
  obtain ⟨tr, o, m₁, hexec⟩ := exists_loader_exec (loaderMain [0x2f] (List.replicate 0x7070 7)
    mirrorAndHookTable) ⟨fun _ => 0, fun _ => none⟩
  have hstaged : Shows ⟨fun _ => 0, fun _ => none⟩ (phys stagingAddr) zeroBoot :=
    fun i v hv => (List.eq_of_mem_replicate (List.mem_of_getElem? hv)).symm
  have hclean : ∀ x, Home x → (⟨fun _ => 0, fun _ => none⟩ : Cached).Quiet (lineOf x) := by
    intro x _ l hl
    cases hl
  obtain ⟨rfl, s, harr, -, hforce, -⟩ := game_installed patchTable_mirrorAndHook hlen (by decide)
    hlen hpatched.1 hstaged hclean hexec .refl (fun _ => 0) false
  have hal : ∀ d ∈ mirrorAndHook, d.Aligned := by
    simp [mirrorAndHook, Definition.Aligned]
  exact ⟨tr, m₁, s, hexec, harr, fun d hd => hforce compatible_mirrorAndHook d hd (hal d hd)⟩

end Game

end Cfp2Dreamcast
