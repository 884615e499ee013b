import Cfp2Dreamcast.Machine.AddressMap
import Cfp2Dreamcast.Mastering.Marks
import Cfp2Dreamcast.Memory.Bytes
import Cfp2Dreamcast.Memory.Splice

/-!
# The patch table

`build_patch_table.py` checks each definition against the boot image and emits a
table; `apply_patches` of the loader checks each entry of the table against the
image it is patching. The second check runs on an image that the earlier entries
have already changed.
-/

namespace Cfp2Dreamcast

open Memory

/-- An entry of the table. The comment is left out. -/
structure Patch where
  addr : ℕ
  old : List UInt8
  new : List UInt8
  length_eq : new.length = old.length

/-! `build_patch_table.py`. -/

/-- `BASE`, where offset 0 of the image is loaded. -/
def bootBase : ℕ := 0x8c020000

/-- `rd`. -/
def rd (boot : List UInt8) (addr n : ℕ) : Option (List UInt8) :=
  if bootBase ≤ addr ∧ addr - bootBase + n ≤ boot.length then
    some ((boot.drop (addr - bootBase)).take n)
  else none

/-- The entry that writes `new` at `addr`. -/
def patchOf (boot : List UInt8) (addr : ℕ) (new : List UInt8) : Option Patch :=
  (rd boot addr new.length).bind fun old =>
    if h : new.length = old.length then some ⟨addr, old, new, h⟩ else none

/-- The definition of a word: a pool literal or a pointer slot. -/
def wordPatch (boot : List UInt8) (addr expect value : ℕ) : Option Patch :=
  (rd boot addr 4).bind fun old =>
    if fromBytesLittle old = expect ∧ value < 2 ^ 32 then patchOf boot addr (wordBytes value)
    else none

def pool (boot : List UInt8) (addr expect value : ℕ) : Option Patch :=
  wordPatch boot addr expect value

def ptr (boot : List UInt8) (addr expect target : ℕ) : Option Patch :=
  wordPatch boot addr expect target

/-- `struct.pack("<H", v)`. -/
def halfBytes (v : ℕ) : List UInt8 := [UInt8.ofNat v, UInt8.ofNat (v / 2 ^ 8)]

def insn16 (boot : List UInt8) (addr expect value : ℕ) : Option Patch :=
  (rd boot addr 2).bind fun old =>
    if fromBytesLittle old = expect ∧ value < 2 ^ 16 then patchOf boot addr (halfBytes value)
    else none

/-- The address of the pooled target: `fn + 6`, aligned up to a word. -/
def hookSlot (fn : ℕ) : ℕ := (fn + 6 + 3) / 4 * 4

/-- The displacement of the `mov.l`. -/
def hookDisp (fn : ℕ) : ℕ := (hookSlot fn - (fn / 4 * 4 + 4)) / 4

/-- The thunk: `mov.l @(disp,PC),r0; jmp @r0; nop`, padding, and the target. -/
def hookCode (fn target : ℕ) : List UInt8 :=
  halfBytes (0xd000 ||| hookDisp fn) ++ halfBytes 0x402b ++ halfBytes 0x0009 ++
    (List.replicate ((hookSlot fn - (fn + 6)) / 2) (halfBytes 0x0009)).flatten ++
      wordBytes target

def hook (boot : List UInt8) (fn expect target : ℕ) : Option Patch :=
  (rd boot fn 2).bind fun old0 =>
    if fromBytesLittle old0 = expect ∧ hookDisp fn ≤ 255 ∧ target < 2 ^ 32 then
      patchOf boot fn (hookCode fn target)
    else none

inductive Definition where
  | pool (addr expect value : ℕ)
  | ptr (addr expect target : ℕ)
  | insn16 (addr expect value : ℕ)
  | hook (fn expect target : ℕ)

def Definition.emit (boot : List UInt8) : Definition → Option Patch
  | pool addr expect value => Cfp2Dreamcast.pool boot addr expect value
  | ptr addr expect target => Cfp2Dreamcast.ptr boot addr expect target
  | insn16 addr expect value => Cfp2Dreamcast.insn16 boot addr expect value
  | hook fn expect target => Cfp2Dreamcast.hook boot fn expect target

/-- The table of all definitions, if no assertion fails. -/
def patchTable (boot : List UInt8) : List Definition → Option (List Patch)
  | [] => some []
  | d :: ds => (d.emit boot).bind fun p => (patchTable boot ds).map fun ps => p :: ps

/-! The loader. -/

/-- `apply_patches`: what it returns and the image it leaves. -/
def applyPatches : List Patch → List UInt8 → ℤ × List UInt8
  | [], img => (0, img)
  | p :: ps, img =>
      let at_ := p.addr - gameLoadAddr
      if (img.drop at_).take p.old.length = p.old then applyPatches ps (splice img at_ p.new)
      else (-1, img)

namespace Patch

variable (p : Patch)

/-- The offset of the patch in the image. -/
def offset : ℕ := p.addr - gameLoadAddr

/-- The patch covers the byte at offset `i` of the image. -/
def Covers (i : ℕ) : Prop := p.offset ≤ i ∧ i < p.offset + p.new.length

/-- The new byte at offset `i`. -/
def byte (i : ℕ) : Option UInt8 := p.new[i - p.offset]?

/-- The patch lies in the image and its old bytes are those of the image. -/
structure Of (boot : List UInt8) : Prop where
  fits : p.offset + p.new.length ≤ boot.length
  old_eq : ∀ i, p.Covers i → boot[i]? = p.old[i - p.offset]?

end Patch

/-- What the generator emits is taken from the boot image. -/
theorem of_patchOf {boot new : List UInt8} {addr : ℕ} {p : Patch}
    (h : patchOf boot addr new = some p) : p.Of boot := by
  obtain ⟨old, hrd, hp⟩ := Option.bind_eq_some_iff.1 h
  unfold rd at hrd
  split at hrd
  · next hrange =>
    cases hrd
    split at hp
    · next hlen =>
      cases hp
      refine ⟨hrange.2, fun i hi => ?_⟩
      have hlo : addr - bootBase ≤ i := hi.1
      have hhi : i < addr - bootBase + new.length := hi.2
      show boot[i]? = ((boot.drop (addr - bootBase)).take new.length)[i - (addr - bootBase)]?
      rw [List.getElem?_take_of_lt (by omega), List.getElem?_drop, Nat.add_sub_cancel' hlo]
    · cases hp
  · cases hrd

/-- Inside the image there is an entry. -/
theorem patchOf_exists {boot new : List UInt8} {addr : ℕ}
    (h : bootBase ≤ addr ∧ addr - bootBase + new.length ≤ boot.length) :
    ∃ p, patchOf boot addr new = some p ∧ p.addr = addr ∧ p.new = new ∧
      p.old = (boot.drop (addr - bootBase)).take new.length := by
  have hlen : new.length = ((boot.drop (addr - bootBase)).take new.length).length := by
    rw [List.length_take, List.length_drop]
    omega
  refine ⟨⟨addr, _, new, hlen⟩, ?_, rfl, rfl, rfl⟩
  unfold patchOf rd
  rw [if_pos h, Option.bind_some, dif_pos hlen]

/-- Every definition emits the entry of some bytes at some address. -/
theorem exists_patchOf_of_emit {boot : List UInt8} {d : Definition} {p : Patch}
    (h : d.emit boot = some p) : ∃ addr new, patchOf boot addr new = some p := by
  have hword {addr expect value : ℕ} (h : wordPatch boot addr expect value = some p) :
      ∃ addr new, patchOf boot addr new = some p := by
    obtain ⟨old, -, hp⟩ := Option.bind_eq_some_iff.1 h
    split at hp
    · exact ⟨_, _, hp⟩
    · cases hp
  cases d with
  | pool addr expect value => exact hword h
  | ptr addr expect target => exact hword h
  | insn16 addr expect value =>
      obtain ⟨old, -, hp⟩ := Option.bind_eq_some_iff.1 h
      split at hp
      · exact ⟨_, _, hp⟩
      · cases hp
  | hook fn expect target =>
      obtain ⟨old, -, hp⟩ := Option.bind_eq_some_iff.1 h
      split at hp
      · exact ⟨_, _, hp⟩
      · cases hp

theorem exists_patchOf_of_mem {boot : List UInt8} {ds : List Definition} {table : List Patch}
    (h : patchTable boot ds = some table) :
    ∀ p ∈ table, ∃ addr new, patchOf boot addr new = some p := by
  induction ds generalizing table with
  | nil =>
      cases h
      simp
  | cons d ds ih =>
      obtain ⟨p, hp, hrest⟩ := Option.bind_eq_some_iff.1 h
      obtain ⟨ps, hps, rfl⟩ := Option.map_eq_some_iff.1 hrest
      intro q hq
      rcases List.mem_cons.1 hq with rfl | hq
      · exact exists_patchOf_of_emit hp
      · exact ih hps q hq

theorem of_patchTable {boot : List UInt8} {ds : List Definition} {table : List Patch}
    (h : patchTable boot ds = some table) : ∀ p ∈ table, p.Of boot := by
  intro p hp
  obtain ⟨addr, new, hpatch⟩ := exists_patchOf_of_mem h p hp
  exact of_patchOf hpatch

section Loader

variable {boot img : List UInt8} {p : Patch} {ps : List Patch}

/-- The check of an entry compares the bytes it covers with the boot image. -/
theorem Patch.Of.check_iff (hp : p.Of boot) :
    (img.drop (p.addr - gameLoadAddr)).take p.old.length = p.old ↔
      ∀ i, p.Covers i → img[i]? = boot[i]? := by
  rw [take_drop_eq_iff]
  constructor
  · intro h i hi
    rw [hp.old_eq i hi]
    exact h i hi.1 (by rw [← p.length_eq]; exact hi.2)
  · intro h i hlo hhi
    have hi : p.Covers i := ⟨hlo, by rw [p.length_eq]; exact hhi⟩
    rw [h i hi, hp.old_eq i hi]
    rfl

/-- What one patch does to the image. -/
theorem Patch.Of.write (hp : p.Of boot) (hlen : img.length = boot.length) :
    (splice img (p.addr - gameLoadAddr) p.new).length = boot.length ∧
      (∀ i, p.Covers i → (splice img (p.addr - gameLoadAddr) p.new)[i]? = p.byte i) ∧
      ∀ i, ¬ p.Covers i → (splice img (p.addr - gameLoadAddr) p.new)[i]? = img[i]? := by
  have hfits : p.addr - gameLoadAddr + p.new.length ≤ img.length := by
    rw [hlen]
    exact hp.fits
  refine ⟨(length_splice hfits).trans hlen, fun i hi => ?_, fun i hi => ?_⟩
  · exact getElem?_splice_of_mem hfits hi.1 hi.2
  · refine getElem?_splice_of_not_mem hfits ?_
    have hi' : ¬ (p.addr - gameLoadAddr ≤ i ∧ i < p.addr - gameLoadAddr + p.new.length) := hi
    omega

/-- The loader accepts an image only where it agrees with the boot image on all
covered bytes: the first entry that covers a byte finds it unchanged. -/
theorem agrees_of_apply (hps : ∀ p ∈ ps, p.Of boot) (hlen : img.length = boot.length)
    (h : (applyPatches ps img).1 = 0) : ∀ p ∈ ps, ∀ i, p.Covers i → img[i]? = boot[i]? := by
  induction ps generalizing img with
  | nil => simp
  | cons p ps ih =>
      have hp := hps p List.mem_cons_self
      obtain ⟨hlen', -, hoff⟩ := hp.write hlen
      unfold applyPatches at h
      simp only at h
      split at h
      · next hcheck =>
        rw [hp.check_iff] at hcheck
        have hrest := ih (fun q hq => hps q (List.mem_cons_of_mem _ hq)) hlen' h
        intro q hq i hi
        by_cases hpi : p.Covers i
        · exact hcheck i hpi
        · rcases List.mem_cons.1 hq with rfl | hq
          · exact absurd hi hpi
          · rw [← hoff i hpi]
            exact hrest q hq i hi
      · cases h

/-- Two entries that cover a common byte both write what the boot image has there. -/
def Compatible (boot : List UInt8) (p q : Patch) : Prop :=
  ∀ i, p.Covers i → q.Covers i → p.byte i = boot[i]? ∧ q.byte i = boot[i]?

/-- The loader accepts the image and leaves it with the new bytes of each entry in
place and nothing else changed. -/
def Patched (ps : List Patch) (img : List UInt8) : Prop :=
  (applyPatches ps img).1 = 0 ∧
    (applyPatches ps img).2.length = img.length ∧
    (∀ p ∈ ps, ∀ i, p.Covers i → (applyPatches ps img).2[i]? = p.byte i) ∧
    ∀ i, (∀ p ∈ ps, ¬ p.Covers i) → (applyPatches ps img).2[i]? = img[i]?

theorem applyPatches_cons (hp : p.Of boot)
    (hcheck : ∀ i, p.Covers i → img[i]? = boot[i]?) :
    applyPatches (p :: ps) img = applyPatches ps (splice img (p.addr - gameLoadAddr) p.new) :=
  if_pos ((hp.check_iff).2 hcheck)

theorem patched_of_compatible (hps : ∀ p ∈ ps, p.Of boot) (hlen : img.length = boot.length)
    (himg : ∀ p ∈ ps, ∀ i, p.Covers i → img[i]? = boot[i]?)
    (hcompat : ps.Pairwise (Compatible boot)) : Patched ps img := by
  induction ps generalizing img with
  | nil => exact ⟨rfl, rfl, by simp, fun _ _ => rfl⟩
  | cons p ps ih =>
      obtain ⟨hpq, hrest⟩ := List.pairwise_cons.1 hcompat
      have hp := hps p List.mem_cons_self
      obtain ⟨hlen', hin, hoff⟩ := hp.write hlen
      have himg' : ∀ q ∈ ps, ∀ i, q.Covers i →
          (splice img (p.addr - gameLoadAddr) p.new)[i]? = boot[i]? := by
        intro q hq i hi
        by_cases hpi : p.Covers i
        · rw [hin i hpi]
          exact (hpq q hq i hpi hi).1
        · rw [hoff i hpi]
          exact himg q (List.mem_cons_of_mem _ hq) i hi
      obtain ⟨hret, hlen₂, hbytes, hkeep⟩ :=
        ih (fun q hq => hps q (List.mem_cons_of_mem _ hq)) hlen' himg' hrest
      unfold Patched
      rw [applyPatches_cons hp (himg p List.mem_cons_self)]
      refine ⟨hret, hlen₂.trans (hlen'.trans hlen.symm), fun q hq i hi => ?_, fun i hi => ?_⟩
      · rcases List.mem_cons.1 hq with rfl | hq
        · by_cases hlater : ∃ r ∈ ps, r.Covers i
          · obtain ⟨r, hr, hri⟩ := hlater
            obtain ⟨h₁, h₂⟩ := hpq r hr i hi hri
            rw [hbytes r hr i hri, h₂, h₁]
          · rw [hkeep i fun r hr hri => hlater ⟨r, hr, hri⟩, hin i hi]
        · exact hbytes q hq i hi
      · rw [hkeep i fun q hq => hi q (List.mem_cons_of_mem _ hq),
          hoff i (hi p List.mem_cons_self)]

theorem compatible_of_patched (hps : ∀ p ∈ ps, p.Of boot) (hlen : img.length = boot.length)
    (hret : (applyPatches ps img).1 = 0)
    (hbytes : ∀ p ∈ ps, ∀ i, p.Covers i → (applyPatches ps img).2[i]? = p.byte i) :
    ps.Pairwise (Compatible boot) := by
  induction ps generalizing img with
  | nil => exact List.Pairwise.nil
  | cons p ps ih =>
      have hp := hps p List.mem_cons_self
      have hps' : ∀ q ∈ ps, q.Of boot := fun q hq => hps q (List.mem_cons_of_mem _ hq)
      obtain ⟨hlen', hin, -⟩ := hp.write hlen
      have hcheck := agrees_of_apply hps hlen hret p List.mem_cons_self
      rw [applyPatches_cons hp hcheck] at hret hbytes
      refine List.pairwise_cons.2 ⟨fun q hq i hpi hqi => ?_,
        ih hps' hlen' hret fun q hq => hbytes q (List.mem_cons_of_mem _ hq)⟩
      -- the check of the later entry finds the byte that the first one wrote
      have hp_boot : p.byte i = boot[i]? := by
        rw [← hin i hpi]
        exact agrees_of_apply hps' hlen' hret q hq i hqi
      refine ⟨hp_boot, ?_⟩
      rw [← hbytes q (List.mem_cons_of_mem _ hq) i hqi, ← hp_boot]
      exact hbytes p List.mem_cons_self i hpi

end Loader

/-- The loader patches the boot image as the definitions say exactly when any two
definitions that meet at a byte leave it as it is; and it accepts no image that
differs from the boot image at a covered byte. -/
theorem patchTable_applies_iff {boot : List UInt8} {ds : List Definition} {table : List Patch}
    (htable : patchTable boot ds = some table) :
    (Patched table boot ∧ ∀ img : List UInt8, img.length = boot.length →
      (applyPatches table img).1 = 0 → ∀ p ∈ table, ∀ i, p.Covers i → img[i]? = boot[i]?) ↔
    table.Pairwise (Compatible boot) := by
  have hof := of_patchTable htable
  constructor
  · rintro ⟨⟨hret, -, hbytes, -⟩, -⟩
    exact compatible_of_patched hof rfl hret hbytes
  · intro hcompat
    refine ⟨patched_of_compatible hof rfl (fun _ _ _ _ => rfl) hcompat, ?_⟩
    exact fun img hlen h => agrees_of_apply hof hlen h

/-- A boot image of zeros. -/
def zeroBoot : List UInt8 := List.replicate 0x100000 0

section ZeroBoot

variable {addr n v fn target : ℕ} {new : List UInt8}

theorem rd_zeroBoot (h : bootBase ≤ addr) (hn : addr - bootBase + n ≤ 0x100000) :
    rd zeroBoot addr n = some (List.replicate n 0) := by
  have hlen : addr - bootBase + n ≤ zeroBoot.length := by
    rw [zeroBoot, List.length_replicate]
    exact hn
  unfold rd
  rw [if_pos ⟨h, hlen⟩, zeroBoot, List.drop_replicate, List.take_replicate,
    Nat.min_eq_left (by omega)]

theorem patchOf_zeroBoot (h : bootBase ≤ addr) (hn : addr - bootBase + new.length ≤ 0x100000) :
    patchOf zeroBoot addr new =
      some ⟨addr, List.replicate new.length 0, new, List.length_replicate.symm⟩ := by
  unfold patchOf
  rw [rd_zeroBoot h hn, Option.bind_some, dif_pos List.length_replicate.symm]

theorem emit_zeroBoot (h : bootBase ≤ addr) (hn : addr - bootBase + 4 ≤ 0x100000)
    (hv : v < 2 ^ 32) :
    (Definition.pool addr 0 v).emit zeroBoot =
      some ⟨addr, [0, 0, 0, 0], wordBytes v, rfl⟩ := by
  have hzero : fromBytesLittle (List.replicate 4 0) = 0 ∧ v < 2 ^ 32 := ⟨rfl, hv⟩
  show wordPatch zeroBoot addr 0 v = _
  unfold wordPatch
  rw [rd_zeroBoot h hn, Option.bind_some, if_pos hzero]
  exact patchOf_zeroBoot h hn

theorem emit_hook_zeroBoot (h : bootBase ≤ fn) (hfn : fn - bootBase + 2 ≤ 0x100000)
    (hn : fn - bootBase + (hookCode fn target).length ≤ 0x100000) (hdisp : hookDisp fn ≤ 255)
    (ht : target < 2 ^ 32) :
    (Definition.hook fn 0 target).emit zeroBoot =
      some ⟨fn, List.replicate (hookCode fn target).length 0, hookCode fn target,
        List.length_replicate.symm⟩ := by
  have hguard : fromBytesLittle (List.replicate 2 0) = 0 ∧ hookDisp fn ≤ 255 ∧ target < 2 ^ 32 :=
    ⟨rfl, hdisp, ht⟩
  show hook zeroBoot fn 0 target = _
  unfold hook
  rw [rd_zeroBoot h hfn, Option.bind_some, if_pos hguard]
  exact patchOf_zeroBoot h hn

end ZeroBoot

/-- A pool word that is sent to the mirror, and a function that is hooked to the shim. -/
def mirrorAndHook : List Definition :=
  [.pool 0x8c02da74 0 0xacfc8800, .hook 0x8c03bc12 0 0x8cfc0000]

/-- The table of the two definitions over a boot image of zeros. -/
def mirrorAndHookTable : List Patch :=
  [⟨0x8c02da74, [0, 0, 0, 0], wordBytes 0xacfc8800, rfl⟩,
    ⟨0x8c03bc12, List.replicate 10 0, hookCode 0x8c03bc12 0x8cfc0000, rfl⟩]

theorem patchTable_mirrorAndHook : patchTable zeroBoot mirrorAndHook = some mirrorAndHookTable := by
  unfold mirrorAndHook patchTable patchTable
  rw [emit_zeroBoot (by decide) (by decide) (by decide),
    emit_hook_zeroBoot (by decide) (by decide) (by decide) (by decide) (by decide)]
  rfl

/-- The two entries do not meet. -/
theorem compatible_mirrorAndHook : mirrorAndHookTable.Pairwise (Compatible zeroBoot) := by
  refine List.pairwise_pair.2 fun i hp hq => ?_
  have hlow : i < 0x8c02da74 - gameLoadAddr + 4 := hp.2
  have hhigh : 0x8c03bc12 - gameLoadAddr ≤ i := hq.1
  rw [gameLoadAddr_eq] at hlow hhigh
  omega

theorem patchTable_applies_sample :
    Patched mirrorAndHookTable zeroBoot ∧ ∀ img : List UInt8, img.length = zeroBoot.length →
      (applyPatches mirrorAndHookTable img).1 = 0 →
        ∀ p ∈ mirrorAndHookTable, ∀ i, p.Covers i → img[i]? = zeroBoot[i]? :=
  (patchTable_applies_iff patchTable_mirrorAndHook).2 compatible_mirrorAndHook

/-- The generator accepts two definitions of one word, the loader does not. -/
theorem patchTable_not_applies :
    ¬ ∀ (boot : List UInt8) (ds : List Definition) (table : List Patch),
      boot.length = 0x100000 → patchTable boot ds = some table → Patched table boot := by
  intro h
  have htable : patchTable zeroBoot [.pool bootBase 0 1, .pool bootBase 0 2] =
      some [⟨bootBase, [0, 0, 0, 0], wordBytes 1, rfl⟩,
        ⟨bootBase, [0, 0, 0, 0], wordBytes 2, rfl⟩] := by
    unfold patchTable patchTable
    rw [emit_zeroBoot le_rfl (by decide) (by decide), emit_zeroBoot le_rfl (by decide) (by decide)]
    rfl
  obtain ⟨hret, -, hbytes, -⟩ := h _ _ _ List.length_replicate htable
  have hcompat := compatible_of_patched (of_patchTable htable) rfl hret hbytes
  have hmeet := (List.pairwise_cons.1 hcompat).1 _ List.mem_cons_self 0
    ⟨Nat.zero_le _, by decide⟩ ⟨Nat.zero_le _, by decide⟩
  have hboth := hmeet.1.trans hmeet.2.symm
  exact absurd hboth (by decide)

end Cfp2Dreamcast
