import Cfp2Dreamcast.Loader.Handoff
import Cfp2Dreamcast.Patch.Table
import Cfp2Dreamcast.Program.Rules

/-!
# The loader

The part of the loader's `main` from `apply_patches` on, as a program over the
cached memory. Before each of its accesses the loader and KOS may make any number
of accesses to their own data, which lie outside `Home`: the staging area, the
scratch area of the stub and the home of the shim.
-/

namespace Cfp2Dreamcast

open Program Memory

/-- The physical addresses of the staging area, the scratch area and shim home. -/
def Home (x : ℕ) : Prop :=
  (phys stagingAddr ≤ x ∧ x < phys stagingAddr + gameLen) ∨
    (phys handoffScratch ≤ x ∧ x < phys handoffScratch + handoffStub.length) ∨
      (phys shimBase ≤ x ∧ x < phys mapleMirror + mapleMirrorLen)

inductive LoaderCmd where
  | load8 (a : ℕ)
  | load32 (a : ℕ)
  | store8 (a : ℕ) (v : UInt8)
  | store32 (a v : ℕ)
  | purge (a len : ℕ)

abbrev LoaderCmd.Resp : LoaderCmd → Type
  | load8 _ => UInt8
  | load32 _ => ℕ
  | _ => Unit

/-- A halt is `halt` with its message. -/
def loaderSig : Signature := ⟨LoaderCmd, LoaderCmd.Resp, String⟩

abbrev Loader (α : Type) := Prog loaderSig α

/-- The lines that `dcache_purge_range` covers. -/
def linesOf (a len : ℕ) : List ℕ :=
  (List.range ((phys a % 32 + len + 31) / 32)).map (phys a / 32 + ·)

/-- A command by itself. Only RAM is behind the cache. -/
def loaderAccess (m : Cached) : (c : LoaderCmd) → c.Resp → Cached → Prop
  | .load8 a, r, m' => r = cachedBus.view m a ∧ cachedBus.touch m a m'
  | .load32 a, r, m' =>
      if isRam a then r = cachedBus.word m a ∧ cachedBus.touch m a m' else r < 2 ^ 32 ∧ m' = m
  | .store8 a v, _, m' => cachedBus.store m a v m'
  | .store32 a v, _, m' =>
      if isRam a then cachedBus.storeRun m a (wordBytes v) m' else m' = m
  | .purge a len, _, m' => m' = m.purge lineOf (linesOf a len)

abbrev Accesses : Cached → Cached → Prop := Relation.ReflTransGen (Cache.Foreign lineOf Home)

def loaderMachine : Machine loaderSig Cached where
  step m c r m' := ∃ m₁, Accesses m m₁ ∧ loaderAccess m₁ c r m'

/-! The C library and `main`. -/

/-- `memcmp` with a table of the loader; `true` when equal. -/
def memcmpBytes (a : ℕ) : List UInt8 → Loader Bool
  | [] => .ret true
  | b :: bs => .op (.load8 a) fun (x : UInt8) =>
      if x = b then memcmpBytes (a + 1) bs else .ret false

/-- `memcpy` from data of the loader. -/
def memcpyBytes (a : ℕ) : List UInt8 → Loader Unit
  | [] => .ret ()
  | b :: bs => .op (.store8 a b) fun _ => memcpyBytes (a + 1) bs

def memset (a : ℕ) (v : UInt8) (n : ℕ) : Loader Unit := memcpyBytes a (List.replicate n v)

/-- `apply_patches`. -/
def applyPatchesAt (img : ℕ) : List Patch → Loader ℤ
  | [] => .ret 0
  | p :: ps => do
      let at_ := img + (p.addr - gameLoadAddr)
      let same ← memcmpBytes at_ p.old
      if same then do
        memcpyBytes at_ p.new
        applyPatchesAt img ps
      else .ret (-1)

/-- Zero `n` words. -/
def zeroWords (a : ℕ) : ℕ → Loader Unit
  | 0 => .ret ()
  | n + 1 => .op (.store32 a 0) fun _ => zeroWords (a + 4) n

def dcachePurgeRange (a len : ℕ) : Loader Unit := .op (.purge a len) fun _ => .ret ()

def regStore (a v : ℕ) : Loader Unit := .op (.store32 a v) fun _ => .ret ()

/-- Copy the shim and the BIOS slices to shim home, zero the rest of the shim's
code area and the two mirrors, and relocate the stub. -/
def placeShim (shimBin biosData : List UInt8) : Loader Unit := do
  memcpyBytes shimBase shimBin
  memset (shimBase + shimBin.length) 0 (shimCodeMax - shimBin.length)
  memcpyBytes biosData60000 (biosData.take biosData60000Len)
  memcpyBytes biosData1ffd00 ((biosData.drop biosData60000Len).take biosData1ffd00Len)
  zeroWords (p2Addr g1Mirror) (0x800 / 4)
  zeroWords (p2Addr mapleMirror) (mapleMirrorLen / 4)
  memcpyBytes handoffScratch handoffStub

/-- Write the cached stores back. -/
def purgeAll : Loader Unit := do
  dcachePurgeRange stagingAddr gameLen
  dcachePurgeRange shimBase shimCodeMax
  dcachePurgeRange handoffScratch handoffStub.length
  dcachePurgeRange biosData60000 biosData60000Len
  dcachePurgeRange biosData1ffd00 biosData1ffd00Len

/-- MMU off, the TA and the pipeline reset, stale interrupt latches dropped. -/
def quietHardware : Loader Unit := do
  regStore 0xff000010 0
  regStore 0xa05f8008 3
  .op (.load32 0xa05f8008) fun _ => .ret ()
  regStore 0xa05f8008 0
  regStore 0xa05f6900 0xffffffff
  regStore 0xa05f690c 0xffffffff

/-- `main` from `apply_patches` to the call of the stub. -/
def loaderMain (shimBin biosData : List UInt8) (table : List Patch) : Loader Unit := do
  let r ← applyPatchesAt stagingAddr table
  if r ≠ 0 then .halt "PATCH ABORT"
  else do
    placeShim shimBin biosData
    purgeAll
    quietHardware

end Cfp2Dreamcast
