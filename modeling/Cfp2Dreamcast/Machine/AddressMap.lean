import Mathlib.Tactic.IntervalCases
import Mathlib.Tactic.NormNum
import Cfp2Dreamcast.Memory.Bits

/-!
# The address map

The addresses of `shim_iface.h` and the way the SH-4 and the board decode an
address: the low 29 bits are the physical address, area 3 is main RAM, and the
16 MB of RAM repeat through the 64 MB of the area. `p2Addr` is the uncached
alias of an address; it has the same physical address.
-/

namespace Cfp2Dreamcast

def shimBase : ℕ := 0x8cfc0000
def shimCodeMax : ℕ := 0x00008000

def shimErr : ℕ := shimBase + 0x8000
def g1Mirror : ℕ := shimBase + 0x8800
def mapleTx : ℕ := shimBase + 0x9000
def mapleRx : ℕ := shimBase + 0x9040
def shimBounce : ℕ := shimBase + 0xa000

def biosData60000 : ℕ := shimBase + 0xb000
def biosData60000Len : ℕ := 0x7000
def biosData1ffd00 : ℕ := shimBase + 0x12000
def biosData1ffd00Len : ℕ := 0x70

def mapleMirror : ℕ := shimBase + 0x13000
def mapleMirrorLen : ℕ := 0x100

def gdStackBottom : ℕ := shimBase + 0x14000
def gdStackTop : ℕ := shimBase + 0x18000

def stagingAddr : ℕ := 0x8cd00000
def gameLoadAddr : ℕ := 0x8c020000
def gameLen : ℕ := 0x00100000
def gameEntry : ℕ := 0x8c04ae2c

def cartSize : ℕ := 0x06800000

/-! The constants as numerals, for arithmetic. -/

@[simp] theorem shimBase_eq : shimBase = 0x8cfc0000 := rfl
@[simp] theorem shimCodeMax_eq : shimCodeMax = 0x8000 := rfl
@[simp] theorem shimErr_eq : shimErr = 0x8cfc8000 := rfl
@[simp] theorem g1Mirror_eq : g1Mirror = 0x8cfc8800 := rfl
@[simp] theorem mapleTx_eq : mapleTx = 0x8cfc9000 := rfl
@[simp] theorem mapleRx_eq : mapleRx = 0x8cfc9040 := rfl
@[simp] theorem shimBounce_eq : shimBounce = 0x8cfca000 := rfl
@[simp] theorem biosData60000_eq : biosData60000 = 0x8cfcb000 := rfl
@[simp] theorem biosData60000Len_eq : biosData60000Len = 0x7000 := rfl
@[simp] theorem biosData1ffd00_eq : biosData1ffd00 = 0x8cfd2000 := rfl
@[simp] theorem biosData1ffd00Len_eq : biosData1ffd00Len = 0x70 := rfl
@[simp] theorem mapleMirror_eq : mapleMirror = 0x8cfd3000 := rfl
@[simp] theorem mapleMirrorLen_eq : mapleMirrorLen = 0x100 := rfl
@[simp] theorem gdStackBottom_eq : gdStackBottom = 0x8cfd4000 := rfl
@[simp] theorem gdStackTop_eq : gdStackTop = 0x8cfd8000 := rfl
@[simp] theorem stagingAddr_eq : stagingAddr = 0x8cd00000 := rfl
@[simp] theorem gameLoadAddr_eq : gameLoadAddr = 0x8c020000 := rfl
@[simp] theorem gameLen_eq : gameLen = 0x100000 := rfl
@[simp] theorem gameEntry_eq : gameEntry = 0x8c04ae2c := rfl
@[simp] theorem cartSize_eq : cartSize = 0x6800000 := rfl

/-- The compile-line choices of a build: the FAD of the first cart sector, and
the `SHIM_CDXA`, `SHIM_GD_DMA` and `SHIM_LOADBAR` switches. -/
structure Build where
  cartFad : ℕ
  cdxa : Bool
  gdDma : Bool
  loadbar : Bool

/-- The release GD-ROM build: `CART_FAD` and the switches as `shim_iface.h`
has them. -/
def Build.gdi : Build := ⟨451878, false, true, true⟩

/-- The build of `make cdi`: `-DCART_FAD=13644 -DSHIM_CDXA=1`. -/
def Build.cdi : Build := ⟨13644, true, true, true⟩

/-- `P2ADDR`: the uncached alias. -/
def p2Addr (a : ℕ) : ℕ := a ||| 0xa0000000

/-- The 29-bit physical address. -/
def phys (a : ℕ) : ℕ := a % 2 ^ 29

/-- The address decodes to area 3, `[0x0c000000, 0x10000000)`. -/
def isRam (a : ℕ) : Prop := phys a / 2 ^ 26 = 3

instance (a : ℕ) : Decidable (isRam a) := inferInstanceAs (Decidable (_ = _))

/-- The RAM cell behind an address of area 3. -/
def ramCell (a : ℕ) : ℕ := a % 2 ^ 24

theorem isRam_iff (a : ℕ) :
    isRam a ↔ 0x0c000000 ≤ phys a ∧ phys a < 0x10000000 := by
  unfold isRam phys
  omega

theorem p2Addr_mod (a k : ℕ) (hk : k ≤ 29) : p2Addr a % 2 ^ k = a % 2 ^ k := by
  have h : 0xa0000000 = 0xa0000000 / 2 ^ k * 2 ^ k := by
    interval_cases k <;> norm_num
  unfold p2Addr
  rw [h, Memory.or_high_mod]

/-- The mask that the code applies to get a physical address. -/
theorem and_physMask (a : ℕ) : a &&& 0x1fffffff = phys a := by
  have h := Memory.and_low a 29
  norm_num at h
  exact h

theorem phys_of_lt {a : ℕ} (ha : a < 2 ^ 29) : phys a = a := Nat.mod_eq_of_lt ha

/-- The uncached alias of a physical address. -/
theorem p2Addr_eq_add {a : ℕ} (ha : a < 2 ^ 29) : p2Addr a = a + 0xa0000000 :=
  Memory.or_high_eq_add ha 5

@[simp] theorem phys_p2Addr_add (a i : ℕ) : phys (p2Addr a + i) = phys (a + i) := by
  have h := p2Addr_mod a 29 le_rfl
  unfold phys
  omega

@[simp] theorem phys_p2Addr (a : ℕ) : phys (p2Addr a) = phys a :=
  phys_p2Addr_add a 0

@[simp] theorem isRam_p2Addr_add (a i : ℕ) :
    isRam (p2Addr a + i) ↔ isRam (a + i) := by
  unfold isRam
  rw [phys_p2Addr_add]

@[simp] theorem isRam_p2Addr (a : ℕ) : isRam (p2Addr a) ↔ isRam a :=
  isRam_p2Addr_add a 0

@[simp] theorem ramCell_p2Addr_add (a i : ℕ) :
    ramCell (p2Addr a + i) = ramCell (a + i) := by
  have h := p2Addr_mod a 24 (by decide)
  unfold ramCell
  omega

@[simp] theorem ramCell_p2Addr (a : ℕ) : ramCell (p2Addr a) = ramCell a :=
  ramCell_p2Addr_add a 0

end Cfp2Dreamcast
