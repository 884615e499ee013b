import Cfp2Dreamcast.Machine.AddressMap
import Cfp2Dreamcast.Sh4.Save

/-!
# The GD syscall wrapper

`_gdc_call` of `gdstack.S`: save PR, the stack pointer, FPSCR, FPUL and both FPU
banks, switch to the private stack and the FPU mode the backend expects, turn the
MMU off when the backend is one that needs it, call the live vector, and undo
all of it. Here are the code, the words of memory it works with, and what they
hold when the callee is entered.
-/

namespace Cfp2Dreamcast

open Sh4

/-- Where the linker put the wrapper's three statics, and the return address of
its `jsr`. The statics belong to the shim's image. -/
structure Link where
  data : ℕ
  ret : Word
  aligned : data % 4 = 0
  low : shimBase ≤ data
  high : data + 12 ≤ shimBase + shimCodeMax

/-- `_gdc_saved_sp`, `_gdc_saved_mmucr` and `_gdc_mmu_gate`. -/
def Link.savedSp (lk : Link) : Word := BitVec.ofNat 32 lk.data
def Link.savedMmucr (lk : Link) : Word := BitVec.ofNat 32 (lk.data + 4)
def Link.mmuGate (lk : Link) : Word := BitVec.ofNat 32 (lk.data + 8)

def stackTop : Word := BitVec.ofNat 32 gdStackTop
def vec : Word := 0x8c0000bc
def vec2 : Word := 0x8c0000c0
def offMask : Word := 0x00ffffff
def biosTop : Word := 0x00010000
def fpscrKos : Word := 0x00040001

inductive Label where
  | mmuSkipClear
  | mmuSkipRestore
  deriving DecidableEq, Repr

def allRegs : List Reg := List.finRange 16

def enter (lk : Link) : List Instr :=
  [.stsPr 15, .movLit lk.savedSp 0, .movStore 15 0, .movLit stackTop 15,
    .stsFpscr 15, .stsFpul 15, .movLit fpscrKos 1, .ldsRegFpscr 1]

def probe (lk : Link) : List Instr :=
  [.movLit vec 1, .movLoad 1 2, .movLit vec2 1, .movLoad 1 1, .addImm (-8) 1,
    .cmpEq 2 1, .movt 3, .movLit offMask 1, .and 2 1, .movLit biosTop 2,
    .cmpHs 2 1, .movt 1, .or 1 3, .movLit lk.mmuGate 2, .movStore 3 2, .tst 3 3]

def clearMmucr (lk : Link) : List Instr :=
  [.movLit mmucrAddr 1, .movLoad 1 2, .movLit lk.savedMmucr 3, .movStore 2 3,
    .movImm 0 2, .movStore 2 1]

def reload (lk : Link) : List Instr := [.movLit lk.mmuGate 1, .movLoad 1 1, .tst 1 1]

def restoreMmucr (lk : Link) : List Instr :=
  [.movLit lk.savedMmucr 3, .movLoad 3 2, .movLit mmucrAddr 1, .movStore 2 1]

def leave (lk : Link) : List Instr :=
  [.ldsFpul 15, .ldsFpscr 15, .movLit lk.savedSp 1, .movLoad 1 15, .ldsPr 15]

/-- What runs after the call. -/
def gdcReturn (lk : Link) : List (Line Label) :=
  straight (reload lk) ++ .bt .mmuSkipRestore :: (straight (restoreMmucr lk) ++
  .label .mmuSkipRestore :: (straight ([.movLit fpscrKos 1, .ldsRegFpscr 1] ++
  (restoreBanks allRegs ++ leave lk)) ++ [.rts .nop]))

/-- `_gdc_call`. -/
def gdcCall (lk : Link) : List (Line Label) :=
  straight (enter lk ++ (saveBanks allRegs ++ probe lk)) ++ .bt .mmuSkipClear ::
  (straight (clearMmucr lk) ++ .label .mmuSkipClear ::
  (straight [.movLit vec 0, .movLoad 0 0] ++ .jsr 0 .nop :: gdcReturn lk))

/-! The words the wrapper uses. -/

theorem slot_gdStack {i : ℕ} (hi : i < 34) :
    (slot gdStackTop i).toNat = 0x8cfd8000 - 4 * (i + 1) := by
  simp only [slot, BitVec.toNat_ofNat, gdStackTop_eq]
  omega

theorem cell_slot {i : ℕ} (hi : i < 34) :
    cell (slot gdStackTop i) = 0x0cfd8000 - 4 * (i + 1) := by
  have h := slot_gdStack hi
  rw [cell_ram (by omega) (by omega)]
  omega

/-- The saved context fits the private stack. -/
theorem gdStack : IsStack gdStackTop 34 where
  aligned := by decide
  room := by decide
  below := by decide
  cell_ne j hj k hk hne := by
    rw [cell_slot hj, cell_slot hk]
    omega

section Statics

variable (lk : Link)

/-- A word of the wrapper's data. -/
theorem Link.word {k : ℕ} (hk : k ≤ 8) (hk4 : k % 4 = 0) :
    (BitVec.ofNat 32 (lk.data + k)).toNat % 4 = 0 ∧
      BitVec.ofNat 32 (lk.data + k) ≠ mmucrAddr ∧
      cell (BitVec.ofNat 32 (lk.data + k)) = lk.data + k - 0x80000000 := by
  have hal := lk.aligned
  have hlow := lk.low
  have hhigh := lk.high
  rw [shimBase_eq] at hlow
  rw [shimBase_eq, shimCodeMax_eq] at hhigh
  have hnat : (BitVec.ofNat 32 (lk.data + k)).toNat = lk.data + k := by
    rw [BitVec.toNat_ofNat]
    omega
  refine ⟨by rw [hnat]; omega, fun heq => ?_, ?_⟩
  · have hmmucr : mmucrAddr.toNat = 0xff000010 := rfl
    rw [heq, hmmucr] at hnat
    omega
  · rw [cell_ram (by omega) (by omega), hnat]

theorem Link.savedSp_spec : lk.savedSp.toNat % 4 = 0 ∧ lk.savedSp ≠ mmucrAddr ∧
    cell lk.savedSp = lk.data - 0x80000000 := lk.word (k := 0) (by decide) rfl

theorem Link.savedMmucr_spec : lk.savedMmucr.toNat % 4 = 0 ∧ lk.savedMmucr ≠ mmucrAddr ∧
    cell lk.savedMmucr = lk.data + 4 - 0x80000000 := lk.word (by decide) rfl

theorem Link.mmuGate_spec : lk.mmuGate.toNat % 4 = 0 ∧ lk.mmuGate ≠ mmucrAddr ∧
    cell lk.mmuGate = lk.data + 8 - 0x80000000 := lk.word (by decide) rfl

/-- The cells of the wrapper's statics and of the context on the private stack. -/
def ownCells : List ℕ :=
  cell lk.savedSp :: cell lk.savedMmucr :: cell lk.mmuGate ::
    (List.range 34).map fun k => cell (slot gdStackTop k)

/-- The wrapper is entered with the FPU enabled and a stack of the caller's own:
aligned, with a free word below the stack pointer that is none of the words the
wrapper reads or writes elsewhere. -/
structure Entry (s : Cpu) : Prop where
  fpu : s.fd = false
  aligned : (s.r 15 - 4).toNat % 4 = 0
  ordinary : s.r 15 - 4 ≠ mmucrAddr
  free : cell (s.r 15 - 4) ∉ cell vec :: cell vec2 :: ownCells lk

/-- The condition under which the wrapper turns the MMU off. -/
def Gate (s : Cpu) : Prop :=
  s.mem (cell vec2) - 8 = s.mem (cell vec) ∨ biosTop ≤ s.mem (cell vec) &&& offMask

instance (s : Cpu) : Decidable (Gate s) := inferInstanceAs (Decidable (_ ∨ _))

/-- The callee, entered in `e` by a wrapper that was entered in `s`, returns in
`c`: it keeps `r8` to `r15`, the wrapper's own words and SR.FD, and may do anything
else. -/
structure Returns (s e c : Cpu) : Prop where
  regs : ∀ i, 8 ≤ i → c.r i = e.r i
  frame : ∀ x ∈ cell (s.r 15 - 4) :: ownCells lk, c.mem x = e.mem x
  fpu : c.fd = false

/-- The saved context, first word first. -/
def savedWords (s : Cpu) : List Word :=
  [s.fpscr.setWidth 32, s.fpul] ++
    (allRegs.map (s.bank false) ++ allRegs.map (s.bank true))

/-- Memory once PR, the stack pointer and the context are saved. -/
def savedMem (s : Cpu) : ℕ → Word :=
  pushWords gdStackTop 0 (savedWords s)
    (Function.update (Function.update s.mem (cell (s.r 15 - 4)) s.pr)
      (cell lk.savedSp) (s.r 15 - 4))

/-- Memory when the callee is entered. -/
def calleeMem (s : Cpu) : ℕ → Word :=
  let m := Function.update (savedMem lk s) (cell lk.mmuGate) (if Gate s then 1 else 0)
  if Gate s then Function.update m (cell lk.savedMmucr) s.mmucr else m

/-- Memory holds what the wrapper saved for its return. -/
structure Saved (s : Cpu) (m : ℕ → Word) : Prop where
  pr : m (cell (s.r 15 - 4)) = s.pr
  sp : m (cell lk.savedSp) = s.r 15 - 4
  gate : m (cell lk.mmuGate) = if Gate s then 1 else 0
  mmucr : Gate s → m (cell lk.savedMmucr) = s.mmucr
  words : ∀ k (hk : k < (savedWords s).length),
    m (cell (slot gdStackTop k)) = (savedWords s)[k]

end Statics

/-! What memory holds when the callee is entered. -/

section Lookups

variable {lk : Link} {s : Cpu}

theorem savedWords_length (s : Cpu) : (savedWords s).length = 34 := rfl

theorem mem_ownCells {x : ℕ} : x ∈ ownCells lk ↔ x = cell lk.savedSp ∨
    x = cell lk.savedMmucr ∨ x = cell lk.mmuGate ∨
      ∃ k < 34, cell (slot gdStackTop k) = x := by
  simp [ownCells]

/-- The vector words are none of the wrapper's. -/
theorem vec_off {x : ℕ} (hx : x < 0x0cfc0000) : x ∉ ownCells lk := by
  obtain ⟨-, -, hsp⟩ := lk.savedSp_spec
  obtain ⟨-, -, hmmucr⟩ := lk.savedMmucr_spec
  obtain ⟨-, -, hgate⟩ := lk.mmuGate_spec
  have hlow := lk.low
  rw [shimBase_eq] at hlow
  rw [mem_ownCells]
  rintro (h | h | h | ⟨k, hk, h⟩)
  · omega
  · omega
  · omega
  · rw [cell_slot hk] at h
    omega

theorem savedMem_off {x : ℕ} (hx : x ≠ cell (s.r 15 - 4)) (hown : x ∉ ownCells lk) :
    savedMem lk s x = s.mem x := by
  rw [mem_ownCells] at hown
  push Not at hown
  obtain ⟨hsp, -, -, hslot⟩ := hown
  rw [savedMem, pushWords_off fun k hk => ?_, Function.update_of_ne hsp,
    Function.update_of_ne hx]
  rw [Nat.zero_add]
  exact hslot k hk

theorem calleeMem_off {x : ℕ} (hx : x ≠ cell (s.r 15 - 4)) (hown : x ∉ ownCells lk) :
    calleeMem lk s x = s.mem x := by
  have hsaved := savedMem_off hx hown
  rw [mem_ownCells] at hown
  push Not at hown
  obtain ⟨-, hmmucr, hgate, -⟩ := hown
  rw [calleeMem]
  split_ifs
  · rw [Function.update_of_ne hmmucr, Function.update_of_ne hgate, hsaved]
  · rw [Function.update_of_ne hgate, hsaved]

/-- The gate and the saved MMUCR are on no other word. -/
theorem calleeMem_saved {x : ℕ} (hgate : x ≠ cell lk.mmuGate) (hmmucr : x ≠ cell lk.savedMmucr) :
    calleeMem lk s x = savedMem lk s x := by
  rw [calleeMem]
  split_ifs
  · rw [Function.update_of_ne hmmucr, Function.update_of_ne hgate]
  · rw [Function.update_of_ne hgate]

theorem saved_calleeMem (h : Entry lk s) : Saved lk s (calleeMem lk s) := by
  obtain ⟨-, -, hsp⟩ := lk.savedSp_spec
  obtain ⟨-, -, hmmucr⟩ := lk.savedMmucr_spec
  obtain ⟨-, -, hgate⟩ := lk.mmuGate_spec
  have hlow := lk.low
  have hhigh := lk.high
  rw [shimBase_eq] at hlow
  rw [shimBase_eq, shimCodeMax_eq] at hhigh
  have hfree := h.free
  rw [List.mem_cons, List.mem_cons, mem_ownCells] at hfree
  push Not at hfree
  obtain ⟨-, -, hfsp, hfmmucr, hfgate, hfslot⟩ := hfree
  refine ⟨?_, ?_, ?_, fun hg => ?_, fun k hk => ?_⟩
  · rw [calleeMem_saved hfgate hfmmucr, savedMem, pushWords_off fun k hk => ?_,
      Function.update_of_ne hfsp, Function.update_self]
    rw [Nat.zero_add]
    exact hfslot k hk
  · rw [calleeMem_saved (by omega) (by omega), savedMem, pushWords_off fun k hk => ?_,
      Function.update_self]
    rw [savedWords_length] at hk
    rw [Nat.zero_add, cell_slot hk, hsp]
    omega
  · rw [calleeMem]
    split_ifs
    · rw [Function.update_of_ne (by omega), Function.update_self]
    · rw [Function.update_self]
  · rw [calleeMem, if_pos hg, Function.update_self]
  · have hcell := cell_slot (savedWords_length s ▸ hk)
    rw [savedWords_length] at hk
    rw [calleeMem_saved (by omega) (by omega), savedMem]
    have hword := pushWords_slot (m := Function.update (Function.update s.mem
      (cell (s.r 15 - 4)) s.pr) (cell lk.savedSp) (s.r 15 - 4)) gdStack
      (show 0 + (savedWords s).length ≤ _ from le_rfl) hk
    rwa [Nat.zero_add] at hword

/-- The callee leaves it all there. -/
theorem Returns.saved {e c : Cpu} (hc : Returns lk s e c) (he : Saved lk s e.mem) :
    Saved lk s c.mem where
  pr := (hc.frame _ (by simp)).trans he.pr
  sp := (hc.frame _ (by simp [ownCells])).trans he.sp
  gate := (hc.frame _ (by simp [ownCells])).trans he.gate
  mmucr hg := (hc.frame _ (by simp [ownCells])).trans (he.mmucr hg)
  words k hk := (hc.frame _ (List.mem_cons_of_mem _
    (mem_ownCells.2 (.inr (.inr (.inr ⟨k, hk, rfl⟩)))))).trans (he.words k hk)

end Lookups

end Cfp2Dreamcast
