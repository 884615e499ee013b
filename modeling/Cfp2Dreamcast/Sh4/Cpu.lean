import Mathlib.Algebra.Ring.Nat
import Mathlib.Logic.Function.Basic

/-!
# A part of the SH-4

Enough of the SH-4 to run hand-written save and restore code: the general
registers, PR, the T bit, the two physical banks of FPU registers with FPSCR and
FPUL, longword memory and the MMU control register. FPSCR has 22 bits; FR (bit
21) says which bank is in front and SZ (bit 20) whether `fmov.s` moves a single
register or a pair. An FPU instruction traps while SR.FD is set, and so does a
misaligned longword access.
-/

namespace Sh4

abbrev Word := BitVec 32
abbrev Reg := Fin 16
abbrev Fpscr := BitVec 22

instance (priority := high) neZero_regCount : NeZero 16 := ⟨by decide⟩

/-- The MMU control register. -/
def mmucrAddr : Word := 0xff000010

/-- The memory cell of an address. P4 addresses stand for themselves, the other
regions are aliases of the 29-bit physical address, and in area 3 the 16 MB of
RAM repeat. -/
def cell (a : Word) : ℕ :=
  if 0xe0000000 ≤ a.toNat then a.toNat
  else if a.toNat % 2 ^ 29 / 2 ^ 26 = 3 then 0x0c000000 + a.toNat % 2 ^ 24
  else a.toNat % 2 ^ 29

/-- The cell of an address in the P1 alias of the 16 MB of RAM. -/
theorem cell_ram {a : Word} (hlo : 0x8c000000 ≤ a.toNat) (hhi : a.toNat < 0x8d000000) :
    cell a = a.toNat - 0x80000000 := by
  rw [cell, if_neg (by omega), if_pos (by omega)]
  omega

/-- FPSCR with FR the other way. -/
def Fpscr.flipped (f : Fpscr) : Fpscr := f ^^^ 0x200000

structure Cpu where
  r : Reg → Word
  pr : Word
  t : Bool
  fd : Bool
  fpscr : Fpscr
  fpul : Word
  bank : Bool → Reg → Word
  mem : ℕ → Word
  mmucr : Word
  /-- The values stored to MMUCR so far. -/
  mmucrStores : List Word

namespace Cpu

def setReg (s : Cpu) (n : Reg) (v : Word) : Cpu := { s with r := Function.update s.r n v }

/-- FPSCR.FR: bank 1 is in front. -/
def fr (s : Cpu) : Bool := s.fpscr.getLsbD 21

/-- FPSCR.SZ: `fmov.s` moves pairs. -/
def sz (s : Cpu) : Bool := s.fpscr.getLsbD 20

def front (s : Cpu) (n : Reg) : Word := s.bank s.fr n

def setFront (s : Cpu) (n : Reg) (v : Word) : Cpu :=
  { s with bank := Function.update s.bank s.fr (Function.update (s.bank s.fr) n v) }

def load (s : Cpu) (a : Word) : Option Word :=
  if a.toNat % 4 = 0 then some (if a = mmucrAddr then s.mmucr else s.mem (cell a)) else none

def store (s : Cpu) (a v : Word) : Option Cpu :=
  if a.toNat % 4 = 0 then
    some (if a = mmucrAddr then { s with mmucr := v, mmucrStores := s.mmucrStores ++ [v] }
      else { s with mem := Function.update s.mem (cell a) v })
  else none

/-- Store below `Rn` and move `Rn` there: the mode `@-Rn`. -/
def push (s : Cpu) (n : Reg) (v : Word) : Option Cpu :=
  (s.store (s.r n - 4) v).map fun s' => s'.setReg n (s.r n - 4)

/-- The registers of the pair that `fmov.s` names with SZ set: an odd number
stands for a pair of the back bank. -/
def pair (s : Cpu) (m : Reg) : Bool × Reg × Reg :=
  let even : Reg := ⟨m / 2 * 2, by omega⟩
  let odd : Reg := ⟨m / 2 * 2 + 1, by omega⟩
  (if m.val % 2 = 0 then s.fr else !s.fr, even, odd)

end Cpu

/-- The instructions without those that transfer control. -/
inductive Instr where
  | nop
  | movLit (v : Word) (n : Reg)
  | movImm (v : BitVec 8) (n : Reg)
  | movStore (m n : Reg)
  | movLoad (m n : Reg)
  | addImm (v : BitVec 8) (n : Reg)
  | cmpEq (m n : Reg)
  | cmpHs (m n : Reg)
  | tst (m n : Reg)
  | movt (n : Reg)
  | and (m n : Reg)
  | or (m n : Reg)
  | stsPr (n : Reg)
  | stsFpscr (n : Reg)
  | stsFpul (n : Reg)
  | ldsPr (m : Reg)
  | ldsFpscr (m : Reg)
  | ldsFpul (m : Reg)
  | ldsRegFpscr (m : Reg)
  | fmovStore (m n : Reg)
  | fmovLoad (m n : Reg)
  | frchg
  deriving DecidableEq, Repr

/-- Does the instruction trap while SR.FD is set? -/
def Instr.isFpu : Instr → Bool
  | .stsFpscr _ | .stsFpul _ | .ldsFpscr _ | .ldsFpul _ | .ldsRegFpscr _ => true
  | .fmovStore .. | .fmovLoad .. | .frchg => true
  | _ => false

/-- Load from `Rm`, move `Rm` past the word, and hand the word on: the mode
`@Rm+`. -/
def Cpu.pop (s : Cpu) (m : Reg) : Option (Word × Cpu) :=
  (s.load (s.r m)).map fun v => (v, s.setReg m (s.r m + 4))

def Instr.run (s : Cpu) : Instr → Option Cpu
  | .nop => some s
  | .movLit v n => some (s.setReg n v)
  | .movImm v n => some (s.setReg n (v.signExtend 32))
  | .movStore m n => s.store (s.r n) (s.r m)
  | .movLoad m n => (s.load (s.r m)).map (s.setReg n)
  | .addImm v n => some (s.setReg n (s.r n + v.signExtend 32))
  | .cmpEq m n => some { s with t := decide (s.r n = s.r m) }
  | .cmpHs m n => some { s with t := decide (s.r m ≤ s.r n) }
  | .tst m n => some { s with t := decide (s.r n &&& s.r m = 0) }
  | .movt n => some (s.setReg n (if s.t then 1 else 0))
  | .and m n => some (s.setReg n (s.r n &&& s.r m))
  | .or m n => some (s.setReg n (s.r n ||| s.r m))
  | .stsPr n => s.push n s.pr
  | .stsFpscr n => s.push n (s.fpscr.setWidth 32)
  | .stsFpul n => s.push n s.fpul
  | .ldsPr m => (s.pop m).map fun p => { p.2 with pr := p.1 }
  | .ldsFpscr m => (s.pop m).map fun p => { p.2 with fpscr := p.1.setWidth 22 }
  | .ldsFpul m => (s.pop m).map fun p => { p.2 with fpul := p.1 }
  | .ldsRegFpscr m => some { s with fpscr := (s.r m).setWidth 22 }
  | .fmovStore m n =>
      if s.sz then
        let (b, even, odd) := s.pair m
        (s.push n (s.bank b odd)).bind fun s' => s'.push n (s.bank b even)
      else s.push n (s.front m)
  | .fmovLoad m n =>
      if s.sz then
        let (b, even, odd) := s.pair n
        (s.pop m).bind fun p => (p.2.pop m).map fun q =>
          let pair := Function.update (Function.update (s.bank b) even p.1) odd q.1
          { q.2 with bank := Function.update s.bank b pair }
      else (s.pop m).map fun p => p.2.setFront n p.1
  | .frchg => some { s with fpscr := s.fpscr.flipped }

/-- One instruction; `none` is a trap. -/
def Instr.step (i : Instr) (s : Cpu) : Option Cpu :=
  if i.isFpu = true ∧ s.fd = true then none else i.run s

/-- A line of code. A branch with a delay slot carries the instruction in it. -/
inductive Line (L : Type) where
  | instr (i : Instr)
  | label (l : L)
  | bt (l : L)
  | jsr (n : Reg) (slot : Instr)
  | rts (slot : Instr)

/-- Where execution stops: in a trap, at the end of the code, at a call, or on
the return to the caller. -/
inductive Stop (L : Type) where
  | trap
  | fell
  | call (target : Word) (s : Cpu) (rest : List (Line L))
  | ret (target : Word) (s : Cpu)

variable {L : Type} [DecidableEq L]

/-- Run the lines; `skip` is the label of a branch that was taken. Branches go
forward only. `link` is the address that `jsr` leaves in PR. -/
def exec (link : Word) : Option L → List (Line L) → Cpu → Stop L
  | _, [], _ => .fell
  | some l, .label l' :: rest, s =>
      if l = l' then exec link none rest s else exec link (some l) rest s
  | some l, _ :: rest, s => exec link (some l) rest s
  | none, .label _ :: rest, s => exec link none rest s
  | none, .instr i :: rest, s =>
      match i.step s with
      | some s' => exec link none rest s'
      | none => .trap
  | none, .bt l :: rest, s =>
      if s.t then exec link (some l) rest s else exec link none rest s
  | none, .jsr n slot :: rest, s =>
      match slot.step { s with pr := link } with
      | some s' => .call (s.r n) s' rest
      | none => .trap
  | none, .rts slot :: _, s =>
      match slot.step s with
      | some s' => .ret s.pr s'
      | none => .trap

/-- Run a block of straight-line code. -/
def runBlock : List Instr → Cpu → Option Cpu
  | [], s => some s
  | i :: is, s => (i.step s).bind (runBlock is)

theorem run_cons {i : Instr} {is : List Instr} {s s₁ s₂ : Cpu} (hi : i.step s = some s₁)
    (his : runBlock is s₁ = some s₂) : runBlock (i :: is) s = some s₂ := by
  rw [runBlock, hi]
  exact his

/-- With the FPU enabled no instruction traps for it. -/
theorem Instr.step_eq_run {s : Cpu} (hfd : s.fd = false) (i : Instr) :
    i.step s = i.run s := by
  rw [Instr.step, if_neg (by simp [hfd])]

/-- An access to an aligned word that is not MMUCR. -/
theorem Cpu.store_ordinary {s : Cpu} {a : Word} (ha : a.toNat % 4 = 0) (hm : a ≠ mmucrAddr)
    (v : Word) : s.store a v = some { s with mem := Function.update s.mem (cell a) v } := by
  rw [Cpu.store, if_pos ha, if_neg hm]

theorem Cpu.load_ordinary {s : Cpu} {a : Word} (ha : a.toNat % 4 = 0) (hm : a ≠ mmucrAddr) :
    s.load a = some (s.mem (cell a)) := by
  rw [Cpu.load, if_pos ha, if_neg hm]

theorem Instr.step_movLoad {s : Cpu} {m n : Reg} (ha : (s.r m).toNat % 4 = 0)
    (hm : s.r m ≠ mmucrAddr) :
    (Instr.movLoad m n).step s = some (s.setReg n (s.mem (cell (s.r m)))) :=
  congrArg (Option.map (s.setReg n)) (Cpu.load_ordinary ha hm)

theorem Instr.step_movStore {s : Cpu} {m n : Reg} (ha : (s.r n).toNat % 4 = 0)
    (hm : s.r n ≠ mmucrAddr) : (Instr.movStore m n).step s =
      some { s with mem := Function.update s.mem (cell (s.r n)) (s.r m) } :=
  Cpu.store_ordinary ha hm _

/-- An access to MMUCR. -/
theorem Instr.step_movLoad_mmucr {s : Cpu} {m n : Reg} (hm : s.r m = mmucrAddr) :
    (Instr.movLoad m n).step s = some (s.setReg n s.mmucr) := by
  show (s.load (s.r m)).map (s.setReg n) = _
  rw [hm]
  rfl

theorem Instr.step_movStore_mmucr {s : Cpu} {m n : Reg} (hm : s.r n = mmucrAddr) :
    (Instr.movStore m n).step s =
      some { s with mmucr := s.r m, mmucrStores := s.mmucrStores ++ [s.r m] } := by
  show s.store (s.r n) (s.r m) = _
  rw [hm]
  rfl

/-- Registers that agree off a list. -/
def SameOff (l : List Reg) (r r' : Reg → Word) : Prop := ∀ i ∉ l, r' i = r i

theorem SameOff.refl (l : List Reg) (r : Reg → Word) : SameOff l r r := fun _ _ => rfl

theorem SameOff.trans {l : List Reg} {r r' r'' : Reg → Word} (h : SameOff l r r')
    (h' : SameOff l r' r'') : SameOff l r r'' := fun i hi => (h' i hi).trans (h i hi)

theorem SameOff.update {l : List Reg} {r r' : Reg → Word} (h : SameOff l r r') {n : Reg}
    (hn : n ∈ l) (v : Word) : SameOff l r (Function.update r' n v) := by
  intro i hi
  have hin : i ≠ n := by
    rintro rfl
    exact hi hn
  rw [Function.update_of_ne hin]
  exact h i hi

def straight (is : List Instr) : List (Line L) := is.map .instr

theorem runBlock_append (is js : List Instr) (s : Cpu) :
    runBlock (is ++ js) s = (runBlock is s).bind (runBlock js) := by
  induction is generalizing s with
  | nil => rfl
  | cons i is ih =>
      simp only [List.cons_append, runBlock]
      cases i.step s with
      | none => rfl
      | some s' => exact ih s'

theorem exec_straight {link : Word} {is : List Instr} {rest : List (Line L)} {s s' : Cpu}
    (h : runBlock is s = some s') :
    exec link none (straight is ++ rest) s = exec link none rest s' := by
  induction is generalizing s with
  | nil =>
      cases h
      rfl
  | cons i is ih =>
      obtain ⟨s₁, hi, his⟩ := Option.bind_eq_some_iff.1 h
      show exec link none (.instr i :: (straight is ++ rest)) s = _
      rw [exec, hi]
      exact ih his

/-- A taken branch runs on past its label. -/
theorem exec_skip {link : Word} {l : L} {is : List Instr} {rest : List (Line L)} {s : Cpu} :
    exec link (some l) (straight is ++ .label l :: rest) s = exec link none rest s := by
  induction is with
  | nil =>
      show exec link (some l) (.label l :: rest) s = _
      rw [exec, if_pos rfl]
  | cons i is ih => exact ih

end Sh4
