import Cfp2Dreamcast.Gdc.Wrapper

/-!
# The GD syscall wrapper is transparent

One lemma for each block of `_gdc_call`, then the run up to the call and the run
from the callee's return. The backend is arbitrary code that keeps the calling
convention and the wrapper's own words.
-/

namespace Cfp2Dreamcast

open Sh4

/-- The registers that the wrapper uses before the call, and after it. -/
def scratch : List Reg := [0, 1, 2, 3, 15]
def returnScratch : List Reg := [1, 2, 3, 15]

theorem not_mem_scratch : ∀ i : Reg, 4 ≤ i → i ≠ 15 → i ∉ scratch := by decide

theorem not_mem_returnScratch : ∀ i : Reg, 4 ≤ i → i ≠ 15 → i ∉ returnScratch := by decide

section Blocks

variable {lk : Link} {s : Cpu}

theorem run_enter (h : Entry lk s) : ∃ r, SameOff scratch s.r r ∧ r 15 = pointer gdStackTop 2 ∧
    runBlock (enter lk) s = some { s with
      r := r, fpscr := fpscrKos.setWidth 22
      mem := pushWords gdStackTop 0 [s.fpscr.setWidth 32, s.fpul]
        (Function.update (Function.update s.mem (cell (s.r 15 - 4)) s.pr)
          (cell lk.savedSp) (s.r 15 - 4)) } := by
  obtain ⟨hal, hord, -⟩ := lk.savedSp_spec
  let s₁ : Cpu := { s with
    r := Function.update s.r 15 (s.r 15 - 4)
    mem := Function.update s.mem (cell (s.r 15 - 4)) s.pr }
  let s₂ : Cpu := { s₁ with
    r := Function.update (Function.update s₁.r 0 lk.savedSp) 15 stackTop
    mem := Function.update s₁.mem (cell lk.savedSp) (s.r 15 - 4) }
  let s₃ : Cpu := { s₂ with
    r := Function.update s₂.r 15 (pointer gdStackTop 1)
    mem := Function.update s₂.mem (cell (slot gdStackTop 0)) (s.fpscr.setWidth 32) }
  let s₄ : Cpu := { s₃ with
    r := Function.update s₃.r 15 (pointer gdStackTop 2)
    mem := Function.update s₃.mem (cell (slot gdStackTop 1)) s.fpul }
  have hpr : (Instr.stsPr 15).step s = some s₁ := by
    rw [Instr.step_eq_run h.fpu, Instr.run, Cpu.push, Cpu.store_ordinary h.aligned h.ordinary]
    rfl
  have hfpscr : (Instr.stsFpscr 15).step s₂ = some s₃ :=
    (Instr.step_eq_run (s := s₂) h.fpu _).trans
      (push_stack gdStack (by decide : 0 < 34) rfl _)
  have hfpul : (Instr.stsFpul 15).step s₃ = some s₄ :=
    (Instr.step_eq_run (s := s₃) h.fpu _).trans
      (push_stack gdStack (by decide : 1 < 34) rfl _)
  have hlds (r : Reg → Word) : (Instr.ldsRegFpscr 1).step { s₄ with r := r } =
      some { s₄ with r := r, fpscr := (r 1).setWidth 22 } :=
    Instr.step_eq_run (s := { s₄ with r := r }) h.fpu _
  refine ⟨Function.update s₄.r 1 fpscrKos, ?_, rfl, ?_⟩
  · repeat refine SameOff.update ?_ (by decide) _
    exact SameOff.refl _ s.r
  · refine run_cons hpr (run_cons rfl ?_)
    refine run_cons (Cpu.store_ordinary hal hord _) (run_cons rfl ?_)
    exact run_cons hfpscr (run_cons hfpul (run_cons rfl (run_cons (hlds _) rfl)))

/-- The probe's verdict from its two signatures. -/
theorem probe_gate (s : Cpu) :
    ((if decide (s.mem (cell vec2) + BitVec.signExtend 32 (-8 : BitVec 8) = s.mem (cell vec))
      then (1 : Word) else 0) ||| (if decide (biosTop ≤ offMask &&& s.mem (cell vec))
        then 1 else 0)) = if Gate s then 1 else 0 := by
  have h8 : s.mem (cell vec2) + BitVec.signExtend 32 (-8 : BitVec 8) =
      s.mem (cell vec2) - 8 := by
    rw [BitVec.sub_eq_add_neg]
    exact congrArg (s.mem (cell vec2) + ·) (by decide)
  rw [h8, BitVec.and_comm]
  have hor (p q : Prop) [Decidable p] [Decidable q] :
      (if decide p then (1 : Word) else 0) ||| (if decide q then 1 else 0) =
        if p ∨ q then 1 else 0 := by
    by_cases hp : p <;> by_cases hq : q <;> simp [hp, hq]
  exact hor _ _

/-- The probe leaves its verdict in `_gdc_mmu_gate` and, negated, in T. -/
theorem run_probe (lk : Link) (s : Cpu) : ∃ r, SameOff scratch s.r r ∧ r 15 = s.r 15 ∧
    runBlock (probe lk) s = some { s with
      r := r, t := !decide (Gate s)
      mem := Function.update s.mem (cell lk.mmuGate) (if Gate s then 1 else 0) } := by
  obtain ⟨hal, hord, -⟩ := lk.mmuGate_spec
  have hvec : vec.toNat % 4 = 0 ∧ vec ≠ mmucrAddr := by decide
  have hvec2 : vec2.toNat % 4 = 0 ∧ vec2 ≠ mmucrAddr := by decide
  have ht : (!decide (Gate s)) =
      decide ((if Gate s then (1 : Word) else 0) &&& (if Gate s then 1 else 0) = 0) := by
    split_ifs with hg <;> simp [hg]
  rw [ht, ← probe_gate]
  -- T stays a variable below: unifying with the comparison would evaluate it
  obtain ⟨pair, hpair⟩ : ∃ pair, pair = decide (s.mem (cell vec2) +
    BitVec.signExtend 32 (-8 : BitVec 8) = s.mem (cell vec)) := ⟨_, rfl⟩
  obtain ⟨above, habove⟩ : ∃ above, above = decide (biosTop ≤ offMask &&& s.mem (cell vec)) :=
    ⟨_, rfl⟩
  rw [← hpair, ← habove]
  let r₁ := Function.update (Function.update (Function.update (Function.update (Function.update
    s.r 1 vec) 2 (s.mem (cell vec))) 1 vec2) 1 (s.mem (cell vec2)))
    1 (s.mem (cell vec2) + BitVec.signExtend 32 (-8 : BitVec 8))
  let r₂ := Function.update (Function.update (Function.update (Function.update r₁
    3 (if pair then 1 else 0)) 1 offMask) 1 (offMask &&& s.mem (cell vec))) 2 biosTop
  let r₃ := Function.update (Function.update (Function.update r₂ 1 (if above then 1 else 0))
    3 ((if pair then 1 else 0) ||| (if above then 1 else 0))) 2 lk.mmuGate
  have hcmpEq : (Instr.cmpEq 2 1).step { s with r := r₁ } =
      some { s with r := r₁, t := pair } := by
    rw [hpair]
    rfl
  have hcmpHs : (Instr.cmpHs 2 1).step { s with r := r₂, t := pair } =
      some { s with r := r₂, t := above } := by
    rw [habove]
    rfl
  refine ⟨r₃, ?_, rfl, ?_⟩
  · repeat refine SameOff.update ?_ (by decide) _
    exact SameOff.refl _ s.r
  · refine run_cons rfl (run_cons (Instr.step_movLoad (by exact hvec.1) (by exact hvec.2)) ?_)
    refine run_cons rfl (run_cons (Instr.step_movLoad (by exact hvec2.1) (by exact hvec2.2)) ?_)
    refine run_cons rfl (run_cons hcmpEq ?_)
    refine run_cons rfl (run_cons rfl (run_cons rfl (run_cons rfl (run_cons hcmpHs ?_))))
    refine run_cons rfl (run_cons rfl (run_cons rfl ?_))
    exact run_cons (Instr.step_movStore (by exact hal) (by exact hord)) (run_cons rfl rfl)

/-- The game's MMUCR is saved, and MMUCR cleared. -/
theorem run_clearMmucr (lk : Link) (s : Cpu) : ∃ r, SameOff scratch s.r r ∧ r 15 = s.r 15 ∧
    runBlock (clearMmucr lk) s = some { s with
      r := r, mem := Function.update s.mem (cell lk.savedMmucr) s.mmucr
      mmucr := 0, mmucrStores := s.mmucrStores ++ [0] } := by
  obtain ⟨hal, hord, -⟩ := lk.savedMmucr_spec
  let r₁ := Function.update (Function.update (Function.update s.r 1 mmucrAddr) 2 s.mmucr)
    3 lk.savedMmucr
  refine ⟨Function.update r₁ 2 0, ?_, rfl, ?_⟩
  · repeat refine SameOff.update ?_ (by decide) _
    exact SameOff.refl _ s.r
  · refine run_cons rfl (run_cons (Instr.step_movLoad_mmucr (by exact rfl)) (run_cons rfl ?_))
    refine run_cons (Instr.step_movStore (by exact hal) (by exact hord)) (run_cons rfl ?_)
    exact run_cons (Instr.step_movStore_mmucr (by exact rfl)) rfl

/-- MMUCR is cleared under the gate. -/
theorem exec_clearMmucr (lk : Link) {g : Prop} [Decidable g] (ht : s.t = !decide g)
    (rest : List (Line Label)) : ∃ r, SameOff scratch s.r r ∧ r 15 = s.r 15 ∧
    exec lk.ret none (.bt .mmuSkipClear :: (straight (clearMmucr lk) ++
      .label .mmuSkipClear :: rest)) s = exec lk.ret none rest { s with
        r := r, mem := if g then Function.update s.mem (cell lk.savedMmucr) s.mmucr else s.mem
        mmucr := if g then 0 else s.mmucr
        mmucrStores := if g then s.mmucrStores ++ [0] else s.mmucrStores } := by
  by_cases hg : g
  · obtain ⟨r, hargs, hsp, hclear⟩ := run_clearMmucr lk s
    refine ⟨r, hargs, hsp, ?_⟩
    have hbt : ¬s.t = true := by simp [ht, hg]
    rw [exec, if_neg hbt, exec_straight hclear, exec]
    simp only [hg, if_true]
  · refine ⟨s.r, SameOff.refl _ s.r, rfl, ?_⟩
    have hbt : s.t = true := by simp [ht, hg]
    rw [exec, if_pos hbt, exec_skip]
    simp only [hg, if_false]

/-- The call through the live vector. -/
theorem exec_vector (lk : Link) (s : Cpu) : ∃ r, SameOff scratch s.r r ∧ r 15 = s.r 15 ∧
    exec lk.ret none (straight [.movLit vec 0, .movLoad 0 0] ++ .jsr 0 .nop :: gdcReturn lk) s =
      .call (s.mem (cell vec)) { s with r := r, pr := lk.ret } (gdcReturn lk) := by
  have hvec : vec.toNat % 4 = 0 ∧ vec ≠ mmucrAddr := by decide
  refine ⟨Function.update (Function.update s.r 0 vec) 0 (s.mem (cell vec)), ?_, rfl, ?_⟩
  · repeat refine SameOff.update ?_ (by decide) _
    exact SameOff.refl _ s.r
  · rw [exec_straight (run_cons rfl
      (run_cons (Instr.step_movLoad (by exact hvec.1) (by exact hvec.2)) rfl)), exec]
    rfl

/-- Single moves, and bank 0 in front. -/
theorem fpscrKos_sz : (BitVec.setWidth 22 fpscrKos).getLsbD 20 = false := by decide

theorem fpscrKos_fr : (BitVec.setWidth 22 fpscrKos).getLsbD 21 = false := by decide

/-- From the entry to the call. -/
theorem exec_gdcCall (h : Entry lk s) : ∃ r, SameOff scratch s.r r ∧
    r 15 = pointer gdStackTop 34 ∧
    exec lk.ret none (gdcCall lk) s = .call (s.mem (cell vec)) { s with
      r := r, pr := lk.ret, t := !decide (Gate s), fpscr := fpscrKos.setWidth 22
      mem := calleeMem lk s, mmucr := if Gate s then 0 else s.mmucr
      mmucrStores := if Gate s then s.mmucrStores ++ [0] else s.mmucrStores }
      (gdcReturn lk) := by
  obtain ⟨r₁, hargs₁, hsp₁, henter⟩ := run_enter h
  let s₂ : Cpu := { s with
    r := Function.update r₁ 15 (pointer gdStackTop 34), fpscr := fpscrKos.setWidth 22
    mem := savedMem lk s }
  have hbanks : runBlock (saveBanks allRegs) { s with
      r := r₁, fpscr := fpscrKos.setWidth 22
      mem := pushWords gdStackTop 0 [s.fpscr.setWidth 32, s.fpul]
        (Function.update (Function.update s.mem (cell (s.r 15 - 4)) s.pr)
          (cell lk.savedSp) (s.r 15 - 4)) } = some s₂ := by
    rw [run_saveBanks gdStack (by exact h.fpu) (by exact fpscrKos_sz) hsp₁ (by decide)]
    simp only [s₂, savedMem, savedWords, pushWords_append, Cpu.fr, fpscrKos_fr]
    rfl
  have hfree := h.free
  rw [List.mem_cons, List.mem_cons] at hfree
  push Not at hfree
  have hvec : cell vec < 0x0cfc0000 := by decide
  have hvec2 : cell vec2 < 0x0cfc0000 := by decide
  obtain ⟨r₃, hargs₃, hsp₃, hprobe⟩ := run_probe lk s₂
  have hgate : Gate s₂ ↔ Gate s := by
    rw [Gate, Gate, show s₂.mem = savedMem lk s from rfl,
      savedMem_off hfree.1.symm (vec_off hvec), savedMem_off hfree.2.1.symm (vec_off hvec2)]
  have hcallee : calleeMem lk s (cell vec) = s.mem (cell vec) :=
    calleeMem_off hfree.1.symm (vec_off hvec)
  have hmem : (if Gate s then Function.update (Function.update s₂.mem (cell lk.mmuGate)
      (if Gate s then 1 else 0)) (cell lk.savedMmucr) s.mmucr else
      Function.update s₂.mem (cell lk.mmuGate) (if Gate s then 1 else 0)) = calleeMem lk s := rfl
  obtain ⟨r₄, hargs₄, hsp₄, hclear⟩ := exec_clearMmucr (s := { s₂ with
      r := r₃, t := !decide (Gate s)
      mem := Function.update s₂.mem (cell lk.mmuGate) (if Gate s then 1 else 0) })
    lk rfl (straight [.movLit vec 0, .movLoad 0 0] ++ .jsr 0 .nop :: gdcReturn lk)
  obtain ⟨r₅, hargs₅, hsp₅, hcall⟩ := exec_vector lk { s₂ with
    r := r₄, t := !decide (Gate s), mem := calleeMem lk s
    mmucr := if Gate s then 0 else s.mmucr
    mmucrStores := if Gate s then s.mmucrStores ++ [0] else s.mmucrStores }
  refine ⟨r₅, ?_, ?_, ?_⟩
  · exact (((hargs₁.update (by decide) _).trans hargs₃).trans hargs₄).trans hargs₅
  · exact ((hsp₅.trans hsp₄).trans hsp₃).trans
      (Function.update_self 15 (pointer gdStackTop 34) r₁)
  · rw [gdcCall, exec_straight ((runBlock_append _ _ s).trans (by
      rw [henter, Option.bind_some, runBlock_append, hbanks, Option.bind_some, hprobe]))]
    simp only [hgate]
    rw [hclear]
    refine hcall.trans ?_
    rw [← hcallee]

/-- The latched verdict, negated, in T again. -/
theorem run_reload {g : Prop} [Decidable g] (hg : s.mem (cell lk.mmuGate) = if g then 1 else 0) :
    ∃ r, SameOff returnScratch s.r r ∧ r 15 = s.r 15 ∧
      runBlock (reload lk) s = some { s with r := r, t := !decide g } := by
  obtain ⟨hal, hord, -⟩ := lk.mmuGate_spec
  have ht : (!decide g) = decide (s.mem (cell lk.mmuGate) &&& s.mem (cell lk.mmuGate) = 0) := by
    rw [hg]
    split_ifs with h <;> simp [h]
  refine ⟨Function.update (Function.update s.r 1 lk.mmuGate) 1 (s.mem (cell lk.mmuGate)),
    ?_, rfl, ?_⟩
  · repeat refine SameOff.update ?_ (by decide) _
    exact SameOff.refl _ s.r
  · rw [ht]
    exact run_cons rfl (run_cons (Instr.step_movLoad (by exact hal) (by exact hord))
      (run_cons rfl rfl))

theorem run_restoreMmucr (lk : Link) (s : Cpu) :
    ∃ r, SameOff returnScratch s.r r ∧ r 15 = s.r 15 ∧
      runBlock (restoreMmucr lk) s = some { s with
        r := r, mmucr := s.mem (cell lk.savedMmucr)
        mmucrStores := s.mmucrStores ++ [s.mem (cell lk.savedMmucr)] } := by
  obtain ⟨hal, hord, -⟩ := lk.savedMmucr_spec
  refine ⟨Function.update (Function.update (Function.update s.r 3 lk.savedMmucr)
    2 (s.mem (cell lk.savedMmucr))) 1 mmucrAddr, ?_, rfl, ?_⟩
  · repeat refine SameOff.update ?_ (by decide) _
    exact SameOff.refl _ s.r
  · refine run_cons rfl (run_cons (Instr.step_movLoad (by exact hal) (by exact hord)) ?_)
    exact run_cons rfl (run_cons (Instr.step_movStore_mmucr (by exact rfl)) rfl)

/-- The game's MMUCR is put back under the gate. -/
theorem exec_restoreMmucr (lk : Link) {g : Prop} [Decidable g] (ht : s.t = !decide g)
    (rest : List (Line Label)) : ∃ r, SameOff returnScratch s.r r ∧ r 15 = s.r 15 ∧
    exec lk.ret none (.bt .mmuSkipRestore :: (straight (restoreMmucr lk) ++
      .label .mmuSkipRestore :: rest)) s = exec lk.ret none rest { s with
        r := r, mmucr := if g then s.mem (cell lk.savedMmucr) else s.mmucr
        mmucrStores := if g then s.mmucrStores ++ [s.mem (cell lk.savedMmucr)]
          else s.mmucrStores } := by
  by_cases hg : g
  · obtain ⟨r, hoff, hsp, hrestore⟩ := run_restoreMmucr lk s
    have hbt : ¬s.t = true := by simp [ht, hg]
    refine ⟨r, hoff, hsp, ?_⟩
    rw [exec, if_neg hbt, exec_straight hrestore, exec]
    simp only [hg, if_true]
  · have hbt : s.t = true := by simp [ht, hg]
    refine ⟨s.r, SameOff.refl _ s.r, rfl, ?_⟩
    rw [exec, if_pos hbt, exec_skip]
    simp only [hg, if_false]

/-- The words of the context by their slots. -/
theorem Saved.bank {m : ℕ → Word} (h : Saved lk s m) {j : ℕ} (hj : j < allRegs.length) :
    m (cell (slot gdStackTop (2 + j))) = s.bank false allRegs[j] ∧
      m (cell (slot gdStackTop (2 + allRegs.length + j))) = s.bank true allRegs[j] := by
  have hlen : allRegs.length = 16 := List.length_finRange
  rw [h.words (2 + j) (by rw [savedWords_length]; omega),
    h.words (2 + allRegs.length + j) (by rw [savedWords_length]; omega)]
  simp only [savedWords]
  constructor
  · rw [List.getElem_append_right (Nat.le_add_right 2 j),
      List.getElem_append_left (by simp [hlen]; omega), List.getElem_map]
    simp
  · rw [List.getElem_append_right (show 2 ≤ 2 + allRegs.length + j by omega),
      List.getElem_append_right (by simp; omega), List.getElem_map]
    congr 2
    simp
    omega

/-- FPUL, FPSCR, the caller's stack and PR come back. -/
theorem run_leave {c : Cpu} (h : Saved lk s c.mem) (hentry : Entry lk s)
    (hfd : c.fd = false) (hsp : c.r 15 = pointer gdStackTop 2) :
    ∃ r, SameOff returnScratch c.r r ∧ r 15 = s.r 15 ∧ runBlock (leave lk) c = some { c with
      r := r, pr := s.pr, fpscr := s.fpscr, fpul := s.fpul } := by
  obtain ⟨hal, hord, -⟩ := lk.savedSp_spec
  let c₁ : Cpu := { c with
    r := Function.update c.r 15 (pointer gdStackTop 1), fpul := s.fpul }
  let c₂ : Cpu := { c₁ with
    r := Function.update c₁.r 15 (pointer gdStackTop 0), fpscr := s.fpscr }
  let c₃ : Cpu := { c₂ with
    r := Function.update (Function.update c₂.r 1 lk.savedSp) 15 (s.r 15 - 4) }
  have hfpul : (Instr.ldsFpul 15).step c = some c₁ := by
    have hword : c.mem (cell (slot gdStackTop 1)) = s.fpul :=
      h.words 1 (by rw [savedWords_length]; decide)
    rw [Instr.step_eq_run hfd, Instr.run, pop_stack gdStack (by decide : 1 < 34) hsp, hword]
    rfl
  have hfpscr : (Instr.ldsFpscr 15).step c₁ = some c₂ := by
    have hword : c₁.mem (cell (slot gdStackTop 0)) = s.fpscr.setWidth 32 :=
      h.words 0 (by rw [savedWords_length]; decide)
    rw [Instr.step_eq_run (s := c₁) hfd, Instr.run,
      pop_stack gdStack (by decide : 0 < 34) (Function.update_self 15 _ c.r), hword]
    simp [c₂]
  have hsavedSp : (Instr.movLoad 1 15).step { c₂ with
      r := Function.update c₂.r 1 lk.savedSp } = some c₃ := by
    rw [Instr.step_movLoad (by exact hal) (by exact hord)]
    exact congrArg (fun v => some { c₂ with
      r := Function.update (Function.update c₂.r 1 lk.savedSp) 15 v }) h.sp
  have hpr : (Instr.ldsPr 15).step c₃ = some { c₃ with
      r := Function.update c₃.r 15 (s.r 15), pr := s.pr } := by
    have hload : c₃.load (c₃.r 15) = some s.pr :=
      (Cpu.load_ordinary hentry.aligned hentry.ordinary).trans (congrArg some h.pr)
    have hsp₃ : c₃.r 15 + 4 = s.r 15 := BitVec.sub_add_cancel (s.r 15) 4
    show (c₃.pop 15).map _ = _
    rw [Cpu.pop, hload, hsp₃]
    rfl
  refine ⟨Function.update c₃.r 15 (s.r 15), ?_, Function.update_self 15 _ c₃.r, ?_⟩
  · repeat refine SameOff.update ?_ (by decide) _
    exact SameOff.refl _ c.r
  · exact run_cons hfpul (run_cons hfpscr (run_cons rfl (run_cons hsavedSp (run_cons hpr rfl))))

/-- From the callee's return to the caller's. -/
theorem exec_gdcReturn {c : Cpu} (h : Saved lk s c.mem) (hentry : Entry lk s)
    (hfd : c.fd = false) (hsp : c.r 15 = pointer gdStackTop 34) :
    ∃ r, SameOff returnScratch c.r r ∧ r 15 = s.r 15 ∧
    exec lk.ret none (gdcReturn lk) c = .ret s.pr { c with
      r := r, pr := s.pr, t := !decide (Gate s), fpscr := s.fpscr, fpul := s.fpul
      bank := s.bank, mmucr := if Gate s then s.mmucr else c.mmucr
      mmucrStores := if Gate s then c.mmucrStores ++ [s.mmucr] else c.mmucrStores } := by
  obtain ⟨r₁, hoff₁, hsp₁, hreload⟩ := run_reload h.gate
  obtain ⟨r₂, hoff₂, hsp₂, hmmucr⟩ := exec_restoreMmucr (s := { c with
    r := r₁, t := !decide (Gate s) }) lk rfl
    (straight ([.movLit fpscrKos 1, .ldsRegFpscr 1] ++ (restoreBanks allRegs ++ leave lk)) ++
      [.rts .nop])
  have hrestored : (if Gate s then c.mem (cell lk.savedMmucr) else c.mmucr) =
      if Gate s then s.mmucr else c.mmucr :=
    ite_congr rfl (fun hg => h.mmucr hg) fun _ => rfl
  have hstores : (if Gate s then c.mmucrStores ++ [c.mem (cell lk.savedMmucr)]
      else c.mmucrStores) = if Gate s then c.mmucrStores ++ [s.mmucr] else c.mmucrStores :=
    ite_congr rfl (fun hg => by rw [h.mmucr hg]) fun _ => rfl
  let c₃ : Cpu := { c with
    r := Function.update r₂ 1 fpscrKos, t := !decide (Gate s), fpscr := fpscrKos.setWidth 22
    mmucr := if Gate s then s.mmucr else c.mmucr
    mmucrStores := if Gate s then c.mmucrStores ++ [s.mmucr] else c.mmucrStores }
  let c₄ : Cpu := { c₃ with
    r := Function.update c₃.r 15 (pointer gdStackTop 2), bank := s.bank }
  have hsp₃ : c₃.r 15 = pointer gdStackTop 34 := (hsp₂.trans hsp₁).trans hsp
  have hbanks : runBlock (restoreBanks allRegs) c₃ = some c₄ := by
    refine run_restoreBanks (s := c₃) (k := 2) gdStack hfd fpscrKos_sz (by exact hsp₃)
      (by decide) List.mem_finRange ?_ ?_
    · intro j hj
      rw [show c₃.fr = false from fpscrKos_fr]
      exact (h.bank hj).1
    · intro j hj
      rw [show c₃.fr = false from fpscrKos_fr]
      exact (h.bank hj).2
  obtain ⟨r₅, hoff₅, hsp₅, hleave⟩ := run_leave (c := c₄) h hentry hfd
    (Function.update_self 15 _ c₃.r)
  refine ⟨r₅, ?_, hsp₅, ?_⟩
  · exact ((((hoff₁.trans hoff₂).update (by decide) _).update (by decide) _).trans hoff₅)
  · rw [gdcReturn, exec_straight hreload, hmmucr, hrestored, hstores]
    have hmode : runBlock [.movLit fpscrKos 1, .ldsRegFpscr 1] { c with
        r := r₂, t := !decide (Gate s), mmucr := if Gate s then s.mmucr else c.mmucr
        mmucrStores := if Gate s then c.mmucrStores ++ [s.mmucr] else c.mmucrStores } =
        some c₃ := run_cons rfl (run_cons (Instr.step_eq_run (by exact hfd) _) rfl)
    rw [exec_straight ((runBlock_append _ _ _).trans (by
      rw [hmode, Option.bind_some, runBlock_append, hbanks, Option.bind_some, hleave]))]
    rfl

end Blocks

/-- The callee is called through the live vector with the caller's arguments, on
the private stack below the saved context, in the backend's FPU mode and with the
MMU off under the gate. Whatever it does, its result reaches a caller whose stack,
saved registers and FPU state are as they were; under the gate so is MMUCR, and
otherwise the wrapper does not store to MMUCR. -/
theorem gdcCall_transparent (lk : Link) (s : Cpu) (h : Entry lk s) :
    ∃ e rest, exec lk.ret none (gdcCall lk) s = .call (s.mem (cell vec)) e rest ∧
      (∀ i, 4 ≤ i → i < 8 → e.r i = s.r i) ∧ e.r 15 = pointer gdStackTop 34 ∧
      Saved lk s e.mem ∧ e.fd = false ∧ e.fpscr = fpscrKos.setWidth 22 ∧
      e.mmucr = (if Gate s then 0 else s.mmucr) ∧
      e.mmucrStores = (if Gate s then s.mmucrStores ++ [0] else s.mmucrStores) ∧
      ∀ c, Returns lk s e c → ∃ f, exec lk.ret none rest c = .ret s.pr f ∧
        f.r 0 = c.r 0 ∧ (∀ i, 8 ≤ i → f.r i = s.r i) ∧ f.pr = s.pr ∧
        f.bank = s.bank ∧ f.fpscr = s.fpscr ∧ f.fpul = s.fpul ∧
        f.mmucr = (if Gate s then s.mmucr else c.mmucr) ∧
        f.mmucrStores = (if Gate s then c.mmucrStores ++ [s.mmucr] else c.mmucrStores) := by
  obtain ⟨r, hoff, hsp, hcall⟩ := exec_gdcCall h
  refine ⟨_, _, hcall, fun i hlo hhi => hoff i (not_mem_scratch i hlo ?_), hsp,
    saved_calleeMem h, h.fpu, rfl, rfl, rfl, fun c hc => ?_⟩
  · rintro rfl
    exact absurd hhi (by decide)
  · obtain ⟨r', hoff', hsp', hret⟩ := exec_gdcReturn (hc.saved (saved_calleeMem h)) h hc.fpu
      ((hc.regs 15 (by decide)).trans hsp)
    refine ⟨_, hret, hoff' 0 (by decide), fun i hi => ?_, rfl, rfl, rfl, rfl, rfl, rfl⟩
    by_cases h15 : i = 15
    · rw [h15]
      exact hsp'
    · have hlo : (4 : Reg) ≤ i := le_trans (by decide) hi
      exact (hoff' i (not_mem_returnScratch i hlo h15)).trans
        ((hc.regs i hi).trans (hoff i (not_mem_scratch i hlo h15)))

def sampleLink : Link where
  data := 0x8cfc1000
  ret := 0x8cfc0100
  aligned := rfl
  low := by decide
  high := by decide

/-- A game that runs with the MMU on, before a backend of two adjacent stubs. -/
def sampleCpu : Cpu where
  r _ := 0x8c00f400
  pr := 0x8c010000
  t := false
  fd := false
  fpscr := 0x240001
  fpul := 9
  bank b n := if b then 0x3f800000 else BitVec.ofNat 32 n
  mem x := if x = cell vec then 0x8ce00000 else if x = cell vec2 then 0x8ce00008 else 0
  mmucr := 1
  mmucrStores := []

theorem gdcCall_transparent_sample : ∃ e rest,
    exec sampleLink.ret none (gdcCall sampleLink) sampleCpu = .call 0x8ce00000 e rest ∧
      e.mmucr = 0 ∧ ∃ f, exec sampleLink.ret none rest { e with
        r := Function.update e.r 0 7, fpscr := 0x100000, bank := fun _ _ => 0, mmucr := 5 } =
          .ret 0x8c010000 f ∧
        f.r 0 = 7 ∧ f.bank = sampleCpu.bank ∧ f.fpscr = 0x240001 ∧ f.mmucr = 1 := by
  have hentry : Entry sampleLink sampleCpu :=
    ⟨rfl, by decide, by decide, by decide⟩
  have hgate : Gate sampleCpu := by decide
  obtain ⟨e, rest, hcall, -, -, -, hfd, -, hmmucr, -, hreturns⟩ :=
    gdcCall_transparent sampleLink sampleCpu hentry
  obtain ⟨f, hret, hr0, -, -, hbank, hfpscr, -, hmmucr', -⟩ := hreturns { e with
    r := Function.update e.r 0 7, fpscr := 0x100000, bank := fun _ _ => 0, mmucr := 5 }
    ⟨fun i hi => Function.update_of_ne (by rintro rfl; exact absurd hi (by decide)) _ _,
      fun _ _ => rfl, hfd⟩
  rw [if_pos hgate] at hmmucr hmmucr'
  exact ⟨e, rest, hcall, hmmucr, f, hret, hr0, hbank, hfpscr, hmmucr'⟩

end Cfp2Dreamcast
