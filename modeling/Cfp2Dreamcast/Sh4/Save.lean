import Cfp2Dreamcast.Sh4.Cpu
import Mathlib.Data.List.FinRange
import Mathlib.Data.List.Induction

/-!
# Saving registers on a stack

A stack that grows down from `top` has its `k`-th word at `slot top k`. Pushing
the front FPU bank register by register and popping it in the opposite order
restores it, whatever happened to the bank in between, as long as the slots were
left alone.
-/

namespace Sh4

/-- The address of the `k`-th word of a stack. -/
def slot (top k : ℕ) : Word := BitVec.ofNat 32 (top - 4 * (k + 1))

/-- The stack pointer with `k` words on the stack. -/
def pointer (top k : ℕ) : Word := BitVec.ofNat 32 (top - 4 * k)

/-- A stack of `depth` words: an aligned range of ordinary memory in which no two
words share a cell. -/
structure IsStack (top depth : ℕ) : Prop where
  aligned : top % 4 = 0
  room : 4 * depth < top
  below : top ≤ 0xe0000000
  cell_ne : ∀ j < depth, ∀ k < depth, j ≠ k → cell (slot top j) ≠ cell (slot top k)

section Slots

variable {top depth k : ℕ}

theorem pointer_sub (h : IsStack top depth) (hk : k < depth) :
    pointer top k - 4 = slot top k := by
  have := h.room
  have := h.below
  apply BitVec.eq_of_toNat_eq
  have h4 : BitVec.toNat (4 : Word) = 4 := rfl
  simp only [pointer, slot, BitVec.toNat_sub, BitVec.toNat_ofNat, h4]
  omega

theorem slot_add (h : IsStack top depth) (hk : k < depth) :
    slot top k + 4 = pointer top k := by
  have := h.room
  have := h.below
  apply BitVec.eq_of_toNat_eq
  have h4 : BitVec.toNat (4 : Word) = 4 := rfl
  simp only [pointer, slot, BitVec.toNat_add, BitVec.toNat_ofNat, h4]
  omega

theorem pointer_succ (top k : ℕ) : pointer top (k + 1) = slot top k := rfl

theorem slot_toNat (h : IsStack top depth) (k : ℕ) :
    (slot top k).toNat = top - 4 * (k + 1) := by
  have := h.room
  have := h.below
  simp only [slot, BitVec.toNat_ofNat]
  omega

theorem slot_aligned (h : IsStack top depth) (k : ℕ) :
    (slot top k).toNat % 4 = 0 := by
  have := h.aligned
  have := h.room
  rw [slot_toNat h]
  omega

theorem slot_ne_mmucr (h : IsStack top depth) (k : ℕ) : slot top k ≠ mmucrAddr := by
  intro heq
  have hnat := congrArg BitVec.toNat heq
  have hmmucr : mmucrAddr.toNat = 0xff000010 := rfl
  have := h.below
  rw [slot_toNat h, hmmucr] at hnat
  omega

end Slots

/-- Memory after the words were pushed, the first at slot `k`. -/
def pushWords (top : ℕ) : ℕ → List Word → (ℕ → Word) → ℕ → Word
  | _, [], m => m
  | k, v :: vs, m => pushWords top (k + 1) vs (Function.update m (cell (slot top k)) v)

section PushWords

variable {top depth k : ℕ} {m : ℕ → Word}

theorem pushWords_append (vs ws : List Word) :
    pushWords top k (vs ++ ws) m = pushWords top (k + vs.length) ws (pushWords top k vs m) := by
  induction vs generalizing k m with
  | nil => rfl
  | cons v vs ih =>
      rw [List.cons_append, pushWords, ih, List.length_cons, pushWords]
      congr 1
      omega

theorem pushWords_off {c : ℕ} {vs : List Word}
    (hc : ∀ j < vs.length, cell (slot top (k + j)) ≠ c) : pushWords top k vs m c = m c := by
  induction vs generalizing k m with
  | nil => rfl
  | cons v vs ih =>
      rw [List.length_cons] at hc
      rw [pushWords, ih fun j hj => ?_]
      · exact Function.update_of_ne (fun h => hc 0 (by omega) h.symm) _ _
      · rw [show k + 1 + j = k + (j + 1) by omega]
        exact hc (j + 1) (by omega)

theorem pushWords_slot (h : IsStack top depth) {vs : List Word} (hk : k + vs.length ≤ depth)
    {j : ℕ} (hj : j < vs.length) : pushWords top k vs m (cell (slot top (k + j))) = vs[j] := by
  induction vs generalizing k m j with
  | nil => exact absurd hj (Nat.not_lt_zero j)
  | cons v vs ih =>
      rw [List.length_cons] at hk hj
      rw [pushWords]
      cases j with
      | zero =>
          rw [pushWords_off fun i hi => ?_]
          · exact Function.update_self _ _ _
          · exact h.cell_ne _ (by omega) _ (by omega) (by omega)
      | succ j =>
          rw [show k + (j + 1) = k + 1 + j by omega]
          exact ih (by omega) (by omega)

end PushWords

/-- The front bank after the registers were popped, the first from below the
stack pointer `k`. -/
def popRegs (m : ℕ → Word) (top : ℕ) : ℕ → List Reg → (Reg → Word) → Reg → Word
  | _, [], f => f
  | k, n :: ns, f => popRegs m top (k - 1) ns (Function.update f n (m (cell (slot top (k - 1)))))

/-- Popping in the opposite order restores what was pushed. -/
theorem popRegs_reverse {m : ℕ → Word} {top k : ℕ} {f f₀ : Reg → Word} {regs : List Reg}
    (hm : ∀ j (hj : j < regs.length), m (cell (slot top (k + j))) = f₀ regs[j]) (i : Reg) :
    popRegs m top (k + regs.length) regs.reverse f i = if i ∈ regs then f₀ i else f i := by
  induction regs using List.reverseRecOn generalizing f with
  | nil => rfl
  | append_singleton regs n ih =>
      have hlast := hm regs.length (by simp)
      rw [List.getElem_append_right le_rfl] at hlast
      simp only [Nat.sub_self, List.getElem_cons_zero] at hlast
      have hinit : ∀ j (hj : j < regs.length), m (cell (slot top (k + j))) = f₀ regs[j] := by
        intro j hj
        have h := hm j (by simp; omega)
        rwa [List.getElem_append_left hj] at h
      rw [List.reverse_append, List.length_append, List.length_singleton,
        show [n].reverse ++ regs.reverse = n :: regs.reverse from rfl, popRegs,
        show k + (regs.length + 1) - 1 = k + regs.length by omega, hlast, ih hinit]
      by_cases hi : i ∈ regs
      · simp [hi]
      · by_cases hin : i = n
        · subst hin
          simp [hi]
        · simp [hi, hin]

/-! The instructions. -/

def saveFront (regs : List Reg) : List Instr := regs.map fun m => .fmovStore m 15

def restoreFront (regs : List Reg) : List Instr := regs.map fun n => .fmovLoad 15 n

/-- Save the front bank and then the back bank. -/
def saveBanks (regs : List Reg) : List Instr :=
  saveFront regs ++ .frchg :: (saveFront regs ++ [.frchg])

/-- Restore what `saveBanks` saved. -/
def restoreBanks (regs : List Reg) : List Instr :=
  .frchg :: (restoreFront regs.reverse ++ .frchg :: restoreFront regs.reverse)

/-! Flipping FR twice is nothing, and SZ stays. -/

theorem Fpscr.flipped_flipped (f : Fpscr) : f.flipped.flipped = f := by
  rw [flipped, flipped, BitVec.xor_assoc, BitVec.xor_self, BitVec.xor_zero]

theorem Fpscr.flipped_fr (f : Fpscr) : f.flipped.getLsbD 21 = !f.getLsbD 21 := by
  rw [flipped, BitVec.getLsbD_xor, show BitVec.getLsbD (0x200000 : Fpscr) 21 = true from rfl,
    Bool.xor_true]

theorem Fpscr.flipped_sz (f : Fpscr) : f.flipped.getLsbD 20 = f.getLsbD 20 := by
  rw [flipped, BitVec.getLsbD_xor, show BitVec.getLsbD (0x200000 : Fpscr) 20 = false from rfl,
    Bool.xor_false]

section Blocks

variable {s : Cpu} {top depth k : ℕ}

/-- A push on the stack. -/
theorem push_stack (h : IsStack top depth) (hk : k < depth) (hr : s.r 15 = pointer top k)
    (v : Word) :
    s.push 15 v = some { s with
      r := Function.update s.r 15 (pointer top (k + 1))
      mem := Function.update s.mem (cell (slot top k)) v } := by
  rw [Cpu.push, hr, pointer_sub h hk, Cpu.store, if_pos (slot_aligned h k),
    if_neg (slot_ne_mmucr h k)]
  rfl

/-- A pop from the stack. -/
theorem pop_stack (h : IsStack top depth) (hk : k < depth) (hr : s.r 15 = pointer top (k + 1)) :
    s.pop 15 = some (s.mem (cell (slot top k)),
      { s with r := Function.update s.r 15 (pointer top k) }) := by
  rw [Cpu.pop, hr, pointer_succ, Cpu.load, if_pos (slot_aligned h k),
    if_neg (slot_ne_mmucr h k), slot_add h hk]
  rfl

theorem run_saveFront (h : IsStack top depth) {regs : List Reg} (hfd : s.fd = false)
    (hsz : s.sz = false) (hr : s.r 15 = pointer top k) (hk : k + regs.length ≤ depth) :
    runBlock (saveFront regs) s = some { s with
      r := Function.update s.r 15 (pointer top (k + regs.length))
      mem := pushWords top k (regs.map s.front) s.mem } := by
  induction regs generalizing s k with
  | nil =>
      rw [List.length_nil, Nat.add_zero, ← hr, Function.update_eq_self]
      rfl
  | cons n ns ih =>
      rw [List.length_cons] at hk
      let s₁ : Cpu := { s with
        r := Function.update s.r 15 (pointer top (k + 1))
        mem := Function.update s.mem (cell (slot top k)) (s.front n) }
      have hstep : (Instr.fmovStore n 15).step s = some s₁ := by
        rw [← push_stack h (by omega) hr]
        simp [Instr.step, Instr.isFpu, Instr.run, hfd, hsz]
      have hrest := ih (s := s₁) (k := k + 1) hfd hsz (Function.update_self 15 _ s.r) (by omega)
      show ((Instr.fmovStore n 15).step s).bind (runBlock (saveFront ns)) = _
      rw [hstep, Option.bind_some, hrest]
      simp only [s₁, Function.update_idem, List.length_cons, List.map_cons, pushWords,
        show k + 1 + ns.length = k + (ns.length + 1) by omega]
      rfl

theorem run_restoreFront (h : IsStack top depth) {regs : List Reg} (hfd : s.fd = false)
    (hsz : s.sz = false) (hr : s.r 15 = pointer top (k + regs.length))
    (hk : k + regs.length ≤ depth) :
    runBlock (restoreFront regs) s = some { s with
      r := Function.update s.r 15 (pointer top k)
      bank := Function.update s.bank s.fr
        (popRegs s.mem top (k + regs.length) regs (s.bank s.fr)) } := by
  induction regs generalizing s with
  | nil =>
      rw [List.length_nil, Nat.add_zero] at hr
      simp only [popRegs, Function.update_eq_self, ← hr]
      rfl
  | cons n ns ih =>
      rw [List.length_cons] at hk hr
      let s₁ : Cpu := { s with
        r := Function.update s.r 15 (pointer top (k + ns.length))
        bank := Function.update s.bank s.fr (Function.update (s.bank s.fr) n
          (s.mem (cell (slot top (k + ns.length))))) }
      have hstep : (Instr.fmovLoad 15 n).step s = some s₁ := by
        have hpop := pop_stack (s := s) h (by omega : k + ns.length < depth) hr
        rw [Instr.step, if_neg (by simp [hfd]), Instr.run, if_neg (by simp [hsz]), hpop]
        rfl
      have hrest := ih (s := s₁) hfd hsz (Function.update_self 15 _ s.r) (by omega)
      show ((Instr.fmovLoad 15 n).step s).bind (runBlock (restoreFront ns)) = _
      rw [hstep, Option.bind_some, hrest]
      simp only [s₁, Cpu.fr, Function.update_idem, Function.update_self, List.length_cons,
        popRegs, show k + (ns.length + 1) - 1 = k + ns.length by omega]

theorem step_frchg (hfd : s.fd = false) :
    Instr.frchg.step s = some { s with fpscr := s.fpscr.flipped } := Instr.step_eq_run hfd _

/-- The front bank, a flip, the other bank, and FR as it was. -/
theorem run_saveBanks (h : IsStack top depth) {regs : List Reg} (hfd : s.fd = false)
    (hsz : s.sz = false) (hr : s.r 15 = pointer top k) (hk : k + 2 * regs.length ≤ depth) :
    runBlock (saveBanks regs) s = some { s with
      r := Function.update s.r 15 (pointer top (k + 2 * regs.length))
      mem := pushWords top k
        (regs.map (s.bank s.fr) ++ regs.map (s.bank (!s.fr))) s.mem } := by
  let s₁ : Cpu := { s with
    r := Function.update s.r 15 (pointer top (k + regs.length))
    mem := pushWords top k (regs.map (s.bank s.fr)) s.mem }
  let s₂ : Cpu := { s₁ with fpscr := s.fpscr.flipped }
  let s₃ : Cpu := { s₂ with
    r := Function.update s₂.r 15 (pointer top (k + regs.length + regs.length))
    mem := pushWords top (k + regs.length) (regs.map s₂.front) s₂.mem }
  have hsave : runBlock (saveFront regs) s = some s₁ := run_saveFront h hfd hsz hr (by omega)
  have hback : runBlock (saveFront regs) s₂ = some s₃ :=
    run_saveFront h hfd ((Fpscr.flipped_sz s.fpscr).trans hsz) (Function.update_self 15 _ s.r)
      (by omega)
  have hfront : s₂.front = s.bank (!s.fr) := by
    funext n
    rw [← show s₂.fr = !s.fr from Fpscr.flipped_fr s.fpscr]
    rfl
  rw [saveBanks, runBlock_append, hsave, Option.bind_some]
  refine run_cons (step_frchg hfd) ?_
  rw [runBlock_append, hback, Option.bind_some]
  refine run_cons (step_frchg hfd) ?_
  rw [runBlock, pushWords_append, List.length_map]
  simp only [s₃, s₂, s₁, hfront, Fpscr.flipped_flipped, Function.update_idem, Nat.two_mul,
    Nat.add_assoc]

/-- The other bank comes back first, and both hold what is on the stack. -/
theorem run_restoreBanks (h : IsStack top depth) {regs : List Reg} (hfd : s.fd = false)
    (hsz : s.sz = false) (hr : s.r 15 = pointer top (k + 2 * regs.length))
    (hk : k + 2 * regs.length ≤ depth) (hall : ∀ i, i ∈ regs) {saved : Bool → Reg → Word}
    (hfront : ∀ j (hj : j < regs.length), s.mem (cell (slot top (k + j))) = saved s.fr regs[j])
    (hback : ∀ j (hj : j < regs.length),
      s.mem (cell (slot top (k + regs.length + j))) = saved (!s.fr) regs[j]) :
    runBlock (restoreBanks regs) s = some { s with
      r := Function.update s.r 15 (pointer top k), bank := saved } := by
  have hlen : regs.reverse.length = regs.length := List.length_reverse
  have hfull (f : Reg → Word) (b : Bool) (j : ℕ) (hm : ∀ i (hi : i < regs.length),
      s.mem (cell (slot top (j + i))) = saved b regs[i]) :
      popRegs s.mem top (j + regs.reverse.length) regs.reverse f = saved b := by
    funext i
    rw [hlen, popRegs_reverse hm, if_pos (hall i)]
  let s₁ : Cpu := { s with fpscr := s.fpscr.flipped }
  let s₂ : Cpu := { s₁ with
    r := Function.update s.r 15 (pointer top (k + regs.length))
    bank := Function.update s.bank s₁.fr (popRegs s.mem top
      (k + regs.length + regs.reverse.length) regs.reverse (s.bank s₁.fr)) }
  let s₃ : Cpu := { s₂ with fpscr := s.fpscr.flipped.flipped }
  have hfr : s₁.fr = !s.fr := Fpscr.flipped_fr s.fpscr
  have hother : runBlock (restoreFront regs.reverse) s₁ = some s₂ :=
    run_restoreFront h hfd ((Fpscr.flipped_sz s.fpscr).trans hsz)
      (hr.trans (by rw [hlen, Nat.two_mul, Nat.add_assoc])) (by omega)
  have hr₃ : s₃.r 15 = pointer top (k + regs.reverse.length) := by
    rw [hlen]
    exact Function.update_self 15 _ s.r
  have hlast := run_restoreFront h (s := s₃) hfd
    (by rw [← hsz]; exact congrArg (BitVec.getLsbD · 20) (Fpscr.flipped_flipped s.fpscr))
    hr₃ (by omega)
  refine run_cons (step_frchg hfd) ?_
  rw [runBlock_append, hother, Option.bind_some]
  refine run_cons (step_frchg hfd) ?_
  have hfr₃ : s₃.fr = s.fr := congrArg (BitVec.getLsbD · 21) (Fpscr.flipped_flipped s.fpscr)
  have hbank : Function.update s₂.bank s₃.fr (popRegs s.mem top (k + regs.reverse.length)
      regs.reverse (s₂.bank s₃.fr)) = saved := by
    funext b
    by_cases hb : b = s.fr
    · rw [hb, hfr₃, Function.update_self, hfull _ s.fr k hfront]
    · have hb' : b = !s.fr := Bool.eq_not_of_ne hb
      rw [hfr₃, Function.update_of_ne hb, hb', ← hfr]
      exact (Function.update_self s₁.fr _ s.bank).trans
        (hfull _ s₁.fr (k + regs.length) (by rw [hfr]; exact hback))
  rw [hlast]
  show some { s with
    r := Function.update (Function.update s.r 15 _) 15 (pointer top k)
    bank := Function.update s₂.bank s₃.fr _, fpscr := s.fpscr.flipped.flipped } = _
  rw [hbank, Fpscr.flipped_flipped, Function.update_idem]

end Blocks

end Sh4
