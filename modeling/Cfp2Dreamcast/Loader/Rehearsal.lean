import Cfp2Dreamcast.Cart.Progress

/-!
# The rehearsal of the loader

`sysrd_test` reads one sector the way the shim will, before the game has run. It is one
attempt of the shim's read without its tolerance: a lost request fails at once, and the
poll gives up instead of dying. So it never accepts a drive that the shim would not read
from.
-/

namespace Cfp2Dreamcast

open Program Memory

/-- The rounds of the poll that are left. -/
def sysrdPoll (req : ℕ) : (left : ℕ) → Shim ℤ
  | 0 => pure (-3)
  | left + 1 => do
      let _ ← gdc 0 [] gdExec
      let s ← gdc req [] gdCheck
      if s.r0 = gdCompleted then pure 0
      else if s.r0 = gdNotFound ∨ s.r0 ≤ gdFailed then pure (-2)
      else sysrdPoll req left

/-- `sysrd_test`. -/
def sysrdTest (dst fad n : ℕ) : Shim ℤ := do
  let req ← gdc cmdPioread [fad, n, dst, 0] gdSend
  if req.r0 ≤ 0 then pure (-1) else sysrdPoll req.r0.toNat 100000000

/-- No CHECK answers that the request is unknown. -/
def Found : Event shimSig → Prop
  | ⟨.gdc _ _ r7, r⟩ => r7 = gdCheck → GdReply.r0 r ≠ gdNotFound
  | _ => True

section Poll

variable {σ : Type} {M : Machine shimSig σ} {s s' : σ} {tr : List (Event shimSig)}
  {req : ℕ}

/-- A round of both polls, up to the answer to its CHECK. -/
def gdRound (req : ℕ) {α : Type} (k : GdReply → Shim α) : Shim α :=
  .op (.gdc 0 [] gdExec) fun _ => .op (.gdc req [] gdCheck) k

theorem sysrdPoll_succ (req left : ℕ) : sysrdPoll req (left + 1) = gdRound req fun s =>
    if s.r0 = gdCompleted then pure 0
    else if s.r0 = gdNotFound ∨ s.r0 ≤ gdFailed then pure (-2)
    else sysrdPoll req left := rfl

theorem gdPollStep_eq (req guard : ℕ) (again : Shim Bool) :
    gdPollStep req guard again = gdRound req fun s =>
      if s.r0 = gdCompleted then pure true
      else if s.r0 ≤ gdFailed then do
        putStatic .gdLastErr s.stat
        pure false
      else if s.r0 = gdNotFound ∧ guard > 1000000 then do
        putStatic .gdLastErr 0xcafe0001
        pure false
      else again := rfl

theorem exec_gdRound {α : Type} {k : GdReply → Shim α} {o : Outcome shimSig α} :
    Exec M (gdRound req k) s tr o s' ↔ ∃ e r s₁ s₂ tr', M.step s (.gdc 0 [] gdExec) e s₁ ∧
      M.step s₁ (.gdc req [] gdCheck) r s₂ ∧ Exec M (k r) s₂ tr' o s' ∧
      tr = ⟨.gdc 0 [] gdExec, e⟩ :: ⟨.gdc req [] gdCheck, r⟩ :: tr' := by
  constructor
  · intro h
    obtain ⟨e, s₁, tr₁, rfl, he, h⟩ := h.of_op
    obtain ⟨r, s₂, tr₂, rfl, hr, h⟩ := h.of_op
    exact ⟨e, r, s₁, s₂, tr₂, he, hr, h, rfl⟩
  · rintro ⟨e, r, s₁, s₂, tr', he, hr, h, rfl⟩
    exact .op he (.op hr h)

theorem found_round {e r : GdReply} {tr : List (Event shimSig)} :
    (∀ ev ∈ (⟨.gdc 0 [] gdExec, e⟩ :: ⟨.gdc req [] gdCheck, r⟩ :: tr : List (Event shimSig)),
      Found ev) ↔ r.r0 ≠ gdNotFound ∧ ∀ ev ∈ tr, Found ev := by
  have hexec : Found ⟨.gdc 0 [] gdExec, e⟩ := fun h => absurd h (by decide)
  have hcheck : Found ⟨.gdc req [] gdCheck, r⟩ ↔ r.r0 ≠ gdNotFound := ⟨fun h => h rfl, fun h _ => h⟩
  rw [List.forall_mem_cons, List.forall_mem_cons, hcheck]
  exact ⟨And.right, And.intro hexec⟩

theorem countP_round {e r : GdReply} {tr : List (Event shimSig)} :
    (⟨.gdc 0 [] gdExec, e⟩ :: ⟨.gdc req [] gdCheck, r⟩ :: tr :
      List (Event shimSig)).countP isCheck = tr.countP isCheck + 1 := by
  rw [List.countP_cons_of_neg (by simp [isCheck, gdExec, gdCheck]), List.countP_cons_of_pos rfl]

/-- The poll of the loader completes exactly when one of the shim with as many rounds does
so without losing the request. -/
theorem exec_sysrdPoll_iff (fad n guard : ℕ) {left left' : ℕ} (hleft : left ≤ left') :
    Exec M (sysrdPoll req left) s tr (.ret 0) s' ↔
      Exec M (gdPoll fad n req left' guard) s tr (.ret true) s' ∧
        (∀ ev ∈ tr, Found ev) ∧ tr.countP isCheck ≤ left := by
  induction left generalizing s tr left' guard with
  | zero =>
      have hnot : ∀ {again : Shim Bool},
          ¬ (Exec M (gdPollStep req guard again) s tr (.ret true) s' ∧ tr.countP isCheck ≤ 0) := by
        rintro again ⟨h, hcount⟩
        rw [gdPollStep_eq] at h
        obtain ⟨e, r, s₁, s₂, tr', -, -, -, rfl⟩ := exec_gdRound.1 h
        rw [countP_round] at hcount
        exact Nat.not_succ_le_zero _ hcount
      refine iff_of_false (fun h => by cases h) fun h => ?_
      cases left' with
      | zero => exact hnot ⟨h.1, h.2.2⟩
      | succ left' => exact hnot ⟨h.1, h.2.2⟩
  | succ left ih =>
      obtain ⟨left', rfl⟩ : ∃ l, left' = l + 1 := ⟨left' - 1, by omega⟩
      have ih := fun {x evs} => @ih x evs (guard + 1) left' (Nat.le_of_succ_le_succ hleft)
      have hstep : gdPoll fad n req (left' + 1) guard =
          gdPollStep req guard (gdPoll fad n req left' (guard + 1)) := rfl
      rw [hstep, gdPollStep_eq, sysrdPoll_succ]
      constructor
      · intro h
        obtain ⟨e, r, s₁, s₂, tr', he, hr, hrest, rfl⟩ := exec_gdRound.1 h
        rw [found_round, countP_round]
        by_cases hdone : r.r0 = gdCompleted
        · have hrest' : Exec M (pure 0 : Shim ℤ) s₂ tr' (.ret 0) s' := by
            simpa only [if_pos hdone] using hrest
          cases hrest'
          refine ⟨exec_gdRound.2 ⟨e, r, s₁, s', [], he, hr, ?_, rfl⟩, ⟨?_, by simp⟩, by simp⟩
          · simpa only [if_pos hdone, Prog.pure_eq] using Exec.ret true s'
          · rw [hdone]
            decide
        · by_cases hbad : r.r0 = gdNotFound ∨ r.r0 ≤ gdFailed
          · have hrest' : Exec M (pure (-2) : Shim ℤ) s₂ tr' (.ret 0) s' := by
              simpa only [if_neg hdone, if_pos hbad] using hrest
            cases hrest'
          · have hrest' : Exec M (sysrdPoll req left) s₂ tr' (.ret 0) s' := by
              simpa only [if_neg hdone, if_neg hbad] using hrest
            obtain ⟨hlost, hfail⟩ := not_or.1 hbad
            obtain ⟨hpoll, hfound, hcount⟩ := ih.1 hrest'
            refine ⟨exec_gdRound.2 ⟨e, r, s₁, s₂, tr', he, hr, ?_, rfl⟩, ⟨hlost, hfound⟩,
              Nat.succ_le_succ hcount⟩
            have hlost' : ¬ (r.r0 = gdNotFound ∧ guard > 1000000) := fun h => hlost h.1
            simpa only [if_neg hdone, if_neg hfail, if_neg hlost'] using hpoll
      · rintro ⟨h, hfound, hcount⟩
        obtain ⟨e, r, s₁, s₂, tr', he, hr, hrest, rfl⟩ := exec_gdRound.1 h
        rw [found_round] at hfound
        rw [countP_round] at hcount
        refine exec_gdRound.2 ⟨e, r, s₁, s₂, tr', he, hr, ?_, rfl⟩
        by_cases hdone : r.r0 = gdCompleted
        · have hrest' : Exec M (pure true : Shim Bool) s₂ tr' (.ret true) s' := by
            simpa only [if_pos hdone] using hrest
          cases hrest'
          simpa only [if_pos hdone, Prog.pure_eq] using Exec.ret 0 s'
        · by_cases hfail : r.r0 ≤ gdFailed
          · have hrest' : Exec M (do
                putStatic .gdLastErr r.stat
                pure false : Shim Bool) s₂ tr' (.ret true) s' := by
              simpa only [if_neg hdone, if_pos hfail] using hrest
            obtain ⟨_, _, _, rfl, -, hrest'⟩ := hrest'.of_op
            cases hrest'
          · have hlost' : ¬ (r.r0 = gdNotFound ∧ guard > 1000000) := fun h => hfound.1 h.1
            have hrest' : Exec M (gdPoll fad n req left' (guard + 1)) s₂ tr' (.ret true) s' := by
              simpa only [if_neg hdone, if_neg hfail, if_neg hlost'] using hrest
            have hbad : ¬ (r.r0 = gdNotFound ∨ r.r0 ≤ gdFailed) := not_or.2 ⟨hfound.1, hfail⟩
            simpa only [if_neg hdone, if_neg hbad] using
              ih.2 ⟨hrest', hfound.2, Nat.le_of_succ_le_succ hcount⟩

/-- The ways in which the poll of the loader ends. -/
theorem exec_sysrdPoll {left : ℕ} {o : Outcome shimSig ℤ}
    (h : Exec M (sysrdPoll req left) s tr o s') : tr.countP isCheck ≤ left ∧
      (o = .ret 0 ∨ o = .ret (-2) ∨ o = .ret (-3) ∧ tr.countP isCheck = left) := by
  induction left generalizing s tr with
  | zero =>
      cases h
      exact ⟨le_rfl, .inr (.inr ⟨rfl, rfl⟩)⟩
  | succ left ih =>
      rw [sysrdPoll_succ] at h
      obtain ⟨e, r, s₁, s₂, tr', -, -, hrest, rfl⟩ := exec_gdRound.1 h
      rw [countP_round]
      by_cases hdone : r.r0 = gdCompleted
      · have hrest' : Exec M (pure 0 : Shim ℤ) s₂ tr' o s' := by
          simpa only [if_pos hdone] using hrest
        cases hrest'
        exact ⟨by simp, .inl rfl⟩
      · by_cases hbad : r.r0 = gdNotFound ∨ r.r0 ≤ gdFailed
        · have hrest' : Exec M (pure (-2) : Shim ℤ) s₂ tr' o s' := by
            simpa only [if_neg hdone, if_pos hbad] using hrest
          cases hrest'
          exact ⟨by simp, .inr (.inl rfl)⟩
        · have hrest' : Exec M (sysrdPoll req left) s₂ tr' o s' := by
            simpa only [if_neg hdone, if_neg hbad] using hrest
          obtain ⟨hcount, ho⟩ := ih hrest'
          refine ⟨Nat.succ_le_succ hcount, ho.imp_right (Or.imp_right ?_)⟩
          exact And.imp_right fun heq => by rw [heq]

/-- The test of the loader succeeds exactly when one attempt of the shim completes within
its rounds and without losing the request. -/
theorem exec_sysrdTest_iff {dst fad n : ℕ} : Exec M (sysrdTest dst fad n) s tr (.ret 0) s' ↔
    Exec M (gdAttempt gdPio dst fad n) s tr (.ret true) s' ∧ (∀ ev ∈ tr, Found ev) ∧
      tr.countP isCheck ≤ 100000000 := by
  have hmax : 100000000 ≤ gdGuardMax := le_rfl
  have hfound : ∀ r, Found ⟨.gdc cmdPioread [fad, n, dst, 0] gdSend, r⟩ :=
    fun r h => absurd h (by decide)
  have hcount : ∀ (r : GdReply) (tr : List (Event shimSig)),
      (⟨.gdc cmdPioread [fad, n, dst, 0] gdSend, r⟩ :: tr : List (Event shimSig)).countP isCheck =
        tr.countP isCheck := fun r tr => by
    rw [List.countP_cons_of_neg (by simp [isCheck, gdSend, gdCheck])]
  constructor
  · intro h
    obtain ⟨r, s₁, tr', rfl, hr, h⟩ := h.of_op
    change Exec M (ite _ _ _) _ _ _ _ at h
    by_cases hrefused : GdReply.r0 r ≤ 0
    · rw [if_pos hrefused] at h
      cases h
    · rw [if_neg hrefused] at h
      obtain ⟨hpoll, hall, hle⟩ := (exec_sysrdPoll_iff fad n 0 hmax).1 h
      refine ⟨.op hr ?_, List.forall_mem_cons.2 ⟨hfound r, hall⟩, (hcount r tr').symm ▸ hle⟩
      show Exec M (ite _ _ _) _ _ _ _
      rw [if_neg hrefused]
      have := hpoll.bind_ret (f := fun ok => if ok then (pure true : Shim Bool) else pure false)
        (.ret true s')
      rwa [List.append_nil] at this
  · rintro ⟨h, hall, hle⟩
    obtain ⟨r, s₁, tr', rfl, hr, h⟩ := h.of_op
    have hle : tr'.countP isCheck ≤ 100000000 := (hcount r tr').symm.le.trans hle
    refine .op hr ?_
    show Exec M (ite _ _ _) _ _ _ _
    change Exec M (ite _ _ _) _ _ _ _ at h
    by_cases hrefused : GdReply.r0 r ≤ 0
    · rw [if_pos hrefused] at h
      obtain ⟨_, _, _, rfl, -, h⟩ := h.of_op
      cases h
    · rw [if_neg hrefused] at h ⊢
      obtain ⟨tr₁, tr₂, ok, s₂, rfl, hpoll, hrest⟩ := h.ret_of_bind
      cases ok with
      | false => cases hrest
      | true =>
          cases hrest
          rw [List.append_nil] at hle hall ⊢
          exact (exec_sysrdPoll_iff fad n 0 hmax).2
            ⟨hpoll, fun ev hev => hall ev (List.mem_cons_of_mem _ hev), hle⟩

/-- An attempt that completes is the whole read. -/
theorem exec_gdReadSectors_of_attempt {b : Build} {dst fad n : ℕ}
    (h : Exec M (gdAttempt gdPio dst fad n) s tr (.ret true) s') :
    Exec M (gdReadSectors b dst fad n) s tr (.ret 0) s' := by
  have := h.bind_ret (f := fun ok =>
    if ok then pure 0 else gdRead b gdPio dst fad n 3 1) (.ret (0 : ℤ) s')
  rwa [List.append_nil] at this

theorem exec_sysrdTest {dst fad n : ℕ} {o : Outcome shimSig ℤ}
    (h : Exec M (sysrdTest dst fad n) s tr o s') : tr.countP isCheck ≤ 100000000 ∧
      (o = .ret 0 ∨ o = .ret (-1) ∨ o = .ret (-2) ∨
        o = .ret (-3) ∧ tr.countP isCheck = 100000000) := by
  obtain ⟨r, s₁, tr', rfl, -, h⟩ := h.of_op
  have hcount : (⟨.gdc cmdPioread [fad, n, dst, 0] gdSend, r⟩ :: tr' :
      List (Event shimSig)).countP isCheck = tr'.countP isCheck :=
    List.countP_cons_of_neg (by simp [isCheck, gdSend, gdCheck])
  rw [hcount]
  change Exec M (ite _ _ _) _ _ _ _ at h
  by_cases hrefused : GdReply.r0 r ≤ 0
  · rw [if_pos hrefused] at h
    cases h
    exact ⟨Nat.zero_le _, .inr (.inl rfl)⟩
  · rw [if_neg hrefused] at h
    obtain ⟨hle, ho⟩ := exec_sysrdPoll h
    exact ⟨hle, ho.imp_right .inr⟩

end Poll

/-- `memcmp` against a constant, up to the first difference. -/
def memcmpConst (a : ℕ) : List UInt8 → Shim Bool
  | [] => pure true
  | b :: bs => do
      let v ← load8 .own a
      if v = b then memcmpConst (a + 1) bs else pure false

/-- The letters every cart begins with. -/
def naomiMark : List UInt8 := [0x4e, 0x41, 0x4f, 0x4d, 0x49]

/-- The stage of `main` that rehearses the read, with the message it halts with. -/
def rehearse (b : Build) (sysbuf : ℕ) : Shim (Option String) := do
  let sr ← sysrdTest sysbuf b.cartFad 1
  if sr = -3 then pure (some "SYSCALL GD POLL HANG")
  else if sr ≠ 0 then pure (some "SYSCALL GD READ FAIL")
  else do
    let same ← memcmpConst sysbuf naomiMark
    if same then pure none else pure (some "BAD IMAGE (SYSCALL READ)")

section Stage

variable {μ : Type} {B : Bus μ} {Wd : World μ} {K : B.Durable} {s s' : State μ}
  {tr : List (Event shimSig)}

theorem exec_memcmpConst {a : ℕ} {vs bs : List UInt8} {o : Outcome shimSig Bool}
    (hlen : vs.length = bs.length) (hram : ∀ i < bs.length, isRam (a + i))
    (hvs : ∀ i (hi : i < vs.length), K.holds s.mem (a + i) vs[i])
    (h : Exec (shimMachine B Wd) (memcmpConst a bs) s tr o s') :
    o = .ret (decide (vs = bs)) ∧ s'.drive = s.drive ∧
      ∀ x v, K.holds s.mem x v → K.holds s'.mem x v := by
  induction bs generalizing a vs s tr with
  | nil =>
      cases h
      rw [List.eq_nil_of_length_eq_zero hlen]
      exact ⟨rfl, rfl, fun _ _ h => h⟩
  | cons b bs ih =>
      obtain ⟨v, vs, rfl⟩ := List.exists_cons_of_length_eq_add_one hlen
      obtain ⟨r, s₁, tr', rfl, hr, h⟩ := h.of_op
      have ha : isRam a := hram 0 (Nat.zero_lt_succ _)
      obtain ⟨hv, m, ht, rfl⟩ := (step_load8 ha).1 hr
      have hrv : r = v := hv.trans (K.view_eq (hvs 0 (Nat.zero_lt_succ _)))
      subst hrv
      change Exec _ (ite _ _ _) _ _ _ _ at h
      by_cases heq : r = b
      · have hshift : ∀ i, a + (i + 1) = a + 1 + i := fun i => by omega
        rw [if_pos heq] at h
        have hnext := ih (Nat.succ.inj hlen)
          (fun i hi => hshift i ▸ hram (i + 1) (Nat.succ_lt_succ hi))
          (fun i hi => hshift i ▸ K.touch_holds ht (hvs (i + 1) (Nat.succ_lt_succ hi))) h
        obtain ⟨ho, hdrive, hkept⟩ := hnext
        refine ⟨?_, hdrive, fun x w hx => hkept x w (K.touch_holds ht hx)⟩
        rw [ho, heq]
        simp
      · rw [if_neg heq] at h
        cases h
        refine ⟨?_, rfl, fun x w hx => K.touch_holds ht hx⟩
        simp [heq]

/-- The commands of the rehearsal, which never halts. -/
def rehearseGuard (P : Read → Prop) : Guard shimSig :=
  ⟨CartCmd P (fun _ => False) (fun _ => False), fun _ => False, fun _ => False⟩

section Keeps

variable {b : Build} {buf : ℕ} {P : Read → Prop}

theorem sysrdPoll_keeps (req left : ℕ) : Keeps (rehearseGuard P) (sysrdPoll req left) := by
  induction left with
  | zero => trivial
  | succ left ih =>
      refine .op (fun hr7 => absurd hr7 (by decide)) fun _ =>
        .op (fun hr7 => absurd hr7 (by decide)) fun r => ?_
      show Keeps _ (ite _ _ _)
      split
      · trivial
      · split
        · trivial
        · exact ih

theorem sysrdTest_keeps {dst fad n : ℕ} (hP : P ⟨fad, n, dst⟩) :
    Keeps (rehearseGuard P) (sysrdTest dst fad n) := by
  refine .op (fun _ rd hrd => ?_) fun r => ?_
  · cases sentRead_pio.symm.trans hrd
    exact hP
  · show Keeps _ (ite _ _ _)
    split
    · trivial
    · exact sysrdPoll_keeps _ _

theorem memcmpConst_keeps (a : ℕ) (bs : List UInt8) :
    Keeps (rehearseGuard P) (memcmpConst a bs) := by
  induction bs generalizing a with
  | nil => trivial
  | cons b bs ih =>
      refine .op rfl fun v => ?_
      show Keeps _ (ite _ _ _)
      split
      · exact ih _
      · trivial

theorem rehearse_keeps (hP : P ⟨b.cartFad, 1, buf⟩) :
    Keeps (rehearseGuard P) (rehearse b buf) := by
  refine (sysrdTest_keeps hP).bind fun sr => ?_
  split
  · trivial
  · split
    · trivial
    · refine (memcmpConst_keeps _ _).bind fun same => ?_
      split <;> trivial

end Keeps

/-- What the buffer begins with decides the last check. -/
theorem exec_memcmpConst_sector {b : Build} {buf : ℕ} {o : Outcome shimSig Bool}
    (hram : ∀ i < 5, isRam (buf + i)) (hheld : K.Holds s.mem Wd.disc ⟨b.cartFad, 1, buf⟩)
    (h : Exec (shimMachine B Wd) (memcmpConst buf naomiMark) s tr o s') :
    o = .ret (decide ((List.range 5).map (Wd.disc b.cartFad) = naomiMark)) ∧
      s'.drive = s.drive ∧ K.Holds s'.mem Wd.disc ⟨b.cartFad, 1, buf⟩ := by
  have hbyte : ∀ i < 5, Read.byte ⟨b.cartFad, 1, buf⟩ Wd.disc i = Wd.disc b.cartFad i := by
    intro i hi
    rw [Read.byte, Nat.div_eq_of_lt (by omega), Nat.mod_eq_of_lt (by omega), Nat.add_zero]
  have hvs : ∀ i (hi : i < ((List.range 5).map (Wd.disc b.cartFad)).length),
      K.holds s.mem (buf + i) ((List.range 5).map (Wd.disc b.cartFad))[i] := by
    intro i hi
    have hi5 : i < 5 := by simpa using hi
    have hheld := hheld i (by simp; omega)
    rw [hbyte i hi5] at hheld
    simpa using hheld
  have hlen : ((List.range 5).map (Wd.disc b.cartFad)).length = naomiMark.length := by
    simp [naomiMark]
  obtain ⟨ho, hdrive, hkept⟩ := exec_memcmpConst hlen hram hvs h
  exact ⟨ho, hdrive, fun i hi => hkept _ _ (hheld i hi)⟩

/-- The end of the stage, once the buffer holds the sector. -/
theorem exec_rehearse_verdict {b : Build} {buf : ℕ} {o : Outcome shimSig (Option String)}
    (hram : ∀ i < 5, isRam (buf + i)) (hheld : K.Holds s.mem Wd.disc ⟨b.cartFad, 1, buf⟩)
    (h : Exec (shimMachine B Wd) (do
      let same ← memcmpConst buf naomiMark
      if same then pure none else pure (some "BAD IMAGE (SYSCALL READ)")) s tr o s') :
    K.Holds s'.mem Wd.disc ⟨b.cartFad, 1, buf⟩ ∧ s'.drive = s.drive ∧
      o = .ret (if (List.range 5).map (Wd.disc b.cartFad) = naomiMark then none
        else some "BAD IMAGE (SYSCALL READ)") := by
  rcases h.of_bind with ⟨e, rfl, hdies⟩ | ⟨tr₁, tr₂, same, s₁, rfl, hcmp, hsame⟩
  · cases (exec_memcmpConst_sector hram hheld hdies).1
  obtain ⟨ho, hdrive, hheld₁⟩ := exec_memcmpConst_sector hram hheld hcmp
  cases ho
  by_cases hmark : (List.range 5).map (Wd.disc b.cartFad) = naomiMark
  · rw [if_pos (decide_eq_true hmark)] at hsame
    cases hsame
    exact ⟨hheld₁, hdrive, by rw [if_pos hmark]⟩
  · rw [if_neg (by simpa using hmark)] at hsame
    cases hsame
    exact ⟨hheld₁, hdrive, by rw [if_neg hmark]⟩

/-- An attempt of the shim, answered as in the trace, completes without a lost request. -/
def Rehearsed {σ : Type} (M : Machine shimSig σ) (dst fad n : ℕ) (s : σ)
    (tr : List (Event shimSig)) : Prop :=
  (∃ s', Exec M (gdAttempt gdPio dst fad n) s tr (.ret true) s') ∧ ∀ ev ∈ tr, Found ev

/-- The stage never dies and writes to its buffer only. The read it rehearses succeeds
exactly when an attempt of the shim does within the bound and without a lost request; then
the shim's own read returns 0 along the same answers, the buffer holds the first sector of
the cart, and the stage passes if that sector begins with the mark. -/
theorem rehearsal_refines (b : Build) {buf : ℕ} (hram : ∀ i < 5, isRam (buf + i))
    (hspread : K.Spread ⟨b.cartFad, 1, buf⟩) (hready : K.Ready s.mem Wd.disc ⟨b.cartFad, 1, buf⟩)
    (hidle : s.drive = .idle) {o : Outcome shimSig (Option String)}
    (h : Exec (shimMachine B Wd) (rehearse b buf) s tr o s') :
    B.Run (range buf 2048) (fun _ => False) s.mem s'.mem ∧
      ∃ tr₀ tr₁, tr = tr₀ ++ tr₁ ∧ tr₀.countP isCheck ≤ 100000000 ∧
      (Rehearsed (shimMachine B Wd) buf b.cartFad 1 s tr₀ ∧
          (∃ s₁, Exec (shimMachine B Wd) (gdReadSectors b buf b.cartFad 1) s tr₀ (.ret 0) s₁) ∧
          K.Holds s'.mem Wd.disc ⟨b.cartFad, 1, buf⟩ ∧ s'.drive = .idle ∧
          o = .ret (if (List.range 5).map (Wd.disc b.cartFad) = naomiMark then none
            else some "BAD IMAGE (SYSCALL READ)") ∨
        ¬ Rehearsed (shimMachine B Wd) buf b.cartFad 1 s tr₀ ∧
          (o = .ret (some "SYSCALL GD POLL HANG") ∧ tr₀.countP isCheck = 100000000 ∨
            o = .ret (some "SYSCALL GD READ FAIL"))) := by
  have hkeeps : Keeps (rehearseGuard (· = ⟨b.cartFad, 1, buf⟩)) (rehearse b buf) :=
    rehearse_keeps rfl
  obtain ⟨a, rfl⟩ : ∃ a, o = .ret a := by
    cases o with
    | ret a => exact ⟨a, rfl⟩
    | halt e => exact (hkeeps.exec_halt h).elim
  constructor
  · refine (exec_run h (fun ev hev => CartCmd.within (hkeeps.exec_ret h ev hev) ?_
      fun _ h => h.elim) (hidle ▸ Drive.idle_within _)).1
    rintro rd rfl x ⟨hlo, hhi⟩
    exact ⟨hlo, by simpa [Read.buffer] using hhi⟩
  obtain ⟨tr₀, tr₁, sr, s₁, rfl, htest, hrest⟩ := h.ret_of_bind
  obtain ⟨hcount, hsr⟩ := exec_sysrdTest htest
  refine ⟨tr₀, tr₁, rfl, hcount, ?_⟩
  have hbad : sr ≠ 0 → ¬ Rehearsed (shimMachine B Wd) buf b.cartFad 1 s tr₀ := by
    rintro hne ⟨⟨s₂, hatt⟩, hfound⟩
    have hzero := exec_sysrdTest_iff.2 ⟨hatt, hfound, hcount⟩
    cases htest.outcome_unique hzero
    exact hne rfl
  rcases hsr with hsr | hsr | hsr | ⟨hsr, hmax⟩
  · cases hsr
    obtain ⟨hatt, hfound, -⟩ := exec_sysrdTest_iff.1 htest
    have hread := exec_gdReadSectors_of_attempt (b := b) hatt
    obtain ⟨hheld, hidle₁⟩ := (gdReadSectors_delivers b hspread hready hidle).exec hread
      0 rfl le_rfl
    obtain ⟨hheld', hdrive, ho⟩ := exec_rehearse_verdict hram hheld hrest
    exact .inl ⟨⟨⟨s₁, hatt⟩, hfound⟩, ⟨s₁, hread⟩, hheld', hdrive.trans hidle₁, ho⟩
  · cases hsr
    cases hrest
    exact .inr ⟨hbad (by decide), .inr rfl⟩
  · cases hsr
    cases hrest
    exact .inr ⟨hbad (by decide), .inr rfl⟩
  · cases hsr
    cases hrest
    exact .inr ⟨hbad (by decide), .inl ⟨rfl, hmax⟩⟩

/-- A drive that completes the read at its first CHECK passes the test. -/
theorem exists_sysrdTest {W : World Mem} {s : State Mem} (hidle : s.drive = .idle)
    (dst fad n : ℕ) : ∃ tr s', Exec (flatMachine W) (sysrdTest dst fad n) s tr (.ret 0) s' := by
  let d : Drive := s.drive.send cmdPioread [fad, n, dst, 0] 1
  have hd : d = ⟨some (1, ⟨fad, n, dst⟩), [Read.buffer ⟨fad, n, dst⟩], fun _ => none⟩ := by
    show Drive.send _ _ _ _ = _
    rw [hidle]
    rfl
  have hbuf : Read.buffer ⟨fad, n, dst⟩ ∈ d.buffers := by
    rw [hd]
    exact List.mem_cons_self
  obtain ⟨m, d', htr, -, hwrote⟩ := transfers_deliver W.disc s.mem hbuf le_rfl
  have hpending : d.Completes 1 2 ⟨fad, n, dst⟩ := ⟨rfl, by rw [hd]; rfl⟩
  obtain ⟨tr, s', hpoll⟩ : ∃ tr s', Exec (flatMachine W) (sysrdPoll 1 100000000)
      { s with drive := d } tr (.ret 0) s' := by
    rw [sysrdPoll_succ]
    exact ⟨_, _, exec_gdRound.2 ⟨⟨0, 0⟩, ⟨2, 0⟩, _, _, [],
      ⟨_, _, .other (by decide) (by decide) .refl, rfl⟩,
      ⟨_, _, .completed hpending htr hwrote, rfl⟩, .ret 0 _, rfl⟩⟩
  have hsend : (flatMachine W).step s (.gdc cmdPioread [fad, n, dst, 0] gdSend)
      (⟨1, 0⟩ : GdReply) { s with drive := d } := ⟨s.mem, d, .send .refl, rfl⟩
  have hreq : (⟨1, 0⟩ : GdReply).r0.toNat = 1 := rfl
  have hrest : Exec (flatMachine W) (if (⟨1, 0⟩ : GdReply).r0 ≤ 0 then pure (-1)
      else sysrdPoll (⟨1, 0⟩ : GdReply).r0.toNat 100000000) { s with drive := d } tr
      (.ret 0) s' := by
    rw [if_neg (by decide), hreq]
    exact hpoll
  exact ⟨_, _, .op hsend hrest⟩

/-- The release build has a rehearsal that passes. -/
theorem rehearsal_refines_sample :
    let W : World Mem := ⟨fun _ j => naomiMark.getD j 0, fun m r m' => r = 0 ∧ m' = m⟩
    let s : State Mem := ⟨fun _ => 0, fun _ => 0, .idle, fun _ => 0⟩
    ∃ tr s', Exec (flatMachine W) (rehearse .gdi 0x8c100000) s tr (.ret none) s' ∧
      (∀ i < 2048, s'.mem (ramCell (0x8c100000 + i)) = naomiMark.getD i 0) ∧
      s'.drive = .idle := by
  intro W s
  obtain ⟨tr₀, s₁, htest⟩ := exists_sysrdTest (W := W) (s := s) rfl 0x8c100000 451878 1
  have hcmd : ∀ (s : State Mem) c, (rehearseGuard fun _ => True).cmd c ∨ False →
      ∃ r s', (flatMachine W).step s c r s' := by
    rintro s c (hc | hc)
    · refine flat_total ?_ s
      rintro rfl
      exact hc
    · exact hc.elim
  have hkeeps : Keeps (rehearseGuard fun _ => True) (memcmpConst 0x8c100000 naomiMark) :=
    memcmpConst_keeps _ _
  obtain ⟨tr₁, o, s', hcmp⟩ := hkeeps.exists_exec hcmd s₁
  cases o with
  | halt e => exact (hkeeps.exec_halt hcmp).elim
  | ret same =>
      have hlast : Exec (flatMachine W)
          (if same = true then pure none else pure (some "BAD IMAGE (SYSCALL READ)") :
            Shim (Option String)) s' []
          (.ret (if same then none else some "BAD IMAGE (SYSCALL READ)")) s' := by
        cases same with
        | true => exact .ret none s'
        | false => exact .ret (some "BAD IMAGE (SYSCALL READ)") s'
      have hstage : Exec (flatMachine W) (rehearse .gdi 0x8c100000) s (tr₀ ++ (tr₁ ++ []))
          (.ret (if same then none else some "BAD IMAGE (SYSCALL READ)")) s' :=
        htest.bind_ret (hcmp.bind_ret hlast)
      have hram : ∀ i < 5, isRam (0x8c100000 + i) := by decide
      have hspread : flatDurable.Spread ⟨451878, 1, 0x8c100000⟩ := by
        rintro i hi x ⟨hlo, hhi⟩ hne
        simp only [Read.buffer, flatDurable, ramCell] at *
        omega
      obtain ⟨-, tr₂, tr₃, -, -, ⟨-, -, hheld, hidle, ho⟩ | ⟨-, ho⟩⟩ :=
        rehearsal_refines (K := flatDurable) .gdi hram hspread (fun _ _ => trivial) rfl hstage
      · rw [ho] at hstage
        refine ⟨_, s', hstage, fun i hi => ?_, hidle⟩
        have hbyte : Read.byte ⟨451878, 1, 0x8c100000⟩ W.disc i = naomiMark.getD i 0 := by
          rw [Read.byte, Nat.mod_eq_of_lt hi]
        exact (hheld i hi).trans hbyte
      · cases same with
        | true => rcases ho with ⟨ho, -⟩ | ho <;> cases ho
        | false => rcases ho with ⟨ho, -⟩ | ho <;> simp at ho

end Stage

end Cfp2Dreamcast
