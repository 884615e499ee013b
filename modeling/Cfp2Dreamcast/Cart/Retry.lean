import Cfp2Dreamcast.Cart.Gd
import Cfp2Dreamcast.Cart.EndToEnd

/-!
# The read engine against an arbitrary drive

The GD calls of a read, with what the drive answers to each, form a sequence that
the code determines up to the answers: rounds of EXEC and CHECK for a request,
attempts that SEND a read and poll it, recoveries in between. `Polls`, `Attempt`,
`Recovery` and `Reads` describe these sequences. Every execution of a read on any
machine performs one of them, and the facts about retries are read off it by
induction.
-/

namespace Cfp2Dreamcast

open Program

/-- A GD syscall with its answer, or a write of `gd_last_err`. -/
inductive GdEvent where
  | call (r4 : ℕ) (block : List ℕ) (r7 : ℕ) (r : GdReply)
  | lastErr (v : ℕ)

def gdEvent : Event shimSig → Option GdEvent
  | ⟨.gdc r4 block r7, r⟩ => some (.call r4 block r7 r)
  | ⟨.put .gdLastErr v, _⟩ => some (.lastErr v)
  | _ => none

def gdEvents (tr : List (Event shimSig)) : List GdEvent := tr.filterMap gdEvent

@[simp] theorem gdEvents_nil : gdEvents [] = [] := rfl

@[simp] theorem gdEvents_append (tr tr' : List (Event shimSig)) :
    gdEvents (tr ++ tr') = gdEvents tr ++ gdEvents tr' := List.filterMap_append

@[simp] theorem gdEvents_gdc (r4 : ℕ) (block : List ℕ) (r7 : ℕ) (r : GdReply)
    (tr : List (Event shimSig)) :
    gdEvents (⟨.gdc r4 block r7, r⟩ :: tr) = .call r4 block r7 r :: gdEvents tr := rfl

@[simp] theorem gdEvents_put (v : ℕ) (r : Unit) (tr : List (Event shimSig)) :
    gdEvents (⟨.put .gdLastErr v, r⟩ :: tr) = .lastErr v :: gdEvents tr := rfl

/-- The answers to CHECK on which both polls go on, at the count `guard`. -/
def Waits (guard : ℕ) (r : GdReply) : Prop :=
  r.r0 ≠ gdCompleted ∧ ¬ r.r0 ≤ gdFailed ∧ ¬ (r.r0 = gdNotFound ∧ guard > 1000000)

/-- The rounds of EXEC and CHECK of a request in which the poll goes on, from one
count to another. -/
inductive Waited (req : ℕ) : ℕ → ℕ → List GdEvent → Prop where
  | nil {guard : ℕ} : Waited req guard guard []
  | cons {guard k : ℕ} {evs : List GdEvent} {e r : GdReply} (hwait : Waits guard r)
      (hrest : Waited req (guard + 1) k evs) :
      Waited req guard k (.call 0 [] gdExec e :: .call req [] gdCheck r :: evs)

/-- How an attempt ends. -/
inductive Fate where
  | refused
  | failed (stat : ℕ)
  | lost
  | completed
  | dead

/-- What a failed attempt leaves in `gd_last_err`. -/
def Fate.error : Fate → Option ℕ
  | .refused => some 0xcafe0002
  | .failed stat => some stat
  | .lost => some 0xcafe0001
  | .completed => none
  | .dead => none

/-- The poll of a read from the count `guard` on. -/
inductive Polled (req guard : ℕ) : Fate → List GdEvent → Prop where
  | completed {k : ℕ} {evs : List GdEvent} {e c : GdReply} (hw : Waited req guard k evs)
      (hk : k ≤ gdGuardMax) (hc : c.r0 = gdCompleted) :
      Polled req guard .completed (evs ++ [.call 0 [] gdExec e, .call req [] gdCheck c])
  | failed {k : ℕ} {evs : List GdEvent} {e c : GdReply} (hw : Waited req guard k evs)
      (hk : k ≤ gdGuardMax) (hc : c.r0 ≤ gdFailed) :
      Polled req guard (.failed c.stat)
        (evs ++ [.call 0 [] gdExec e, .call req [] gdCheck c, .lastErr c.stat])
  | lost {k : ℕ} {evs : List GdEvent} {e c : GdReply} (hw : Waited req guard k evs)
      (hk : k ≤ gdGuardMax) (hlost : k > 1000000) (hc : c.r0 = gdNotFound) :
      Polled req guard .lost
        (evs ++ [.call 0 [] gdExec e, .call req [] gdCheck c, .lastErr 0xcafe0001])
  | dead {evs : List GdEvent} (hw : Waited req guard (gdGuardMax + 1) evs) :
      Polled req guard .dead evs

/-- The calls of one attempt. -/
inductive Attempt (cmd dst fad n : ℕ) : Fate → List GdEvent → Prop where
  | refused {r : GdReply} (hr : r.r0 ≤ 0) :
      Attempt cmd dst fad n .refused
        [.call cmd [fad, n, dst, 0] gdSend r, .lastErr 0xcafe0002]
  | polled {r : GdReply} {f : Fate} {evs : List GdEvent} (hr : 0 < r.r0)
      (hpolled : Polled r.r0.toNat 0 f evs) :
      Attempt cmd dst fad n f (.call cmd [fad, n, dst, 0] gdSend r :: evs)

/-- The poll of `gd_init_drive` from the count `guard` on; `false` when it runs out
of polls. -/
inductive InitPolled (req guard : ℕ) : Bool → List GdEvent → Prop where
  | ended {k : ℕ} {evs : List GdEvent} {e c : GdReply} (hw : Waited req guard k evs)
      (hk : k ≤ gdGuardMax) (hc : ¬ Waits k c) :
      InitPolled req guard true (evs ++ [.call 0 [] gdExec e, .call req [] gdCheck c])
  | dead {evs : List GdEvent} (hw : Waited req guard (gdGuardMax + 1) evs) :
      InitPolled req guard false evs

/-- The calls of `gd_init_drive`. -/
inductive DriveInit : Bool → List GdEvent → Prop where
  | refused {r : GdReply} (hr : r.r0 ≤ 0) : DriveInit true [.call cmdInit [] gdSend r]
  | polled {r : GdReply} {ended : Bool} {evs : List GdEvent} (hr : 0 < r.r0)
      (hpolled : InitPolled r.r0.toNat 0 ended evs) :
      DriveInit ended (.call cmdInit [] gdSend r :: evs)

def sectorMode (b : Build) (r : GdReply) : List GdEvent :=
  if b.cdxa then [.call 0 [0, 0x2000, 2048, 2048] gdSectorMode r] else []

/-- The calls of a recovery; `false` when it does not end. -/
inductive Recovery (b : Build) : Bool → List GdEvent → Prop where
  | complete {i r : GdReply} {evs : List GdEvent} (hinit : DriveInit true evs) :
      Recovery b true (.call 0 [] gdSysinit i :: (evs ++ sectorMode b r))
  | stuck {i : GdReply} {evs : List GdEvent} (hinit : DriveInit false evs) :
      Recovery b false (.call 0 [] gdSysinit i :: evs)

/-- What precedes the attempt `k`: nothing before the first, a complete recovery
before each of the others. -/
def Prepared (b : Build) (k : ℕ) (evs : List GdEvent) : Prop :=
  if k = 0 then evs = [] else Recovery b true evs

/-- The calls of a read from the attempt `k` on, with the fates of the attempts
made and the outcome. -/
inductive Reads (b : Build) (cmd dst fad n : ℕ) :
    ℕ → List Fate → Outcome shimSig ℤ → List GdEvent → Prop where
  | gaveUp : Reads b cmd dst fad n 4 [] (.ret (-2)) []
  | stuck {k : ℕ} {evs : List GdEvent} (hk : k ≠ 0) (hlt : k < 4)
      (hrec : Recovery b false evs) :
      Reads b cmd dst fad n k [] (.halt (.die 5 0xdead1217 0)) evs
  | completed {k : ℕ} {evs evs' : List GdEvent} (hlt : k < 4) (hprep : Prepared b k evs)
      (hatt : Attempt cmd dst fad n .completed evs') :
      Reads b cmd dst fad n k [.completed] (.ret 0) (evs ++ evs')
  | dead {k : ℕ} {evs evs' : List GdEvent} (hlt : k < 4) (hprep : Prepared b k evs)
      (hatt : Attempt cmd dst fad n .dead evs') :
      Reads b cmd dst fad n k [.dead] (.halt (.die 5 fad n)) (evs ++ evs')
  | retry {k e : ℕ} {f : Fate} {fates : List Fate} {o : Outcome shimSig ℤ}
      {evs evs' rest : List GdEvent} (hlt : k < 4) (hprep : Prepared b k evs)
      (hfail : f.error = some e) (hatt : Attempt cmd dst fad n f evs')
      (hrest : Reads b cmd dst fad n (k + 1) fates o rest) :
      Reads b cmd dst fad n k (f :: fates) o (evs ++ evs' ++ rest)

section Calls

variable {σ α β : Type} {M : Machine shimSig σ}

/-- Every execution of the program ends with GD events and an outcome in `P`. -/
def Calls (M : Machine shimSig σ) (p : Shim α)
    (P : List GdEvent → Outcome shimSig α → Prop) : Prop :=
  ∀ s, wp M p (fun tr o _ => P (gdEvents tr) o) s

theorem Calls.exec {p : Shim α} {P : List GdEvent → Outcome shimSig α → Prop} {s s' : σ}
    {tr : List (Event shimSig)} {o : Outcome shimSig α} (hp : Calls M p P)
    (h : Exec M p s tr o s') : P (gdEvents tr) o := (hp s).exec h

theorem Calls.mono {p : Shim α} {P P' : List GdEvent → Outcome shimSig α → Prop}
    (hp : Calls M p P) (hP : ∀ evs o, P evs o → P' evs o) : Calls M p P' :=
  fun s => (hp s).mono fun _ _ _ h => hP _ _ h

theorem Calls.ret {P : List GdEvent → Outcome shimSig α → Prop} {a : α} (h : P [] (.ret a)) :
    Calls M (.ret a) P := fun _ => h

theorem Calls.gdc {P : List GdEvent → Outcome shimSig α → Prop} {r4 : ℕ} {block : List ℕ}
    {r7 : ℕ} {k : GdReply → Shim α}
    (h : ∀ r, Calls M (k r) fun evs => P (.call r4 block r7 r :: evs)) :
    Calls M (.op (.gdc r4 block r7) k) P := fun _ r s₁ _ => h r s₁

theorem Calls.lastErr {P : List GdEvent → Outcome shimSig α → Prop} {v : ℕ}
    {k : Unit → Shim α} (h : Calls M (k ()) fun evs => P (.lastErr v :: evs)) :
    Calls M (.op (.put .gdLastErr v) k) P := fun _ _ s₁ _ => h s₁

/-- The rule of sequence. -/
theorem Calls.seq {p : Shim α} {f : α → Shim β} {P : List GdEvent → Outcome shimSig α → Prop}
    {R : List GdEvent → Outcome shimSig β → Prop} (hp : Calls M p P)
    (hret : ∀ evs a, P evs (.ret a) → Calls M (f a) fun evs' => R (evs ++ evs'))
    (hhalt : ∀ evs e, P evs (.halt e) → R evs (.halt e)) : Calls M (p >>= f) R := by
  refine fun s => wp_seq (hp s) (fun tr a s₁ h => ?_) (fun tr e s₁ h => hhalt _ e h)
  refine (hret _ a h s₁).mono fun tr' o s' hR => ?_
  rw [gdEvents_append]
  exact hR

/-- The commands that make no GD event. -/
def QuietCmd : Cmd → Prop
  | .gdc .. => False
  | .put .. => False
  | _ => True

/-- A program that makes no GD event and returns. -/
def Quiet (p : Shim α) : Prop := Keeps ⟨QuietCmd, fun _ => False, fun _ => False⟩ p

theorem Quiet.calls {p : Shim α} (hp : Quiet p) :
    Calls M p fun evs o => evs = [] ∧ ∃ a, o = .ret a := by
  intro s
  rw [wp_iff_exec]
  intro tr o s' h
  cases o with
  | halt e => exact (hp.exec_halt h).elim
  | ret a =>
      refine ⟨List.filterMap_eq_nil_iff.2 fun ev hev => ?_, a, rfl⟩
      obtain ⟨c, r⟩ := ev
      have hc : QuietCmd c := hp.exec_ret h _ hev
      cases c with
      | gdc r4 block r7 => exact hc.elim
      | put x v => exact hc.elim
      | _ => rfl

theorem Calls.quiet_seq {p : Shim α} {f : α → Shim β}
    {R : List GdEvent → Outcome shimSig β → Prop} (hp : Quiet p)
    (hf : ∀ a, Calls M (f a) R) : Calls M (p >>= f) R := by
  refine hp.calls.seq (fun evs a h => ?_) fun evs e h => ?_
  · rw [h.1]
    exact hf a
  · obtain ⟨-, a, ha⟩ := h
    cases ha

theorem calls_shimDie (code a b : ℕ) :
    Calls M (shimDie code a b : Shim α)
      fun evs o => evs = [] ∧ o = .halt (.die code a b) :=
  fun _ _ _ _ _ _ _ _ _ _ _ _ _ => ⟨rfl, rfl⟩

theorem quiet_ocbiBlocks (a k : ℕ) : Quiet (ocbiBlocks a k) := by
  induction k generalizing a with
  | zero => trivial
  | succ k ih => exact .op trivial fun _ => ih (a + 32)

theorem quiet_dcacheInval (p len : ℕ) : Quiet (dcacheInval p len) := quiet_ocbiBlocks _ _

theorem quiet_maskGdIrq (a : ℕ) : Quiet (maskGdIrq a) :=
  .op trivial fun _ => .op trivial fun _ => trivial

end Calls

section Engine

variable {σ : Type} {M : Machine shimSig σ}

theorem InitPolled.wait {req guard : ℕ} {ended : Bool} {evs : List GdEvent} {e r : GdReply}
    (hwait : Waits guard r) (h : InitPolled req (guard + 1) ended evs) :
    InitPolled req guard ended (.call 0 [] gdExec e :: .call req [] gdCheck r :: evs) := by
  cases h with
  | ended hw hk hc => exact .ended (.cons hwait hw) hk hc
  | dead hw => exact .dead (.cons hwait hw)

theorem Polled.wait {req guard : ℕ} {f : Fate} {evs : List GdEvent} {e r : GdReply}
    (hwait : Waits guard r) (h : Polled req (guard + 1) f evs) :
    Polled req guard f (.call 0 [] gdExec e :: .call req [] gdCheck r :: evs) := by
  cases h with
  | completed hw hk hc => exact .completed (.cons hwait hw) hk hc
  | failed hw hk hc => exact .failed (.cons hwait hw) hk hc
  | lost hw hk hlost hc => exact .lost (.cons hwait hw) hk hlost hc
  | dead hw => exact .dead (.cons hwait hw)

theorem calls_gdInitPollStep {req guard : ℕ} {again : Shim Unit}
    {P : List GdEvent → Outcome shimSig Unit → Prop}
    (hstop : ∀ e r, ¬ Waits guard r →
      P [.call 0 [] gdExec e, .call req [] gdCheck r] (.ret ()))
    (hagain : ∀ e r, Waits guard r →
      Calls M again fun evs => P (.call 0 [] gdExec e :: .call req [] gdCheck r :: evs)) :
    Calls M (gdInitPollStep req guard again) P := by
  refine .gdc fun e => .gdc fun r => ?_
  change Calls M (ite _ _ _) _
  split
  · next h =>
    refine .ret (hstop e r fun hw => ?_)
    rcases h with h | h
    · exact hw.1 h
    · exact hw.2.1 h
  · next h =>
    rw [not_or] at h
    split
    · next h' => exact .ret (hstop e r fun hw => hw.2.2 h')
    · next h' => exact hagain e r ⟨h.1, h.2, h'⟩

theorem calls_gdInitPoll (req : ℕ) {left guard : ℕ} (hg : left + guard = gdGuardMax) :
    Calls M (gdInitPoll req left guard) fun evs o =>
      ∃ ended, InitPolled req guard ended evs ∧
        o = if ended then .ret () else .halt (.die 5 0xdead1217 0) := by
  induction left generalizing guard with
  | zero =>
      rw [zero_add] at hg
      subst hg
      refine calls_gdInitPollStep (fun e r hstop => ⟨true, .ended .nil le_rfl hstop, rfl⟩)
        fun e r hwait => (calls_shimDie 5 0xdead1217 0).mono ?_
      rintro evs o ⟨rfl, rfl⟩
      exact ⟨false, .dead (.cons hwait .nil), rfl⟩
  | succ left ih =>
      refine calls_gdInitPollStep
        (fun e r hstop => ⟨true, .ended .nil (by omega) hstop, rfl⟩)
        fun e r hwait => (ih (by omega)).mono ?_
      rintro evs o ⟨ended, hpolled, rfl⟩
      exact ⟨ended, hpolled.wait hwait, rfl⟩

theorem calls_gdInitDrive :
    Calls M gdInitDrive fun evs o => ∃ ended, DriveInit ended evs ∧
      o = if ended then .ret () else .halt (.die 5 0xdead1217 0) := by
  refine .gdc fun r => ?_
  change Calls M (ite _ _ _) _
  split
  · next h => exact .ret ⟨true, .refused h, rfl⟩
  · next h =>
    refine (calls_gdInitPoll _ (add_zero _)).mono ?_
    rintro evs o ⟨ended, hpolled, rfl⟩
    exact ⟨ended, .polled (not_le.1 h) hpolled, rfl⟩

theorem calls_gdRecover (b : Build) :
    Calls M (gdRecover b) fun evs o => ∃ ended, Recovery b ended evs ∧
      o = if ended then .ret () else .halt (.die 5 0xdead1217 0) := by
  refine .gdc fun i => calls_gdInitDrive.seq ?_ ?_
  · rintro evs a ⟨ended, hinit, ho⟩
    cases ended with
    | false => cases ho
    | true =>
        by_cases hb : b.cdxa = true
        · rw [Prog.whenever_pos hb]
          refine .gdc fun r => .ret ⟨true, ?_, rfl⟩
          have h := Recovery.complete (b := b) (i := i) (r := r) hinit
          rwa [sectorMode, if_pos hb] at h
        · rw [Prog.whenever_neg hb]
          refine .ret ⟨true, ?_, rfl⟩
          have h := Recovery.complete (b := b) (i := i) (r := i) hinit
          rwa [sectorMode, if_neg hb] at h
  · rintro evs e ⟨ended, hinit, ho⟩
    cases ended with
    | true => cases ho
    | false =>
        rw [ho]
        exact ⟨false, .stuck hinit, rfl⟩

/-- What an attempt with this fate returns. -/
def Fate.outcome (fad n : ℕ) : Fate → Outcome shimSig Bool
  | .completed => .ret true
  | .dead => .halt (.die 5 fad n)
  | _ => .ret false

/-- One round of the read poll: it stops with the fate of its answer, or goes on. -/
theorem calls_gdPollStep {fad n req guard : ℕ} (hguard : guard ≤ gdGuardMax)
    {again : Shim Bool}
    (hagain : ∀ e r, Waits guard r → Calls M again fun evs o => ∃ f,
      Polled req guard f (.call 0 [] gdExec e :: .call req [] gdCheck r :: evs) ∧
        o = f.outcome fad n) :
    Calls M (gdPollStep req guard again) fun evs o => ∃ f, Polled req guard f evs ∧
      o = f.outcome fad n := by
  refine .gdc fun e => .gdc fun r => ?_
  change Calls M (ite _ _ _) _
  split
  · next h => exact .ret ⟨.completed, .completed .nil hguard h, rfl⟩
  · next h =>
    split
    · next h' => exact .lastErr (.ret ⟨.failed r.stat, .failed .nil hguard h', rfl⟩)
    · next h' =>
      split
      · next h'' => exact .lastErr (.ret ⟨.lost, .lost .nil hguard h''.2 h''.1, rfl⟩)
      · next h'' => exact hagain e r ⟨h, h', h''⟩

theorem calls_gdPoll (fad n req : ℕ) {left guard : ℕ} (hg : left + guard = gdGuardMax) :
    Calls M (gdPoll fad n req left guard) fun evs o => ∃ f, Polled req guard f evs ∧
      o = f.outcome fad n := by
  induction left generalizing guard with
  | zero =>
      rw [zero_add] at hg
      subst hg
      refine calls_gdPollStep le_rfl fun e r hwait => (calls_shimDie 5 fad n).mono ?_
      rintro evs o ⟨rfl, rfl⟩
      exact ⟨.dead, .dead (.cons hwait .nil), rfl⟩
  | succ left ih =>
      refine calls_gdPollStep (by omega) fun e r hwait => (ih (by omega)).mono ?_
      rintro evs o ⟨f, hpolled, rfl⟩
      exact ⟨f, hpolled.wait hwait, rfl⟩

variable {md : GdMode} (hprepare : Quiet md.prepare) (hfinish : Quiet md.finish)

include hprepare hfinish

theorem calls_gdAttempt (dst fad n : ℕ) :
    Calls M (gdAttempt md dst fad n) fun evs o =>
      ∃ f, Attempt md.cmd dst fad n f evs ∧ o = f.outcome fad n := by
  refine .quiet_seq hprepare fun _ => .gdc fun r => ?_
  change Calls M (ite _ _ _) _
  split
  · next h => exact .lastErr (.ret ⟨.refused, .refused h, rfl⟩)
  · next h =>
    refine (calls_gdPoll fad n r.r0.toNat (add_zero _)).seq ?_ ?_
    · rintro evs ok ⟨f, hpolled, ho⟩
      have hatt : Attempt md.cmd dst fad n f (.call md.cmd [fad, n, dst, 0] gdSend r :: evs) :=
        .polled (not_le.1 h) hpolled
      cases ok with
      | true =>
          refine .quiet_seq hfinish fun _ => .ret ?_
          rw [List.append_nil]
          exact ⟨f, hatt, ho⟩
      | false =>
          refine .ret ?_
          rw [List.append_nil]
          exact ⟨f, hatt, ho⟩
    · rintro evs e ⟨f, hpolled, ho⟩
      refine ⟨f, .polled (not_le.1 h) hpolled, ?_⟩
      cases f with
      | dead =>
          cases ho
          rfl
      | _ => cases ho

theorem calls_gdRead (b : Build) (dst fad n : ℕ) {left k : ℕ} (hk : left + k = 4) :
    Calls M (gdRead b md dst fad n left k) fun evs o =>
      ∃ fates, Reads b md.cmd dst fad n k fates o evs := by
  induction left generalizing k with
  | zero =>
      rw [zero_add] at hk
      subst hk
      exact .ret ⟨[], .gaveUp⟩
  | succ left ih =>
      have hprep : Calls M (Prog.whenever (k ≠ 0) (gdRecover b)) fun evs o =>
          (∃ a, o = .ret a ∧ Prepared b k evs) ∨
            o = .halt (.die 5 0xdead1217 0) ∧ k ≠ 0 ∧ Recovery b false evs := by
        by_cases h0 : k = 0
        · rw [Prog.whenever_neg (not_not.2 h0)]
          exact .ret (.inl ⟨(), rfl, by rw [Prepared, if_pos h0]⟩)
        · rw [Prog.whenever_pos h0]
          refine (calls_gdRecover b).mono ?_
          rintro evs o ⟨ended, hrec, rfl⟩
          cases ended with
          | true => exact .inl ⟨(), rfl, by rwa [Prepared, if_neg h0]⟩
          | false => exact .inr ⟨rfl, h0, hrec⟩
      refine hprep.seq (fun evs a h => ?_) fun evs e h => ?_
      · obtain ⟨_, -, hprep⟩ | ⟨ho, -⟩ := h
        · refine (calls_gdAttempt hprepare hfinish dst fad n).seq ?_ ?_
          · rintro evs' ok ⟨f, hatt, ho⟩
            cases ok with
            | true =>
                cases f with
                | completed =>
                    refine .ret ⟨[.completed], ?_⟩
                    rw [List.append_nil]
                    exact .completed (by omega) hprep hatt
                | _ => cases ho
            | false =>
                have hfail : ∃ e, f.error = some e := by
                  cases f with
                  | completed => cases ho
                  | dead => cases ho
                  | _ => exact ⟨_, rfl⟩
                obtain ⟨e, hfail⟩ := hfail
                refine (ih (k := k + 1) (by omega)).mono ?_
                rintro rest o ⟨fates, hrest⟩
                rw [← List.append_assoc]
                exact ⟨f :: fates, .retry (by omega) hprep hfail hatt hrest⟩
          · rintro evs' e ⟨f, hatt, ho⟩
            cases f with
            | dead =>
                cases ho
                exact ⟨[.dead], .dead (by omega) hprep hatt⟩
            | _ => cases ho
        · cases ho
      · obtain ⟨_, ho, -⟩ | ⟨ho, h0, hrec⟩ := h
        · cases ho
        · cases ho
          exact ⟨[], .stuck h0 (by omega) hrec⟩

omit hprepare hfinish

end Engine

section Facts

/-- The blocks of the read requests sent: of all SENDs but CMD_INIT. -/
def readSends : List GdEvent → List (ℕ × List ℕ)
  | [] => []
  | .call r4 block r7 _ :: evs =>
      if r7 = gdSend ∧ r4 ≠ cmdInit then (r4, block) :: readSends evs else readSends evs
  | .lastErr _ :: evs => readSends evs

/-- No read is sent after a SYSINIT before the sector mode of the CD data track is set
again; `kept` says whether it is set. -/
def ModeKept : Bool → List GdEvent → Prop
  | _, [] => True
  | kept, .call r4 block r7 _ :: evs =>
      if r7 = gdSysinit then ModeKept false evs
      else if r7 = gdSectorMode then ModeKept (block == [0, 0x2000, 2048, 2048]) evs
      else (r7 = gdSend → r4 ≠ cmdInit → kept = true) ∧ ModeKept kept evs
  | kept, .lastErr _ :: evs => ModeKept kept evs

/-- After each SEND at most `gdGuardMax + 1` CHECKs follow up to the next one; `polls`
of them are made already. -/
def PollsBounded : ℕ → List GdEvent → Prop
  | _, [] => True
  | polls, .call _ _ r7 _ :: evs =>
      if r7 = gdSend then PollsBounded 0 evs
      else if r7 = gdCheck then polls ≤ gdGuardMax ∧ PollsBounded (polls + 1) evs
      else PollsBounded polls evs
  | polls, .lastErr _ :: evs => PollsBounded polls evs

variable {req guard k : ℕ} {w rest : List GdEvent}

theorem Waited.le (h : Waited req guard k w) : guard ≤ k := by
  induction h with
  | nil => exact le_rfl
  | cons hwait hrest ih => exact (Nat.le_succ _).trans ih

/-- No CHECK in a round on which the poll goes on answers COMPLETED. -/
theorem Waited.not_completed (h : Waited req guard k w) {r4 : ℕ} {block : List ℕ}
    {r : GdReply} (hmem : .call r4 block gdCheck r ∈ w) : r.r0 ≠ gdCompleted := by
  induction h with
  | nil => cases hmem
  | cons hwait hrest ih =>
      rcases List.mem_cons.1 hmem with hc | hmem
      · cases hc
      · rcases List.mem_cons.1 hmem with hc | hmem
        · cases hc
          exact hwait.1
        · exact ih hmem

theorem Waited.sends (h : Waited req guard k w) :
    readSends (w ++ rest) = readSends rest := by
  induction h with
  | nil => rfl
  | cons hwait hrest ih => exact ih

theorem Waited.modeKept (h : Waited req guard k w) {kept : Bool} :
    ModeKept kept (w ++ rest) ↔ ModeKept kept rest := by
  induction h with
  | nil => exact Iff.rfl
  | cons hwait hrest ih => simp [ModeKept, gdExec, gdCheck, gdSysinit, gdSectorMode, gdSend, ih]

theorem Waited.pollsBounded (h : Waited req guard k w) (hk : k ≤ gdGuardMax + 1)
    (hrest : PollsBounded k rest) : PollsBounded guard (w ++ rest) := by
  induction h with
  | nil => exact hrest
  | cons hwait hrest' ih =>
      have hle := hrest'.le
      simpa [PollsBounded, gdExec, gdCheck, gdSend] using ⟨by omega, ih hk hrest⟩

/-- Events that send nothing, leave the sector mode and stay within the polls of one
request. -/
structure Polling (evs : List GdEvent) : Prop where
  sends : ∀ rest, readSends (evs ++ rest) = readSends rest
  mode : ∀ kept rest, ModeKept kept (evs ++ rest) ↔ ModeKept kept rest
  bounded : ∀ rest, (∀ polls, PollsBounded polls rest) → PollsBounded 0 (evs ++ rest)

/-- Rounds on which the poll goes on, one more round, and writes of `gd_last_err`. -/
theorem Waited.polling (h : Waited req 0 k w) (hk : k ≤ gdGuardMax) (e c : GdReply)
    (errs : List ℕ) :
    Polling (w ++ .call 0 [] gdExec e :: .call req [] gdCheck c :: errs.map .lastErr) := by
  have herr : ∀ (errs : List ℕ) rest,
      readSends (errs.map .lastErr ++ rest) = readSends rest ∧
        (∀ kept, ModeKept kept (errs.map .lastErr ++ rest) ↔ ModeKept kept rest) ∧
        ∀ polls, PollsBounded polls (errs.map .lastErr ++ rest) ↔ PollsBounded polls rest := by
    intro errs rest
    induction errs with
    | nil => exact ⟨rfl, fun _ => Iff.rfl, fun _ => Iff.rfl⟩
    | cons v errs ih => exact ih
  refine ⟨fun rest => ?_, fun kept rest => ?_, fun rest hrest => ?_⟩
  · rw [List.append_assoc, h.sends]
    exact (herr errs rest).1
  · rw [List.append_assoc, h.modeKept]
    simpa [ModeKept, gdExec, gdCheck, gdSysinit, gdSectorMode, gdSend]
      using (herr errs rest).2.1 kept
  · rw [List.append_assoc]
    refine h.pollsBounded (Nat.le_succ_of_le hk) ?_
    simpa [PollsBounded, gdExec, gdCheck, gdSend]
      using ⟨hk, ((herr errs rest).2.2 (k + 1)).2 (hrest (k + 1))⟩

theorem Waited.polling_dead (h : Waited req 0 (gdGuardMax + 1) w) : Polling w :=
  ⟨fun _ => h.sends, fun _ _ => h.modeKept, fun _ hrest => h.pollsBounded le_rfl (hrest _)⟩

theorem Polled.polling {f : Fate} {evs : List GdEvent} (h : Polled req 0 f evs) :
    Polling evs := by
  cases h with
  | completed hw hk hc => exact hw.polling hk _ _ []
  | failed hw hk hc => exact hw.polling hk _ _ [_]
  | lost hw hk hlost hc => exact hw.polling hk _ _ [_]
  | dead hw => exact hw.polling_dead

theorem InitPolled.polling {ended : Bool} {evs : List GdEvent}
    (h : InitPolled req 0 ended evs) : Polling evs := by
  cases h with
  | ended hw hk hc => exact hw.polling hk _ _ []
  | dead hw => exact hw.polling_dead

variable {b : Build} {cmd dst fad n : ℕ} {f : Fate} {evs : List GdEvent}

/-- What an attempt sends, and that it keeps the mode and the polls. -/
theorem Attempt.facts (h : Attempt cmd dst fad n f evs) (hcmd : cmd ≠ cmdInit)
    (rest : List GdEvent) :
    readSends (evs ++ rest) = (cmd, [fad, n, dst, 0]) :: readSends rest ∧
      (ModeKept true rest → ModeKept true (evs ++ rest)) ∧
      ((∀ polls, PollsBounded polls rest) → ∀ polls, PollsBounded polls (evs ++ rest)) := by
  cases h with
  | refused hr =>
      refine ⟨?_, fun hrest => ?_, fun hrest polls => ?_⟩
      · simp [readSends, hcmd]
      · simpa [ModeKept, gdSend, gdSysinit, gdSectorMode] using hrest
      · simpa [PollsBounded] using hrest 0
  | polled hr hpolled =>
      have hp := hpolled.polling
      refine ⟨?_, fun hrest => ?_, fun hrest polls => ?_⟩
      · simpa [readSends, hcmd] using hp.sends rest
      · simpa [ModeKept, gdSend, gdSysinit, gdSectorMode] using (hp.mode true rest).2 hrest
      · simpa [PollsBounded] using hp.bounded rest hrest

theorem DriveInit.facts {ended : Bool} (h : DriveInit ended evs) (rest : List GdEvent) :
    readSends (evs ++ rest) = readSends rest ∧
      (∀ kept, ModeKept kept rest → ModeKept kept (evs ++ rest)) ∧
      ((∀ polls, PollsBounded polls rest) → ∀ polls, PollsBounded polls (evs ++ rest)) := by
  cases h with
  | refused hr =>
      refine ⟨?_, fun kept hrest => ?_, fun hrest polls => ?_⟩
      · simp [readSends]
      · simpa [ModeKept, gdSend, gdSysinit, gdSectorMode] using hrest
      · simpa [PollsBounded] using hrest 0
  | polled hr hpolled =>
      have hp := hpolled.polling
      refine ⟨?_, fun kept hrest => ?_, fun hrest polls => ?_⟩
      · simpa [readSends] using hp.sends rest
      · simpa [ModeKept, gdSend, gdSysinit, gdSectorMode] using (hp.mode kept rest).2 hrest
      · simpa [PollsBounded] using hp.bounded rest hrest

/-- A recovery sends no read; in the CD build a complete one has the mode set. -/
theorem Recovery.facts {ended : Bool} (h : Recovery b ended evs) (rest : List GdEvent) :
    readSends (evs ++ rest) = readSends rest ∧
      (b.cdxa = true → ended = true → ModeKept true rest →
        ∀ kept, ModeKept kept (evs ++ rest)) ∧
      ((∀ polls, PollsBounded polls rest) → ∀ polls, PollsBounded polls (evs ++ rest)) := by
  cases h with
  | @complete i r evs hinit =>
      have hi := hinit.facts (sectorMode b r ++ rest)
      by_cases hb : b.cdxa = true
      · rw [sectorMode, if_pos hb] at hi ⊢
        refine ⟨?_, fun _ _ hrest kept => ?_, fun hrest polls => ?_⟩
        · simpa [readSends, gdSysinit, gdSend, gdSectorMode] using hi.1
        · have hmode : ModeKept false
              ([.call 0 [0, 0x2000, 2048, 2048] gdSectorMode r] ++ rest) := by
            simpa [ModeKept, gdSysinit, gdSectorMode] using hrest
          simpa [ModeKept] using hi.2.1 false hmode
        · have hbound : ∀ polls, PollsBounded polls
              ([.call 0 [0, 0x2000, 2048, 2048] gdSectorMode r] ++ rest) := by
            simpa [PollsBounded, gdSectorMode, gdSend, gdCheck] using hrest
          simpa [PollsBounded, gdSysinit, gdSend, gdCheck] using hi.2.2 hbound polls
      · rw [sectorMode, if_neg hb] at hi ⊢
        refine ⟨?_, fun h => absurd h hb, fun hrest polls => ?_⟩
        · simpa [readSends, gdSysinit, gdSend] using hi.1
        · simpa [PollsBounded, gdSysinit, gdSend, gdCheck] using hi.2.2 hrest polls
  | stuck hinit =>
      have hi := hinit.facts rest
      refine ⟨?_, fun _ h => absurd h (by decide), fun hrest polls => ?_⟩
      · simpa [readSends, gdSysinit, gdSend] using hi.1
      · simpa [PollsBounded, gdSysinit, gdSend, gdCheck] using hi.2.2 hrest polls

theorem Prepared.facts {k : ℕ} (h : Prepared b k evs) (rest : List GdEvent) :
    readSends (evs ++ rest) = readSends rest ∧
      (b.cdxa = true → ModeKept true rest → ModeKept true (evs ++ rest)) ∧
      ((∀ polls, PollsBounded polls rest) → ∀ polls, PollsBounded polls (evs ++ rest)) := by
  rw [Prepared] at h
  split at h
  · subst h
    exact ⟨rfl, fun _ h => h, fun h => h⟩
  · obtain ⟨hsend, hmode, hbound⟩ := h.facts rest
    exact ⟨hsend, fun hb hrest => hmode hb rfl hrest true, hbound⟩

/-- A prepared attempt and what follows it. -/
theorem Prepared.attempt_facts {k : ℕ} {evs' : List GdEvent} (h : Prepared b k evs)
    (hatt : Attempt cmd dst fad n f evs') (hcmd : cmd ≠ cmdInit) (rest : List GdEvent) :
    readSends (evs ++ evs' ++ rest) = (cmd, [fad, n, dst, 0]) :: readSends rest ∧
      (b.cdxa = true → ModeKept true rest → ModeKept true (evs ++ evs' ++ rest)) ∧
      ((∀ polls, PollsBounded polls rest) →
        ∀ polls, PollsBounded polls (evs ++ evs' ++ rest)) := by
  obtain ⟨hsend, hmode, hbound⟩ := h.facts (evs' ++ rest)
  obtain ⟨hsend', hmode', hbound'⟩ := hatt.facts hcmd rest
  rw [List.append_assoc]
  exact ⟨hsend.trans hsend', fun hb hrest => hmode hb (hmode' hrest),
    fun hrest => hbound (hbound' hrest)⟩

/-- The facts of a read from the attempt `k` on. -/
theorem Reads.facts {k : ℕ} {fates : List Fate} {o : Outcome shimSig ℤ}
    (h : Reads b cmd dst fad n k fates o evs) (hcmd : cmd ≠ cmdInit) :
    readSends evs = List.replicate fates.length (cmd, [fad, n, dst, 0]) ∧
      (b.cdxa = true → ModeKept true evs) ∧ ∀ polls, PollsBounded polls evs := by
  induction h with
  | gaveUp => exact ⟨rfl, fun _ => trivial, fun _ => trivial⟩
  | stuck hk hlt hrec =>
      have hfacts := hrec.facts []
      rw [List.append_nil] at hfacts
      refine ⟨hfacts.1, fun _ => ?_, hfacts.2.2 fun _ => trivial⟩
      cases hrec with
      | stuck hinit =>
          have hi := (hinit.facts []).2.1 false trivial
          rw [List.append_nil] at hi
          simpa [ModeKept] using hi
  | completed hlt hprep hatt =>
      obtain ⟨hsend, hmode, hbound⟩ := hprep.attempt_facts hatt hcmd []
      rw [List.append_nil] at hsend hmode hbound
      exact ⟨hsend, fun hb => hmode hb trivial, hbound fun _ => trivial⟩
  | dead hlt hprep hatt =>
      obtain ⟨hsend, hmode, hbound⟩ := hprep.attempt_facts hatt hcmd []
      rw [List.append_nil] at hsend hmode hbound
      exact ⟨hsend, fun hb => hmode hb trivial, hbound fun _ => trivial⟩
  | retry hlt hprep hfail hatt hrest ih =>
      obtain ⟨hsend, hmode, hbound⟩ := hprep.attempt_facts hatt hcmd _
      refine ⟨?_, fun hb => hmode hb (ih.2.1 hb), hbound ih.2.2⟩
      rw [hsend, ih.1]
      rfl

theorem Reads.length_le {k : ℕ} {fates : List Fate} {o : Outcome shimSig ℤ}
    (h : Reads b cmd dst fad n k fates o evs) : k + fates.length ≤ 4 := by
  induction h with
  | gaveUp => exact le_rfl
  | stuck hk hlt hrec => exact hlt.le
  | completed hlt hprep hatt => exact hlt
  | dead hlt hprep hatt => exact hlt
  | retry hlt hprep hfail hatt hrest ih =>
      rw [List.length_cons]
      omega

/-- The last call of an attempt that completes is a CHECK of its own request. -/
def EndsCompleted (cmd dst fad n : ℕ) (evs : List GdEvent) : Prop :=
  ∃ pre sent polls c, evs = pre ++ .call cmd [fad, n, dst, 0] gdSend sent ::
    (polls ++ [.call sent.r0.toNat [] gdCheck c]) ∧ 0 < sent.r0 ∧ c.r0 = gdCompleted

theorem EndsCompleted.append (h : EndsCompleted cmd dst fad n evs) (pre : List GdEvent) :
    EndsCompleted cmd dst fad n (pre ++ evs) := by
  obtain ⟨pre', sent, polls, c, rfl, hsent, hc⟩ := h
  exact ⟨pre ++ pre', sent, polls, c, by rw [List.append_assoc], hsent, hc⟩

theorem Attempt.endsCompleted (h : Attempt cmd dst fad n .completed evs) :
    EndsCompleted cmd dst fad n evs := by
  cases h with
  | @polled r _ _ hr hpolled =>
      cases hpolled with
      | @completed k w e c hw hk hc =>
          exact ⟨[], r, w ++ [.call 0 [] gdExec e], c, by simp, hr, hc⟩

/-- An attempt one of whose CHECKs answers COMPLETED completes. -/
theorem Attempt.completed_of_check (h : Attempt cmd dst fad n f evs) {r4 : ℕ}
    {block : List ℕ} {c : GdReply} (hmem : .call r4 block gdCheck c ∈ evs)
    (hc : c.r0 = gdCompleted) : f = .completed := by
  cases h with
  | refused hr => simp [gdCheck, gdSend] at hmem
  | polled hr hpolled =>
      have hmem : GdEvent.call r4 block gdCheck c ∈ _ := (List.mem_cons.1 hmem).resolve_left
        fun h => by simp [gdCheck, gdSend] at h
      cases hpolled with
      | completed hw hk hc' => rfl
      | failed hw hk hc' =>
          rcases List.mem_append.1 hmem with hmem | hmem
          · exact absurd hc (hw.not_completed hmem)
          · simp [gdCheck, gdExec] at hmem
            rw [← hmem.2.2, hc] at hc'
            exact absurd hc' (by decide)
      | lost hw hk hlost hc' =>
          rcases List.mem_append.1 hmem with hmem | hmem
          · exact absurd hc (hw.not_completed hmem)
          · simp [gdCheck, gdExec] at hmem
            rw [← hmem.2.2, hc] at hc'
            exact absurd hc' (by decide)
      | dead hw => exact absurd hc (hw.not_completed hmem)

/-- A failed attempt ends by writing its error. -/
theorem Attempt.error_last {e : ℕ} (h : Attempt cmd dst fad n f evs) (hf : f.error = some e) :
    ∃ pre, evs = pre ++ [.lastErr e] := by
  cases h with
  | refused hr =>
      cases hf
      exact ⟨[_], rfl⟩
  | @polled r _ evs hr hpolled =>
      cases hpolled with
      | completed hw hk hc => cases hf
      | dead hw => cases hf
      | @failed k w x c hw hk hc =>
          cases hf
          exact ⟨.call cmd [fad, n, dst, 0] gdSend r ::
            (w ++ [.call 0 [] gdExec x, .call r.r0.toNat [] gdCheck c]), by simp⟩
      | @lost k w x c hw hk hlost hc =>
          cases hf
          exact ⟨.call cmd [fad, n, dst, 0] gdSend r ::
            (w ++ [.call 0 [] gdExec x, .call r.r0.toNat [] gdCheck c]), by simp⟩

/-- How a read from the attempt `k` on ends. -/
inductive Ends (cmd dst fad n k : ℕ) (fates : List Fate) (evs : List GdEvent) :
    Outcome shimSig ℤ → Prop where
  | done {before : List Fate} (hfates : fates = before ++ [.completed])
      (hfailed : ∀ f ∈ before, ∃ e, f.error = some e)
      (hlast : EndsCompleted cmd dst fad n evs) : Ends cmd dst fad n k fates evs (.ret 0)
  | gaveUp (hfour : k + fates.length = 4) (hfailed : ∀ f ∈ fates, ∃ e, f.error = some e)
      (hlast : ∀ f, fates.getLast? = some f →
        ∃ e pre, f.error = some e ∧ evs = pre ++ [.lastErr e]) :
      Ends cmd dst fad n k fates evs (.ret (-2))
  | died {before : List Fate} (hfates : fates = before ++ [.dead])
      (hfailed : ∀ f ∈ before, ∃ e, f.error = some e) :
      Ends cmd dst fad n k fates evs (.halt (.die 5 fad n))
  | stuck (hfailed : ∀ f ∈ fates, ∃ e, f.error = some e) :
      Ends cmd dst fad n k fates evs (.halt (.die 5 0xdead1217 0))

theorem Reads.ends {k : ℕ} {fates : List Fate} {o : Outcome shimSig ℤ}
    (h : Reads b cmd dst fad n k fates o evs) : Ends cmd dst fad n k fates evs o := by
  induction h with
  | gaveUp =>
      exact .gaveUp rfl (fun f h => absurd h List.not_mem_nil) (fun f h => by cases h)
  | stuck hk hlt hrec => exact .stuck fun f h => absurd h List.not_mem_nil
  | completed hlt hprep hatt =>
      exact .done (List.nil_append _).symm (fun f h => absurd h List.not_mem_nil)
        (hatt.endsCompleted.append _)
  | dead hlt hprep hatt =>
      exact .died (List.nil_append _).symm fun f h => absurd h List.not_mem_nil
  | @retry k e f fates o evs evs' rest hlt hprep hfail hatt hrest ih =>
      have hcons : ∀ {fs : List Fate}, (∀ f ∈ fs, ∃ e, f.error = some e) →
          ∀ g ∈ f :: fs, ∃ e, g.error = some e := by
        intro fs hfs g hg
        rcases List.mem_cons.1 hg with rfl | hg
        · exact ⟨e, hfail⟩
        · exact hfs g hg
      cases ih with
      | done hfates hfailed hlast =>
          rw [hfates, ← List.cons_append]
          exact .done rfl (hcons hfailed) (hlast.append _)
      | died hfates hfailed =>
          rw [hfates, ← List.cons_append]
          exact .died rfl (hcons hfailed)
      | stuck hfailed => exact .stuck (hcons hfailed)
      | gaveUp hfour hfailed hlast =>
          refine .gaveUp (by rw [List.length_cons]; omega) (hcons hfailed) fun g hg => ?_
          cases fates with
          | nil =>
              cases hg
              cases hrest
              obtain ⟨pre, rfl⟩ := hatt.error_last hfail
              exact ⟨e, evs ++ pre, hfail, by simp⟩
          | cons f' fates =>
              rw [List.getLast?_cons_cons] at hg
              obtain ⟨e', pre, he', hrest'⟩ := hlast g hg
              exact ⟨e', evs ++ evs' ++ pre, he', by rw [hrest']; simp⟩

theorem Ends.ret_zero {fates : List Fate} {o : Outcome shimSig ℤ}
    (h : Ends cmd dst fad n 0 fates evs o) : o = .ret 0 ↔ .completed ∈ fates := by
  have hnot : ∀ {fs : List Fate}, (∀ f ∈ fs, ∃ e, f.error = some e) → .completed ∉ fs := by
    intro fs hfs hmem
    obtain ⟨e, he⟩ := hfs _ hmem
    cases he
  cases h with
  | done hfates hfailed hlast => simp [hfates]
  | gaveUp hfour hfailed hlast => simp [hnot hfailed]
  | died hfates hfailed => simp [hfates, hnot hfailed]
  | stuck hfailed => simp [hnot hfailed]

end Facts

/-- The two read functions, each with the command it sends and the address it
passes. -/
inductive ReadEngine (b : Build) (fad n : ℕ) : Shim ℤ → ℕ → ℕ → Prop where
  | pio (dst : ℕ) : ReadEngine b fad n (gdReadSectors b dst fad n) cmdPioread dst
  | dma (p : ℕ) :
      ReadEngine b fad n (gdReadSectorsDma b p fad n) cmdDmaread (p &&& 0x1fffffff)

theorem ReadEngine.calls {σ : Type} {M : Machine shimSig σ} {b : Build} {fad n cmd dst : ℕ}
    {p : Shim ℤ} (h : ReadEngine b fad n p cmd dst) :
    Calls M p fun evs o => ∃ fates, Reads b cmd dst fad n 0 fates o evs := by
  cases h with
  | pio => exact @calls_gdRead _ _ gdPio trivial trivial b dst fad n _ _ rfl
  | dma p =>
      refine .quiet_seq (quiet_maskGdIrq _) fun _ => .quiet_seq (quiet_maskGdIrq _) fun _ =>
        .quiet_seq (quiet_maskGdIrq _) fun _ => ?_
      exact @calls_gdRead _ _ (gdDma (p &&& 0x1fffffff) n) (quiet_dcacheInval _ _)
        (.op trivial fun _ => trivial) b _ fad n _ _ rfl

/-- A read makes at most four attempts, all for the same sectors and destination,
keeps the sector mode of the CD build and bounds the polls of each request. It returns
0 exactly when an attempt completes, which is when a CHECK of the request of that
attempt answers COMPLETED; it returns -2 only after four failed attempts with the error
of the last one written last, and dies otherwise. -/
theorem gd_read_retries {σ : Type} {M : Machine shimSig σ} {b : Build} {fad n cmd dst : ℕ}
    {p : Shim ℤ} {s s' : σ} {tr : List (Event shimSig)} {o : Outcome shimSig ℤ}
    (hread : ReadEngine b fad n p cmd dst) (h : Exec M p s tr o s') :
    ∃ fates, Reads b cmd dst fad n 0 fates o (gdEvents tr) ∧ fates.length ≤ 4 ∧
      readSends (gdEvents tr) = List.replicate fates.length (cmd, [fad, n, dst, 0]) ∧
      (b.cdxa = true → ModeKept true (gdEvents tr)) ∧ PollsBounded 0 (gdEvents tr) ∧
      Ends cmd dst fad n 0 fates (gdEvents tr) o ∧ (o = .ret 0 ↔ .completed ∈ fates) ∧
      ∀ f evs, Attempt cmd dst fad n f evs → (f = .completed ↔
        ∃ r4 block c, GdEvent.call r4 block gdCheck c ∈ evs ∧ c.r0 = gdCompleted) := by
  obtain ⟨fates, hreads⟩ := hread.calls.exec h
  have hcmd : cmd ≠ cmdInit := by
    cases hread with
    | pio => decide
    | dma => decide
  obtain ⟨hsends, hmode, hbound⟩ := hreads.facts hcmd
  have hlen := hreads.length_le
  refine ⟨fates, hreads, by omega, hsends, hmode, hbound 0, hreads.ends, hreads.ends.ret_zero,
    fun f evs hatt => ⟨?_, fun ⟨r4, block, c, hmem, hc⟩ => hatt.completed_of_check hmem hc⟩⟩
  rintro rfl
  obtain ⟨pre, sent, polls, c, rfl, -, hc⟩ := hatt.endsCompleted
  exact ⟨sent.r0.toNat, [], c, by simp, hc⟩

/-- A drive that refuses every request. -/
theorem gd_read_retries_refused :
    ∃ fates, Reads .cdi cmdPioread 0x0c800000 45150 1 0 fates (.ret (-2))
      (gdEvents ((gdReadSectors .cdi 0x0c800000 45150 1).run Devices.absent.answer
        ⟨fun _ => 0, fun _ => 0, .idle, fun _ => 0⟩).1) ∧ fates.length ≤ 4 := by
  obtain ⟨fates, hreads, hlen, -⟩ := gd_read_retries (.pio 0x0c800000)
    (Devices.exec Devices.absent.in_world (gdReadSectors .cdi 0x0c800000 45150 1)
      ⟨fun _ => 0, fun _ => 0, .idle, fun _ => 0⟩)
  exact ⟨fates, hreads, hlen⟩

end Cfp2Dreamcast
