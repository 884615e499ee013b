import Cfp2Dreamcast.Cart.Guard
import Cfp2Dreamcast.Machine.Durable

/-!
# What a read delivers

Whatever the drive does, a read that reports success has delivered every byte of
the sectors asked for, and leaves the drive idle. The argument follows the code:
the poll loop keeps the request waiting until the CHECK that completes it, an
attempt starts with the buffer ready, and a failed attempt leaves it ready.
-/

namespace Cfp2Dreamcast

open Program Memory

variable {μ : Type} {B : Bus μ} {Wd : World μ}

/-- The frame of an execution that returns. -/
theorem wp_run {α : Type} {g : Guard shimSig} {p : Shim α} {W D : ℕ → Prop}
    {s : State μ} (hp : Keeps g p) (hg : ∀ c, g.cmd c → c.Within W D)
    (hs : s.drive.Within W) :
    wp (shimMachine B Wd) p (fun _ o s' => ∀ a, o = .ret a →
      B.Run W D s.mem s'.mem ∧ s'.drive.Within W) s := by
  rw [wp_iff_exec]
  rintro tr o s' h a rfl
  exact exec_run h (fun ev hev => hg _ (hp.exec_ret h ev hev)) hs

variable {K : B.Durable} {rd : Read}

/-- Postcondition of a read: a run that returns a value in `ok` has delivered
the read. -/
def Delivers (K : B.Durable) (disc : Disc) (rd : Read) {α : Type} (ok : α → Prop)
    (_ : List (Event shimSig)) (o : Outcome shimSig α) (s' : State μ) : Prop :=
  ∀ a, o = .ret a → ok a → K.Holds s'.mem disc rd ∧ s'.drive = .idle

theorem gdPollStep_delivers (hrd : K.Spread rd) {s : State μ} {req guard : ℕ}
    {again : Shim Bool}
    (hagain : ∀ s : State μ, K.Waiting (s.mem, s.drive) Wd.disc req rd →
      wp (shimMachine B Wd) again (fun tr => Delivers K Wd.disc rd (· = true) tr) s)
    (hs : K.Waiting (s.mem, s.drive) Wd.disc req rd) :
    wp (shimMachine B Wd) (gdPollStep req guard again)
      (fun tr => Delivers K Wd.disc rd (· = true) tr) s := by
  intro _ s₁ hexec
  obtain ⟨m₁, d₁, hgd₁, rfl⟩ := hexec
  have hs₁ := hs.transfers hrd (hgd₁.of_other (by decide) (by decide))
  intro r s₂ hcheck
  obtain ⟨m₂, d₂, hgd₂, rfl⟩ := hcheck
  show wp _ (ite _ _ _) _ _
  rcases hgd₂.of_check with ⟨rd', d₃, hcompl, htr, hdata, rfl⟩ | ⟨hnot, htr⟩
  · obtain ⟨hr0, hpending⟩ := hcompl
    cases hs₁.pending.symm.trans hpending
    rw [if_pos hr0]
    exact fun _ _ _ => ⟨(hs₁.transfers hrd htr).holds hdata, rfl⟩
  · have hr0 : r.r0 ≠ gdCompleted := fun h => hnot rd ⟨h, hs₁.pending⟩
    rw [if_neg hr0]
    split
    · rintro _ s₃ hput _ ⟨⟩ ⟨⟩
    · split
      · rintro _ s₃ hput _ ⟨⟩ ⟨⟩
      · exact hagain _ (hs₁.transfers hrd htr)

theorem gdPoll_delivers (hrd : K.Spread rd) {s : State μ} {fad n req left guard : ℕ}
    (hs : K.Waiting (s.mem, s.drive) Wd.disc req rd) :
    wp (shimMachine B Wd) (gdPoll fad n req left guard)
      (fun tr => Delivers K Wd.disc rd (· = true) tr) s := by
  induction left generalizing guard s with
  | zero =>
      refine gdPollStep_delivers hrd (fun s' hs' => ?_) hs
      rw [wp_iff_exec]
      rintro tr o s'' h a rfl
      have hdies : Dooms ⟨DieCmd, DieCmd, fun _ => True⟩ (shimDie 5 fad n : Shim Bool) :=
        dooms_shimDie (fun _ hc => hc) trivial
      obtain ⟨e, he, -⟩ := (hdies.exec h).2
      cases he
  | succ left ih => exact gdPollStep_delivers hrd (fun s' hs' => ih hs') hs

section Attempt

variable {md : GdMode} {dst fad n : ℕ}

/-- The buffer of the read is ready and nothing else is open. -/
def Open (K : B.Durable) (disc : Disc) (rd : Read) (s : State μ) : Prop :=
  K.Ready s.mem disc rd ∧ s.drive.Within rd.buffer.Mem

theorem gdAttempt_delivers (hrd : K.Spread rd) {s : State μ}
    (hsent : sentRead md.cmd [fad, n, dst, 0] = some rd)
    (hprepare : wp (shimMachine B Wd) md.prepare
      (fun _ o s' => ∀ a, o = .ret a → Open K Wd.disc rd s') s)
    (hfinish : ∀ s : State μ, wp (shimMachine B Wd) md.finish
      (fun _ _ s' => s'.mem = s.mem ∧ s'.drive = s.drive) s) :
    wp (shimMachine B Wd) (gdAttempt md dst fad n)
      (fun tr => Delivers K Wd.disc rd (· = true) tr) s := by
  refine wp_seq hprepare (fun tr a s₁ hs₁ => ?_) fun tr e s₁ _ a h => by cases h
  obtain ⟨hready, hwithin⟩ := hs₁ a rfl
  intro r s₂ hsend
  obtain ⟨m, d, hgd, rfl⟩ := hsend
  show wp _ (ite _ _ _) _ _
  split
  · rintro _ s₃ hput _ ⟨⟩ ⟨⟩
  · next hr0 =>
    have hpos : 0 < r.r0 := not_le.1 hr0
    have hwait := (Bus.Durable.Waiting.of_send hpos hsent hwithin hready).transfers
      hrd hgd.of_send
    rw [← Int.toNat_of_nonneg hpos.le] at hwait
    refine wp_seq (gdPoll_delivers hrd hwait) (fun tr ok s₃ hok => ?_)
      (fun tr e s₁ _ a h => by cases h)
    cases ok with
    | false => rintro a ⟨⟩ ⟨⟩
    | true =>
        obtain ⟨hholds, hidle⟩ := hok true rfl rfl
        refine wp_seq (hfinish s₃) (fun tr a s₄ hs₄ _ _ _ => ?_)
          (fun tr e s₁ _ a h => by cases h)
        rw [hs₄.1, hs₄.2]
        exact ⟨hholds, hidle⟩

variable {D : ℕ → Prop}

/-- The retry loop, for a condition `E` on the memory that failed attempts keep
and that lets each attempt prepare its buffer. -/
theorem gdRead_delivers (b : Build) (md : GdMode) (E : μ → Prop) (hrd : K.Spread rd)
    (hsent : sentRead md.cmd [fad, n, dst, 0] = some rd)
    (hkeeps : Keeps (cartGuard (· = rd) D fun _ => False) md.prepare)
    (hkeeps' : Keeps (cartGuard (· = rd) D fun _ => False) md.finish)
    (hE : ∀ m m', B.Run rd.buffer.Mem D m m' → E m → E m')
    (hprepare : ∀ s : State μ, E s.mem → s.drive.Within rd.buffer.Mem →
      wp (shimMachine B Wd) md.prepare
        (fun _ o s' => ∀ a, o = .ret a → Open K Wd.disc rd s') s)
    (hfinish : ∀ s : State μ, wp (shimMachine B Wd) md.finish
      (fun _ _ s' => s'.mem = s.mem ∧ s'.drive = s.drive) s)
    {left attempt : ℕ} {s : State μ} (hs : E s.mem) (hd : s.drive.Within rd.buffer.Mem) :
    wp (shimMachine B Wd) (gdRead b md dst fad n left attempt)
      (fun tr => Delivers K Wd.disc rd (0 ≤ ·) tr) s := by
  have hwithin : ∀ c, (cartGuard (· = rd) D fun _ => False).cmd c →
      c.Within rd.buffer.Mem D := fun c hc =>
    CartCmd.within hc (fun rd' hrd' a ha => hrd' ▸ ha) fun a ha => ha.elim
  have hP : ∀ rd', sentRead md.cmd [fad, n, dst, 0] = some rd' → rd' = rd := by
    intro rd' hrd'
    exact Option.some.inj (hrd'.symm.trans hsent)
  induction left generalizing attempt s with
  | zero =>
      rintro a ⟨⟩ hneg
      exact absurd hneg (by decide)
  | succ left ih =>
      have hrecover : Keeps (cartGuard (· = rd) D fun _ => False)
          (Prog.whenever (attempt ≠ 0) (gdRecover b)) :=
        Keeps.whenever fun _ => gdRecover_keeps b
      refine wp_seq (wp_run hrecover hwithin hd) (fun tr a s₁ hs₁ => ?_)
        (fun tr e s₁ _ a h => by cases h)
      obtain ⟨hrun₁, hd₁⟩ := hs₁ a rfl
      have he₁ := hE _ _ hrun₁ hs
      refine wp_seq ((gdAttempt_delivers hrd hsent (hprepare s₁ he₁ hd₁) hfinish).and
        (wp_run (gdAttempt_keeps hkeeps hkeeps' hP) hwithin hd₁))
        (fun tr ok s₂ hs₂ => ?_) (fun tr e s₁ _ a h => by cases h)
      obtain ⟨hdeliv, hframe⟩ := hs₂
      obtain ⟨hrun₂, hd₂⟩ := hframe ok rfl
      cases ok with
      | false => exact ih (hE _ _ hrun₂ he₁) hd₂
      | true => exact fun _ _ _ => hdeliv true rfl rfl

end Attempt

end Cfp2Dreamcast
