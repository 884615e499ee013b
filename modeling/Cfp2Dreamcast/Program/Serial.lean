import Cfp2Dreamcast.Program.Preempt
import Mathlib.Logic.Nonempty

/-!
# An interrupted program and its uninterrupted run

The background program of a preemptive system can be suspended between any two
of its commands. `Reaches` is an execution in progress, and `Before M P p s` says
that `P` holds before each command of `p`, however the execution from `s` goes on.

`Serial` relates the state of the system to the state of an execution of the
background program alone: its own commands are matched by that execution, and
nothing else that happens disturbs the relation. `serial_run` is the rule: at any
time in a calm run the background program is where an uninterrupted execution can
be, so whatever holds of its executions holds of it in the system.
-/

namespace Program

variable {S : Signature} {σ κ α β : Type}

/-- From `s` the program has performed the events of the trace, `q` is left of it
and the state is `t`. -/
inductive Reaches (M : Machine S σ) (p : Prog S α) (s : σ) :
    List (Event S) → Prog S α → σ → Prop where
  | refl : Reaches M p s [] p s
  | tail {tr : List (Event S)} {c : S.Cmd} {k : S.Resp c → Prog S α} {r : S.Resp c} {t t' : σ}
      (h : Reaches M p s tr (.op c k) t) (hstep : M.step t c r t') :
      Reaches M p s (tr ++ [⟨c, r⟩]) (k r) t'

/-- `P` holds before each command of the program. -/
def Before (M : Machine S σ) (P : σ → S.Cmd → Prop) : Prog S α → σ → Prop
  | .ret _, _ => True
  | .halt _, _ => True
  | .op c k, s => P s c ∧ ∀ r s', M.step s c r s' → Before M P (k r) s'

section Prefixes

variable {M : Machine S σ} {P : σ → S.Cmd → Prop} {p q : Prog S α} {s s' t : σ}
  {tr tr' : List (Event S)} {o : Outcome S α}

theorem Reaches.exec (h : Reaches M p s tr q t) (hq : Exec M q t tr' o s') :
    Exec M p s (tr ++ tr') o s' := by
  induction h generalizing tr' with
  | refl => exact hq
  | tail _ hstep ih =>
      rw [List.append_assoc]
      exact ih (.op hstep hq)

theorem Reaches.exec_ret {a : α} (h : Reaches M p s tr (.ret a) t) :
    Exec M p s tr (.ret a) t := by
  have hexec := h.exec (.ret a t)
  rwa [List.append_nil] at hexec

theorem Reaches.exec_halt {e : S.Halt} (h : Reaches M p s tr (.halt e) t) :
    Exec M p s tr (.halt e) t := by
  have hexec := h.exec (.halt e t)
  rwa [List.append_nil] at hexec

theorem Before.bind {f : α → Prog S β} (hp : Before M P p s)
    (hf : ∀ tr a s', Exec M p s tr (.ret a) s' → Before M P (f a) s') :
    Before M P (p >>= f) s := by
  induction p generalizing s with
  | ret a => exact hf [] a s (.ret a s)
  | halt e => trivial
  | op c k ih =>
      exact ⟨hp.1, fun r s₁ hstep => ih r (hp.2 r s₁ hstep) fun tr a s' hexec =>
        hf _ a s' (.op hstep hexec)⟩

theorem Before.whenever {b : Prop} [Decidable b] {p : Prog S Unit} (hp : b → Before M P p s) :
    Before M P (Prog.whenever b p) s := by
  by_cases hb : b
  · rw [Prog.whenever_pos hb]
    exact hp hb
  · rw [Prog.whenever_neg hb]
    trivial

/-- The commands of a guard, in states that satisfy an invariant. -/
theorem Keeps.before {g : Guard S} {I : σ → Prop} (hp : Keeps g p)
    (hP : ∀ s c, g.cmd c ∨ g.last c → I s → P s c)
    (hI : ∀ s c r s', g.cmd c ∨ g.last c → M.step s c r s' → I s → I s') (hs : I s) :
    Before M P p s := by
  induction p generalizing s with
  | ret a => trivial
  | halt e => trivial
  | op c k ih =>
      obtain ⟨hc, hk⟩ := Preempt.keeps_next hp
      exact ⟨hP s c hc hs, fun r s₁ hstep => ih r (hk r) (hI s c r s₁ hc hstep hs)⟩

end Prefixes

namespace Preempt

variable (P : Preempt S σ α β)

/-- The step is not one of the background program. -/
def Foreign (y : Config S σ α β) (c : Option S.Cmd) : Prop := c = none ∨ y.isr ≠ none

/-- A step that, if it is a foreign one while the background program is under way,
changes the state only as `E` allows for its command. -/
def CalmStep (E : Option S.Cmd → σ → σ → Prop) (y y' : Config S σ α β) : Prop :=
  ∃ c, P.Step y c y' ∧ (y.main ≠ none → Foreign y c → E c y.state y'.state)

def CalmRun (E : Option S.Cmd → σ → σ → Prop) : Config S σ α β → Config S σ α β → Prop :=
  Relation.ReflTransGen (P.CalmStep E)

/-- `R s₁ t s`: the background program was called in `s₁`, an execution of it alone
would now be in `t`, and the system is in `s`. `I` holds while it is not under way, and
`C s₁` before each of its commands. -/
structure Serial (E : Option S.Cmd → σ → σ → Prop) (N : Monitor S κ) (I : σ → Prop)
    (C : σ → σ → S.Cmd → Prop) (R : σ → σ → σ → Prop) : Prop where
  isr : Tracked N P.isr
  start : ∀ {s}, I s → R s s s ∧ Before P.machine (C s) P.main s
  main_step : ∀ {s₁ t s s' c r}, R s₁ t s → C s₁ t c → P.machine.step s c r s' →
    ∃ t', P.machine.step t c r t' ∧ R s₁ t' s'
  env_step : ∀ {s₁ t s s'}, P.env s s' → E none s s' → R s₁ t s → R s₁ t s'
  isr_step : ∀ {s₁ t s s' c r x}, P.machine.step s c r s' → N.ok x c → E (some c) s s' →
    R s₁ t s → R s₁ t s'
  back : ∀ {s₁ t s tr a}, I s₁ → Exec P.machine P.main s₁ tr (.ret a) t → R s₁ t s → I s
  env_rest : ∀ {s s'}, P.env s s' → I s → I s'
  idle_rest : ∀ {s s'}, P.idle s s' → I s → I s'
  isr_rest : ∀ {s s' c r x}, P.machine.step s c r s' → N.ok x c → I s → I s'

/-- What holds of a configuration of a calm run. -/
structure SerialInv (N : Monitor S κ) (I : σ → Prop) (C : σ → σ → S.Cmd → Prop)
    (R : σ → σ → σ → Prop) (y : Config S σ α β) : Prop where
  isr : ∀ p, y.isr = some p → ∃ x, Tracks N p (fun _ _ => True) x
  rest : y.main = none → I y.state
  busy : ∀ q, y.main = some q → ∃ s₁ tr t, I s₁ ∧ Reaches P.machine P.main s₁ tr q t ∧
    Before P.machine (C s₁) q t ∧ R s₁ t y.state

variable {P} {E : Option S.Cmd → σ → σ → Prop} {N : Monitor S κ} {I : σ → Prop}
  {C : σ → σ → S.Cmd → Prop} {R : σ → σ → σ → Prop}

theorem serial_step [Nonempty κ] (h : P.Serial E N I C R) {y y' : Config S σ α β}
    (hstep : P.CalmStep E y y') (hy : P.SerialInv N I C R y) : P.SerialInv N I C R y' := by
  obtain ⟨c, hstep, hcalm⟩ := hstep
  cases hstep with
  | env henv =>
      refine ⟨hy.isr, fun hm => h.env_rest henv (hy.rest hm), fun q hq => ?_⟩
      obtain ⟨s₁, tr, t, hs₁, hreach, hbefore, hR⟩ := hy.busy q hq
      have hE := hcalm (fun hm => (by cases hm.symm.trans hq)) (.inl rfl)
      exact ⟨s₁, tr, t, hs₁, hreach, hbefore, h.env_step henv hE hR⟩
  | idle hidle =>
      exact ⟨hy.isr, fun hm => h.idle_rest hidle (hy.rest hm), fun q hq => (by cases hq)⟩
  | call =>
      refine ⟨hy.isr, fun hm => (by cases hm), fun q hq => ?_⟩
      cases hq
      obtain ⟨hR, hbefore⟩ := h.start (hy.rest rfl)
      exact ⟨_, [], _, hy.rest rfl, .refl, hbefore, hR⟩
  | @main s s' c k r hc =>
      refine ⟨fun p hp => (by cases hp), fun hm => (by cases hm), fun q hq => ?_⟩
      cases hq
      obtain ⟨s₁, tr, t, hs₁, hreach, hbefore, hR⟩ := hy.busy _ rfl
      obtain ⟨t', ht, hR'⟩ := h.main_step hR hbefore.1 hc
      exact ⟨s₁, _, t', hs₁, hreach.tail ht, hbefore.2 r t' ht, hR'⟩
  | back =>
      refine ⟨hy.isr, fun _ => ?_, fun q hq => (by cases hq)⟩
      obtain ⟨s₁, tr, t, hs₁, hreach, -, hR⟩ := hy.busy _ rfl
      exact h.back hs₁ hreach.exec_ret hR
  | interrupt =>
      refine ⟨fun p hp => ?_, hy.rest, hy.busy⟩
      cases hp
      exact ⟨Classical.arbitrary κ, h.isr.tracks _⟩
  | @isr s s' m c k r hc =>
      obtain ⟨x, hok, hk⟩ := hy.isr _ rfl
      refine ⟨fun p hp => ?_, fun hm => h.isr_rest hc hok (hy.rest hm), fun q hq => ?_⟩
      · cases hp
        exact ⟨_, hk r⟩
      · obtain ⟨s₁, tr, t, hs₁, hreach, hbefore, hR⟩ := hy.busy q hq
        have hE := hcalm (fun hm => (by cases hm.symm.trans hq)) (.inr (by simp))
        exact ⟨s₁, tr, t, hs₁, hreach, hbefore, h.isr_step hc hok hE hR⟩
  | iret => exact ⟨fun p hp => (by cases hp), hy.rest, hy.busy⟩

/-- The rule for calm runs. -/
theorem serial_run [Nonempty κ] (h : P.Serial E N I C R) {y y' : Config S σ α β}
    (hrun : P.CalmRun E y y')
    (hy : P.SerialInv N I C R y) : P.SerialInv N I C R y' := by
  induction hrun with
  | refl => exact hy
  | tail _ hstep ih => exact serial_step h hstep ih

/-- An execution of the background program that is not interrupted is a calm run. -/
theorem calmRun_of_exec {p : Prog S α} {s s' : σ} {tr : List (Event S)} {o : Outcome S α}
    (h : Exec P.machine p s tr o s') : ∃ q : Prog S α, P.CalmRun E ⟨s, some p, none⟩
      ⟨s', some q, none⟩ ∧ (∀ a, o = .ret a → q = .ret a) ∧ ∀ e, o = .halt e → q = .halt e := by
  induction h with
  | ret a s => exact ⟨_, .refl, fun _ h => (by cases h; rfl), fun _ h => by cases h⟩
  | halt e s => exact ⟨_, .refl, fun _ h => (by cases h), fun _ h => by cases h; rfl⟩
  | @op c k s s₁ s₂ r tr o hstep hrest ih =>
      obtain ⟨q, hrun, hq⟩ := ih
      refine ⟨q, .head ⟨some c, .main hstep, fun _ hf => ?_⟩ hrun, hq⟩
      rcases hf with hf | hf
      · cases hf
      · exact absurd rfl hf

end Preempt

end Program
