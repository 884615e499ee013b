import Cfp2Dreamcast.Program.Monitor
import Mathlib.Logic.Relation

/-!
# A program and its interrupts

A background program and an interrupt program run over one machine. The
interrupt program may start between any two commands of the background program
and runs to its end; it is not interrupted itself. In between, devices may
change the state at any time (`env`), and while neither program runs so may code
that is not modelled (`idle`). Both programs can be started any number of times.

`reachable_inv` is the rule for invariants: the background program is bounded by
a guard, the interrupt program by a monitor whose state is related to the state
of the machine.
-/

namespace Program

variable {S : Signature} {σ κ α β : Type}

/-- The state of the machine and what is left of the two programs. -/
structure Config (S : Signature) (σ α β : Type) where
  state : σ
  main : Option (Prog S α)
  isr : Option (Prog S β)

/-- The parts of a preemptive system. -/
structure Preempt (S : Signature) (σ α β : Type) where
  machine : Machine S σ
  env : σ → σ → Prop
  idle : σ → σ → Prop
  main : Prog S α
  isr : Prog S β

namespace Preempt

variable (P : Preempt S σ α β)

/-- One step, with the command it performs if it performs one. -/
inductive Step : Config S σ α β → Option S.Cmd → Config S σ α β → Prop
  | env {s s' : σ} {m : Option (Prog S α)} {i : Option (Prog S β)} (h : P.env s s') :
      Step ⟨s, m, i⟩ none ⟨s', m, i⟩
  | idle {s s' : σ} (h : P.idle s s') : Step ⟨s, none, none⟩ none ⟨s', none, none⟩
  | call {s : σ} : Step ⟨s, none, none⟩ none ⟨s, some P.main, none⟩
  | main {s s' : σ} {c : S.Cmd} {k : S.Resp c → Prog S α} {r : S.Resp c}
      (h : P.machine.step s c r s') :
      Step ⟨s, some (.op c k), none⟩ (some c) ⟨s', some (k r), none⟩
  | back {s : σ} {a : α} : Step ⟨s, some (.ret a), none⟩ none ⟨s, none, none⟩
  | interrupt {s : σ} {m : Option (Prog S α)} : Step ⟨s, m, none⟩ none ⟨s, m, some P.isr⟩
  | isr {s s' : σ} {m : Option (Prog S α)} {c : S.Cmd} {k : S.Resp c → Prog S β}
      {r : S.Resp c} (h : P.machine.step s c r s') :
      Step ⟨s, m, some (.op c k)⟩ (some c) ⟨s', m, some (k r)⟩
  | iret {s : σ} {m : Option (Prog S α)} {b : β} :
      Step ⟨s, m, some (.ret b)⟩ none ⟨s, m, none⟩

/-- Any number of steps. -/
def Run : Config S σ α β → Config S σ α β → Prop :=
  Relation.ReflTransGen fun x y => ∃ c, P.Step x c y

/-- What keeps an invariant `I`: a guard of the background program, a monitor of
the interrupt program and a relation between its states and those of the
machine. -/
structure Invariant (I : σ → Prop) (g : Guard S) (N : Monitor S κ) (R : κ → σ → Prop) :
    Prop where
  main : Keeps g P.main
  isr : Tracked N P.isr
  start : ∀ s, ∃ x, R x s
  env : ∀ {s s'}, P.env s s' → I s → I s'
  env_rel : ∀ {s s' x}, P.env s s' → I s → R x s → R x s'
  idle : ∀ {s s'}, P.idle s s' → I s → I s'
  main_step : ∀ {s s' c r}, P.machine.step s c r s' → g.cmd c ∨ g.last c → I s → I s'
  isr_step : ∀ {s s' c r x}, P.machine.step s c r s' → N.ok x c → I s → R x s →
    I s' ∧ R (N.next x c) s'

/-- What holds of a configuration: the invariant of its state, and that both
programs stay within their bounds. -/
structure Inv (I : σ → Prop) (g : Guard S) (N : Monitor S κ) (R : κ → σ → Prop)
    (y : Config S σ α β) : Prop where
  state : I y.state
  main : ∀ p, y.main = some p → Keeps g p
  isr : ∀ p, y.isr = some p → ∃ x, R x y.state ∧ Tracks N p (fun _ _ => True) x

variable {P} {I : σ → Prop} {g : Guard S} {N : Monitor S κ} {R : κ → σ → Prop}

theorem keeps_next {c : S.Cmd} {k : S.Resp c → Prog S α} (h : Keeps g (.op c k)) :
    (g.cmd c ∨ g.last c) ∧ ∀ r, Keeps g (k r) := by
  rcases h with ⟨hc, hk⟩ | ⟨hc, hk⟩
  · exact ⟨.inl hc, hk⟩
  · exact ⟨.inr hc, fun r => (hk r).keeps⟩

theorem inv_step (h : P.Invariant I g N R) {y y' : Config S σ α β} {c : Option S.Cmd}
    (hstep : P.Step y c y') (hy : Inv I g N R y) : Inv I g N R y' := by
  cases hstep with
  | env henv =>
      refine ⟨h.env henv hy.state, hy.main, fun p hp => ?_⟩
      obtain ⟨x, hx, hp'⟩ := hy.isr p hp
      exact ⟨x, h.env_rel henv hy.state hx, hp'⟩
  | idle hidle => exact ⟨h.idle hidle hy.state, hy.main, fun p hp => by cases hp⟩
  | call =>
      refine ⟨hy.state, fun p hp => ?_, hy.isr⟩
      cases hp
      exact h.main
  | main hc =>
      obtain ⟨hok, hk⟩ := keeps_next (hy.main _ rfl)
      refine ⟨h.main_step hc hok hy.state, fun p hp => ?_, fun p hp => by cases hp⟩
      cases hp
      exact hk _
  | back => exact ⟨hy.state, fun p hp => (by cases hp), hy.isr⟩
  | interrupt =>
      refine ⟨hy.state, hy.main, fun p hp => ?_⟩
      cases hp
      obtain ⟨x, hx⟩ := h.start _
      exact ⟨x, hx, h.isr.tracks x⟩
  | isr hc =>
      obtain ⟨x, hx, hok, hk⟩ := hy.isr _ rfl
      obtain ⟨hI, hR⟩ := h.isr_step hc hok hy.state hx
      refine ⟨hI, hy.main, fun p hp => ?_⟩
      cases hp
      exact ⟨_, hR, hk _⟩
  | iret => exact ⟨hy.state, hy.main, fun p hp => (by cases hp)⟩

/-- The rule for runs. -/
theorem reachable_inv (h : P.Invariant I g N R) {y y' : Config S σ α β} (hrun : P.Run y y')
    (hy : Inv I g N R y) : Inv I g N R y' := by
  induction hrun with
  | refl => exact hy
  | tail _ hstep ih =>
      obtain ⟨c, hstep⟩ := hstep
      exact inv_step h hstep ih

/-- A command is one that the guard of the background program allows, or one that
the monitor of the interrupt program accepts in a state related to the machine's. -/
theorem Inv.cmd {y y' : Config S σ α β} {c : S.Cmd} (hy : Inv I g N R y)
    (hstep : P.Step y (some c) y') :
    (g.cmd c ∨ g.last c) ∨ ∃ x, R x y.state ∧ N.ok x c := by
  cases hstep with
  | main hc => exact .inl (keeps_next (hy.main _ rfl)).1
  | isr hc =>
      obtain ⟨x, hx, hok, -⟩ := hy.isr _ rfl
      exact .inr ⟨x, hx, hok⟩

/-- An execution of the interrupt program is a run: each of its commands is a step
of a reachable configuration. -/
theorem run_of_exec {s s' : σ} {p : Prog S β} {m : Option (Prog S α)} {tr : List (Event S)}
    {o : Outcome S β} (h : Exec P.machine p s tr o s') :
    ∀ ev ∈ tr, ∃ y y', P.Run ⟨s, m, some p⟩ y ∧ P.Step y (some ev.cmd) y' := by
  induction h with
  | ret a s => simp
  | halt e s => simp
  | op hstep hrest ih =>
      intro ev hev
      rcases List.mem_cons.1 hev with rfl | hev
      · exact ⟨_, _, .refl, .isr hstep⟩
      · obtain ⟨y, y', hrun, hy⟩ := ih ev hev
        exact ⟨y, y', .head ⟨_, .isr hstep⟩ hrun, hy⟩

end Preempt

end Program
