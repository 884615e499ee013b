import Cfp2Dreamcast.Program.Rules

/-!
# Monitors

A monitor reads the commands of a program one after the other in a state of its
own. `Tracks N p Q x` says that, started in `x`, the monitor `N` accepts every
command that `p` can issue, whatever the responses are, accepts the ways in which
`p` halts, and is in a state that satisfies `Q` when `p` returns. It is a guard
with a memory: what a command has to satisfy may depend on the commands before it.

`Tracked N p` is the part that needs no assumption on the state of the monitor.
-/

namespace Program

variable {S : Signature} {κ σ α β : Type}

structure Monitor (S : Signature) (κ : Type) where
  next : κ → S.Cmd → κ
  ok : κ → S.Cmd → Prop
  halt : S.Halt → Prop

def Tracks (N : Monitor S κ) : Prog S α → (κ → α → Prop) → κ → Prop
  | .ret a, Q, x => Q x a
  | .halt e, _, _ => N.halt e
  | .op c k, Q, x => N.ok x c ∧ ∀ r, Tracks N (k r) Q (N.next x c)

/-- The monitor accepts the program from each of its states. -/
structure Tracked (N : Monitor S κ) (p : Prog S α) : Prop where
  tracks : ∀ x, Tracks N p (fun _ _ => True) x

variable {N N' : Monitor S κ} {p : Prog S α} {x : κ}

theorem Tracks.mono {Q Q' : κ → α → Prop} (hp : Tracks N p Q x)
    (hQ : ∀ y a, Q y a → Q' y a) : Tracks N p Q' x := by
  induction p generalizing x with
  | ret a => exact hQ x a hp
  | halt e => exact hp
  | op c k ih => exact ⟨hp.1, fun r => ih r (hp.2 r)⟩

theorem Tracks.bind {Q : κ → α → Prop} {R : κ → β → Prop} {f : α → Prog S β}
    (hp : Tracks N p Q x) (hf : ∀ y a, Q y a → Tracks N (f a) R y) :
    Tracks N (p >>= f) R x := by
  induction p generalizing x with
  | ret a => exact hf x a hp
  | halt e => exact hp
  | op c k ih => exact ⟨hp.1, fun r => ih r (hp.2 r)⟩

theorem tracked_ret (a : α) : Tracked N (.ret a : Prog S α) := ⟨fun _ => trivial⟩

theorem tracked_halt {e : S.Halt} (he : N.halt e) : Tracked N (.halt e : Prog S α) :=
  ⟨fun _ => he⟩

theorem Tracked.op {c : S.Cmd} {k : S.Resp c → Prog S α} (hc : ∀ x, N.ok x c)
    (hk : ∀ r, Tracked N (k r)) : Tracked N (.op c k) :=
  ⟨fun x => ⟨hc x, fun r => (hk r).tracks _⟩⟩

theorem Tracked.bind {f : α → Prog S β} (hp : Tracked N p) (hf : ∀ a, Tracked N (f a)) :
    Tracked N (p >>= f) := ⟨fun x => (hp.tracks x).bind fun y a _ => (hf a).tracks y⟩

theorem Tracked.whenever {b : Prop} [Decidable b] {q : Prog S Unit} (hq : b → Tracked N q) :
    Tracked N (Prog.whenever b q) := by
  by_cases hb : b
  · rw [Prog.whenever_pos hb]
    exact hq hb
  · rw [Prog.whenever_neg hb]
    exact tracked_ret ()

section Runs

variable {M : Machine S σ} {s s' : σ} {tr : List (Event S)} {o : Outcome S α}
  {Q : κ → α → Prop}

/-- Along an execution every command is accepted in some state of the monitor. -/
theorem Tracks.exec (hp : Tracks N p Q x) (h : Exec M p s tr o s') :
    ∀ ev ∈ tr, ∃ y, N.ok y ev.cmd := by
  induction h generalizing x with
  | ret a s => simp
  | halt e s => simp
  | op hstep hrest ih =>
      intro ev hev
      rcases List.mem_cons.1 hev with rfl | hev
      · exact ⟨x, hp.1⟩
      · exact ih (hp.2 _) ev hev

theorem Tracks.exec_halt {e : S.Halt} (hp : Tracks N p Q x)
    (h : Exec M p s tr (.halt e) s') : N.halt e := by
  generalize ho : Outcome.halt e = o at h
  induction h generalizing x with
  | ret a s => cases ho
  | halt e' s =>
      cases ho
      exact hp
  | op hstep hrest ih => exact ih (hp.2 _) ho

end Runs

end Program
