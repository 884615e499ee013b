import Mathlib.Logic.Basic

/-!
# Programs over a command signature

A program issues commands to a machine and continues on each response, returns
a value, or halts for good. Programs are trees, so every program terminates on
every machine; what a command does is left to the machine, which is a relation
and may therefore answer in several ways.

`Exec M p s tr o s'` is the operational reading: from the state `s` the program
`p` performs the commands of the trace `tr` in order and ends with the outcome
`o` in the state `s'`. The rules used in proofs are in `Program/Rules.lean`.
-/

namespace Program

/-- The commands of a machine, the type of the response to each, and the ways
in which a program can halt without returning. -/
structure Signature where
  Cmd : Type
  Resp : Cmd → Type
  Halt : Type

/-- A program that returns values of type `α`. -/
inductive Prog (S : Signature) (α : Type) : Type where
  | ret (a : α)
  | halt (e : S.Halt)
  | op (c : S.Cmd) (k : S.Resp c → Prog S α)

/-- How a program ends. -/
inductive Outcome (S : Signature) (α : Type) : Type where
  | ret (a : α)
  | halt (e : S.Halt)

/-- One command of a trace with the response it got. -/
structure Event (S : Signature) where
  cmd : S.Cmd
  resp : S.Resp cmd

/-- A machine answers each command with a response and a new state. -/
structure Machine (S : Signature) (σ : Type) where
  step : σ → (c : S.Cmd) → S.Resp c → σ → Prop

namespace Prog

variable {S : Signature} {α β γ : Type}

def bind : Prog S α → (α → Prog S β) → Prog S β
  | .ret a, f => f a
  | .halt e, _ => .halt e
  | .op c k, f => .op c fun r => bind (k r) f

instance : Monad (Prog S) where
  pure := .ret
  bind := bind

@[simp] theorem pure_eq (a : α) : (pure a : Prog S α) = .ret a := rfl

@[simp] theorem ret_bind (a : α) (f : α → Prog S β) :
    (Prog.ret a >>= f) = f a := rfl

@[simp] theorem halt_bind (e : S.Halt) (f : α → Prog S β) :
    (Prog.halt e >>= f) = .halt e := rfl

@[simp] theorem op_bind (c : S.Cmd) (k : S.Resp c → Prog S α)
    (f : α → Prog S β) :
    (Prog.op c k >>= f) = .op c fun r => k r >>= f := rfl

theorem bind_ret (p : Prog S α) : (p >>= fun a => .ret a) = p := by
  induction p with
  | ret a => rfl
  | halt e => rfl
  | op c k ih =>
      rw [op_bind]
      exact congrArg _ (funext ih)

theorem bind_assoc' (p : Prog S α) (f : α → Prog S β) (g : β → Prog S γ) :
    ((p >>= f) >>= g) = p >>= fun a => f a >>= g := by
  induction p with
  | ret a => rfl
  | halt e => rfl
  | op c k ih =>
      rw [op_bind, op_bind, op_bind]
      exact congrArg _ (funext ih)

instance : LawfulMonad (Prog S) :=
  LawfulMonad.mk' (Prog S) bind_ret (fun _ _ => rfl) bind_assoc'

/-- The program that issues one command and returns the response. -/
def perform (c : S.Cmd) : Prog S (S.Resp c) := .op c .ret

@[simp] theorem perform_bind (c : S.Cmd) (f : S.Resp c → Prog S β) :
    (perform c >>= f) = .op c f := rfl

/-- Run `p` when `b` holds. -/
def whenever (b : Prop) [Decidable b] (p : Prog S Unit) : Prog S Unit :=
  if b then p else .ret ()

theorem whenever_pos {b : Prop} [Decidable b] (hb : b) (p : Prog S Unit) :
    whenever b p = p := if_pos hb

theorem whenever_neg {b : Prop} [Decidable b] (hb : ¬ b) (p : Prog S Unit) :
    whenever b p = .ret () := if_neg hb

end Prog

section Execution

variable {S : Signature} {σ τ α β : Type}

/-- From `s` the program performs the events of the trace and ends with an
outcome and a state. -/
inductive Exec (M : Machine S σ) :
    Prog S α → σ → List (Event S) → Outcome S α → σ → Prop where
  | ret (a : α) (s : σ) : Exec M (.ret a) s [] (.ret a) s
  | halt (e : S.Halt) (s : σ) : Exec M (.halt e) s [] (.halt e) s
  | op {c : S.Cmd} {k : S.Resp c → Prog S α} {s s₁ s₂ : σ} {r : S.Resp c}
      {tr : List (Event S)} {o : Outcome S α}
      (hstep : M.step s c r s₁) (hrest : Exec M (k r) s₁ tr o s₂) :
      Exec M (.op c k) s (⟨c, r⟩ :: tr) o s₂

theorem Exec.bind_ret {M : Machine S σ} {p : Prog S α} {f : α → Prog S β}
    {s s₁ s₂ : σ} {tr tr' : List (Event S)} {a : α} {o : Outcome S β}
    (hp : Exec M p s tr (.ret a) s₁) (hf : Exec M (f a) s₁ tr' o s₂) :
    Exec M (p >>= f) s (tr ++ tr') o s₂ := by
  induction p generalizing s tr with
  | ret b =>
      cases hp
      exact hf
  | halt e => cases hp
  | op c k ih =>
      cases hp with
      | op hstep hrest => exact .op hstep (ih _ hrest)

/-- An execution of a sequence halts in its first program, or is an execution
of the first followed by one of the second. -/
theorem Exec.of_bind {M : Machine S σ} {p : Prog S α} {f : α → Prog S β}
    {s s₂ : σ} {tr : List (Event S)} {o : Outcome S β}
    (h : Exec M (p >>= f) s tr o s₂) :
    (∃ e, o = .halt e ∧ Exec M p s tr (.halt e) s₂) ∨
      ∃ tr₁ tr₂ a s₁, tr = tr₁ ++ tr₂ ∧ Exec M p s tr₁ (.ret a) s₁ ∧
        Exec M (f a) s₁ tr₂ o s₂ := by
  induction p generalizing s tr with
  | ret a => exact .inr ⟨[], tr, a, _, rfl, .ret a _, h⟩
  | halt e =>
      cases h
      exact .inl ⟨e, rfl, .halt e _⟩
  | op c k ih =>
      cases h with
      | op hstep hrest =>
          rcases ih _ hrest with ⟨e, rfl, he⟩ | ⟨tr₁, tr₂, a, s₁, rfl, hp, hf⟩
          · exact .inl ⟨e, rfl, .op hstep he⟩
          · exact .inr ⟨_ :: tr₁, tr₂, a, s₁, rfl, .op hstep hp, hf⟩

/-- The answers determine how an execution ends. -/
theorem Exec.outcome_unique {M : Machine S σ} {N : Machine S τ} {p : Prog S α} {s s' : σ}
    {t t' : τ} {tr : List (Event S)} {o o' : Outcome S α} (h : Exec M p s tr o s')
    (h' : Exec N p t tr o' t') : o = o' := by
  induction h generalizing t with
  | ret a s =>
      cases h'
      rfl
  | halt e s =>
      cases h'
      rfl
  | op hstep hrest ih =>
      cases h' with
      | op hstep' hrest' => exact ih hrest'

/-- An execution of a sequence that returns. -/
theorem Exec.ret_of_bind {M : Machine S σ} {p : Prog S α} {f : α → Prog S β} {s s₂ : σ}
    {tr : List (Event S)} {b : β} (h : Exec M (p >>= f) s tr (.ret b) s₂) :
    ∃ tr₁ tr₂ a s₁, tr = tr₁ ++ tr₂ ∧ Exec M p s tr₁ (.ret a) s₁ ∧
      Exec M (f a) s₁ tr₂ (.ret b) s₂ := by
  rcases h.of_bind with ⟨e, he, -⟩ | h
  · cases he
  · exact h

theorem Exec.of_op {M : Machine S σ} {c : S.Cmd} {k : S.Resp c → Prog S α} {s s₂ : σ}
    {tr : List (Event S)} {o : Outcome S α} (h : Exec M (.op c k) s tr o s₂) :
    ∃ r s₁ tr', tr = ⟨c, r⟩ :: tr' ∧ M.step s c r s₁ ∧ Exec M (k r) s₁ tr' o s₂ := by
  cases h with
  | op hstep hrest => exact ⟨_, _, _, rfl, hstep, hrest⟩

end Execution

end Program
