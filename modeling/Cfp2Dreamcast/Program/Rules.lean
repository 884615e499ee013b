import Cfp2Dreamcast.Program.Basic

/-!
# Rules for programs

`wp M p Q s` says that every execution of `p` from `s` ends in a trace, an
outcome and a state that satisfy `Q`; it is computed along the program, and
`wp_iff_exec` ties it to the executions. `wp_seq` is the rule for a sequence:
the second program starts where the first one returned, and an outcome that
halts is passed on.

`Keeps g p` is the machine-free part: whatever the responses are, the commands
that `p` issues and the ways in which it halts are those the guard `g` allows. A
guard may allow more commands on a path that no longer returns.
-/

namespace Program

variable {S : Signature} {σ α β : Type}

/-- Every execution of the program from the state ends in `Q`. -/
def wp (M : Machine S σ) : Prog S α →
    (List (Event S) → Outcome S α → σ → Prop) → σ → Prop
  | .ret a, Q, s => Q [] (.ret a) s
  | .halt e, Q, s => Q [] (.halt e) s
  | .op c k, Q, s => ∀ r s₁, M.step s c r s₁ →
      wp M (k r) (fun tr => Q (⟨c, r⟩ :: tr)) s₁

section Rules

variable {M : Machine S σ} {Q Q' : List (Event S) → Outcome S α → σ → Prop}

@[simp] theorem wp_ret (a : α) (s : σ) :
    wp M (.ret a) Q s ↔ Q [] (.ret a) s := Iff.rfl

@[simp] theorem wp_halt (e : S.Halt) (s : σ) :
    wp M (.halt e) Q s ↔ Q [] (.halt e) s := Iff.rfl

theorem wp_op (c : S.Cmd) (k : S.Resp c → Prog S α) (s : σ) :
    wp M (.op c k) Q s ↔ ∀ r s₁, M.step s c r s₁ →
      wp M (k r) (fun tr => Q (⟨c, r⟩ :: tr)) s₁ := Iff.rfl

theorem wp_iff_exec (p : Prog S α) (s : σ) :
    wp M p Q s ↔ ∀ tr o s', Exec M p s tr o s' → Q tr o s' := by
  induction p generalizing s Q with
  | ret a =>
      constructor
      · rintro h tr o s' ⟨⟩
        exact h
      · exact fun h => h _ _ _ (.ret a s)
  | halt e =>
      constructor
      · rintro h tr o s' ⟨⟩
        exact h
      · exact fun h => h _ _ _ (.halt e s)
  | op c k ih =>
      constructor
      · rintro h tr o s' (_ | _ | ⟨hstep, hrest⟩)
        exact (ih _ _).1 (h _ _ hstep) _ _ _ hrest
      · intro h r s₁ hstep
        exact (ih _ _).2 fun tr o s' hrest => h _ _ _ (.op hstep hrest)

theorem wp.exec {p : Prog S α} {s s' : σ} {tr : List (Event S)}
    {o : Outcome S α} (h : wp M p Q s) (hp : Exec M p s tr o s') :
    Q tr o s' := (wp_iff_exec p s).1 h tr o s' hp

/-- The rule of consequence. -/
theorem wp.mono {p : Prog S α} {s : σ} (h : wp M p Q s)
    (hQ : ∀ tr o s', Q tr o s' → Q' tr o s') : wp M p Q' s :=
  (wp_iff_exec p s).2 fun tr o s' hp => hQ tr o s' (h.exec hp)

theorem wp.and {p : Prog S α} {s : σ} (h : wp M p Q s) (h' : wp M p Q' s) :
    wp M p (fun tr o s' => Q tr o s' ∧ Q' tr o s') s :=
  (wp_iff_exec p s).2 fun _ _ _ hp => ⟨h.exec hp, h'.exec hp⟩

/-- The rule of sequence. -/
theorem wp_seq {p : Prog S α} {f : α → Prog S β} {s : σ}
    {R : List (Event S) → Outcome S β → σ → Prop}
    (hp : wp M p Q s)
    (hret : ∀ tr a s₁, Q tr (.ret a) s₁ →
      wp M (f a) (fun tr' => R (tr ++ tr')) s₁)
    (hhalt : ∀ tr e s₁, Q tr (.halt e) s₁ → R tr (.halt e) s₁) :
    wp M (p >>= f) R s := by
  rw [wp_iff_exec]
  intro tr o s' h
  rcases h.of_bind with ⟨e, rfl, he⟩ | ⟨tr₁, tr₂, a, s₁, rfl, hp₁, hf⟩
  · exact hhalt tr e s' (hp.exec he)
  · exact (hret tr₁ a s₁ (hp.exec hp₁)).exec hf

theorem wp_whenever {b : Prop} [Decidable b] {p : Prog S Unit} {s : σ}
    {R : List (Event S) → Outcome S Unit → σ → Prop}
    (hpos : b → wp M p R s) (hneg : ¬ b → R [] (.ret ()) s) :
    wp M (Prog.whenever b p) R s := by
  by_cases hb : b
  · rw [Prog.whenever_pos hb]
    exact hpos hb
  · rw [Prog.whenever_neg hb]
    exact hneg hb

end Rules

section Guards

/-- What a program may do: the commands it may issue, the commands it may issue
once it can no longer return, and the ways in which it may halt. -/
structure Guard (S : Signature) where
  cmd : S.Cmd → Prop
  last : S.Cmd → Prop
  halt : S.Halt → Prop

/-- No path of the program returns, and its commands and halts are among the
last ones of the guard. -/
def Dooms (g : Guard S) : Prog S α → Prop
  | .ret _ => False
  | .halt e => g.halt e
  | .op c k => g.last c ∧ ∀ r, Dooms g (k r)

/-- Every path of the program stays inside the guard, whatever the responses
are. -/
def Keeps (g : Guard S) : Prog S α → Prop
  | .ret _ => True
  | .halt e => g.halt e
  | .op c k => g.cmd c ∧ (∀ r, Keeps g (k r)) ∨ g.last c ∧ ∀ r, Dooms g (k r)

variable {g g' : Guard S}

@[simp] theorem keeps_ret (a : α) : Keeps g (.ret a : Prog S α) := trivial

theorem Keeps.op {c : S.Cmd} {k : S.Resp c → Prog S α} (hc : g.cmd c)
    (hk : ∀ r, Keeps g (k r)) : Keeps g (.op c k) := .inl ⟨hc, hk⟩

theorem Dooms.keeps {p : Prog S α} (hp : Dooms g p) : Keeps g p := by
  cases p with
  | ret a => exact hp.elim
  | halt e => exact hp
  | op c k => exact .inr hp

theorem Dooms.bind {p : Prog S α} (hp : Dooms g p) (f : α → Prog S β) :
    Dooms g (p >>= f) := by
  induction p with
  | ret a => exact hp.elim
  | halt e => exact hp
  | op c k ih => exact ⟨hp.1, fun r => ih r (hp.2 r)⟩

theorem Keeps.bind {p : Prog S α} {f : α → Prog S β} (hp : Keeps g p)
    (hf : ∀ a, Keeps g (f a)) : Keeps g (p >>= f) := by
  induction p with
  | ret a => exact hf a
  | halt e => exact hp
  | op c k ih =>
      rcases hp with ⟨hc, hk⟩ | ⟨hc, hk⟩
      · exact .inl ⟨hc, fun r => ih r (hk r)⟩
      · exact .inr ⟨hc, fun r => (hk r).bind f⟩

theorem Keeps.whenever {b : Prop} [Decidable b] {p : Prog S Unit}
    (hp : b → Keeps g p) : Keeps g (Prog.whenever b p) := by
  by_cases hb : b
  · rw [Prog.whenever_pos hb]
    exact hp hb
  · rw [Prog.whenever_neg hb]
    trivial

theorem Dooms.mono {p : Prog S α} (hp : Dooms g p)
    (hlast : ∀ c, g.last c → g'.last c) (hhalt : ∀ e, g.halt e → g'.halt e) :
    Dooms g' p := by
  induction p with
  | ret a => exact hp
  | halt e => exact hhalt e hp
  | op c k ih => exact ⟨hlast c hp.1, fun r => ih r (hp.2 r)⟩

theorem Keeps.mono {p : Prog S α} (hp : Keeps g p)
    (hcmd : ∀ c, g.cmd c → g'.cmd c) (hlast : ∀ c, g.last c → g'.last c)
    (hhalt : ∀ e, g.halt e → g'.halt e) : Keeps g' p := by
  induction p with
  | ret a => trivial
  | halt e => exact hhalt e hp
  | op c k ih =>
      rcases hp with ⟨hc, hk⟩ | ⟨hc, hk⟩
      · exact .inl ⟨hcmd c hc, fun r => ih r (hk r)⟩
      · exact .inr ⟨hlast c hc, fun r => (hk r).mono hlast hhalt⟩

variable {M : Machine S σ} {s s' : σ} {tr : List (Event S)} {o : Outcome S α}

/-- A doomed program halts as the guard allows after commands the guard
allows. -/
theorem Dooms.exec {p : Prog S α} (hp : Dooms g p) (h : Exec M p s tr o s') :
    (∀ ev ∈ tr, g.last ev.cmd) ∧ ∃ e, o = .halt e ∧ g.halt e := by
  induction h with
  | ret a s => exact hp.elim
  | halt e s => exact ⟨by simp, e, rfl, hp⟩
  | op hstep hrest ih =>
      obtain ⟨htr, ho⟩ := ih (hp.2 _)
      exact ⟨by simpa using ⟨hp.1, htr⟩, ho⟩

theorem Keeps.exec {p : Prog S α} (hp : Keeps g p) (h : Exec M p s tr o s') :
    ∀ ev ∈ tr, g.cmd ev.cmd ∨ g.last ev.cmd := by
  induction h with
  | ret a s => simp
  | halt e s => simp
  | op hstep hrest ih =>
      rcases hp with ⟨hc, hk⟩ | ⟨hc, hk⟩
      · simpa using ⟨.inl hc, ih (hk _)⟩
      · simpa using ⟨.inr hc, fun ev hev => .inr (((hk _).exec hrest).1 ev hev)⟩

/-- The commands of an execution that returns are never the last ones. -/
theorem Keeps.exec_ret {p : Prog S α} {a : α} (hp : Keeps g p)
    (h : Exec M p s tr (.ret a) s') : ∀ ev ∈ tr, g.cmd ev.cmd := by
  generalize ho : Outcome.ret a = o at h
  induction h with
  | ret a s => simp
  | halt e s => cases ho
  | op hstep hrest ih =>
      rcases hp with ⟨hc, hk⟩ | ⟨hc, hk⟩
      · simpa using ⟨hc, ih (hk _) ho⟩
      · obtain ⟨e, he, -⟩ := ((hk _).exec hrest).2
        exact absurd (ho.trans he) (by simp)

theorem Keeps.exec_halt {p : Prog S α} {e : S.Halt} (hp : Keeps g p)
    (h : Exec M p s tr (.halt e) s') : g.halt e := by
  generalize ho : Outcome.halt e = o at h
  induction h with
  | ret a s => cases ho
  | halt e' s =>
      cases ho
      exact hp
  | op hstep hrest ih =>
      rcases hp with ⟨hc, hk⟩ | ⟨hc, hk⟩
      · exact ih (hk _) ho
      · obtain ⟨e', he, he'⟩ := ((hk _).exec hrest).2
        cases ho.trans he
        exact he'

/-- A program runs to an end on a machine that answers every command its guard
allows. -/
theorem Keeps.exists_exec {p : Prog S α} (hp : Keeps g p)
    (hM : ∀ s c, g.cmd c ∨ g.last c → ∃ r s', M.step s c r s') (s : σ) :
    ∃ tr o s', Exec M p s tr o s' := by
  induction p generalizing s with
  | ret a => exact ⟨[], .ret a, s, .ret a s⟩
  | halt e => exact ⟨[], .halt e, s, .halt e s⟩
  | op c k ih =>
      have hstep : ∃ r s₁, M.step s c r s₁ ∧ Keeps g (k r) := by
        rcases hp with ⟨hc, hk⟩ | ⟨hc, hk⟩
        · obtain ⟨r, s₁, h⟩ := hM s c (.inl hc)
          exact ⟨r, s₁, h, hk r⟩
        · obtain ⟨r, s₁, h⟩ := hM s c (.inr hc)
          exact ⟨r, s₁, h, (hk r).keeps⟩
      obtain ⟨r, s₁, h, hk⟩ := hstep
      obtain ⟨tr, o, s₂, hrest⟩ := ih r hk s₁
      exact ⟨_, o, s₂, .op h hrest⟩

end Guards

end Program
