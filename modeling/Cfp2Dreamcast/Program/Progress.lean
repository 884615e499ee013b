import Cfp2Dreamcast.Program.Rules
import Mathlib.Data.Nat.Notation

/-!
# Programs that return

`ReturnsWithin M G P n p Q`: an execution of `p` in which every event is in `G` returns a
value in `Q`, unless more than `n` of its events satisfy `P`. The bound is one on the whole
execution, so the parts of a sequence share it.

`Machine.only M G` makes the steps of `M` that `G` allows.
-/

namespace Program

variable {S : Signature} {σ α β : Type}

def ReturnsWithin (M : Machine S σ) (G : Event S → Prop) (P : Event S → Bool) (n : ℕ)
    (p : Prog S α) (Q : α → Prop) : Prop :=
  ∀ s tr o s', Exec M p s tr o s' → (∀ ev ∈ tr, G ev) →
    n < tr.countP P ∨ ∃ a, o = .ret a ∧ Q a

section Rules

variable {M : Machine S σ} {G : Event S → Prop} {P : Event S → Bool} {n : ℕ} {p : Prog S α}
  {Q Q' : α → Prop}

theorem returnsWithin_ret {a : α} (ha : Q a) : ReturnsWithin M G P n (.ret a) Q := by
  intro s tr o s' h _
  cases h
  exact .inr ⟨a, rfl, ha⟩

theorem ReturnsWithin.op {c : S.Cmd} {k : S.Resp c → Prog S α}
    (hk : ∀ r, G ⟨c, r⟩ → ReturnsWithin M G P n (k r) Q) :
    ReturnsWithin M G P n (.op c k) Q := by
  intro s tr o s' h hG
  obtain ⟨r, s₁, tr', rfl, -, hrest⟩ := h.of_op
  refine (hk r (hG _ List.mem_cons_self) _ _ _ _ hrest
    fun ev hev => hG ev (List.mem_cons_of_mem _ hev)).imp_left fun hn => ?_
  exact Nat.lt_of_lt_of_le hn (List.Sublist.countP_le (List.sublist_cons_self _ _))

/-- A command that counts. -/
theorem ReturnsWithin.op_counted {c : S.Cmd} {k : S.Resp c → Prog S α} (hc : ∀ r, P ⟨c, r⟩)
    (hk : ∀ r, G ⟨c, r⟩ → ReturnsWithin M G P n (k r) Q) :
    ReturnsWithin M G P (n + 1) (.op c k) Q := by
  intro s tr o s' h hG
  obtain ⟨r, s₁, tr', rfl, -, hrest⟩ := h.of_op
  rw [List.countP_cons_of_pos (hc r)]
  exact (hk r (hG _ List.mem_cons_self) _ _ _ _ hrest
    fun ev hev => hG ev (List.mem_cons_of_mem _ hev)).imp_left Nat.succ_lt_succ

/-- Whatever follows the command, the first one counts. -/
theorem ReturnsWithin.op_last {c : S.Cmd} {k : S.Resp c → Prog S α} (hc : ∀ r, P ⟨c, r⟩) :
    ReturnsWithin M G P 0 (.op c k) Q := by
  intro s tr o s' h _
  obtain ⟨r, s₁, tr', rfl, -, -⟩ := h.of_op
  rw [List.countP_cons_of_pos (hc r)]
  exact .inl (Nat.succ_pos _)

theorem ReturnsWithin.bind {f : α → Prog S β} {Q' : β → Prop}
    (hp : ReturnsWithin M G P n p Q) (hf : ∀ a, Q a → ReturnsWithin M G P n (f a) Q') :
    ReturnsWithin M G P n (p >>= f) Q' := by
  intro s tr o s' h hG
  rcases h.of_bind with ⟨e, rfl, hp'⟩ | ⟨tr₁, tr₂, a, s₁, rfl, hp', hf'⟩
  · rcases hp _ _ _ _ hp' hG with hn | ⟨a, ha, -⟩
    · exact .inl hn
    · cases ha
  · rw [List.countP_append]
    rcases hp _ _ _ _ hp' fun ev hev => hG ev (List.mem_append_left _ hev) with hn | ⟨a', ha, hQ⟩
    · exact .inl (Nat.lt_add_right _ hn)
    · cases ha
      exact (hf a hQ _ _ _ _ hf' fun ev hev => hG ev (List.mem_append_right _ hev)).imp_left
        (Nat.lt_add_left _)

theorem ReturnsWithin.whenever {b : Prop} [Decidable b] {q : Prog S Unit} {Q : Unit → Prop}
    (hq : b → ReturnsWithin M G P n q Q) (hQ : Q ()) :
    ReturnsWithin M G P n (Prog.whenever b q) Q := by
  by_cases hb : b
  · rw [Prog.whenever_pos hb]
    exact hq hb
  · rw [Prog.whenever_neg hb]
    exact returnsWithin_ret hQ

theorem ReturnsWithin.mono (hp : ReturnsWithin M G P n p Q) (hQ : ∀ a, Q a → Q' a) :
    ReturnsWithin M G P n p Q' := by
  intro s tr o s' h hG
  refine (hp s tr o s' h hG).imp_right ?_
  rintro ⟨a, ha, hQa⟩
  exact ⟨a, ha, hQ a hQa⟩

/-- A program that its guard keeps from halting returns. -/
theorem Keeps.returnsWithin {g : Guard S} (hp : Keeps g p) (hhalt : ∀ e, ¬ g.halt e) :
    ReturnsWithin M G P n p fun _ => True := by
  intro s tr o s' h _
  cases o with
  | ret a => exact .inr ⟨a, rfl, trivial⟩
  | halt e => exact absurd (hp.exec_halt h) (hhalt e)

end Rules

section Only

/-- The steps of the machine that `G` allows. -/
def Machine.only (M : Machine S σ) (G : (s : σ) → (c : S.Cmd) → S.Resp c → σ → Prop) :
    Machine S σ where
  step s c r s' := M.step s c r s' ∧ G s c r s'

variable {M : Machine S σ} {G : (s : σ) → (c : S.Cmd) → S.Resp c → σ → Prop} {p : Prog S α}
  {s s' : σ} {tr : List (Event S)} {o : Outcome S α}

theorem Exec.of_only (h : Exec (M.only G) p s tr o s') : Exec M p s tr o s' := by
  induction h with
  | ret a s => exact .ret a s
  | halt e s => exact .halt e s
  | op hstep _ ih => exact .op hstep.1 ih

/-- The rule for what holds of every event while an invariant of the allowed steps does. -/
theorem Exec.only_events {I : σ → Prop} {P : Event S → Prop}
    (hstep : ∀ s c r s', I s → M.step s c r s' → G s c r s' → P ⟨c, r⟩ ∧ I s')
    (h : Exec (M.only G) p s tr o s') (hs : I s) : (∀ ev ∈ tr, P ev) ∧ I s' := by
  induction h with
  | ret a s => exact ⟨by simp, hs⟩
  | halt e s => exact ⟨by simp, hs⟩
  | op hc _ ih =>
      obtain ⟨hP, hI⟩ := hstep _ _ _ _ hs hc.1 hc.2
      obtain ⟨hall, hI'⟩ := ih hI
      exact ⟨List.forall_mem_cons.2 ⟨hP, hall⟩, hI'⟩

end Only

end Program
