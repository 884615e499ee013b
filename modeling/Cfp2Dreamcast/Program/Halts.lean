import Cfp2Dreamcast.Program.Basic

/-!
# What comes before a halt

`HaltsAfter M e P p`: an execution of `p` that halts with `e` has an event in `P`.
The events before the last call of a sequence are events of the sequence, so the
property composes.
-/

namespace Program

variable {S : Signature} {σ α β : Type}

def HaltsAfter (M : Machine S σ) (e : S.Halt) (P : Event S → Prop) (p : Prog S α) : Prop :=
  ∀ s tr s', Exec M p s tr (.halt e) s' → ∃ ev ∈ tr, P ev

variable {M : Machine S σ} {e : S.Halt} {P : Event S → Prop} {p : Prog S α}

theorem haltsAfter_ret (a : α) : HaltsAfter M e P (.ret a : Prog S α) := by
  intro s tr s' h
  cases h

theorem haltsAfter_halt {e' : S.Halt} (he : e' ≠ e) :
    HaltsAfter M e P (.halt e' : Prog S α) := by
  intro s tr s' h
  cases h
  exact absurd rfl he

theorem HaltsAfter.op {c : S.Cmd} {k : S.Resp c → Prog S α}
    (hk : ∀ r, P ⟨c, r⟩ ∨ HaltsAfter M e P (k r)) : HaltsAfter M e P (.op c k) := by
  intro s tr s' h
  obtain ⟨r, s₁, tr', rfl, -, hrest⟩ := h.of_op
  rcases hk r with hr | hr
  · exact ⟨_, List.mem_cons_self, hr⟩
  · obtain ⟨ev, hev, hP⟩ := hr _ _ _ hrest
    exact ⟨ev, List.mem_cons_of_mem _ hev, hP⟩

theorem HaltsAfter.pass {c : S.Cmd} {k : S.Resp c → Prog S α}
    (hk : ∀ r, HaltsAfter M e P (k r)) : HaltsAfter M e P (.op c k) := .op fun r => .inr (hk r)

theorem HaltsAfter.bind {f : α → Prog S β} (hp : HaltsAfter M e P p)
    (hf : ∀ a, HaltsAfter M e P (f a)) : HaltsAfter M e P (p >>= f) := by
  intro s tr s' h
  rcases h.of_bind with ⟨e', he, hp'⟩ | ⟨tr₁, tr₂, a, s₁, rfl, -, hf'⟩
  · cases he
    exact hp _ _ _ hp'
  · obtain ⟨ev, hev, hP⟩ := hf a _ _ _ hf'
    exact ⟨ev, List.mem_append_right _ hev, hP⟩

theorem HaltsAfter.whenever {b : Prop} [Decidable b] {q : Prog S Unit}
    (hq : b → HaltsAfter M e P q) : HaltsAfter M e P (Prog.whenever b q) := by
  by_cases hb : b
  · rw [Prog.whenever_pos hb]
    exact hq hb
  · rw [Prog.whenever_neg hb]
    exact haltsAfter_ret ()

/-- The way in which a program halted, if it did. -/
def Outcome.halted : Outcome S α → Option S.Halt
  | .ret _ => none
  | .halt e => some e

theorem Outcome.of_halted {o : Outcome S α} (h : o.halted = some e) : o = .halt e := by
  cases o with
  | ret a => cases h
  | halt e' =>
      cases h
      rfl

theorem Outcome.of_not_halted {o : Outcome S α} (h : o.halted = none) : ∃ a, o = .ret a := by
  cases o with
  | ret a => exact ⟨a, rfl⟩
  | halt e' => cases h

end Program
