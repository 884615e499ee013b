import Cfp2Dreamcast.Program.Basic
import Mathlib.Logic.Function.Basic

/-!
# Programs that draw

Stores to a medium that is only looked at afterwards, such as a screen: of several stores
to a cell the last one counts. `Draws A f p` says of a whole program what it leaves there,
whatever the machine answers: `f` at the cells of `A`, and elsewhere what was there before.
-/

namespace Program

variable {S : Signature} {σ α β P V : Type} [DecidableEq P]

/-- The picture after some stores. -/
def overlaid (pic : P → V) (ws : List (P × V)) : P → V :=
  ws.foldl (fun q w => Function.update q w.1 w.2) pic

/-- The picture after a trace. -/
def shown (stores : Event S → List (P × V)) (pic : P → V) (tr : List (Event S)) : P → V :=
  tr.foldl (fun q ev => overlaid q (stores ev)) pic

/-- The program returns, having drawn `f` on `A` and nothing else. -/
def Draws (M : Machine S σ) (stores : Event S → List (P × V)) (A : P → Prop) (f : P → V)
    (p : Prog S α) : Prop :=
  ∀ pic s tr o s', Exec M p s tr o s' → (∃ a, o = .ret a) ∧
    ∀ x, (A x → shown stores pic tr x = f x) ∧ (¬ A x → shown stores pic tr x = pic x)

section Rules

variable {M : Machine S σ} {stores : Event S → List (P × V)} {A B : P → Prop} {f g : P → V}

theorem shown_append (pic : P → V) (tr tr' : List (Event S)) :
    shown stores pic (tr ++ tr') = shown stores (shown stores pic tr) tr' :=
  List.foldl_append

/-- Stores that agree with `f`. -/
theorem overlaid_apply (pic : P → V) {ws : List (P × V)} (hws : ∀ w ∈ ws, w.2 = f w.1) (x : P) :
    ((∃ w ∈ ws, w.1 = x) → overlaid pic ws x = f x) ∧
      (¬ (∃ w ∈ ws, w.1 = x) → overlaid pic ws x = pic x) := by
  induction ws generalizing pic with
  | nil => simp [overlaid]
  | cons w ws ih =>
      obtain ⟨hin, hout⟩ := ih (Function.update pic w.1 w.2)
        fun v hv => hws v (List.mem_cons_of_mem _ hv)
      have hstep : overlaid pic (w :: ws) = overlaid (Function.update pic w.1 w.2) ws := rfl
      rw [hstep]
      by_cases hlater : ∃ v ∈ ws, v.1 = x
      · obtain ⟨v, hv, hx⟩ := hlater
        exact ⟨fun _ => hin ⟨v, hv, hx⟩, fun h => absurd ⟨v, List.mem_cons_of_mem _ hv, hx⟩ h⟩
      · rw [hout hlater]
        by_cases hx : w.1 = x
        · subst hx
          rw [Function.update_self]
          exact ⟨fun _ => hws w List.mem_cons_self, fun h => absurd ⟨w, List.mem_cons_self, rfl⟩ h⟩
        · rw [Function.update_of_ne (Ne.symm hx)]
          refine ⟨fun h => ?_, fun _ => rfl⟩
          obtain ⟨v, hv, hvx⟩ := h
          rcases List.mem_cons.1 hv with rfl | hv
          · exact absurd hvx hx
          · exact absurd ⟨v, hv, hvx⟩ hlater

theorem draws_ret (a : α) : Draws M stores (fun _ => False) f (.ret a : Prog S α) := by
  rintro pic s tr o s' ⟨⟩
  exact ⟨⟨a, rfl⟩, fun x => ⟨False.elim, fun _ => rfl⟩⟩

/-- A command that stores the values of `f`, at some cells or none. -/
theorem Draws.op {c : S.Cmd} {k : S.Resp c → Prog S α} (ws : List (P × V))
    (hstores : ∀ r, stores ⟨c, r⟩ = ws) (hws : ∀ w ∈ ws, w.2 = f w.1)
    (hk : ∀ r, Draws M stores B f (k r)) :
    Draws M stores (fun x => (∃ w ∈ ws, w.1 = x) ∨ B x) f (.op c k) := by
  intro pic s tr o s' h
  obtain ⟨r, s₁, tr', rfl, -, hrest⟩ := h.of_op
  have hstep : shown stores pic (⟨c, r⟩ :: tr') = shown stores (overlaid pic ws) tr' := by
    rw [← hstores r]
    rfl
  obtain ⟨hret, hpic⟩ := hk r (overlaid pic ws) s₁ tr' o s' hrest
  refine ⟨hret, fun x => ?_⟩
  obtain ⟨hin, hout⟩ := overlaid_apply pic hws x
  rw [hstep]
  by_cases hB : B x
  · exact ⟨fun _ => (hpic x).1 hB, fun h => absurd (.inr hB) h⟩
  · rw [(hpic x).2 hB]
    exact ⟨fun h => hin (h.resolve_right hB), fun h => hout fun hw => h (.inl hw)⟩

theorem Draws.congr {p : Prog S α} (hp : Draws M stores A f p) (hA : ∀ x, A x ↔ B x)
    (hf : ∀ x, A x → f x = g x) : Draws M stores B g p := by
  intro pic s tr o s' h
  obtain ⟨hret, hpic⟩ := hp pic s tr o s' h
  exact ⟨hret, fun x => ⟨fun hB => ((hpic x).1 ((hA x).2 hB)).trans (hf x ((hA x).2 hB)),
    fun hB => (hpic x).2 fun h => hB ((hA x).1 h)⟩⟩

/-- Two programs one after the other that draw the same picture. -/
theorem Draws.bind {p : Prog S α} {k : α → Prog S β} (hp : Draws M stores A f p)
    (hk : ∀ a, Draws M stores B f (k a)) : Draws M stores (fun x => A x ∨ B x) f (p >>= k) := by
  intro pic s tr o s' h
  rcases h.of_bind with ⟨e, rfl, he⟩ | ⟨tr₁, tr₂, a, s₁, rfl, hfirst, hrest⟩
  · obtain ⟨⟨a, ha⟩, -⟩ := hp pic s tr _ s' he
    cases ha
  · obtain ⟨-, hpic₁⟩ := hp pic s tr₁ _ s₁ hfirst
    obtain ⟨hret, hpic₂⟩ := hk a (shown stores pic tr₁) s₁ tr₂ o s' hrest
    refine ⟨hret, fun x => ?_⟩
    rw [shown_append]
    by_cases hB : B x
    · exact ⟨fun _ => (hpic₂ x).1 hB, fun h => absurd (.inr hB) h⟩
    · rw [(hpic₂ x).2 hB]
      exact ⟨fun h => (hpic₁ x).1 (h.resolve_right hB), fun h => (hpic₁ x).2 fun hA => h (.inl hA)⟩

end Rules

end Program
