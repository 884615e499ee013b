import Cfp2Dreamcast.Machine.Step

/-!
# What a program can do to memory

`Cmd.Within W D` says of a single command that it stores only to addresses of
`W`, hands the drive only buffers inside `W` and invalidates only blocks of `D`.
A run of such commands is a run of the memory system between the same sets,
whatever the memory system is.
-/

namespace Cfp2Dreamcast

open Program Memory

def Cmd.Within (W D : ℕ → Prop) : Cmd → Prop
  | .store8 _ a _ => isRam a → W a
  | .store16 a _ => isRam a → ∀ i < 2, W (a + i)
  | .store32 _ a _ => isRam a → ∀ i < 4, W (a + i)
  | .ocbi a => D a
  | .gdc r4 block r7 => r7 = gdSend →
      ∀ rd, sentRead r4 block = some rd → ∀ a, rd.buffer.Mem a → W a
  | .engine => False
  | .awaitMaple => ∀ a, mapleRxBuffer.Mem a → W a
  | _ => True

/-- The drive may write only inside `W`. -/
def Drive.Within (d : Drive) (W : ℕ → Prop) : Prop := ∀ a, inBuffers d.buffers a → W a

theorem Drive.idle_within (W : ℕ → Prop) : Drive.idle.Within W := by
  rintro a ⟨b, hb, -⟩
  cases hb

theorem Drive.Within.send {W : ℕ → Prop} {d : Drive} (hd : d.Within W) {r4 : ℕ}
    {block : List ℕ} (hb : ∀ rd, sentRead r4 block = some rd →
      ∀ a, rd.buffer.Mem a → W a) (r0 : ℤ) : (d.send r4 block r0).Within W := by
  unfold Drive.send
  by_cases hr : 0 < r0
  · rw [if_pos hr]
    cases hrd : sentRead r4 block with
    | none => exact hd
    | some rd =>
        rintro a ⟨b, hb', ha⟩
        rcases List.mem_cons.1 hb' with rfl | hb'
        · exact hb rd hrd a ha
        · exact hd a ⟨b, hb', ha⟩
  · rw [if_neg hr]
    exact hd

variable {μ : Type} {B : Bus μ} {W D : ℕ → Prop}

theorem Bus.storeRun.run {m m' : μ} {a : ℕ} {bs : List UInt8}
    (h : B.storeRun m a bs m') (hW : ∀ i < bs.length, W (a + i)) :
    B.Run W D m m' := by
  induction bs generalizing m a with
  | nil =>
      cases h
      exact .refl
  | cons b bs ih =>
      obtain ⟨m₁, hst, hrest⟩ := h
      have hstep : B.runStep W D m m₁ := .inl ⟨a, b, hW 0 (by simp), hst⟩
      have hW' : ∀ i < bs.length, W (a + 1 + i) := by
        intro i hi
        rw [Nat.add_assoc, Nat.add_comm 1 i]
        exact hW (i + 1) (by simpa using hi)
      exact .head hstep (ih hrest hW')

theorem Transfers.run {x y : μ × Drive} (h : Transfers B x y) (hd : x.2.Within W) :
    B.Run W D x.1 y.1 ∧ y.2.buffers = x.2.buffers := by
  induction h with
  | refl => exact ⟨.refl, rfl⟩
  | tail _ hstep ih =>
      obtain ⟨hrun, hbufs⟩ := ih
      cases hstep with
      | store ha hst =>
          exact ⟨hrun.tail (.inl ⟨_, _, hd _ (hbufs ▸ ha), hst⟩), hbufs⟩
      | touch ht => exact ⟨hrun.tail (.inr (.inl ⟨_, ht⟩)), hbufs⟩

/-- One GD syscall. -/
theorem GdStep.run {disc : Disc} {m m' : μ} {d d' : Drive} {r4 : ℕ}
    {block : List ℕ} {r7 : ℕ} {r : GdReply} (h : GdStep B disc m d r4 block r7 r m' d')
    (hd : d.Within W) (hc : (Cmd.gdc r4 block r7).Within W D) :
    B.Run W D m m' ∧ d'.Within W := by
  have htransfers : ∀ {d₁ : Drive} {x : μ × Drive}, Transfers B (m, d₁) x →
      d₁.Within W → B.Run W D m x.1 ∧ x.2.Within W := by
    intro d₁ x hx hd₁
    obtain ⟨hrun, hbufs⟩ := hx.run hd₁
    exact ⟨hrun, fun a ha => hd₁ a (hbufs ▸ ha)⟩
  cases h with
  | send hmem => exact htransfers hmem (hd.send (hc rfl) r.r0)
  | completed hrd hmem hdata => exact ⟨(htransfers hmem hd).1, Drive.idle_within W⟩
  | check hrd hmem => exact htransfers hmem hd
  | other hr7 hr7' hmem => exact htransfers hmem hd

variable {Wd : World μ}

/-- One command. -/
theorem shimStep_run {s s' : State μ} {c : Cmd} {r : c.Resp}
    (h : shimStep B Wd s c r s') (hc : c.Within W D) (hd : s.drive.Within W) :
    B.Run W D s.mem s'.mem ∧ s'.drive.Within W := by
  cases c with
  | load8 o a =>
      simp only [shimStep] at h
      split at h
      · obtain ⟨-, m, ht, rfl⟩ := h
        exact ⟨.single (.inr (.inl ⟨a, ht⟩)), hd⟩
      · subst h
        exact ⟨.refl, hd⟩
  | load16 a =>
      obtain ⟨-, rfl⟩ := h
      exact ⟨.refl, hd⟩
  | load32 o a =>
      simp only [shimStep] at h
      split at h
      · obtain ⟨-, m, ht, rfl⟩ := h
        exact ⟨.single (.inr (.inl ⟨a, ht⟩)), hd⟩
      · obtain ⟨-, rfl⟩ := h
        exact ⟨.refl, hd⟩
  | store8 o a v =>
      simp only [shimStep] at h
      split at h
      · next hram =>
        obtain ⟨m, hst, rfl⟩ := h
        exact ⟨.single (.inl ⟨a, v, hc hram, hst⟩), hd⟩
      · subst h
        exact ⟨.refl, hd⟩
  | store16 a v =>
      simp only [shimStep] at h
      split at h
      · next hram =>
        obtain ⟨m, hst, rfl⟩ := h
        exact ⟨hst.run (hc hram), hd⟩
      · subst h
        exact ⟨.refl, hd⟩
  | store32 o a v =>
      simp only [shimStep] at h
      split at h
      · next hram =>
        obtain ⟨m, hst, rfl⟩ := h
        exact ⟨hst.run (hc hram), hd⟩
      · subst h
        exact ⟨.refl, hd⟩
  | ocbi a =>
      obtain ⟨m, hdis, rfl⟩ := h
      exact ⟨.single (.inr (.inr ⟨a, hc, hdis⟩)), hd⟩
  | get x =>
      obtain ⟨-, rfl⟩ := h
      exact ⟨.refl, hd⟩
  | put x v =>
      cases h
      exact ⟨.refl, hd⟩
  | gdc r4 block r7 =>
      obtain ⟨m, d, hgd, rfl⟩ := h
      exact hgd.run hd hc
  | engine => exact hc.elim
  | awaitMaple =>
      obtain ⟨m, hmem, rfl⟩ := h
      exact ⟨hmem.mono hc fun _ h => h.elim, hd⟩

/-- A whole execution. -/
theorem exec_run {α : Type} {p : Shim α} {s s' : State μ} {tr : List (Event shimSig)}
    {o : Outcome shimSig α} (h : Exec (shimMachine B Wd) p s tr o s')
    (htr : ∀ ev ∈ tr, Cmd.Within W D ev.cmd) (hd : s.drive.Within W) :
    B.Run W D s.mem s'.mem ∧ s'.drive.Within W := by
  induction h with
  | ret a s => exact ⟨.refl, hd⟩
  | halt e s => exact ⟨.refl, hd⟩
  | op hstep hrest ih =>
      obtain ⟨hrun, hd₁⟩ := shimStep_run hstep (htr _ List.mem_cons_self) hd
      obtain ⟨hrun', hd'⟩ := ih (fun ev hev => htr ev (List.mem_cons_of_mem _ hev)) hd₁
      exact ⟨hrun.trans hrun', hd'⟩

/-- Only a syscall changes what the shim knows about the drive. -/
theorem shimStep_drive {s s' : State μ} {c : Cmd} {r : c.Resp} (h : shimStep B Wd s c r s')
    (hc : ∀ r4 block r7, c ≠ .gdc r4 block r7) : s'.drive = s.drive := by
  cases c with
  | gdc r4 block r7 => exact absurd rfl (hc r4 block r7)
  | load8 | load32 =>
      simp only [shimStep] at h
      split at h
      · obtain ⟨-, m, -, rfl⟩ := h
        rfl
      · simp only [h]
  | store8 | store16 | store32 =>
      simp only [shimStep] at h
      split at h
      · obtain ⟨m, -, rfl⟩ := h
        rfl
      · rw [h]
  | load16 | get => rw [h.2]
  | put x v => rw [show s' = _ from h]
  | ocbi | awaitMaple =>
      obtain ⟨m, -, rfl⟩ := h
      rfl
  | engine =>
      obtain ⟨m, regs, -, rfl⟩ := h
      rfl

theorem exec_drive {α : Type} {p : Shim α} {s s' : State μ} {tr : List (Event shimSig)}
    {o : Outcome shimSig α} (h : Exec (shimMachine B Wd) p s tr o s')
    (htr : ∀ ev ∈ tr, ∀ r4 block r7, ev.cmd ≠ Cmd.gdc r4 block r7) :
    s'.drive = s.drive := by
  induction h with
  | ret a s => rfl
  | halt e s => rfl
  | op hstep hrest ih =>
      rw [← shimStep_drive hstep (htr _ List.mem_cons_self)]
      exact ih fun ev hev => htr ev (List.mem_cons_of_mem _ hev)

/-- The statics after a command. -/
def assign (st : Static → ℕ) (c : Cmd) : Static → ℕ :=
  match c with
  | .put x v => Function.update st x v
  | _ => st

/-- The statics after the commands of a trace. -/
def assigned (st : Static → ℕ) (tr : List (Event shimSig)) : Static → ℕ :=
  tr.foldl (fun st ev => assign st ev.cmd) st

@[simp] theorem assigned_nil (st : Static → ℕ) : assigned st [] = st := rfl

@[simp] theorem assigned_append (st : Static → ℕ) (tr tr' : List (Event shimSig)) :
    assigned st (tr ++ tr') = assigned (assigned st tr) tr' := List.foldl_append

theorem shimStep_statics {s s' : State μ} {c : Cmd} {r : c.Resp} (h : shimStep B Wd s c r s') :
    s'.statics = assign s.statics c := by
  cases c with
  | put x v => exact congrArg State.statics h
  | load8 | load32 =>
      simp only [shimStep] at h
      split at h
      · obtain ⟨-, m, -, rfl⟩ := h
        rfl
      · simp only [h, assign]
  | store8 | store16 | store32 =>
      simp only [shimStep] at h
      split at h
      · obtain ⟨m, -, rfl⟩ := h
        rfl
      · simp only [h, assign]
  | load16 | get => exact congrArg State.statics h.2
  | ocbi | awaitMaple =>
      obtain ⟨m, -, rfl⟩ := h
      rfl
  | gdc | engine =>
      obtain ⟨m, y, -, rfl⟩ := h
      rfl

/-- Nothing but the assignments of the shim changes its statics. -/
theorem exec_assigned {α : Type} {p : Shim α} {s s' : State μ} {tr : List (Event shimSig)}
    {o : Outcome shimSig α} (h : Exec (shimMachine B Wd) p s tr o s') :
    s'.statics = assigned s.statics tr := by
  induction h with
  | ret a s => rfl
  | halt e s => rfl
  | op hstep hrest ih => rw [ih, shimStep_statics hstep, assigned, assigned, List.foldl_cons]

theorem assigned_apply {x : Static} {tr : List (Event shimSig)}
    (htr : ∀ ev ∈ tr, ∀ v, ev.cmd ≠ Cmd.put x v) (st : Static → ℕ) : assigned st tr x = st x := by
  induction tr generalizing st with
  | nil => rfl
  | cons ev tr ih =>
      have hrest := ih (fun ev hev => htr ev (List.mem_cons_of_mem _ hev)) (assign st ev.cmd)
      rw [assigned, List.foldl_cons, ← assigned, hrest]
      have hc := htr ev List.mem_cons_self
      generalize ev.cmd = c at hc
      cases c with
      | put y v =>
          have hy : x ≠ y := fun hxy => hc v (hxy ▸ rfl)
          exact Function.update_of_ne hy v st
      | _ => rfl

/-- A static that is not assigned keeps its value. -/
theorem exec_static {α : Type} {p : Shim α} {s s' : State μ}
    {tr : List (Event shimSig)} {o : Outcome shimSig α} {x : Static}
    (h : Exec (shimMachine B Wd) p s tr o s')
    (htr : ∀ ev ∈ tr, ∀ v, ev.cmd ≠ Cmd.put x v) :
    s'.statics x = s.statics x := by
  rw [exec_assigned h, assigned_apply htr]

end Cfp2Dreamcast
