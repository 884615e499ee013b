import Cfp2Dreamcast.Program.Basic

/-!
# Running a program

Against a device that answers each command in one way a program has one run,
which `Prog.run` computes: the trace, the outcome and the last state. If every
answer is a step of a machine, the run is an execution on that machine.
-/

namespace Program

variable {S : Signature} {σ α : Type}

def Prog.run (f : (c : S.Cmd) → σ → S.Resp c × σ) :
    Prog S α → σ → List (Event S) × Outcome S α × σ
  | .ret a, s => ([], .ret a, s)
  | .halt e, s => ([], .halt e, s)
  | .op c k, s =>
      let x := f c s
      let y := Prog.run f (k x.1) x.2
      (⟨c, x.1⟩ :: y.1, y.2)

theorem Prog.exec_run {M : Machine S σ} {f : (c : S.Cmd) → σ → S.Resp c × σ}
    (hf : ∀ c s, M.step s c (f c s).1 (f c s).2) (p : Prog S α) (s : σ) :
    Exec M p s (p.run f s).1 (p.run f s).2.1 (p.run f s).2.2 := by
  induction p generalizing s with
  | ret a => exact .ret a s
  | halt e => exact .halt e s
  | op c k ih => exact .op (hf c s) (ih _ _)

/-- Every event of the run is an answer of the device. -/
theorem Prog.run_answers {f : (c : S.Cmd) → σ → S.Resp c × σ} {p : Prog S α} {s : σ}
    {ev : Event S} (hev : ev ∈ (p.run f s).1) : ∃ t, ev.resp = (f ev.cmd t).1 := by
  induction p generalizing s with
  | ret a => cases hev
  | halt e => cases hev
  | op c k ih =>
      rcases List.mem_cons.1 hev with rfl | hev
      · exact ⟨s, rfl⟩
      · exact ih _ hev

end Program
