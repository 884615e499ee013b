import Cfp2Dreamcast.Machine.Flat
import Cfp2Dreamcast.Program.Execute

/-!
# A machine that can be run

`Devices` answers each command of the shim in one way: the engine is a function,
a device register has a value, the pads send given bytes and the drive refuses
every request. Runs of a program against such devices are executions on the flat
machine.
-/

namespace Cfp2Dreamcast

open Program Memory

structure Devices where
  engine : Mem → ℤ × Mem
  regs : ℕ → ℕ
  pads : Mem → List UInt8

/-- The engine of the world answers as the devices do. -/
def Devices.In (D : Devices) (W : World Mem) : Prop :=
  ∀ m, W.engine m (D.engine m).1 (D.engine m).2

def Devices.world (D : Devices) : World Mem where
  disc _ _ := 0
  engine m r m' := (r, m') = D.engine m

theorem Devices.in_world (D : Devices) : D.In D.world := fun _ => rfl

def Devices.answer (D : Devices) : (c : Cmd) → State Mem → c.Resp × State Mem
  | .load8 _ a, s => (if isRam a then s.mem (ramCell a) else 0, s)
  | .load16 a, s => (D.regs a % 2 ^ 16, s)
  | .load32 _ a, s => (if isRam a then ramWord s.mem a else D.regs a % 2 ^ 32, s)
  | .store8 _ a v, s =>
      ((), if isRam a then { s with mem := Function.update s.mem (ramCell a) v } else s)
  | .store16 a v, s =>
      ((), if isRam a then
        { s with mem := setBytes ramCell s.mem a ((wordBytes v).take 2) } else s)
  | .store32 _ a v, s =>
      ((), if isRam a then { s with mem := setBytes ramCell s.mem a (wordBytes v) }
        else { s with regs := Function.update s.regs (phys a) v })
  | .ocbi _, s => ((), s)
  | .get x, s => (s.statics x, s)
  | .put x v, s => ((), { s with statics := Function.update s.statics x v })
  | .gdc _ _ _, s => (⟨-1, 0⟩, s)
  | .engine, s => ((D.engine s.mem).1, { s with mem := (D.engine s.mem).2 })
  | .awaitMaple, s =>
      let reply := (D.pads s.mem).take 1024
      ((), { s with mem := setBytes ramCell s.mem (p2Addr mapleRx) reply })

/-- A stored run of bytes is a run of the memory. -/
theorem flat_run_setBytes {P D : ℕ → Prop} (m : Mem) {a : ℕ} {bs : List UInt8}
    (hP : ∀ i < bs.length, P (a + i)) : flatBus.Run P D m (setBytes ramCell m a bs) :=
  (flat_storeRun.2 rfl).run hP

/-- A drive that refuses every request and never completes one. -/
theorem gdStep_refuse (disc : Disc) (m : Mem) (d : Drive) (r4 : ℕ) (block : List ℕ) (r7 : ℕ) :
    GdStep flatBus disc m d r4 block r7 ⟨-1, 0⟩ m d := by
  by_cases hsend : r7 = gdSend
  · subst hsend
    exact .send .refl
  · by_cases hcheck : r7 = gdCheck
    · subst hcheck
      exact .check (fun rd h => absurd h.1 (by decide)) .refl
    · exact .other hsend hcheck .refl

variable {D : Devices} {W : World Mem}

theorem Devices.step_answer {c : Cmd} (hc : c = .engine → D.In W) (s : State Mem) :
    (flatMachine W).step s c (D.answer c s).1 (D.answer c s).2 := by
  cases c with
  | load8 o a =>
      by_cases ha : isRam a
      · simp only [answer, if_pos ha]
        exact (step_load8 ha).2 ⟨rfl, _, rfl, rfl⟩
      · exact (step_load8_io ha).2 rfl
  | load16 a => exact ⟨Nat.mod_lt _ (Nat.two_pow_pos _), rfl⟩
  | load32 o a =>
      by_cases ha : isRam a
      · simp only [answer, if_pos ha]
        exact (step_load32 ha).2 ⟨rfl, _, rfl, rfl⟩
      · simp only [answer, if_neg ha]
        exact (step_load32_io ha).2 ⟨Nat.mod_lt _ (Nat.two_pow_pos _), rfl⟩
  | store8 o a v =>
      by_cases ha : isRam a
      · simp only [answer, if_pos ha]
        exact (step_store8 ha).2 ⟨_, rfl, rfl⟩
      · simp only [answer, if_neg ha]
        exact (step_store8_io ha).2 rfl
  | store16 a v =>
      by_cases ha : isRam a
      · simp only [answer, if_pos ha]
        exact (step_store16 ha).2 ⟨_, flat_storeRun.2 rfl, rfl⟩
      · simp only [answer, if_neg ha]
        exact (step_store16_io ha).2 rfl
  | store32 o a v =>
      by_cases ha : isRam a
      · simp only [answer, if_pos ha]
        exact (step_store32 ha).2 ⟨_, flat_storeRun.2 rfl, rfl⟩
      · simp only [answer, if_neg ha]
        exact (step_store32_io ha).2 rfl
  | ocbi a => exact ⟨_, rfl, rfl⟩
  | get x => exact ⟨rfl, rfl⟩
  | put x v => exact rfl
  | gdc r4 block r7 => exact ⟨_, _, gdStep_refuse W.disc s.mem s.drive r4 block r7, rfl⟩
  | engine => exact ⟨_, s.regs, hc rfl s.mem, rfl⟩
  | awaitMaple =>
      have hrx : ∀ i < ((D.pads s.mem).take 1024).length,
          mapleRxBuffer.Mem (p2Addr mapleRx + i) := by
        intro i hi
        rw [List.length_take] at hi
        exact ⟨Nat.le_add_right _ _, Nat.add_lt_add_left (by omega : i < 1024) _⟩
      exact ⟨_, flat_run_setBytes s.mem hrx, rfl⟩

/-- The run against the devices is an execution. -/
theorem Devices.exec (hD : D.In W) {α : Type} (p : Shim α) (s : State Mem) :
    Exec (flatMachine W) p s (p.run D.answer s).1 (p.run D.answer s).2.1
      (p.run D.answer s).2.2 :=
  p.exec_run (fun _ s => step_answer (fun _ => hD) s) s

/-- Devices of which nothing is asked. -/
def Devices.absent : Devices := ⟨fun m => (0, m), fun _ => 0, fun _ => []⟩

/-- Every command but the call of the game's engine has an answer. -/
theorem flat_total {c : Cmd} (hc : c ≠ .engine) (s : State Mem) :
    ∃ r s', (flatMachine W).step s c r s' :=
  ⟨_, _, Devices.absent.step_answer (fun h => absurd h hc) s⟩

/-- RAM with the given words at the given addresses and zero elsewhere. -/
def ofWords : List (ℕ × ℕ) → Mem
  | [] => fun _ => 0
  | (a, v) :: ws => setBytes ramCell (ofWords ws) a (wordBytes v)

end Cfp2Dreamcast
