import Cfp2Dreamcast.Machine.Flat

/-!
# Transfers that run ahead

A transfer in flight writes its buffers at any time, also between two commands of
the shim. An execution in which the drive writes during syscalls only is behind
such a system: the stores made since the last syscall are still to come. As long as
a program stays out of the open buffers it cannot tell, and the stores can be made
up for in the next syscall.
-/

namespace Cfp2Dreamcast

open Program Memory

/-- The drive `d` differs from `d'` only in that it may know of more stores. -/
structure Drive.Knows (d d' : Drive) : Prop where
  pending : d.pending = d'.pending
  buffers : d.buffers = d'.buffers
  wrote : ∀ a v, d'.wrote a = some v → d.wrote a = some v

theorem Drive.knows_refl (d : Drive) : d.Knows d := ⟨rfl, rfl, fun _ _ h => h⟩

/-- A store is recorded on both sides. -/
theorem Drive.Knows.update {d d' : Drive} (h : d.Knows d') (a : ℕ) (v : UInt8) :
    ({ d with wrote := Function.update d.wrote a (some v) } : Drive).Knows
      { d' with wrote := Function.update d'.wrote a (some v) } := by
  refine ⟨h.pending, h.buffers, fun b w hw => ?_⟩
  rcases eq_or_ne b a with rfl | hne
  · simpa using hw
  · simp only [Function.update_of_ne hne] at hw ⊢
    exact h.wrote b w hw

theorem Drive.Knows.send {d d' : Drive} (h : d.Knows d') (r4 : ℕ) (block : List ℕ) (r0 : ℤ) :
    (d.send r4 block r0).Knows (d'.send r4 block r0) := by
  unfold Drive.send
  by_cases hr : 0 < r0
  · rw [if_pos hr, if_pos hr]
    cases sentRead r4 block with
    | none => exact ⟨rfl, h.buffers, h.wrote⟩
    | some rd => exact ⟨rfl, congrArg (rd.buffer :: ·) h.buffers, fun _ _ hw => by cases hw⟩
  · rw [if_neg hr, if_neg hr]
    exact h

/-- A SEND forgets earlier stores or keeps them all. -/
theorem Drive.send_knows (d : Drive) (r4 : ℕ) (block : List ℕ) (r0 : ℤ) (a : ℕ) (v : UInt8) :
    ({ d.send r4 block r0 with
        wrote := Function.update (d.send r4 block r0).wrote a (some v) } : Drive).Knows
      (({ d with wrote := Function.update d.wrote a (some v) } : Drive).send r4 block r0) := by
  unfold Drive.send
  by_cases hr : 0 < r0
  · rw [if_pos hr, if_pos hr]
    cases sentRead r4 block with
    | none => exact Drive.knows_refl _
    | some rd => exact ⟨rfl, rfl, fun _ _ hw => by cases hw⟩
  · rw [if_neg hr, if_neg hr]
    exact Drive.knows_refl _

/-- An open buffer stays open over a SEND. -/
theorem inBuffers_send {d : Drive} {r4 : ℕ} {block : List ℕ} {r0 : ℤ} {a : ℕ}
    (ha : inBuffers d.buffers a) : inBuffers (d.send r4 block r0).buffers a := by
  unfold Drive.send
  by_cases hr : 0 < r0
  · rw [if_pos hr]
    cases sentRead r4 block with
    | none => exact ha
    | some rd =>
        obtain ⟨b, hb, hmem⟩ := ha
        exact ⟨b, List.mem_cons_of_mem _ hb, hmem⟩
  · rw [if_neg hr]
    exact ha

theorem Drive.Knows.of_idle {d : Drive} (h : Drive.idle.Knows d) : d = .idle := by
  obtain ⟨pending, buffers, wrote⟩ := d
  obtain ⟨hpending, hbuffers, hwrote⟩ := h
  simp only [Drive.idle] at hpending hbuffers hwrote ⊢
  have hnone : wrote = fun _ => none := by
    funext a
    cases hw : wrote a with
    | none => rfl
    | some v => cases hwrote a v hw
  rw [← hpending, ← hbuffers, hnone]

section Transfers

variable {m m' m₂ x : Mem} {d d₁ d' d₂ : Drive}

/-- A transfer opens no buffer and completes no request. -/
theorem Transfers.fields {y z : Mem × Drive} (h : Transfers flatBus y z) :
    z.2.buffers = y.2.buffers ∧ z.2.pending = y.2.pending := by
  induction h with
  | refl => exact ⟨rfl, rfl⟩
  | tail _ hstep ih =>
      cases hstep with
      | store => exact ih
      | touch => exact ih

/-- An idle drive transfers nothing. -/
theorem Transfers.of_idle {z : Mem × Drive} (h : Transfers flatBus (m, .idle) z) :
    z = (m, .idle) := by
  induction h with
  | refl => rfl
  | tail _ hstep ih =>
      subst ih
      cases hstep with
      | store ha hst =>
          obtain ⟨b, hb, -⟩ := ha
          cases hb
      | touch ht =>
          cases ht
          rfl

/-- The stores of a transfer, made over another memory. -/
theorem Transfers.mirror (h : Transfers flatBus (m', d') (m₂, d₂)) (hd : d.Knows d') :
    ∃ y e, Transfers flatBus (x, d) (y, e) ∧ e.Knows d₂ ∧ ∀ c, x c = m' c → y c = m₂ c := by
  generalize hz : (m₂, d₂) = z at h
  induction h generalizing m₂ d₂ with
  | refl =>
      cases hz
      exact ⟨x, d, .refl, hd, fun _ h => h⟩
  | @tail w z _ hstep ih =>
      obtain ⟨y, e, htr, he, hy⟩ := ih rfl
      cases hstep with
      | @store n n' f a v ha hst =>
          cases hz
          cases hst
          have ha' : inBuffers e.buffers a := he.buffers ▸ ha
          refine ⟨Function.update y (ramCell a) v, _, htr.tail (.store ha' rfl),
            he.update a v, fun c hc => ?_⟩
          rcases eq_or_ne c (ramCell a) with rfl | hne
          · rw [Function.update_self, Function.update_self]
          · rw [Function.update_of_ne hne, Function.update_of_ne hne]
            exact hy c hc
      | touch ht =>
          cases hz
          cases ht
          exact ⟨y, e, htr, he, hy⟩

/-- The stores of a transfer, made after a SEND. -/
theorem Transfers.send (h : Transfers flatBus (m, d) (x, d₁)) (r4 : ℕ) (block : List ℕ)
    (r0 : ℤ) : ∃ e, Transfers flatBus (m, d.send r4 block r0) (x, e) ∧
      e.Knows (d₁.send r4 block r0) := by
  generalize hz : (x, d₁) = z at h
  induction h generalizing x d₁ with
  | refl =>
      cases hz
      exact ⟨_, .refl, Drive.knows_refl _⟩
  | @tail w z _ hstep ih =>
      obtain ⟨e, htr, he⟩ := ih rfl
      cases hstep with
      | @store n n' f a v ha hst =>
          cases hz
          have ha' : inBuffers e.buffers a := he.buffers ▸ inBuffers_send ha
          refine ⟨_, htr.tail (.store ha' hst), ?_⟩
          have hsend := f.send_knows r4 block r0 a v
          have hupd := he.update a v
          exact ⟨hupd.pending.trans hsend.pending, hupd.buffers.trans hsend.buffers,
            fun b w hw => hupd.wrote b w (hsend.wrote b w hw)⟩
      | touch ht =>
          cases hz
          cases ht
          exact ⟨e, htr, he⟩

/-- A cell outside the open buffers is left alone, and storing to it commutes with the
transfer. -/
theorem Transfers.apart (h : Transfers flatBus (m, d) (x, d₁)) {c : ℕ}
    (hc : ¬ cellsOf (inBuffers d.buffers) c) :
    x c = m c ∧ ∀ v, Transfers flatBus (Function.update m c v, d) (Function.update x c v, d₁) := by
  generalize hz : (x, d₁) = z at h
  induction h generalizing x d₁ with
  | refl =>
      cases hz
      exact ⟨rfl, fun _ => .refl⟩
  | @tail w z hpre hstep ih =>
      obtain ⟨heq, hupd⟩ := ih rfl
      cases hstep with
      | @store n n' f a v ha hst =>
          cases hz
          cases hst
          have hbufs : f.buffers = d.buffers := (Transfers.fields hpre).1
          have hne : ramCell a ≠ c := fun h => hc ⟨a, hbufs ▸ ha, h⟩
          refine ⟨(Function.update_of_ne hne.symm _ _).trans heq, fun w => ?_⟩
          refine (hupd w).tail (.store ha ?_)
          exact Function.update_comm hne _ _ _
      | touch ht =>
          cases hz
          cases ht
          exact ⟨heq, hupd⟩

end Transfers

/-- A syscall makes up for the stores that are still to come. -/
theorem GdStep.behind {disc : Disc} {m x m' m₂ : Mem} {d d₁ d' d₂ : Drive} {r4 : ℕ}
    {block : List ℕ} {r7 : ℕ} {r : GdReply} (hlag : Transfers flatBus (m, d) (x, d₁))
    (hk : d₁.Knows d') (h : GdStep flatBus disc m' d' r4 block r7 r m₂ d₂) :
    ∃ y e, GdStep flatBus disc m d r4 block r7 r y e ∧ e.Knows d₂ ∧
      ∀ c, x c = m' c → y c = m₂ c := by
  have hpending : d.pending = d'.pending := (Transfers.fields hlag).2.symm.trans hk.pending
  cases h with
  | send hmem =>
      obtain ⟨e, hsend, he⟩ := hlag.send r4 block r.r0
      have hk' := hk.send r4 block r.r0
      obtain ⟨y, f, htr, hf, hy⟩ := hmem.mirror (x := x) (d := e)
        ⟨he.pending.trans hk'.pending, he.buffers.trans hk'.buffers,
          fun a v hw => he.wrote a v (hk'.wrote a v hw)⟩
      exact ⟨y, f, .send (hsend.trans htr), hf, hy⟩
  | completed hrd hmem hdata =>
      obtain ⟨y, e, htr, he, hy⟩ := hmem.mirror (x := x) hk
      exact ⟨y, .idle, .completed ⟨hrd.1, hpending.trans hrd.2⟩ (hlag.trans htr)
        fun i hi => he.wrote _ _ (hdata i hi), Drive.knows_refl _, hy⟩
  | check hrd hmem =>
      obtain ⟨y, e, htr, he, hy⟩ := hmem.mirror (x := x) hk
      exact ⟨y, e, .check (fun rd h => hrd rd ⟨h.1, hpending.symm.trans h.2⟩)
        (hlag.trans htr), he, hy⟩
  | other hr7 hr7' hmem =>
      obtain ⟨y, e, htr, he, hy⟩ := hmem.mirror (x := x) hk
      exact ⟨y, e, .other hr7 hr7' (hlag.trans htr), he, hy⟩

/-- The command loads from the cell. -/
def Cmd.Reads : Cmd → ℕ → Prop
  | .load8 _ a, x => isRam a ∧ x = ramCell a
  | .load32 _ a, x => isRam a ∧ ∃ i < 4, x = ramCell (a + i)
  | _, _ => False

/-- The command stores to the cell. -/
def Cmd.Writes : Cmd → ℕ → Prop
  | .store8 _ a _, x => isRam a ∧ x = ramCell a
  | .store16 a _, x => isRam a ∧ ∃ i < 2, x = ramCell (a + i)
  | .store32 _ a _, x => isRam a ∧ ∃ i < 4, x = ramCell (a + i)
  | _, _ => False

/-- The command uses the statics of `X` only and is no device step but a syscall. -/
def Cmd.Plain (X : Static → Prop) : Cmd → Prop
  | .get y => X y
  | .put y _ => X y
  | .engine => False
  | .awaitMaple => False
  | _ => True

/-- The command reads cells of `own` only and stays out of the open buffers. -/
structure Alone (own : ℕ → Prop) (X : Static → Prop) (t : State Mem) (c : Cmd) : Prop where
  reads : ∀ x, c.Reads x → own x
  apart : ∀ x, c.Reads x ∨ c.Writes x → ¬ cellsOf (inBuffers t.drive.buffers) x
  plain : c.Plain X

/-- The state `t` of an execution is behind the state `s` of the system: on `own`, once
the outstanding stores of the drive are made, and on the statics of `X`, they agree. -/
structure Behind (own : ℕ → Prop) (X : Static → Prop) (t s : State Mem) : Prop where
  mem : ∃ x d, Transfers flatBus (t.mem, t.drive) (x, d) ∧ d.Knows s.drive ∧
    ∀ c, own c → x c = s.mem c
  statics : ∀ y, X y → s.statics y = t.statics y

namespace Behind

variable {own : ℕ → Prop} {X : Static → Prop} {W : World Mem} {t s s' : State Mem}

theorem refl (s : State Mem) : Behind own X s s :=
  ⟨⟨s.mem, s.drive, .refl, Drive.knows_refl _, fun _ _ => rfl⟩, fun _ _ => rfl⟩

/-- An idle drive has no stores outstanding. -/
theorem idle (h : Behind own X t s) (ht : t.drive = .idle) :
    s.drive = .idle ∧ ∀ c, own c → t.mem c = s.mem c := by
  obtain ⟨x, d, htr, hk, hmem⟩ := h.mem
  rw [ht] at htr
  cases htr.of_idle
  exact ⟨hk.of_idle, hmem⟩

/-- The transfer goes on. -/
theorem transfers (h : Behind own X t s)
    (htr : Transfers flatBus (s.mem, s.drive) (s'.mem, s'.drive))
    (hstatics : ∀ y, X y → s'.statics y = s.statics y) : Behind own X t s' := by
  obtain ⟨x, d, hlag, hk, hmem⟩ := h.mem
  obtain ⟨y, e, htr', he, hy⟩ := htr.mirror (x := x) hk
  exact ⟨⟨y, e, hlag.trans htr', he, fun c hc => hy c (hmem c hc)⟩,
    fun z hz => (hstatics z hz).trans (h.statics z hz)⟩

/-- Something else happens that leaves `own`, the drive and the statics alone. -/
theorem disturb (h : Behind own X t s) (hmem : ∀ c, own c → s'.mem c = s.mem c)
    (hdrive : s'.drive = s.drive) (hstatics : ∀ y, X y → s'.statics y = s.statics y) :
    Behind own X t s' := by
  obtain ⟨x, d, hlag, hk, hx⟩ := h.mem
  exact ⟨⟨x, d, hlag, hdrive ▸ hk, fun c hc => (hx c hc).trans (hmem c hc).symm⟩,
    fun z hz => (hstatics z hz).trans (h.statics z hz)⟩

/-- A run of own stores is made on both sides. -/
theorem setBytes (h : Behind own X t s) {a : ℕ} (bs : List UInt8)
    (hapart : ∀ i < bs.length, ¬ cellsOf (inBuffers t.drive.buffers) (ramCell (a + i))) :
    Behind own X { t with mem := Memory.setBytes ramCell t.mem a bs }
      { s with mem := Memory.setBytes ramCell s.mem a bs } := by
  induction bs generalizing t s a with
  | nil => exact h
  | cons b bs ih =>
      obtain ⟨x, d, hlag, hk, hx⟩ := h.mem
      have hstore : Behind own X { t with mem := Function.update t.mem (ramCell a) b }
          { s with mem := Function.update s.mem (ramCell a) b } := by
        refine ⟨⟨_, d, (hlag.apart (hapart 0 (by simp))).2 b, hk, fun c hc => ?_⟩, h.statics⟩
        rcases eq_or_ne c (ramCell a) with rfl | hne
        · exact (Function.update_self _ _ _).trans
            (Function.update_self (ramCell a) b s.mem).symm
        · exact (Function.update_of_ne hne _ _).trans
            ((hx c hc).trans (Function.update_of_ne hne _ _).symm)
      refine ih hstore fun i hi => ?_
      have hi' := hapart (i + 1) (by simpa using hi)
      rwa [Nat.add_comm i 1, ← Nat.add_assoc] at hi'

/-- A cell of `own` outside the open buffers holds the same byte on both sides. -/
theorem read (h : Behind own X t s) {c : ℕ} (hown : own c)
    (hapart : ¬ cellsOf (inBuffers t.drive.buffers) c) : s.mem c = t.mem c := by
  obtain ⟨x, d, hlag, -, hx⟩ := h.mem
  exact (hx c hown).symm.trans (hlag.apart hapart).1

/-- A command of the program itself. -/
theorem step (h : Behind own X t s) {c : Cmd} {r : c.Resp} (hc : Alone own X t c)
    (hstep : (flatMachine W).step s c r s') :
    ∃ t', (flatMachine W).step t c r t' ∧ Behind own X t' s' := by
  cases c with
  | load8 o a =>
      by_cases ha : isRam a
      · obtain ⟨rfl, m, rfl, rfl⟩ := (step_load8 ha).1 hstep
        have hcell : (Cmd.load8 o a).Reads (ramCell a) := ⟨ha, rfl⟩
        have heq := h.read (hc.reads _ hcell) (hc.apart _ (.inl hcell))
        exact ⟨t, (step_load8 ha).2 ⟨heq, _, rfl, rfl⟩, h⟩
      · cases (step_load8_io ha).1 hstep
        exact ⟨t, (step_load8_io ha).2 rfl, h⟩
  | load16 a =>
      obtain ⟨hr, rfl⟩ := hstep
      exact ⟨t, ⟨hr, rfl⟩, h⟩
  | load32 o a =>
      by_cases ha : isRam a
      · obtain ⟨rfl, m, rfl, rfl⟩ := (step_load32 ha).1 hstep
        have hword : ramWord s.mem a = ramWord t.mem a := ramWord_congr fun i hi => by
          have hcell : (Cmd.load32 o a).Reads (ramCell (a + i)) := ⟨ha, i, hi, rfl⟩
          exact h.read (hc.reads _ hcell) (hc.apart _ (.inl hcell))
        exact ⟨t, (step_load32 ha).2 ⟨hword, _, rfl, rfl⟩, h⟩
      · obtain ⟨hr, rfl⟩ := (step_load32_io ha).1 hstep
        exact ⟨t, (step_load32_io ha).2 ⟨hr, rfl⟩, h⟩
  | store8 o a v =>
      by_cases ha : isRam a
      · obtain ⟨m, rfl, rfl⟩ := (step_store8 ha).1 hstep
        refine ⟨_, (step_store8 ha).2 ⟨_, rfl, rfl⟩, h.setBytes [v] fun i hi => ?_⟩
        cases Nat.lt_one_iff.1 hi
        exact hc.apart _ (.inr ⟨ha, rfl⟩)
      · cases (step_store8_io ha).1 hstep
        exact ⟨t, (step_store8_io ha).2 rfl, h⟩
  | store16 a v =>
      by_cases ha : isRam a
      · obtain ⟨m, hm, rfl⟩ := (step_store16 ha).1 hstep
        rw [flat_storeRun] at hm
        subst hm
        refine ⟨_, (step_store16 ha).2 ⟨_, flat_storeRun.2 rfl, rfl⟩, h.setBytes _ fun i hi => ?_⟩
        exact hc.apart _ (.inr ⟨ha, i, hi, rfl⟩)
      · cases (step_store16_io ha).1 hstep
        exact ⟨t, (step_store16_io ha).2 rfl, h⟩
  | store32 o a v =>
      by_cases ha : isRam a
      · obtain ⟨m, hm, rfl⟩ := (step_store32 ha).1 hstep
        rw [flat_storeRun] at hm
        subst hm
        refine ⟨_, (step_store32 ha).2 ⟨_, flat_storeRun.2 rfl, rfl⟩, h.setBytes _ fun i hi => ?_⟩
        exact hc.apart _ (.inr ⟨ha, i, hi, rfl⟩)
      · cases (step_store32_io ha).1 hstep
        exact ⟨_, (step_store32_io ha).2 rfl, h.mem, h.statics⟩
  | ocbi a =>
      obtain ⟨m, rfl, rfl⟩ := hstep
      exact ⟨t, ⟨_, rfl, rfl⟩, h⟩
  | get y =>
      obtain ⟨rfl, rfl⟩ := hstep
      exact ⟨t, ⟨h.statics y hc.plain, rfl⟩, h⟩
  | put y v =>
      cases hstep
      refine ⟨_, rfl, h.mem, fun z hz => ?_⟩
      rcases eq_or_ne z y with rfl | hne
      · exact (Function.update_self _ _ _).trans (Function.update_self z v t.statics).symm
      · exact (Function.update_of_ne hne _ _).trans
          ((h.statics z hz).trans (Function.update_of_ne hne _ _).symm)
  | gdc r4 block r7 =>
      obtain ⟨m, d, hgd, rfl⟩ := hstep
      obtain ⟨x, e, hlag, hk, hx⟩ := h.mem
      obtain ⟨y, f, hgd', hf, hy⟩ := hgd.behind hlag hk
      exact ⟨_, ⟨y, f, hgd', rfl⟩, ⟨y, f, .refl, hf, fun c hc => hy c (hx c hc)⟩, h.statics⟩
  | engine => exact hc.plain.elim
  | awaitMaple => exact hc.plain.elim

end Behind

end Cfp2Dreamcast
