import Cfp2Dreamcast.Loader.Place

/-!
# What the loader's accesses leave alone

`Spares W P m m'`: from `m` to `m'` the loader stores through the cache to bytes of
`W` and past it to bytes of `P`, and the other bytes of `Home` read as they did.
The rules here are one for each of the loader's routines.
-/

namespace Cfp2Dreamcast

open Program Memory

structure Spares (W P : ℕ → Prop) (m m' : Cached) : Prop where
  held : ∀ x v, Home x → ¬ W x → ¬ P x → m.Held lineOf x v → m'.Held lineOf x v
  placed : ∀ x v, Home x → ¬ W x → ¬ P x → m.Placed lineOf x v → m'.Placed lineOf x v
  /-- A byte in a clean line into which nothing is stored through the cache. -/
  flat : ∀ x, (∀ b, lineOf b = lineOf x → Home b ∧ ¬ W b) → ¬ P x → m.Quiet (lineOf x) →
    m'.Quiet (lineOf x) ∧ m'.ram x = m.ram x

/-- The `n` bytes from `a` on. -/
def Within (a n x : ℕ) : Prop := a ≤ x ∧ x < a + n

section Frame

variable {W W' P P' : ℕ → Prop} {m m₁ m' : Cached}

theorem Spares.refl (W P : ℕ → Prop) (m : Cached) : Spares W P m m :=
  ⟨fun _ _ _ _ _ h => h, fun _ _ _ _ _ h => h, fun _ _ _ h => ⟨h, rfl⟩⟩

theorem Spares.trans (h : Spares W P m m₁) (h' : Spares W' P' m₁ m') :
    Spares (fun x => W x ∨ W' x) (fun x => P x ∨ P' x) m m' where
  held x v hx hW hP hm :=
    h'.held x v hx (fun h => hW (.inr h)) (fun h => hP (.inr h))
      (h.held x v hx (fun h => hW (.inl h)) (fun h => hP (.inl h)) hm)
  placed x v hx hW hP hm :=
    h'.placed x v hx (fun h => hW (.inr h)) (fun h => hP (.inr h))
      (h.placed x v hx (fun h => hW (.inl h)) (fun h => hP (.inl h)) hm)
  flat x hx hP hq := by
    have h₁ := h.flat x (fun b hb => ⟨(hx b hb).1, fun h => (hx b hb).2 (.inl h)⟩)
      (fun h => hP (.inl h)) hq
    have h₂ := h'.flat x (fun b hb => ⟨(hx b hb).1, fun h => (hx b hb).2 (.inr h)⟩)
      (fun h => hP (.inr h)) h₁.1
    exact ⟨h₂.1, h₂.2.trans h₁.2⟩

theorem Spares.mono (h : Spares W P m m') (hW : ∀ x, W x → W' x) (hP : ∀ x, P x → P' x) :
    Spares W' P' m m' where
  held x v hx hw hp := h.held x v hx (fun h => hw (hW x h)) (fun h => hp (hP x h))
  placed x v hx hw hp := h.placed x v hx (fun h => hw (hW x h)) (fun h => hp (hP x h))
  flat x hx hp := h.flat x (fun b hb => ⟨(hx b hb).1, fun h => (hx b hb).2 (hW b h)⟩)
    fun h => hp (hP x h)

/-- The loader's accesses to its own data. -/
theorem Spares.of_accesses (h : Accesses m m') : Spares W P m m' := by
  induction h with
  | refl => exact .refl W P m
  | tail _ hf ih =>
      refine ⟨fun x v hx hW hP hm => (ih.held x v hx hW hP hm).foreign hx hf,
        fun x v hx hW hP hm => (ih.placed x v hx hW hP hm).foreign hx hf, fun x hx hP hq => ?_⟩
      obtain ⟨hq', hram⟩ := ih.flat x hx hP hq
      exact ⟨hq'.foreign (fun b hb => (hx b hb).1) hf,
        (hq'.ram_foreign (hx x rfl).1 hf).trans hram⟩

end Frame

section Access

variable {m m' : Cached} {a : ℕ}

theorem accesses_evicts (h : Cache.Evicts lineOf m m') : Accesses m m' := by
  refine Relation.ReflTransGen.mono (fun m₁ m₂ hstep => ?_) m m' h
  obtain ⟨k, rfl⟩ := hstep
  exact .evict k

theorem accesses_touch (h : cachedBus.touch m a m') : Accesses m m' := by
  by_cases ha : uncached a
  · simp only [cachedBus, if_pos ha] at h
    exact h ▸ .refl
  · simp only [cachedBus, if_neg ha] at h
    obtain ⟨m₁, hev, rfl⟩ := h
    exact (accesses_evicts hev).tail (.load _)

theorem accesses_purge (m : Cached) (ks : List ℕ) : Accesses m (m.purge lineOf ks) := by
  induction ks generalizing m with
  | nil => exact .refl
  | cons k ks ih => exact .head (.evict k) (ih _)

theorem spares_write (m : Cached) (b : ℕ) (v : UInt8) :
    Spares (· = b) (fun _ => False) m (m.write lineOf b v) where
  held _ _ _ hW _ h := h.write hW
  placed _ _ _ hW _ h := h.write hW
  flat _ hx _ h := ⟨h.write fun hb => (hx b hb.symm).2 rfl, rfl⟩

theorem spares_poke (m : Cached) (b : ℕ) (v : UInt8) :
    Spares (fun _ => False) (· = b) m (m.poke b v) where
  held _ _ _ _ hP h := h.poke hP
  placed _ _ _ _ hP h := h.poke hP
  flat _ _ hP h := ⟨h.poke, Function.update_of_ne hP _ _⟩

/-- A store through the cache, after any accesses of the loader. -/
theorem spares_store8 {m₁ : Cached} {v : UInt8} {r : Unit} (ha : ¬ uncached a)
    (hacc : Accesses m m₁) (hst : loaderAccess m₁ (.store8 a v) r m') :
    Spares (· = phys a) (fun _ => False) m m' ∧ m'.Held lineOf (phys a) v := by
  simp only [loaderAccess, cachedBus, if_neg ha] at hst
  obtain ⟨m₂, hev, rfl⟩ := hst
  have hown : Accesses m m₂ := hacc.trans (accesses_evicts hev)
  exact ⟨((Spares.of_accesses (W := fun _ => False) (P := fun _ => False) hown).trans
    (spares_write m₂ _ v)).mono (by simp) (by simp), Cache.held_write m₂ _ v⟩

end Access

/-- Every run of the program returns, and does so with `Q`. -/
structure Yields {α : Type} (p : Loader α) (m : Cached) (Q : α → Cached → Prop) : Prop where
  sound : ∀ {tr o m'}, Exec loaderMachine p m tr o m' → ∃ a, o = .ret a ∧ Q a m'

section Rules

variable {α β : Type} {m m' : Cached} {p : Loader α} {f : α → Loader β} {Q : α → Cached → Prop}
  {R : β → Cached → Prop}

theorem Yields.ret {a : α} (h : Q a m) : Yields (.ret a) m Q where
  sound hexec := by
    cases hexec
    exact ⟨a, rfl, h⟩

theorem Yields.bind (hp : Yields p m Q) (hf : ∀ a m', Q a m' → Yields (f a) m' R) :
    Yields (p >>= f) m R where
  sound h := by
    rcases h.of_bind with ⟨e, -, hhalt⟩ | ⟨tr₁, tr₂, a, m₁, -, hret, hrest⟩
    · obtain ⟨a, ha, -⟩ := hp.sound hhalt
      cases ha
    · obtain ⟨a', ha, hQ⟩ := hp.sound hret
      cases ha
      exact (hf _ _ hQ).sound hrest

theorem Yields.op {c : LoaderCmd} {k : c.Resp → Loader α}
    (h : ∀ r m₁ m', Accesses m m₁ → loaderAccess m₁ c r m' → Yields (k r) m' Q) :
    Yields (.op c k) m Q where
  sound hexec := by
    obtain ⟨r, m', tr', -, ⟨m₁, hacc, hstep⟩, hrest⟩ := hexec.of_op
    exact (h r m₁ m' hacc hstep).sound hrest

theorem Yields.mono {Q' : α → Cached → Prop} (h : Yields p m Q) (hQ : ∀ a m', Q a m' → Q' a m') :
    Yields p m Q' where
  sound hexec := by
    obtain ⟨a, ha, hq⟩ := h.sound hexec
    exact ⟨a, ha, hQ a _ hq⟩

end Rules

end Cfp2Dreamcast
