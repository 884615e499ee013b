import Cfp2Dreamcast.Machine.Frame

/-!
# Bytes that stay where they were stored

Behind a write-back cache a stored byte need not last: a dirty line over it may
be written back later. `Bus.Durable` is what a delivery needs to know about a
memory system, byte by byte: `holds m a v` says that `a` has the byte `v` and no
side effect of a load changes that, `ready m a v` that a store of `v` to `a`
makes it so. `apart a b` says that stores to `b` do not concern `a`, and
`direct a` that a block invalidate does not harm `a` and that the invalidate of
its own block makes it ready.
-/

namespace Cfp2Dreamcast

open Program Memory

structure Bus.Durable {μ : Type} (B : Bus μ) where
  holds : μ → ℕ → UInt8 → Prop
  ready : μ → ℕ → UInt8 → Prop
  apart : ℕ → ℕ → Prop
  direct : ℕ → Prop
  view_eq {m : μ} {a : ℕ} {v : UInt8} : holds m a v → B.view m a = v
  touch_holds {m m' : μ} {a b : ℕ} {v : UInt8} :
    B.touch m b m' → holds m a v → holds m' a v
  touch_ready {m m' : μ} {a b : ℕ} {v : UInt8} :
    B.touch m b m' → ready m a v → ready m' a v
  store_holds {m m' : μ} {a : ℕ} {v : UInt8} :
    B.store m a v m' → ready m a v → holds m' a v
  store_ready {m m' : μ} {a : ℕ} {v w : UInt8} :
    B.store m a w m' → ready m a v → ready m' a v
  apart_holds {m m' : μ} {a b : ℕ} {v w : UInt8} :
    apart a b → B.store m b w m' → holds m a v → holds m' a v
  apart_ready {m m' : μ} {a b : ℕ} {v w : UInt8} :
    apart a b → B.store m b w m' → ready m a v → ready m' a v
  discard_holds {m m' : μ} {a b : ℕ} {v : UInt8} :
    direct a → B.discard m b m' → holds m a v → holds m' a v
  discard_ready {m m' : μ} {a b : ℕ} {v : UInt8} :
    direct a → B.discard m b m' → ready m a v → ready m' a v
  discard_fresh {m m' : μ} {a b : ℕ} (v : UInt8) :
    direct a → phys b / 32 = phys a / 32 → B.discard m b m' → ready m' a v

namespace Bus.Durable

variable {μ : Type} {B : Bus μ} (K : B.Durable) {W D : ℕ → Prop} {m m' : μ}
  {a : ℕ} {v : UInt8}

/-- A run that stores elsewhere keeps a held byte. -/
theorem run_holds (h : B.Run W D m m') (hW : ∀ b, W b → K.apart a b)
    (hD : ∀ b, D b → K.direct a) (hm : K.holds m a v) : K.holds m' a v := by
  induction h with
  | refl => exact hm
  | tail _ hstep ih =>
      rcases hstep with ⟨b, w, hb, hst⟩ | ⟨b, ht⟩ | ⟨b, hb, hd⟩
      · exact K.apart_holds (hW b hb) hst ih
      · exact K.touch_holds ht ih
      · exact K.discard_holds (hD b hb) hd ih

/-- A run that stores elsewhere or to the address itself keeps it ready. -/
theorem run_ready (h : B.Run W D m m') (hW : ∀ b, W b → b ≠ a → K.apart a b)
    (hD : ∀ b, D b → K.direct a) (hm : K.ready m a v) : K.ready m' a v := by
  induction h with
  | refl => exact hm
  | tail _ hstep ih =>
      rcases hstep with ⟨b, w, hb, hst⟩ | ⟨b, ht⟩ | ⟨b, hb, hd⟩
      · rcases eq_or_ne b a with rfl | hne
        · exact K.store_ready hst ih
        · exact K.apart_ready (hW b hb hne) hst ih
      · exact K.touch_ready ht ih
      · exact K.discard_ready (hD b hb) hd ih

/-- What the shim knows about one address of an open buffer: a store of `v`
would last, and if the drive stored `v` last then `v` is held. -/
def Watch (x : μ × Drive) (a : ℕ) (v : UInt8) : Prop :=
  K.ready x.1 a v ∧ (x.2.wrote a = some v → K.holds x.1 a v)

theorem watch_transferStep {x y : μ × Drive} (h : TransferStep B x y)
    (hbufs : ∀ b, inBuffers x.2.buffers b → b ≠ a → K.apart a b)
    (hx : K.Watch x a v) : K.Watch y a v := by
  obtain ⟨hready, hwrote⟩ := hx
  cases h with
  | @store m m' d b w hb hst =>
      rcases eq_or_ne b a with rfl | hne
      · refine ⟨K.store_ready hst hready, fun hw => ?_⟩
        have hwv : w = v := Option.some.inj ((Function.update_self b _ _).symm.trans hw)
        subst hwv
        exact K.store_holds hst hready
      · refine ⟨K.apart_ready (hbufs b hb hne) hst hready, fun hw => ?_⟩
        have hold := (Function.update_of_ne hne.symm (some w) d.wrote).symm.trans hw
        exact K.apart_holds (hbufs b hb hne) hst (hwrote hold)
  | touch ht =>
      exact ⟨K.touch_ready ht hready, fun hw => K.touch_holds ht (hwrote hw)⟩

theorem watch_transfers {x y : μ × Drive} (h : Transfers B x y)
    (hbufs : ∀ b, inBuffers x.2.buffers b → b ≠ a → K.apart a b)
    (hx : K.Watch x a v) : K.Watch y a v := by
  have hall : y.2.buffers = x.2.buffers ∧ K.Watch y a v := by
    induction h with
    | refl => exact ⟨rfl, hx⟩
    | tail _ hstep ih =>
        obtain ⟨heq, hy⟩ := ih
        refine ⟨?_, K.watch_transferStep hstep (heq ▸ hbufs) hy⟩
        cases hstep with
        | store hb hst => exact heq
        | touch ht => exact heq
  exact hall.2

/-- The addresses of the buffer are pairwise apart. -/
def Spread (rd : Read) : Prop :=
  ∀ i < rd.n * 2048, ∀ b, rd.buffer.Mem b → b ≠ rd.addr + i → K.apart (rd.addr + i) b

/-- Every byte of the read can be delivered for good. -/
def Ready (m : μ) (disc : Disc) (rd : Read) : Prop :=
  ∀ i < rd.n * 2048, K.ready m (rd.addr + i) (rd.byte disc i)

/-- Every byte of the read has been delivered for good. -/
def Holds (m : μ) (disc : Disc) (rd : Read) : Prop :=
  ∀ i < rd.n * 2048, K.holds m (rd.addr + i) (rd.byte disc i)

/-- The read is pending in a drive that owns its buffer only. -/
structure Waiting (x : μ × Drive) (disc : Disc) (req : ℤ) (rd : Read) : Prop where
  pending : x.2.pending = some (req, rd)
  within : x.2.Within rd.buffer.Mem
  watch : ∀ i < rd.n * 2048, K.Watch x (rd.addr + i) (rd.byte disc i)

variable {K} {disc : Disc} {rd : Read} {req : ℤ}

theorem Waiting.transfers {x y : μ × Drive} (hx : K.Waiting x disc req rd)
    (hrd : K.Spread rd) (h : Transfers B x y) : K.Waiting y disc req rd := by
  have hbufs : y.2.buffers = x.2.buffers ∧ y.2.pending = x.2.pending := by
    induction h with
    | refl => exact ⟨rfl, rfl⟩
    | tail _ hstep ih =>
        cases hstep with
        | store hb hst => exact ih
        | touch ht => exact ih
  refine ⟨hbufs.2.trans hx.pending, fun a ha => hx.within a (hbufs.1 ▸ ha), ?_⟩
  intro i hi
  exact K.watch_transfers h (fun b hb => hrd i hi b (hx.within b hb)) (hx.watch i hi)

theorem Waiting.holds {x : μ × Drive} (hx : K.Waiting x disc req rd)
    (hdata : x.2.Delivered disc rd) : K.Holds x.1 disc rd :=
  fun i hi => (hx.watch i hi).2 (hdata i hi)

/-- An accepted SEND leaves the read waiting. -/
theorem Waiting.of_send {d : Drive} {r4 : ℕ} {block : List ℕ} {r0 : ℤ} (hr0 : 0 < r0)
    (hrd : sentRead r4 block = some rd) (hd : d.Within rd.buffer.Mem)
    (hm : K.Ready m disc rd) : K.Waiting (m, d.send r4 block r0) disc r0 rd := by
  have hwithin : (d.send r4 block r0).Within rd.buffer.Mem := by
    refine hd.send ?_ r0
    rintro rd' hrd' a ha
    cases hrd.symm.trans hrd'
    exact ha
  have hsend : d.send r4 block r0 =
      ⟨some (r0, rd), rd.buffer :: d.buffers, fun _ => none⟩ := by
    simp [Drive.send, hr0, hrd]
  rw [hsend] at hwithin ⊢
  exact ⟨rfl, hwithin, fun i hi => ⟨hm i hi, fun h => by cases h⟩⟩

end Bus.Durable

end Cfp2Dreamcast
