import Cfp2Dreamcast.Cart.Footprint
import Cfp2Dreamcast.Machine.Cached

/-!
# The lines across the edges of the destination

The first and the last cache line over the destination may also hold bytes of its
neighbours, and a later store to a neighbour makes such a line dirty. The code of
`cart_read` brings none of them into the cache: its cached loads go to the bounce
buffer alone, so such a line is in the cache after a read only if it was there
before. What a syscall loads is up to the BIOS; `servedMachine` is the machine
whose BIOS leaves these lines alone too.
-/

namespace Cfp2Dreamcast

open Program Memory

/-- The line holds bytes of the destination and bytes of its neighbours. -/
def Straddles (dest len k : ℕ) : Prop :=
  ∃ x y, lineOf x = k ∧ lineOf y = k ∧ range dest len x ∧ ¬ range dest len y

/-- A line across an edge of the destination is in the cache only if it was there
before, and as it was. -/
def NoNewEdge (dest len : ℕ) (m m' : Cached) : Prop :=
  ∀ k, Straddles dest len k → m'.line k = none ∨ m'.line k = m.line k

/-- The machine while a read to the destination is served: no syscall loads through
the cache what shares a line with an edge of the destination. -/
def servedMachine (W : World Cached) (dest len : ℕ) : Machine shimSig (State Cached) where
  step s c r s' := shimStep cachedBus W s c r s' ∧
    ∀ r4 block r7, c = .gdc r4 block r7 → NoNewEdge dest len s.mem s'.mem

section Frame

variable {W : World Cached} {dest len : ℕ} {m m' m'' : Cached}

theorem noNewEdge_refl (dest len : ℕ) (m : Cached) : NoNewEdge dest len m m :=
  fun _ _ => .inr rfl

theorem NoNewEdge.trans (h : NoNewEdge dest len m m') (h' : NoNewEdge dest len m' m'') :
    NoNewEdge dest len m m'' := by
  intro k hk
  rcases h' k hk with hnone | hsame
  · exact .inl hnone
  · exact (h k hk).imp hsame.trans hsame.trans

/-- The machine is one of those with an arbitrary BIOS. -/
theorem exec_of_served {α : Type} {p : Shim α} {s s' : State Cached}
    {tr : List (Event shimSig)} {o : Outcome shimSig α}
    (h : Exec (servedMachine W dest len) p s tr o s') :
    Exec (shimMachine cachedBus W) p s tr o s' := by
  induction h with
  | ret a s => exact .ret a s
  | halt e s => exact .halt e s
  | op hstep _ ih => exact .op hstep.1 ih

/-- The commands that bring no line across an edge into the cache. -/
def EdgeCmd : Cmd → Prop
  | .load8 _ a => range shimBounce 2048 a
  | .load32 _ a => ¬ isRam a
  | .store8 _ a _ => uncached a
  | .store16 a _ => ¬ isRam a
  | .store32 _ a _ => isRam a → ∀ i < 4, uncached (a + i)
  | .engine => False
  | .awaitMaple => False
  | _ => True

theorem noNewEdge_storeRun {a : ℕ} {bs : List UInt8} (hst : cachedBus.storeRun m a bs m')
    (ha : ∀ i < bs.length, uncached (a + i)) : NoNewEdge dest len m m' := by
  induction bs generalizing m a with
  | nil =>
      obtain rfl : m' = m := hst
      exact noNewEdge_refl dest len _
  | cons b bs ih =>
      obtain ⟨m₁, hb, hrest⟩ := hst
      have hu : uncached a := ha 0 (by simp)
      simp only [cachedBus, if_pos hu] at hb
      subst hb
      have hfirst : NoNewEdge dest len m (m.poke (phys a) b) := fun _ _ => .inr rfl
      refine hfirst.trans (ih hrest fun i hi => ?_)
      rw [Nat.add_assoc, Nat.add_comm 1 i]
      exact ha (i + 1) (by simpa using hi)

/-- A load brings in its own line at most. -/
theorem noNewEdge_touch {a : ℕ} (ht : cachedBus.touch m a m')
    (ha : ¬ Straddles dest len (lineOf (phys a))) : NoNewEdge dest len m m' := by
  by_cases hu : uncached a
  · simp only [cachedBus, if_pos hu] at ht
    subst ht
    exact noNewEdge_refl dest len _
  · simp only [cachedBus, if_neg hu] at ht
    obtain ⟨m₁, hev, rfl⟩ := ht
    intro k hk
    have hne : k ≠ lineOf (phys a) := fun h => ha (h ▸ hk)
    have hfill : (m₁.fill (lineOf (phys a))).line k = m₁.line k :=
      Function.update_of_ne hne _ _
    rw [hfill]
    exact hev.line k

/-- One command. -/
theorem noNewEdge_step {s s' : State Cached} {c : Cmd} {r : c.Resp}
    (h : (servedMachine W dest len).step s c r s') (hc : EdgeCmd c)
    (hbounce : ∀ x, range shimBounce 2048 x → ¬ Straddles dest len (lineOf (phys x))) :
    NoNewEdge dest len s.mem s'.mem := by
  have hstep : (shimMachine cachedBus W).step s c r s' := h.1
  cases c with
  | load8 o a =>
      simp only [shimMachine, shimStep] at hstep
      split at hstep
      · obtain ⟨-, m, ht, rfl⟩ := hstep
        exact noNewEdge_touch ht (hbounce a hc)
      · subst hstep
        exact noNewEdge_refl dest len _
  | load16 a =>
      obtain ⟨-, rfl⟩ := hstep
      exact noNewEdge_refl dest len _
  | load32 o a =>
      obtain ⟨-, rfl⟩ := (step_load32_io hc).1 hstep
      exact noNewEdge_refl dest len _
  | store8 o a v =>
      simp only [shimMachine, shimStep] at hstep
      split at hstep
      · obtain ⟨m, hst, rfl⟩ := hstep
        simp only [cachedBus, if_pos (show uncached a from hc)] at hst
        subst hst
        exact noNewEdge_refl dest len _
      · subst hstep
        exact noNewEdge_refl dest len _
  | store16 a v =>
      obtain rfl := (step_store16_io hc).1 hstep
      exact noNewEdge_refl dest len _
  | store32 o a v =>
      simp only [shimMachine, shimStep] at hstep
      split at hstep
      · next hram =>
        obtain ⟨m, hst, rfl⟩ := hstep
        exact noNewEdge_storeRun hst (hc hram)
      · subst hstep
        exact noNewEdge_refl dest len _
  | ocbi a =>
      obtain ⟨m, rfl, rfl⟩ := hstep
      exact fun k _ => Cache.discard_line _ _ k
  | get x =>
      obtain ⟨-, rfl⟩ := hstep
      exact noNewEdge_refl dest len _
  | put x v =>
      cases hstep
      exact noNewEdge_refl dest len _
  | gdc r4 block r7 => exact h.2 r4 block r7 rfl
  | engine | awaitMaple => exact hc.elim

/-- A whole execution. -/
theorem noNewEdge_exec {α : Type} {p : Shim α} {s s' : State Cached}
    {tr : List (Event shimSig)} {o : Outcome shimSig α}
    (h : Exec (servedMachine W dest len) p s tr o s') (htr : ∀ ev ∈ tr, EdgeCmd ev.cmd)
    (hbounce : ∀ x, range shimBounce 2048 x → ¬ Straddles dest len (lineOf (phys x))) :
    NoNewEdge dest len s.mem s'.mem := by
  induction h with
  | ret a s | halt e s => exact noNewEdge_refl dest len _
  | op hstep hrest ih =>
      have hfirst := noNewEdge_step hstep (htr _ List.mem_cons_self) hbounce
      exact hfirst.trans (ih fun ev hev => htr ev (List.mem_cons_of_mem _ hev))

end Frame

/-! The code of `cart_read` issues such commands alone. -/

def edgeGuard : Guard shimSig := ⟨EdgeCmd, EdgeCmd, fun _ => True⟩

theorem DeviceCmd.edge {P : Read → Prop} {c : Cmd} (hc : DeviceCmd P c) : EdgeCmd c := by
  cases c with
  | load32 o a => exact hc
  | store16 a v => exact hc
  | store32 o a v => exact fun hram => absurd hram hc
  | load8 | store8 | engine | awaitMaple => exact hc.elim
  | _ => trivial

theorem DieCmd.edge {c : Cmd} (hc : DieCmd c) : EdgeCmd c := by
  cases c with
  | store32 o a v =>
      intro _ i hi
      obtain ⟨-, hlo, hhi⟩ := hc
      have herr : p2Addr shimErr = 0xacfc8000 := rfl
      rw [herr] at hlo hhi
      unfold uncached
      omega
  | _ => exact hc.elim

theorem edge_of_device {P : Read → Prop} {α : Type} {p : Shim α}
    (hp : Keeps (deviceGuard P) p) : Keeps edgeGuard p :=
  hp.mono (fun _ hc => hc.edge) (fun _ hc => hc.edge) fun _ h => h

section Parts

variable {b : Build} {off len dest : ℕ}

theorem edge_cartBounce {d rel skip take : ℕ} (hskip : skip + take ≤ 2048)
    (hd : ∀ i < take, uncached (d + i)) : Keeps edgeGuard (cartBounce b d rel skip take) := by
  have hread : Keeps edgeGuard (gdOrDie b shimBounce rel 1) :=
    edge_of_device (P := fun _ => True) (device_gdOrDie b trivial)
  refine Keeps.bind hread fun _ => xmemcpy_moves.mono ?_ (fun _ h => h.elim) fun _ h => h.elim
  rintro c hc
  cases c with
  | load8 o a =>
      obtain ⟨hlo, hhi⟩ := hc
      exact ⟨by omega, by omega⟩
  | store8 o a v =>
      obtain ⟨i, hi, rfl⟩ := exists_add_of_range hc
      exact hd i hi
  | _ => exact hc.elim

theorem edge_cartBody {d p rel n : ℕ} (hp : p < 2 ^ 29) :
    Keeps edgeGuard (cartBody b d p rel n) := by
  unfold cartBody
  split
  · exact edge_of_device (P := fun _ => True) (device_gdOrDieDma b hp trivial)
  · exact edge_of_device (P := fun _ => True) (device_gdOrDie b trivial)

theorem edge_cartRead (h : Accepted off len dest) :
    Keeps edgeGuard (cartRead b off len dest) := by
  have hs := cartSplit_covers off len
  have htotal := hs.total
  have hlow := h.low
  have hhigh := h.high
  have hp2 : p2Addr dest = dest + 0xa0000000 := p2Addr_eq_add (by omega)
  unfold cartRead
  refine Keeps.bind (Keeps.whenever fun hne => ?_) fun _ =>
    Keeps.bind (Keeps.whenever fun hne => ?_) fun _ => Keeps.whenever fun hne => ?_
  · obtain ⟨-, hle⟩ := hs.head hne
    refine edge_cartBounce hle fun i hi => ?_
    rw [hp2]
    unfold uncached
    omega
  · exact edge_cartBody (by omega)
  · obtain ⟨hle, -⟩ := hs.tail hne
    refine edge_cartBounce (by omega) fun i hi => ?_
    rw [hp2]
    unfold uncached
    omega

end Parts

end Cfp2Dreamcast
