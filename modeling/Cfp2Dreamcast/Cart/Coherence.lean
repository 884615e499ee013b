import Cfp2Dreamcast.Cart.Edges

/-!
# The cart service behind the operand cache

The head, the tail and a body that goes by PIO are stored past the cache, and
only a body that goes by DMA is preceded by an invalidate. A line over the other
parts survives the read. If it is dirty, its eviction puts the old bytes back; if it
is clean and reaches outside the destination, a store to a neighbour makes it dirty
first. The delivered bytes therefore last exactly when no such line disagrees with
the cart.
-/

namespace Cfp2Dreamcast

open Program Memory

section Geometry

variable {off len dest : ℕ}

theorem uncached_dest (h : Accepted off len dest) {i : ℕ} (hi : i < len) :
    uncached (p2Addr dest + i) := by
  obtain ⟨-, hlow, hhigh⟩ := h
  rw [p2Addr_eq_add (by omega)]
  unfold uncached
  omega

theorem phys_dest (h : Accepted off len dest) {i : ℕ} (hi : i < len) :
    phys (p2Addr dest + i) = dest + i := by
  obtain ⟨-, hlow, hhigh⟩ := h
  rw [phys_p2Addr_add]
  exact phys_of_lt (by omega)

theorem not_uncached_bounce {x : ℕ} (hx : range shimBounce 2048 x) : ¬ uncached x := by
  obtain ⟨hlo, hhi⟩ := hx
  rw [shimBounce_eq] at hlo hhi
  unfold uncached
  omega

theorem phys_bounce {x : ℕ} (hx : range shimBounce 2048 x) :
    phys x + 0x80000000 = x ∧ 0x0cfca000 ≤ phys x := by
  obtain ⟨hlo, hhi⟩ := hx
  rw [shimBounce_eq] at hlo hhi
  unfold phys
  omega

theorem cachedDurable_fits (h : Accepted off len dest) : cachedDurable.Fits dest len where
  direct i hi := uncached_dest h hi
  dest_apart i hi x hx hne := by
    obtain ⟨j, hj, rfl⟩ := exists_add_of_range hx
    refine ⟨?_, fun _ hx => absurd (uncached_dest h hj) hx⟩
    rw [phys_dest h hi, phys_dest h hj]
    omega
  dest_bounce i hi x hx := by
    have hphys := (phys_bounce hx).2
    have hhigh := h.high
    refine ⟨?_, fun _ _ => ?_⟩
    · rw [phys_dest h hi]
      omega
    · rw [phys_dest h hi]
      unfold lineOf
      omega
  bounce_apart i hi x hx hne := by
    have hphys := (phys_bounce hx).1
    have hphys' := (phys_bounce (range_add hi)).1
    exact ⟨by omega, fun ha => absurd ha (not_uncached_bounce (range_add hi))⟩
  bounce_dest i hi x hx := by
    obtain ⟨j, hj, rfl⟩ := exists_add_of_range hx
    have hphys := (phys_bounce (range_add hi)).2
    have hhigh := h.high
    refine ⟨?_, fun ha => absurd ha (not_uncached_bounce (range_add hi))⟩
    rw [phys_dest h hj]
    omega
  bounce_ready m i hi v := fun ha => absurd ha (not_uncached_bounce (range_add hi))

end Geometry

/-- Over a part of the destination outside the DMA body, no line that is dirty or
that reaches outside the destination disagrees with the cart. -/
def Undisputed (b : Build) (cart : ℕ → UInt8) (m : Cached) (off len dest : ℕ) : Prop :=
  ∀ i < len, ¬ byDma b off len dest i →
    m.Sealed lineOf (range dest len) (dest + i) (cart (off + i))

/-- Any later loads, stores outside the destination and invalidates, with the
evictions they cause. -/
def Later (dest len : ℕ) : Cached → Cached → Prop :=
  cachedBus.Run (fun a => ¬ range dest len (phys a)) fun _ => True

/-- The destination reads as the cart past the cache, now and later. -/
def Lasting (cart : ℕ → UInt8) (off len dest : ℕ) (m : Cached) : Prop :=
  ∀ m', Later dest len m m' →
    ∀ i < len, cachedBus.view m' (p2Addr dest + i) = cart (off + i)

/-- The blocks that a run invalidates lie inside the destination. -/
def DiscardsInside (dest len : ℕ) (tr : List (Event shimSig)) : Prop :=
  ∀ ev ∈ tr, ∀ a, ev.cmd = Cmd.ocbi a →
    ∀ x, lineOf x = lineOf (phys a) → dest ≤ x ∧ x < dest + len

/-- Every `cart_read` that returns leaves lasting bytes, and none discards data
outside the destination. -/
def Coherent (b : Build) (W : World Cached) (cart : ℕ → UInt8) (off len dest : ℕ)
    (s : State Cached) : Prop :=
  ∀ tr o s', Exec (servedMachine W dest len) (cartRead b off len dest) s tr o s' →
    (o = .ret () → Lasting cart off len dest s'.mem) ∧ DiscardsInside dest len tr

section Later

variable {dest len : ℕ} {m m' : Cached} {a : ℕ} {v : UInt8}

/-- One later step keeps a byte of the destination. -/
theorem kept_runStep (ha : range dest len a)
    (h : cachedBus.runStep (fun a => ¬ range dest len (phys a)) (fun _ => True) m m')
    (hm : m.Kept lineOf (range dest len) a v) : m'.Kept lineOf (range dest len) a v := by
  rcases h with ⟨c, w, hc, hst⟩ | ⟨c, ht⟩ | ⟨c, -, rfl⟩
  · have hne : a ≠ phys c := fun hac => hc (hac ▸ ha)
    by_cases hu : uncached c
    · simp only [cachedBus, if_pos hu] at hst
      exact hst ▸ hm.poke hne
    · simp only [cachedBus, if_neg hu] at hst
      obtain ⟨m₁, hev, rfl⟩ := hst
      exact (hm.evicts hev).write ha hc
  · by_cases hu : uncached c
    · simp only [cachedBus, if_pos hu] at ht
      exact ht ▸ hm
    · simp only [cachedBus, if_neg hu] at ht
      obtain ⟨m₁, hev, rfl⟩ := ht
      exact (hm.evicts hev).fill _
  · exact hm.discard _

theorem kept_later (ha : range dest len a) (h : Later dest len m m')
    (hm : m.Kept lineOf (range dest len) a v) : m'.Kept lineOf (range dest len) a v := by
  induction h with
  | refl => exact hm
  | tail _ hstep ih => exact kept_runStep ha hstep ih

end Later

section Delivery

variable {W : World Cached} {b : Build} {cart : ℕ → UInt8} {off len dest : ℕ}
  {s s' : State Cached} {tr : List (Event shimSig)} {o : Outcome shimSig Unit}

theorem cartRead_discardsInside (h : Accepted off len dest)
    (hexec : Exec (servedMachine W dest len) (cartRead b off len dest) s tr o s') :
    DiscardsInside dest len tr := by
  rintro ev hev a ha x hx
  have hcmd := (cartRead_keeps b h).exec hexec ev hev
  rw [ha] at hcmd
  obtain ⟨hal, hlo, hhi⟩ := hcmd.resolve_right fun h => h
  have hhigh := h.high
  have hphys : phys a = a - 0x80000000 := by
    unfold phys
    omega
  rw [hphys] at hx
  unfold lineOf at hx
  omega

/-- The body of a DMA read is made of whole lines. -/
theorem not_exposed_of_byDma {i : ℕ} (hdma : byDma b off len dest i) :
    ¬ Cache.Exposed lineOf (range dest len) (lineOf (dest + i)) := by
  obtain ⟨hby, hlo, hhi⟩ := hdma
  have hal := ((bodyByDma_iff b).1 hby).2
  have htotal := (cartSplit_covers off len).total
  rintro ⟨x, hx, hout⟩
  refine hout ⟨?_, ?_⟩
  · unfold lineOf at hx
    omega
  · unfold lineOf at hx
    omega

/-- The bounce buffer shares no line with the destination. -/
theorem not_straddles_bounce (h : Accepted off len dest) {x : ℕ}
    (hx : range shimBounce 2048 x) : ¬ Straddles dest len (lineOf (phys x)) := by
  rintro ⟨y, -, hy, -, ⟨-, hhi⟩, -⟩
  have hphys := (phys_bounce hx).2
  have hhigh := h.high
  unfold lineOf at hy
  omega

/-- What a returning read leaves of an undisputed byte. -/
theorem cartRead_kept (h : Accepted off len dest) (hdisc : Mastered b W.disc cart)
    (hidle : s.drive = .idle) (hclean : Undisputed b cart s.mem off len dest)
    (hexec : Exec (servedMachine W dest len) (cartRead b off len dest) s tr (.ret ()) s')
    {i : ℕ} (hi : i < len) :
    s'.mem.Kept lineOf (range dest len) (dest + i) (cart (off + i)) := by
  have hready : ∀ i < len, ¬ byDma b off len dest i →
      cachedDurable.ready s.mem (p2Addr dest + i) (cart (off + i)) := by
    intro i hi hdma _
    rw [phys_dest h hi]
    exact (hclean i hi hdma).settled
  have hheld := ((cartRead_delivers b (cachedDurable_fits h) h hdisc hidle hready).exec
    (exec_of_served hexec) () rfl).2 i hi
  obtain ⟨hram, hsettled⟩ := (cachedHolds_uncached (uncached_dest h hi)).1 hheld
  rw [phys_dest h hi] at hram hsettled
  refine ⟨hram, fun l hl hd => ?_⟩
  rcases hd with hd | he
  · exact hsettled l hl hd
  -- the line reaches outside the destination, so it was there before the read
  have hdma : ¬ byDma b off len dest i := fun hdma => not_exposed_of_byDma hdma he
  obtain ⟨y, hy, hout⟩ := he
  have hstraddles : Straddles dest len (lineOf (dest + i)) :=
    ⟨dest + i, y, rfl, hy, range_add hi, hout⟩
  have hcmd : ∀ ev ∈ tr, EdgeCmd ev.cmd := fun ev hev =>
    ((edge_cartRead h).exec hexec ev hev).elim id id
  have hedge := noNewEdge_exec hexec hcmd fun x hx => not_straddles_bounce h hx
  rcases hedge _ hstraddles with hnone | hsame
  · cases hnone.symm.trans hl
  · exact hclean i hi hdma l (hsame.symm.trans hl) (.inr ⟨y, hy, hout⟩)

/-- Undisputed bytes last. -/
theorem cartRead_lasting (h : Accepted off len dest) (hdisc : Mastered b W.disc cart)
    (hidle : s.drive = .idle) (hclean : Undisputed b cart s.mem off len dest)
    (hexec : Exec (servedMachine W dest len) (cartRead b off len dest) s tr (.ret ()) s') :
    Lasting cart off len dest s'.mem := by
  intro m' hlater i hi
  have hkept := kept_later (range_add hi) hlater (cartRead_kept h hdisc hidle hclean hexec hi)
  simp only [cachedBus, if_pos (uncached_dest h hi), phys_dest h hi]
  exact hkept.ram

end Delivery

end Cfp2Dreamcast
