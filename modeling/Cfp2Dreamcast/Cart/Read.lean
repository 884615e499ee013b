import Cfp2Dreamcast.Cart.GdRead
import Cfp2Dreamcast.Cart.Split

/-!
# What `cart_read` does

For a request that passes the guard of the service, `cart_read` asks the drive
only for sectors of the cart area, stores and lets the drive store only to the
destination and the bounce buffer, and invalidates only blocks of the
destination.
-/

namespace Cfp2Dreamcast

open Program Memory

/-- The request passes the guard of `shim_cart_service`. -/
structure Accepted (off len dest : ℕ) : Prop where
  area : off + len ≤ cartSize
  low : 0x0c000000 ≤ dest
  high : dest + len ≤ 0x0cfc0000

/-- The addresses `a`, ..., `a + n - 1`. -/
def range (a n x : ℕ) : Prop := a ≤ x ∧ x < a + n

theorem range_add {a n i : ℕ} (hi : i < n) : range a n (a + i) :=
  ⟨Nat.le_add_right a i, Nat.add_lt_add_left hi a⟩

theorem exists_add_of_range {a n x : ℕ} (hx : range a n x) : ∃ i < n, x = a + i :=
  ⟨x - a, by have := hx.2; have := hx.1; omega, by have := hx.1; omega⟩

/-- A read request that `cart_read` may issue: its sectors belong to the cart
and its buffer is the bounce buffer or a part of the destination. -/
structure AreaRead (b : Build) (dest len : ℕ) (rd : Read) : Prop where
  first : b.cartFad ≤ rd.fad
  last : rd.fad + rd.n ≤ b.cartFad + cartSize / 2048
  buffer : rd.addr = shimBounce ∧ rd.n = 1 ∨
    p2Addr dest ≤ rd.addr ∧ rd.addr + rd.n * 2048 ≤ p2Addr dest + len

theorem AreaRead.mem {b : Build} {dest len : ℕ} {rd : Read} (hrd : AreaRead b dest len rd)
    {a : ℕ} (ha : rd.buffer.Mem a) :
    range (p2Addr dest) len a ∨ range shimBounce 2048 a := by
  obtain ⟨hlo, hhi⟩ := ha
  simp only [Read.buffer] at hlo hhi
  rcases hrd.buffer with ⟨haddr, hn⟩ | ⟨hfirst, hlast⟩
  · rw [haddr] at hlo
    rw [haddr, hn, Nat.one_mul] at hhi
    exact .inr ⟨hlo, hhi⟩
  · exact .inl ⟨hfirst.trans hlo, Nat.lt_of_lt_of_le hhi hlast⟩

def readGuard (b : Build) (dest len : ℕ) : Guard shimSig :=
  cartGuard (AreaRead b dest len) (blocksOf dest len) (range (p2Addr dest) len)

section Parts

variable {P : Read → Prop} {D W : ℕ → Prop} (b : Build)

theorem gdOrDie_keeps {dst rel n : ℕ} (hP : P ⟨b.cartFad + rel, n, dst⟩) :
    Keeps (cartGuard P D W) (gdOrDie b dst rel n) := by
  refine Keeps.bind (gdReadSectors_keeps b hP) fun r => ?_
  show Keeps _ (ite _ _ _)
  split
  · exact .op rfl fun _ => shimDie_keeps (.inl rfl)
  · trivial

theorem gdOrDieDma_keeps {p rel n : ℕ} (hp : p < 2 ^ 29) (hal : p % 32 = 0)
    (hD : ∀ a, blocksOf p (n * 2048) a → D a) (hP : P ⟨b.cartFad + rel, n, p2Addr p⟩) :
    Keeps (cartGuard P D W) (gdOrDieDma b p rel n) := by
  refine Keeps.bind (gdReadSectorsDma_keeps b hp hal hD hP) fun r => ?_
  show Keeps _ (ite _ _ _)
  split
  · exact .op rfl fun _ => shimDie_keeps (.inl rfl)
  · trivial

theorem cartBounce_keeps {dst rel skip take : ℕ} (hP : P ⟨b.cartFad + rel, 1, shimBounce⟩)
    (hW : ∀ i < take, W (dst + i)) :
    Keeps (cartGuard P D W) (cartBounce b dst rel skip take) :=
  Keeps.bind (gdOrDie_keeps b hP) fun _ => xmemcpy_keeps hW

theorem bodyByDma_iff {bodyPhys : ℕ} :
    bodyByDma b bodyPhys ↔ b.gdDma = true ∧ bodyPhys % 32 = 0 := by
  have h : bodyPhys &&& 31 = bodyPhys % 32 := and_low bodyPhys 5
  unfold bodyByDma
  rw [h]

theorem cartBody_keeps {p rel n : ℕ} (hp : p < 2 ^ 29)
    (hD : ∀ a, blocksOf p (n * 2048) a → D a) (hP : P ⟨b.cartFad + rel, n, p2Addr p⟩) :
    Keeps (cartGuard P D W) (cartBody b (p2Addr p) p rel n) := by
  unfold cartBody
  split
  · next h => exact gdOrDieDma_keeps b hp ((bodyByDma_iff b).1 h).2 hD hP
  · exact gdOrDie_keeps b hP

end Parts

/-- The uncached alias moves along with the address. -/
theorem Accepted.p2Addr_add {off len dest : ℕ} (h : Accepted off len dest) {i : ℕ}
    (hi : i ≤ len) : p2Addr (dest + i) = p2Addr dest + i := by
  have := h.high
  rw [p2Addr_eq_add (by omega), p2Addr_eq_add (by omega)]
  omega

theorem cartRead_keeps (b : Build) {off len dest : ℕ} (h : Accepted off len dest) :
    Keeps (readGuard b dest len) (cartRead b off len dest) := by
  obtain ⟨harea, hlow, hhigh⟩ := h
  rw [cartSize_eq] at harea
  have hs := cartSplit_covers off len
  have htotal := hs.total
  have hbounce : ∀ rel, rel < cartSize / 2048 →
      AreaRead b dest len ⟨b.cartFad + rel, 1, shimBounce⟩ := by
    intro rel hrel
    exact ⟨Nat.le_add_right _ _, by simp only; omega, .inl ⟨rfl, rfl⟩⟩
  have hdst : ∀ k n i, k + n ≤ len → i < n →
      range (p2Addr dest) len (p2Addr dest + k + i) := by
    intro k n i hk hi
    rw [Nat.add_assoc]
    exact range_add (by omega)
  simp only [cartSize_eq] at hbounce
  unfold cartRead readGuard
  refine Keeps.bind (Keeps.whenever fun hne => ?_) fun _ => ?_
  · obtain ⟨hoff, hle⟩ := hs.head hne
    refine cartBounce_keeps b (hbounce _ (by omega)) fun i hi => ?_
    exact hdst 0 _ i (by omega) hi
  refine Keeps.bind (Keeps.whenever fun hne => ?_) fun _ => ?_
  · have hoff := hs.body hne
    rw [← Accepted.p2Addr_add ⟨harea, hlow, hhigh⟩ (by omega : _ ≤ len)]
    refine cartBody_keeps b (by omega) (fun a ha => ?_) ⟨Nat.le_add_right _ _, ?_, .inr ?_⟩
    · obtain ⟨hal, hlo, hhi⟩ := ha
      exact ⟨hal, by omega, by omega⟩
    · simp only [cartSize_eq]
      omega
    · rw [Accepted.p2Addr_add ⟨harea, hlow, hhigh⟩ (by omega : _ ≤ len)]
      exact ⟨Nat.le_add_right _ _, by simp only; omega⟩
  · refine Keeps.whenever fun hne => ?_
    obtain ⟨hle, hoff⟩ := hs.tail hne
    refine cartBounce_keeps b (hbounce _ (by omega)) fun i hi => ?_
    rw [Nat.add_assoc (p2Addr dest)]
    exact hdst _ _ i (by omega) hi

end Cfp2Dreamcast
