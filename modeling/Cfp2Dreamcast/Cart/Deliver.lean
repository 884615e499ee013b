import Cfp2Dreamcast.Cart.Read

/-!
# What `cart_read` delivers

On any memory system with a `Bus.Durable`, a `cart_read` that returns has put
the bytes of the cart at the destination for good. The destination is filled
from the front: `Progress k` says that the first `k` bytes are delivered and the
rest, except what the DMA will invalidate first, is ready. Each part of the
split takes it forward by the bytes it delivers.
-/

namespace Cfp2Dreamcast

open Program Memory

variable {μ : Type} {B : Bus μ} {Wd : World μ}

/-- The cart area of the disc holds the cart. -/
def Mastered (b : Build) (disc : Disc) (cart : ℕ → UInt8) : Prop :=
  ∀ k < cartSize / 2048, ∀ j < 2048, disc (b.cartFad + k) j = cart (2048 * k + j)

theorem Mastered.byte {b : Build} {disc : Disc} {cart : ℕ → UInt8}
    (h : Mastered b disc cart) {rel n addr i : ℕ} (hi : rel + i / 2048 < cartSize / 2048) :
    Read.byte ⟨b.cartFad + rel, n, addr⟩ disc i = cart (2048 * rel + i) := by
  have hlt : i % 2048 < 2048 := Nat.mod_lt i (by decide)
  have hcart : 2048 * (rel + i / 2048) + i % 2048 = 2048 * rel + i := by omega
  rw [Read.byte, Nat.add_assoc, h _ hi _ hlt, hcart]

/-- How the destination and the bounce buffer of an accepted request lie in the
memory system. -/
structure Bus.Durable.Fits (K : B.Durable) (dest len : ℕ) : Prop where
  direct : ∀ i < len, K.direct (p2Addr dest + i)
  dest_apart : ∀ i < len, ∀ x, range (p2Addr dest) len x → x ≠ p2Addr dest + i →
    K.apart (p2Addr dest + i) x
  dest_bounce : ∀ i < len, ∀ x, range shimBounce 2048 x → K.apart (p2Addr dest + i) x
  bounce_apart : ∀ i < 2048, ∀ x, range shimBounce 2048 x → x ≠ shimBounce + i →
    K.apart (shimBounce + i) x
  bounce_dest : ∀ i < 2048, ∀ x, range (p2Addr dest) len x →
    K.apart (shimBounce + i) x
  bounce_ready : ∀ m, ∀ i < 2048, ∀ v, K.ready m (shimBounce + i) v

section Reads

variable {K : B.Durable} {s : State μ} (b : Build) {dst fad n p rel : ℕ}

theorem gdReadSectors_delivers (hrd : K.Spread ⟨fad, n, dst⟩)
    (hready : K.Ready s.mem Wd.disc ⟨fad, n, dst⟩) (hidle : s.drive = .idle) :
    wp (shimMachine B Wd) (gdReadSectors b dst fad n)
      (fun tr => Delivers K Wd.disc ⟨fad, n, dst⟩ (0 ≤ ·) tr) s := by
  have hpure : Keeps (cartGuard (· = ⟨fad, n, dst⟩) (fun _ => False) fun _ => False)
      (pure () : Shim Unit) := trivial
  refine gdRead_delivers b gdPio (fun m => K.Ready m Wd.disc ⟨fad, n, dst⟩) hrd
    sentRead_pio hpure hpure ?_ ?_ ?_ hready (hidle ▸ Drive.idle_within _)
  · intro m m' hrun hm i hi
    exact K.run_ready hrun (fun x hx hne => hrd i hi x hx hne) (fun _ h => h.elim) (hm i hi)
  · exact fun s hs hd _ _ => ⟨hs, hd⟩
  · exact fun s => ⟨rfl, rfl⟩

/-- A device register is no RAM, so masking the interrupt changes nothing. -/
theorem maskGdIrq_quiet {a : ℕ} (ha : ¬ isRam a) (s : State μ) :
    wp (shimMachine B Wd) (maskGdIrq a)
      (fun _ _ s' => s'.mem = s.mem ∧ s'.drive = s.drive) s := by
  intro r s₁ hload
  obtain ⟨-, rfl⟩ := (step_load32_io ha).1 hload
  intro _ s₂ hstore
  obtain rfl := (step_store32_io ha).1 hstore
  exact ⟨rfl, rfl⟩

/-- The blocks that were invalidated are ready. -/
theorem ocbiBlocks_ready (K : B.Durable) {a k : ℕ} (s : State μ) :
    wp (shimMachine B Wd) (ocbiBlocks a k)
      (fun _ _ s' => s'.drive = s.drive ∧ ∀ x v, K.direct x →
        (K.ready s.mem x v ∨ ∃ j < k, phys (a + 32 * j) / 32 = phys x / 32) →
        K.ready s'.mem x v) s := by
  induction k generalizing a s with
  | zero =>
      refine ⟨rfl, fun x v hx h => ?_⟩
      rcases h with h | ⟨j, hj, -⟩
      · exact h
      · exact absurd hj (Nat.not_lt_zero j)
  | succ k ih =>
      intro _ s₁ hstep
      obtain ⟨m, hd, rfl⟩ := hstep
      refine (ih _).mono fun tr o s' hs' => ⟨hs'.1, fun x v hx h => hs'.2 x v hx ?_⟩
      rcases h with h | ⟨j, hj, hblock⟩
      · exact .inl (K.discard_ready hx hd h)
      · cases j with
        | zero => exact .inl (K.discard_fresh v hx hblock hd)
        | succ j =>
            refine .inr ⟨j, by omega, ?_⟩
            rwa [show a + 32 + 32 * j = a + 32 * (j + 1) by omega]

theorem gdReadSectorsDma_delivers (hp : p < 2 ^ 29) (hal : p % 32 = 0)
    (hrd : K.Spread ⟨fad, n, p2Addr p⟩)
    (hdirect : ∀ i < n * 2048, K.direct (p2Addr p + i)) (hidle : s.drive = .idle) :
    wp (shimMachine B Wd) (gdReadSectorsDma b p fad n)
      (fun tr => Delivers K Wd.disc ⟨fad, n, p2Addr p⟩ (0 ≤ ·) tr) s := by
  unfold gdReadSectorsDma
  simp only [and_physMask, phys_of_lt hp]
  have hmask : ∀ a ∈ gdRegs, ∀ s : State μ, s.drive = .idle →
      wp (shimMachine B Wd) (maskGdIrq a) (fun _ _ s' => s'.drive = .idle) s :=
    fun a ha s hs => (maskGdIrq_quiet (gdRegs_not_isRam ha) s).mono
      fun tr o s' h => h.2.trans hs
  refine wp_seq (hmask _ (by decide) s hidle) (fun tr a s₁ hs₁ => ?_)
    fun tr e s₁ _ a h => by cases h
  refine wp_seq (hmask _ (by decide) s₁ hs₁) (fun tr a s₂ hs₂ => ?_)
    fun tr e s₁ _ a h => by cases h
  refine wp_seq (hmask _ (by decide) s₂ hs₂) (fun tr a s₃ hs₃ => ?_)
    fun tr e s₁ _ a h => by cases h
  refine gdRead_delivers b (gdDma p n) (fun _ => True) hrd sentRead_dma
    (gdDma_prepare_keeps hp hal fun a ha => ha) gdDma_finish_keeps
    (fun _ _ _ _ => trivial) ?_ ?_ trivial (hs₃ ▸ Drive.idle_within _)
  · intro s _ hs
    show wp _ (dcacheInval p (n * 2048)) _ s
    rw [dcacheInval_eq hp hal]
    refine (ocbiBlocks_ready K s).mono fun tr o s' hs' a ha => ⟨fun i hi => ?_, ?_⟩
    · have hi' : i < n * 2048 := hi
      refine hs'.2 _ _ (hdirect i hi') (.inr ⟨i / 32, by omega, ?_⟩)
      rw [phys_p2Addr_add]
      unfold phys
      omega
    · rw [hs'.1]
      exact hs
  · intro s _ s₁ hstore
    obtain rfl := (step_store32_io (gdRegs_not_isRam (by decide))).1 hstore
    exact ⟨rfl, rfl⟩

/-- A read that dies on failure has delivered when it returns. -/
theorem orDie_delivers {q : Shim ℤ} {rd : Read}
    (hq : wp (shimMachine B Wd) q (fun tr => Delivers K Wd.disc rd (0 ≤ ·) tr) s) :
    wp (shimMachine B Wd) (q >>= fun r =>
        if r < 0 then getStatic .gdLastErr >>= fun e => shimDie 4 rel e else pure ())
      (fun tr => Delivers K Wd.disc rd (fun _ : Unit => True) tr) s := by
  refine wp_seq hq (fun tr r s₁ hs₁ => ?_) fun tr e s₁ _ a h => by cases h
  split
  · rw [wp_iff_exec]
    rintro tr o s₂ h a rfl -
    have hdies : Dooms ⟨DieCmd, fun c : Cmd => DieCmd c ∨ ∃ x, c = Cmd.get x, fun _ => True⟩
        (getStatic .gdLastErr >>= fun e => (shimDie 4 rel e : Shim Unit)) :=
      ⟨.inr ⟨_, rfl⟩, fun e => dooms_shimDie (fun _ hc => .inl hc) trivial⟩
    obtain ⟨e, he, -⟩ := (hdies.exec h).2
    cases he
  · next hr => exact fun _ _ _ => hs₁ r rfl (not_lt.1 hr)

end Reads

/-- A byte loop from held bytes to ready addresses. -/
theorem xmemcpy_delivers {K : B.Durable} {f : ℕ → UInt8} {d src n : ℕ} {s : State μ}
    (hsrc : ∀ i < n, isRam (src + i) ∧ K.holds s.mem (src + i) (f i))
    (hdst : ∀ i < n, isRam (d + i) ∧ K.ready s.mem (d + i) (f i))
    (happart : ∀ i < n, ∀ j < n, K.apart (src + i) (d + j))
    (happart' : ∀ i < n, ∀ j < n, i ≠ j → K.apart (d + i) (d + j)) :
    wp (shimMachine B Wd) (xmemcpy d src n)
      (fun _ _ s' => s'.drive = s.drive ∧ (∀ i < n, K.holds s'.mem (d + i) (f i)) ∧
        ∀ x v, (∀ i < n, K.apart x (d + i)) → K.holds s.mem x v → K.holds s'.mem x v) s := by
  induction n generalizing d src f s with
  | zero => exact ⟨rfl, fun i hi => absurd hi (Nat.not_lt_zero i), fun _ _ _ h => h⟩
  | succ n ih =>
      obtain ⟨hram₀, hsrc₀⟩ := hsrc 0 (by omega)
      obtain ⟨hram₀', hdst₀⟩ := hdst 0 (by omega)
      rw [Nat.add_zero] at hram₀ hsrc₀ hram₀' hdst₀
      intro r s₁ hload
      obtain ⟨rfl, m₁, ht, rfl⟩ := (step_load8 hram₀).1 hload
      intro _ s₂ hstore
      obtain ⟨m₂, hst, rfl⟩ := (step_store8 hram₀').1 hstore
      rw [K.view_eq hsrc₀] at hst
      have hshift : ∀ x i, x + 1 + i = x + (i + 1) := fun x i => by omega
      have hkeep : ∀ x v, K.apart x (d + 0) → K.holds s.mem x v → K.holds m₂ x v :=
        fun x v hx hheld => K.apart_holds hx hst (K.touch_holds ht hheld)
      have hsrc' : ∀ i < n, isRam (src + 1 + i) ∧ K.holds m₂ (src + 1 + i) (f (i + 1)) := by
        intro i hi
        obtain ⟨hram, hheld⟩ := hsrc (i + 1) (by omega)
        rw [hshift]
        exact ⟨hram, hkeep _ _ (happart (i + 1) (by omega) 0 (by omega)) hheld⟩
      have hdst' : ∀ i < n, isRam (d + 1 + i) ∧ K.ready m₂ (d + 1 + i) (f (i + 1)) := by
        intro i hi
        obtain ⟨hram, hready⟩ := hdst (i + 1) (by omega)
        rw [hshift]
        exact ⟨hram, K.apart_ready (happart' (i + 1) (by omega) 0 (by omega) (by omega))
          hst (K.touch_ready ht hready)⟩
      have hmove : ∀ i < n, ∀ j < n, K.apart (src + 1 + i) (d + 1 + j) := by
        intro i hi j hj
        rw [hshift, hshift]
        exact happart (i + 1) (by omega) (j + 1) (by omega)
      have hmove' : ∀ i < n, ∀ j < n, i ≠ j → K.apart (d + 1 + i) (d + 1 + j) := by
        intro i hi j hj hne
        rw [hshift, hshift]
        exact happart' (i + 1) (by omega) (j + 1) (by omega) (by omega)
      refine (ih hsrc' hdst' hmove hmove').mono fun tr o s' hs' => ?_
      obtain ⟨hdrive, hheld, hframe⟩ := hs'
      refine ⟨hdrive, fun i hi => ?_, fun x v hx hv => ?_⟩
      · cases i with
        | zero =>
            refine hframe _ _ (fun j hj => ?_) (K.store_holds hst (K.touch_ready ht hdst₀))
            rw [hshift]
            exact happart' 0 (by omega) (j + 1) (by omega) (by omega)
        | succ i =>
            rw [← hshift]
            exact hheld i (by omega)
      · refine hframe x v (fun j hj => ?_) (hkeep x v (hx 0 (by omega)) hv)
        rw [hshift]
        exact hx (j + 1) (by omega)

section Progress

variable (K : B.Durable) (dest len : ℕ) (f : ℕ → UInt8) (dma : ℕ → Prop)

/-- The first `k` bytes of the destination are delivered and the rest, except
what the DMA will invalidate, is ready. -/
structure Progress (k : ℕ) (s : State μ) : Prop where
  idle : s.drive = .idle
  done : ∀ i < k, K.holds s.mem (p2Addr dest + i) (f i)
  ready : ∀ i < len, k ≤ i → ¬ dma i → K.ready s.mem (p2Addr dest + i) (f i)

variable {K dest len f dma} {b : Build} {P : Read → Prop} {D : ℕ → Prop}

/-- A part that stores only to its piece of the destination and to the bounce
buffer, and delivers its piece. -/
theorem Progress.part (hfit : K.Fits dest len) {k n : ℕ} (hkn : k + n ≤ len) {p : Shim Unit}
    (hkeeps : Keeps (cartGuard P D (range (p2Addr dest + k) n)) p)
    (hP : ∀ rd, P rd → ∀ a, rd.buffer.Mem a →
      range (p2Addr dest + k) n a ∨ range shimBounce 2048 a)
    {s : State μ} (hs : Progress K dest len f dma k s)
    (hp : wp (shimMachine B Wd) p (fun _ o s' => ∀ a, o = .ret a → s'.drive = .idle ∧
      ∀ i < n, K.holds s'.mem (p2Addr dest + k + i) (f (k + i))) s) :
    wp (shimMachine B Wd) p (fun _ o s' => ∀ a, o = .ret a →
      Progress K dest len f dma (k + n) s') s := by
  have hframe : wp (shimMachine B Wd) p (fun _ o s' => ∀ a, o = .ret a → B.Run
      (fun a => range (p2Addr dest + k) n a ∨ range shimBounce 2048 a) D s.mem s'.mem ∧
      s'.drive.Within _) s :=
    wp_run hkeeps (fun c hc => CartCmd.within hc hP fun a ha => .inl ha)
      (hs.idle ▸ Drive.idle_within _)
  have hapart : ∀ i < len, i < k ∨ k + n ≤ i → ∀ x,
      range (p2Addr dest + k) n x ∨ range shimBounce 2048 x → K.apart (p2Addr dest + i) x := by
    rintro i hi hout x (hx | hx)
    · obtain ⟨j, hj, rfl⟩ := exists_add_of_range hx
      refine hfit.dest_apart i hi _ ⟨by omega, by omega⟩ (by omega)
    · exact hfit.dest_bounce i hi x hx
  refine (hp.and hframe).mono fun tr o s' hs' a ha => ?_
  obtain ⟨hidle, hheld⟩ := hs'.1 a ha
  obtain ⟨hrun, -⟩ := hs'.2 a ha
  refine ⟨hidle, fun i hi => ?_, fun i hi hki hdma => ?_⟩
  · rcases Nat.lt_or_ge i k with hik | hik
    · exact K.run_holds hrun (hapart i (by omega) (.inl hik))
        (fun _ _ => hfit.direct i (by omega)) (hs.done i hik)
    · have h := hheld (i - k) (by omega)
      rwa [Nat.add_assoc, Nat.add_sub_cancel' hik] at h
  · exact K.run_ready hrun (fun x hx _ => hapart i hi (.inr hki) x hx)
      (fun _ _ => hfit.direct i hi) (hs.ready i hi (by omega) hdma)

variable {off : ℕ} {cart : ℕ → UInt8} {s : State μ}

theorem isRam_bounce {i : ℕ} (hi : i < 2048) : isRam (shimBounce + i) := by
  rw [shimBounce_eq]
  unfold isRam phys
  omega

theorem Accepted.isRam (h : Accepted off len dest) {i : ℕ} (hi : i < len) :
    isRam (p2Addr dest + i) := by
  obtain ⟨-, hlow, hhigh⟩ := h
  rw [isRam_p2Addr_add]
  unfold Cfp2Dreamcast.isRam phys
  omega

/-- A partial sector through the bounce buffer. -/
theorem Progress.bounce (hfit : K.Fits dest len) (hacc : Accepted off len dest)
    (hdisc : Mastered b Wd.disc cart) {k rel skip take : ℕ}
    (hrel : rel < cartSize / 2048) (hskip : skip + take ≤ 2048) (hk : k + take ≤ len)
    (hf : ∀ i < take, f (k + i) = cart (2048 * rel + (skip + i)))
    (hdma : ∀ i, k ≤ i → i < k + take → ¬ dma i) (hs : Progress K dest len f dma k s) :
    wp (shimMachine B Wd) (cartBounce b (p2Addr dest + k) rel skip take)
      (fun _ o s' => ∀ a, o = .ret a → Progress K dest len f dma (k + take) s') s := by
  have hbuffer : ∀ rd : Read, rd = ⟨b.cartFad + rel, 1, shimBounce⟩ → ∀ a, rd.buffer.Mem a →
      range shimBounce 2048 a := by
    rintro rd rfl a ⟨hlo, hhi⟩
    exact ⟨hlo, by simpa [Read.buffer] using hhi⟩
  have hkeeps : Keeps (cartGuard (· = ⟨b.cartFad + rel, 1, shimBounce⟩) (fun _ => False)
      (range (p2Addr dest + k) take)) (cartBounce b (p2Addr dest + k) rel skip take) :=
    cartBounce_keeps b rfl fun i hi => range_add hi
  refine hs.part hfit hk hkeeps (fun rd hrd a ha => .inr (hbuffer rd hrd a ha)) ?_
  have hread : wp (shimMachine B Wd) (gdOrDie b shimBounce rel 1)
      (fun tr => Delivers K Wd.disc ⟨b.cartFad + rel, 1, shimBounce⟩
        (fun _ => True) tr) s := by
    refine orDie_delivers (gdReadSectors_delivers b ?_ ?_ hs.idle)
    · intro i hi x hx hne
      exact hfit.bounce_apart i (by simpa using hi) x (hbuffer _ rfl x hx) hne
    · exact fun i hi => hfit.bounce_ready _ i (by simpa using hi) _
  have hkeeps' : Keeps (cartGuard (· = ⟨b.cartFad + rel, 1, shimBounce⟩) (fun _ => False)
      fun _ => False) (gdOrDie b shimBounce rel 1) := gdOrDie_keeps b rfl
  have hframe : wp (shimMachine B Wd) (gdOrDie b shimBounce rel 1)
      (fun _ o s' => ∀ a, o = .ret a → B.Run (range shimBounce 2048) (fun _ => False)
        s.mem s'.mem ∧ s'.drive.Within _) s :=
    wp_run hkeeps' (fun c hc => CartCmd.within hc hbuffer fun _ h => h.elim)
      (hs.idle ▸ Drive.idle_within _)
  refine wp_seq (hread.and hframe) (fun tr a s₁ hs₁ => ?_) fun tr e s₁ _ a h => by cases h
  obtain ⟨hheld, hidle⟩ := hs₁.1 a rfl trivial
  obtain ⟨hrun, -⟩ := hs₁.2 a rfl
  have hsrc : ∀ i < take, isRam (shimBounce + skip + i) ∧
      K.holds s₁.mem (shimBounce + skip + i) (f (k + i)) := by
    intro i hi
    have h := hheld (skip + i) (by simp only; omega)
    rw [hdisc.byte (by omega), ← hf i hi] at h
    rw [Nat.add_assoc]
    exact ⟨isRam_bounce (by omega), h⟩
  have hdst : ∀ i < take, isRam (p2Addr dest + k + i) ∧
      K.ready s₁.mem (p2Addr dest + k + i) (f (k + i)) := by
    intro i hi
    rw [Nat.add_assoc]
    refine ⟨hacc.isRam (by omega), K.run_ready hrun
      (fun x hx _ => hfit.dest_bounce (k + i) (by omega) x hx) (fun _ h => h.elim)
      (hs.ready (k + i) (by omega) (by omega) (hdma _ (by omega) (by omega)))⟩
  refine (xmemcpy_delivers hsrc hdst ?_ ?_).mono fun tr' o s' hs' a ha =>
    ⟨hs'.1.trans hidle, hs'.2.1⟩
  · intro i hi j hj
    rw [Nat.add_assoc, Nat.add_assoc]
    exact hfit.bounce_dest (skip + i) (by omega) _ (range_add (by omega))
  · intro i hi j hj hne
    rw [Nat.add_assoc, Nat.add_assoc]
    exact hfit.dest_apart (k + i) (by omega) _ (range_add (by omega)) (by omega)

/-- The whole sectors, by either path. -/
theorem Progress.body (hfit : K.Fits dest len) (hacc : Accepted off len dest)
    (hdisc : Mastered b Wd.disc cart) {k rel n : ℕ}
    (hrel : rel + n ≤ cartSize / 2048) (hk : k + n * 2048 ≤ len)
    (hf : ∀ i < n * 2048, f (k + i) = cart (2048 * rel + i))
    (hdma : ∀ i, dma i ↔ bodyByDma b (dest + k) ∧ k ≤ i ∧ i < k + n * 2048)
    (hs : Progress K dest len f dma k s) :
    wp (shimMachine B Wd) (cartBody b (p2Addr dest + k) (dest + k) rel n)
      (fun _ o s' => ∀ a, o = .ret a → Progress K dest len f dma (k + n * 2048) s') s := by
  have halias : p2Addr (dest + k) = p2Addr dest + k := hacc.p2Addr_add (by omega)
  have hlt : dest + k < 2 ^ 29 := by
    have := hacc.high
    omega
  have hspread : K.Spread ⟨b.cartFad + rel, n, p2Addr dest + k⟩ := by
    rintro i hi x ⟨hlo, hhi⟩ hne
    simp only [Read.buffer] at hi hlo hhi hne ⊢
    rw [Nat.add_assoc] at hne ⊢
    exact hfit.dest_apart (k + i) (by omega) x ⟨by omega, by omega⟩ hne
  have hkeeps : Keeps (cartGuard (· = ⟨b.cartFad + rel, n, p2Addr dest + k⟩)
      (blocksOf (dest + k) (n * 2048)) (range (p2Addr dest + k) (n * 2048)))
      (cartBody b (p2Addr dest + k) (dest + k) rel n) := by
    rw [← halias]
    exact cartBody_keeps b hlt (fun a ha => ha) rfl
  refine hs.part hfit hk hkeeps ?_ ?_
  · rintro rd rfl a ⟨hlo, hhi⟩
    exact .inl ⟨hlo, hhi⟩
  have hread : wp (shimMachine B Wd) (cartBody b (p2Addr dest + k) (dest + k) rel n)
      (fun tr => Delivers K Wd.disc ⟨b.cartFad + rel, n, p2Addr dest + k⟩
        (fun _ => True) tr) s := by
    unfold cartBody
    split
    · next hby =>
      rw [← halias] at hspread ⊢
      refine orDie_delivers (gdReadSectorsDma_delivers b hlt ((bodyByDma_iff b).1 hby).2
        hspread (fun i hi => ?_) hs.idle)
      rw [halias, Nat.add_assoc]
      exact hfit.direct (k + i) (by omega)
    · next hby =>
      refine orDie_delivers (gdReadSectors_delivers b hspread (fun i hi => ?_) hs.idle)
      have hi' : i < n * 2048 := hi
      have h := hs.ready (k + i) (by omega) (by omega) fun h => hby ((hdma _).1 h).1
      rw [hf i hi'] at h
      rw [hdisc.byte (by omega), Nat.add_assoc]
      exact h
  refine hread.mono fun tr o s' hs' a ha => ?_
  obtain ⟨hheld, hidle⟩ := hs' a ha trivial
  refine ⟨hidle, fun i hi => ?_⟩
  have h := hheld i hi
  rw [hdisc.byte (by omega), ← hf i hi] at h
  exact h

/-- A part of the split that is there only when its length is not zero. -/
theorem Progress.whenever {k n : ℕ} {c : Prop} [Decidable c] {p : Shim Unit}
    (hs : Progress K dest len f dma k s) (hc : ¬ c → n = 0)
    (hp : c → wp (shimMachine B Wd) p (fun _ o s' => ∀ a, o = .ret a →
      Progress K dest len f dma (k + n) s') s) :
    wp (shimMachine B Wd) (Prog.whenever c p) (fun _ o s' => ∀ a, o = .ret a →
      Progress K dest len f dma (k + n) s') s := by
  refine wp_whenever hp fun hneg a _ => ?_
  rw [hc hneg, Nat.add_zero]
  exact hs

end Progress

/-- Offset `i` of the request goes by DMA. -/
def byDma (b : Build) (off len dest i : ℕ) : Prop :=
  let s := cartSplit off len
  bodyByDma b (dest + s.headTake) ∧ s.headTake ≤ i ∧ i < s.headTake + s.bodySect * 2048

/-- A `cart_read` that returns has delivered the request. Only the bytes that do
not go by DMA need to be ready at the start. -/
theorem cartRead_delivers {K : B.Durable} (b : Build) {off len dest : ℕ}
    {cart : ℕ → UInt8} {s : State μ} (hfit : K.Fits dest len)
    (hacc : Accepted off len dest) (hdisc : Mastered b Wd.disc cart)
    (hidle : s.drive = .idle)
    (hready : ∀ i < len, ¬ byDma b off len dest i →
      K.ready s.mem (p2Addr dest + i) (cart (off + i))) :
    wp (shimMachine B Wd) (cartRead b off len dest) (fun _ o s' => ∀ a, o = .ret a →
      s'.drive = .idle ∧ ∀ i < len, K.holds s'.mem (p2Addr dest + i) (cart (off + i))) s := by
  have hcov := cartSplit_covers off len
  have htotal := hcov.total
  have harea := hacc.area
  rw [cartSize_eq] at harea
  have hs : Progress K dest len (fun i => cart (off + i)) (byDma b off len dest) 0 s :=
    ⟨hidle, fun i hi => absurd hi (Nat.not_lt_zero i), fun i hi _ => hready i hi⟩
  have hsize : cartSize / 2048 = 53248 := by decide
  have hhead : wp (shimMachine B Wd) (Prog.whenever ((cartSplit off len).headTake ≠ 0)
      (cartBounce b (p2Addr dest) (cartSplit off len).headFad (cartSplit off len).headSkip
        (cartSplit off len).headTake))
      (fun _ o s' => ∀ a, o = .ret a → Progress K dest len (fun i => cart (off + i))
        (byDma b off len dest) (0 + (cartSplit off len).headTake) s') s := by
    refine hs.whenever not_not.1 fun hne => ?_
    obtain ⟨hoff, hle⟩ := hcov.head hne
    refine hs.bounce hfit hacc hdisc (by omega) hle (by omega)
      (fun i hi => by exact congrArg cart (by omega)) fun i _ hi hdma => ?_
    have := hdma.2.1
    omega
  have hbody : ∀ s₁, Progress K dest len (fun i => cart (off + i)) (byDma b off len dest)
      (cartSplit off len).headTake s₁ →
      wp (shimMachine B Wd) (Prog.whenever ((cartSplit off len).bodySect ≠ 0)
        (cartBody b (p2Addr dest + (cartSplit off len).headTake)
          (dest + (cartSplit off len).headTake) (cartSplit off len).bodyFad
          (cartSplit off len).bodySect))
        (fun _ o s' => ∀ a, o = .ret a → Progress K dest len (fun i => cart (off + i))
          (byDma b off len dest)
          ((cartSplit off len).headTake + (cartSplit off len).bodySect * 2048) s') s₁ := by
    intro s₁ hs₁
    refine hs₁.whenever (fun hz => by rw [not_not.1 hz, Nat.zero_mul]) fun hne => ?_
    have hoff := hcov.body hne
    exact hs₁.body hfit hacc hdisc (by omega) (by omega)
      (fun i hi => by exact congrArg cart (by omega)) fun i => Iff.rfl
  have htail : ∀ s₂, Progress K dest len (fun i => cart (off + i)) (byDma b off len dest)
      ((cartSplit off len).headTake + (cartSplit off len).bodySect * 2048) s₂ →
      wp (shimMachine B Wd) (Prog.whenever ((cartSplit off len).tailTake ≠ 0)
        (cartBounce b (p2Addr dest + (cartSplit off len).headTake +
          (cartSplit off len).bodySect * 2048) (cartSplit off len).tailFad 0
          (cartSplit off len).tailTake))
        (fun _ o s' => ∀ a, o = .ret a → Progress K dest len (fun i => cart (off + i))
          (byDma b off len dest) ((cartSplit off len).headTake +
            (cartSplit off len).bodySect * 2048 + (cartSplit off len).tailTake) s') s₂ := by
    intro s₂ hs₂
    refine hs₂.whenever not_not.1 fun hne => ?_
    obtain ⟨hle, hoff⟩ := hcov.tail hne
    rw [Nat.add_assoc (p2Addr dest)]
    refine hs₂.bounce hfit hacc hdisc (by omega) (by omega) (by omega)
      (fun i hi => by exact congrArg cart (by omega)) fun i hi _ hdma => ?_
    have := hdma.2.2
    omega
  unfold cartRead
  refine wp_seq hhead (fun tr a s₁ hs₁ => ?_) fun tr e s₁ _ a h => by cases h
  have hs₁' := hs₁ a rfl
  rw [Nat.zero_add] at hs₁'
  refine wp_seq (hbody s₁ hs₁') (fun tr a s₂ hs₂ => ?_) fun tr e s₁ _ a h => by cases h
  refine (htail s₂ (hs₂ a rfl)).mono fun tr o s' hs' a ha => ?_
  obtain ⟨hdrive, hdone, -⟩ := hs' a ha
  exact ⟨hdrive, fun i hi => hdone i (by omega)⟩

end Cfp2Dreamcast
