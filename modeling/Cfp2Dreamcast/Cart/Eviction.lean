import Cfp2Dreamcast.Cart.Coherence

/-!
# A stale line that survives a read

The drive may answer every request at once and the cache may evict nothing while
`cart_read` runs. `Succeeds ℓ p a` says that `p` has such an execution, returns
`a`, and leaves the cache line `ℓ` as it was; it is composed along the code. A
line that is dirty over the destination and outside the DMA body can therefore
be evicted after the read, over the delivered bytes. So can a clean one that
reaches outside the destination, once a byte out there has been stored.
-/

namespace Cfp2Dreamcast

open Program Memory

variable {M : Machine shimSig (State Cached)} {ℓ : ℕ}

/-- The program can return `a`, with the drive idle and the line `ℓ` untouched. -/
def Succeeds (M : Machine shimSig (State Cached)) (ℓ : ℕ) {α : Type} (p : Shim α) (a : α)
    (s : State Cached) : Prop :=
  ∃ tr s', Exec M p s tr (.ret a) s' ∧ s'.drive = .idle ∧ s'.mem.line ℓ = s.mem.line ℓ

theorem succeeds_ret {α : Type} (a : α) {s : State Cached} (hs : s.drive = .idle) :
    Succeeds M ℓ (.ret a) a s := ⟨[], s, .ret a s, hs, rfl⟩

theorem Succeeds.bind {α β : Type} {p : Shim α} {f : α → Shim β} {a : α} {c : β}
    {s : State Cached} (hp : Succeeds M ℓ p a s)
    (hf : ∀ s', s'.drive = .idle → Succeeds M ℓ (f a) c s') :
    Succeeds M ℓ (p >>= f) c s := by
  obtain ⟨tr, s₁, hexec, hidle, hline⟩ := hp
  obtain ⟨tr', s₂, hexec', hidle', hline'⟩ := hf s₁ hidle
  exact ⟨tr ++ tr', s₂, hexec.bind_ret hexec', hidle', hline'.trans hline⟩

theorem Succeeds.op {α : Type} {c : Cmd} {k : c.Resp → Shim α} {r : c.Resp} {a : α}
    {s s₁ : State Cached} (hstep : M.step s c r s₁)
    (hline : s₁.mem.line ℓ = s.mem.line ℓ) (hk : Succeeds M ℓ (k r) a s₁) :
    Succeeds M ℓ (.op c k) a s := by
  obtain ⟨tr, s₂, hexec, hidle, hline'⟩ := hk
  exact ⟨_, s₂, .op hstep hexec, hidle, hline'.trans hline⟩

theorem Succeeds.whenever {c : Prop} [Decidable c] {p : Shim Unit} {s : State Cached}
    (hs : s.drive = .idle) (hp : c → Succeeds M ℓ p () s) :
    Succeeds M ℓ (Prog.whenever c p) () s := by
  by_cases hc : c
  · rw [Prog.whenever_pos hc]
    exact hp hc
  · rw [Prog.whenever_neg hc]
    exact succeeds_ret () hs

/-- The line is none of those that a cached access to the address reaches. -/
def OffLine (k a : ℕ) : Prop := ¬ uncached a → lineOf (phys a) ≠ k

/-- A store that evicts nothing. -/
theorem exists_store (m : Cached) (a : ℕ) (v : UInt8) :
    ∃ m', cachedBus.store m a v m' ∧ ∀ k, OffLine k a → m'.line k = m.line k := by
  by_cases hu : uncached a
  · exact ⟨m.poke (phys a) v, by simp only [cachedBus, if_pos hu], fun _ _ => rfl⟩
  · refine ⟨m.write lineOf (phys a) v, ?_, fun k hk => Function.update_of_ne (hk hu).symm _ _⟩
    simp only [cachedBus, if_neg hu]
    exact ⟨m, .refl, rfl⟩

/-- A load that evicts nothing. -/
theorem exists_touch (m : Cached) (a : ℕ) :
    ∃ m', cachedBus.touch m a m' ∧ ∀ k, OffLine k a → m'.line k = m.line k := by
  by_cases hu : uncached a
  · exact ⟨m, by simp only [cachedBus, if_pos hu], fun _ _ => rfl⟩
  · refine ⟨m.fill (lineOf (phys a)), ?_, fun k hk => Function.update_of_ne (hk hu).symm _ _⟩
    simp only [cachedBus, if_neg hu]
    exact ⟨m, .refl, rfl⟩

/-- The drive can write the bytes of a read one after the other. -/
theorem exists_delivery {m : Cached} {d : Drive} {rd : Read} (disc : Disc)
    (hopen : rd.buffer ∈ d.buffers) :
    ∃ m' d', Transfers cachedBus (m, d) (m', d') ∧ d'.Delivered disc rd ∧
      ∀ k, (∀ a, rd.buffer.Mem a → OffLine k a) → m'.line k = m.line k := by
  have hpre : ∀ n ≤ rd.n * 2048, ∃ m' d', Transfers cachedBus (m, d) (m', d') ∧
      d'.buffers = d.buffers ∧ (∀ i < n, d'.wrote (rd.addr + i) = some (rd.byte disc i)) ∧
      ∀ k, (∀ a, rd.buffer.Mem a → OffLine k a) → m'.line k = m.line k := by
    intro n hn
    induction n with
    | zero => exact ⟨m, d, .refl, rfl, fun i hi => absurd hi (Nat.not_lt_zero i), fun _ _ => rfl⟩
    | succ n ih =>
        obtain ⟨m₁, d₁, htr, hbufs, hwrote, hline⟩ := ih (by omega)
        have hmem : rd.buffer.Mem (rd.addr + n) :=
          ⟨Nat.le_add_right _ _, Nat.add_lt_add_left (Nat.lt_of_succ_le hn) _⟩
        obtain ⟨m₂, hst, hline₂⟩ := exists_store m₁ (rd.addr + n) (rd.byte disc n)
        refine ⟨m₂, _, htr.tail (.store ⟨_, hbufs ▸ hopen, hmem⟩ hst), hbufs, ?_,
          fun k hk => (hline₂ k (hk _ hmem)).trans (hline k hk)⟩
        intro i hi
        rcases Nat.lt_succ_iff_lt_or_eq.1 hi with hlt | rfl
        · have hne : rd.addr + i ≠ rd.addr + n := by omega
          exact (Function.update_of_ne hne _ _).trans (hwrote i hlt)
        · exact Function.update_self _ _ _
  obtain ⟨m', d', htr, -, hwrote, hline⟩ := hpre _ le_rfl
  exact ⟨m', d', htr, hwrote, hline⟩

/-- The poll loop starts with a poll, however many are left. -/
theorem gdPoll_eq (fad n req left guard : ℕ) :
    ∃ again, gdPoll fad n req left guard = gdPollStep req guard again := by
  cases left with
  | zero => exact ⟨_, rfl⟩
  | succ left => exact ⟨_, rfl⟩

section Reads

variable {W : World Cached} {dest len : ℕ} {s : State Cached} {rd : Read} {md : GdMode}
  {dst fad n : ℕ}

/-- The buffer of the read shares no line with an edge of the destination, and none
with the line `ℓ`, unless it is reached past the cache. -/
def Aside (dest len ℓ : ℕ) (rd : Read) : Prop :=
  ∀ a, rd.buffer.Mem a → ∀ k, k = ℓ ∨ Straddles dest len k → OffLine k a

/-- A command other than a syscall. -/
theorem served_step {s' : State Cached} {c : Cmd} {r : c.Resp}
    (h : (shimMachine cachedBus W).step s c r s') (hc : ∀ r4 block r7, c ≠ .gdc r4 block r7) :
    (servedMachine W dest len).step s c r s' :=
  ⟨h, fun r4 block r7 hgdc => absurd hgdc (hc r4 block r7)⟩

theorem gdAttempt_succeeds (hsent : sentRead md.cmd [fad, n, dst, 0] = some rd)
    (hrd : Aside dest len ℓ rd)
    (hprepare : Succeeds (servedMachine W dest len) ℓ md.prepare () s)
    (hfinish : ∀ s : State Cached, s.drive = .idle →
      Succeeds (servedMachine W dest len) ℓ md.finish () s) :
    Succeeds (servedMachine W dest len) ℓ (gdAttempt md dst fad n) true s := by
  refine hprepare.bind fun s₁ hs₁ => ?_
  have hsend : s₁.drive.send md.cmd [fad, n, dst, 0] 1 =
      ⟨some (1, rd), rd.buffer :: s₁.drive.buffers, fun _ => none⟩ := by
    simp [Drive.send, hsent]
  refine Succeeds.op (r := (⟨1, 0⟩ : GdReply))
    ⟨⟨_, _, .send .refl, rfl⟩, fun _ _ _ _ => noNewEdge_refl dest len _⟩ rfl ?_
  rw [hsend]
  show Succeeds _ ℓ (gdPoll fad n 1 gdGuardMax 0 >>= _) true _
  obtain ⟨again, hpoll⟩ := gdPoll_eq fad n 1 gdGuardMax 0
  rw [hpoll]
  obtain ⟨m', d', htr, hdata, hline⟩ := exists_delivery (m := s₁.mem)
    (d := ⟨some (1, rd), rd.buffer :: s₁.drive.buffers, fun _ => none⟩) W.disc
    List.mem_cons_self
  refine Succeeds.bind (a := true) ?_ fun s₂ hs₂ =>
    (hfinish s₂ hs₂).bind fun s₃ hs₃ => succeeds_ret true hs₃
  refine Succeeds.op (r := (⟨0, 0⟩ : GdReply))
    ⟨⟨_, _, .other (by decide) (by decide) .refl, rfl⟩,
      fun _ _ _ _ => noNewEdge_refl dest len _⟩ rfl ?_
  refine Succeeds.op (r := (⟨2, 0⟩ : GdReply))
    ⟨⟨_, _, .completed ⟨rfl, rfl⟩ htr hdata, rfl⟩, fun _ _ _ _ k hk => ?_⟩
    (hline ℓ fun a ha => hrd a ha ℓ (.inl rfl)) (succeeds_ret true rfl)
  exact .inr (hline k fun a ha => hrd a ha k (.inr hk))

/-- The first attempt can succeed. -/
theorem gdRead_succeeds (b : Build) (left : ℕ)
    (hsent : sentRead md.cmd [fad, n, dst, 0] = some rd)
    (hrd : Aside dest len ℓ rd)
    (hprepare : ∀ s : State Cached, s.drive = .idle →
      Succeeds (servedMachine W dest len) ℓ md.prepare () s)
    (hfinish : ∀ s : State Cached, s.drive = .idle →
      Succeeds (servedMachine W dest len) ℓ md.finish () s) (hs : s.drive = .idle) :
    Succeeds (servedMachine W dest len) ℓ (gdRead b md dst fad n (left + 1) 0) 0 s := by
  refine (Succeeds.whenever hs fun h => absurd rfl h).bind fun s₁ hs₁ => ?_
  exact (gdAttempt_succeeds hsent hrd (hprepare s₁ hs₁) hfinish).bind fun s₂ hs₂ =>
    succeeds_ret 0 hs₂

/-- A read that dies on failure can return. -/
theorem orDie_succeeds {q : Shim ℤ} {rel : ℕ} (hq : Succeeds M ℓ q 0 s) :
    Succeeds M ℓ (q >>= fun r =>
      if r < 0 then getStatic .gdLastErr >>= fun e => shimDie 4 rel e else pure ()) () s :=
  hq.bind fun _ hs₁ => succeeds_ret () hs₁

theorem gdOrDie_succeeds (b : Build) {rel : ℕ}
    (hdst : Aside dest len ℓ ⟨b.cartFad + rel, n, dst⟩) (hs : s.drive = .idle) :
    Succeeds (servedMachine W dest len) ℓ (gdOrDie b dst rel n) () s :=
  orDie_succeeds (gdRead_succeeds b 3 sentRead_pio hdst (fun _ hs => succeeds_ret () hs)
    (fun _ hs => succeeds_ret () hs) hs)

theorem ocbiBlocks_succeeds {a k : ℕ} (ha : ∀ j < k, lineOf (phys (a + 32 * j)) ≠ ℓ)
    {s : State Cached} (hs : s.drive = .idle) :
    Succeeds (servedMachine W dest len) ℓ (ocbiBlocks a k) () s := by
  induction k generalizing a s with
  | zero => exact succeeds_ret () hs
  | succ k ih =>
      have hline : lineOf (phys a) ≠ ℓ := ha 0 (by omega)
      refine Succeeds.op (r := ()) (served_step ⟨_, rfl, rfl⟩ (by simp))
        (Function.update_of_ne hline.symm _ _) (ih (fun j hj => ?_) hs)
      rw [show a + 32 + 32 * j = a + 32 * (j + 1) by omega]
      exact ha (j + 1) (by omega)

theorem maskGdIrq_succeeds {a : ℕ} (ha : a ∈ gdRegs) (hs : s.drive = .idle) :
    Succeeds (servedMachine W dest len) ℓ (maskGdIrq a) () s := by
  have hio := gdRegs_not_isRam ha
  refine Succeeds.op (r := (0 : ℕ))
    (served_step ((step_load32_io hio).2 ⟨Nat.two_pow_pos 32, rfl⟩) (by simp)) rfl ?_
  exact Succeeds.op (r := ()) (served_step ((step_store32_io hio).2 rfl) (by simp)) rfl
    (succeeds_ret () (by exact hs))

theorem gdOrDieDma_succeeds (b : Build) {p rel : ℕ} (hp : p + n * 2048 < 2 ^ 29)
    (hal : p % 32 = 0) (hline : ∀ x, p ≤ x → x < p + n * 2048 → lineOf x ≠ ℓ)
    (hs : s.drive = .idle) :
    Succeeds (servedMachine W dest len) ℓ (gdOrDieDma b p rel n) () s := by
  refine orDie_succeeds ?_
  have hp' : p < 2 ^ 29 := by omega
  unfold gdReadSectorsDma
  simp only [and_physMask, phys_of_lt hp']
  refine (maskGdIrq_succeeds (by decide) hs).bind fun s₁ hs₁ => ?_
  refine (maskGdIrq_succeeds (by decide) hs₁).bind fun s₂ hs₂ => ?_
  refine (maskGdIrq_succeeds (by decide) hs₂).bind fun s₃ hs₃ => ?_
  refine gdRead_succeeds b 3 sentRead_dma ?_ ?_ ?_ hs₃
  · rintro a ⟨hlo, hhi⟩ k - hu
    simp only [Read.buffer, p2Addr_eq_add hp'] at hlo hhi
    exact absurd (by unfold uncached; omega) hu
  · intro s hs
    show Succeeds (servedMachine W dest len) ℓ (dcacheInval p (n * 2048)) () s
    rw [dcacheInval_eq hp' hal]
    refine ocbiBlocks_succeeds (fun j hj => ?_) hs
    have hphys : phys (p + 0x80000000 + 32 * j) = p + 32 * j := by
      unfold phys
      omega
    rw [hphys]
    exact hline _ (by omega) (by omega)
  · intro s hs
    have hio : ¬ isRam 0xa05f6900 := gdRegs_not_isRam (by decide)
    exact Succeeds.op (r := ()) (served_step ((step_store32_io hio).2 rfl) (by simp)) rfl
      (succeeds_ret () (by exact hs))

end Reads

theorem xmemcpy_succeeds {W : World Cached} {dest len d src n : ℕ} {s : State Cached}
    (hsrc : ∀ i < n, isRam (src + i) ∧ lineOf (phys (src + i)) ≠ ℓ)
    (hdst : ∀ i < n, isRam (d + i) ∧ uncached (d + i)) (hs : s.drive = .idle) :
    Succeeds (servedMachine W dest len) ℓ (xmemcpy d src n) () s := by
  induction n generalizing d src s with
  | zero => exact succeeds_ret () hs
  | succ n ih =>
      obtain ⟨hram, hline⟩ := hsrc 0 (by omega)
      obtain ⟨hram', hu⟩ := hdst 0 (by omega)
      rw [Nat.add_zero] at hram hline hram' hu
      obtain ⟨m₁, ht, hline₁⟩ := exists_touch s.mem src
      obtain ⟨m₂, hst, hline₂⟩ := exists_store m₁ d (cachedBus.view s.mem src)
      refine Succeeds.op (served_step ((step_load8 hram).2 ⟨rfl, m₁, ht, rfl⟩) (by simp))
        (hline₁ ℓ fun _ => hline) ?_
      refine Succeeds.op (r := ()) (served_step ((step_store8 hram').2 ⟨m₂, hst, rfl⟩) (by simp))
        (hline₂ ℓ fun h => absurd hu h) ?_
      refine ih (fun i hi => ?_) (fun i hi => ?_) hs
      · rw [show src + 1 + i = src + (i + 1) by omega]
        exact hsrc (i + 1) (by omega)
      · rw [show d + 1 + i = d + (i + 1) by omega]
        exact hdst (i + 1) (by omega)

section Parts

variable {W : World Cached} {b : Build} {off len dest : ℕ} {s : State Cached}

/-- The bounce buffer lies in lines of its own. -/
theorem bounce_line (h : Accepted off len dest) {i : ℕ} (hi : i < len) {x : ℕ}
    (hx : range shimBounce 2048 x) : lineOf (phys x) ≠ lineOf (dest + i) := by
  have hphys := (phys_bounce hx).2
  have hhigh := h.high
  unfold lineOf
  omega

theorem cartBounce_succeeds (h : Accepted off len dest) {i : ℕ} (hi : i < len)
    {k rel skip take : ℕ} (hskip : skip + take ≤ 2048) (hk : k + take ≤ len)
    (hs : s.drive = .idle) :
    Succeeds (servedMachine W dest len) (lineOf (dest + i))
      (cartBounce b (p2Addr dest + k) rel skip take) () s := by
  have hread : Succeeds (servedMachine W dest len) (lineOf (dest + i))
      (gdOrDie b shimBounce rel 1) () s := by
    refine gdOrDie_succeeds b (fun a ha j hj _ => ?_) hs
    have hbounce : range shimBounce 2048 a := ⟨ha.1, by simpa [Read.buffer] using ha.2⟩
    rcases hj with rfl | hj
    · exact bounce_line h hi hbounce
    · exact fun hline => not_straddles_bounce h hbounce (hline ▸ hj)
  refine hread.bind fun s₁ hs₁ => xmemcpy_succeeds (fun j hj => ?_) (fun j hj => ?_) hs₁
  · rw [Nat.add_assoc]
    exact ⟨isRam_bounce (by omega), bounce_line h hi (range_add (by omega))⟩
  · rw [Nat.add_assoc]
    exact ⟨h.isRam (by omega), uncached_dest h (by omega)⟩

theorem cartBody_succeeds (h : Accepted off len dest) {i : ℕ} {k rel n : ℕ}
    (hk : k + n * 2048 ≤ len)
    (hdma : ¬ (bodyByDma b (dest + k) ∧ k ≤ i ∧ i < k + n * 2048))
    (hs : s.drive = .idle) :
    Succeeds (servedMachine W dest len) (lineOf (dest + i))
      (cartBody b (p2Addr dest + k) (dest + k) rel n) () s := by
  have hhigh := h.high
  unfold cartBody
  split
  · next hby =>
    have hal := ((bodyByDma_iff b).1 hby).2
    refine gdOrDieDma_succeeds b (by omega) hal (fun x hlo hhi hx => hdma ⟨hby, ?_⟩) hs
    -- the body is made of whole lines
    unfold lineOf at hx
    omega
  · refine gdOrDie_succeeds b (fun a ha _ _ hca => absurd ?_ hca) hs
    obtain ⟨hlo, hhi⟩ := ha
    simp only [Read.buffer] at hlo hhi
    have hu := uncached_dest h (show a - p2Addr dest < len by omega)
    rwa [Nat.add_sub_cancel' (by omega)] at hu

/-- A `cart_read` can return and leave a line alone that lies over the destination
but not in the DMA body. -/
theorem cartRead_succeeds (h : Accepted off len dest) {i : ℕ} (hi : i < len)
    (hdma : ¬ byDma b off len dest i) (hs : s.drive = .idle) :
    Succeeds (servedMachine W dest len) (lineOf (dest + i)) (cartRead b off len dest) () s := by
  have hcov := cartSplit_covers off len
  have htotal := hcov.total
  unfold cartRead
  refine (Succeeds.whenever hs fun hne => ?_).bind fun s₁ hs₁ => ?_
  · exact cartBounce_succeeds (k := 0) h hi (hcov.head hne).2 (by omega) hs
  refine (Succeeds.whenever hs₁ fun hne => ?_).bind fun s₂ hs₂ => ?_
  · exact cartBody_succeeds h (by omega) hdma hs₁
  · refine Succeeds.whenever hs₂ fun hne => ?_
    obtain ⟨hle, -⟩ := hcov.tail hne
    rw [Nat.add_assoc (p2Addr dest)]
    exact cartBounce_succeeds h hi (by omega) (by omega) hs₂

/-- A dirty line over the destination that disagrees with the cart can be evicted. -/
theorem not_lasting_of_dirty (h : Accepted off len dest) {cart : ℕ → UInt8} {m : Cached}
    {i : ℕ} (hi : i < len) {l : Line ℕ UInt8} (hl : m.line (lineOf (dest + i)) = some l)
    (hd : l.dirty = true) (hne : l.data (dest + i) ≠ cart (off + i)) :
    ¬ Lasting cart off len dest m := by
  intro hlast
  -- a load of the first byte of memory evicts the line
  have hu : ¬ uncached 0x80000000 := by decide
  have htouch : cachedBus.touch m 0x80000000
      ((m.evict lineOf (lineOf (dest + i))).fill (lineOf (phys 0x80000000))) := by
    simp only [cachedBus, if_neg hu]
    exact ⟨_, .single ⟨_, rfl⟩, rfl⟩
  have hview := hlast _ (.single (.inr (.inl ⟨_, htouch⟩))) i hi
  simp only [cachedBus, if_pos (uncached_dest h hi), phys_dest h hi] at hview
  refine hne ?_
  rw [← hview]
  show _ = (m.evict lineOf (lineOf (dest + i))).ram (dest + i)
  simp [Cache.evict, hl, hd]

/-- A line that disagrees and reaches outside the destination can be made dirty first. -/
theorem not_lasting_of_exposed (h : Accepted off len dest) {cart : ℕ → UInt8} {m : Cached}
    {i : ℕ} (hi : i < len) {l : Line ℕ UInt8} (hl : m.line (lineOf (dest + i)) = some l)
    (he : Cache.Exposed lineOf (range dest len) (lineOf (dest + i)))
    (hne : l.data (dest + i) ≠ cart (off + i)) : ¬ Lasting cart off len dest m := by
  intro hlast
  obtain ⟨y, hy, hout⟩ := he
  have hhigh := h.high
  have hlt : y < 2 ^ 29 := by
    unfold lineOf at hy
    omega
  have hphys : phys (y + 0x80000000) = y := by
    unfold phys
    omega
  have hu : ¬ uncached (y + 0x80000000) := by
    unfold uncached
    omega
  -- a store to the neighbour `y` of the destination, through the cache
  have hstore : cachedBus.store m (y + 0x80000000) 0 (m.write lineOf y 0) := by
    simp only [cachedBus, if_neg hu, hphys]
    exact ⟨m, .refl, rfl⟩
  have hoff : ¬ range dest len (phys (y + 0x80000000)) := by rwa [hphys]
  have hlater : Later dest len m (m.write lineOf y 0) := .single (.inl ⟨_, 0, hoff, hstore⟩)
  have hwritten : (m.write lineOf y 0).line (lineOf (dest + i)) =
      some ⟨Function.update l.data y 0, true⟩ := by
    rw [← hy, Cache.write_line_self, Cache.filled, hy, hl]
    rfl
  have hyi : dest + i ≠ y := fun hyi => hout (hyi ▸ range_add hi)
  refine not_lasting_of_dirty h hi hwritten rfl ?_ fun m' hm' => hlast m' (hlater.trans hm')
  exact (Function.update_of_ne hyi _ _).trans_ne hne

/-- A line over the destination that disagrees with the cart can end up in RAM after
the read. -/
theorem cartRead_overwritten (W : World Cached) (h : Accepted off len dest)
    {cart : ℕ → UInt8} (hidle : s.drive = .idle)
    (hstale : ¬ Undisputed b cart s.mem off len dest) :
    ∃ tr s', Exec (servedMachine W dest len) (cartRead b off len dest) s tr (.ret ()) s' ∧
      ¬ Lasting cart off len dest s'.mem := by
  simp only [Undisputed, Cache.Sealed, not_forall] at hstale
  obtain ⟨i, hi, hdma, l, hl, hd, hne⟩ := hstale
  obtain ⟨tr, s', hexec, -, hline⟩ := cartRead_succeeds (W := W) h hi hdma hidle
  refine ⟨tr, s', hexec, ?_⟩
  rcases hd with hd | he
  · exact not_lasting_of_dirty h hi (hline.trans hl) hd hne
  · exact not_lasting_of_exposed h hi (hline.trans hl) he hne

end Parts

/-- Every `cart_read` that returns leaves lasting bytes and none discards data outside
the destination, exactly when over the destination outside the DMA body no line that
is dirty or reaches outside the destination disagrees with the cart. -/
theorem cartRead_coherent_iff (b : Build) {W : World Cached} {cart : ℕ → UInt8}
    {off len dest : ℕ} {s : State Cached} (hdisc : Mastered b W.disc cart)
    (hacc : Accepted off len dest) (hidle : s.drive = .idle) :
    Coherent b W cart off len dest s ↔ Undisputed b cart s.mem off len dest := by
  constructor
  · intro hall
    by_contra hstale
    obtain ⟨tr, s', hexec, hnot⟩ := cartRead_overwritten W hacc hidle hstale
    exact hnot ((hall tr _ s' hexec).1 rfl)
  · intro hclean tr o s' hexec
    refine ⟨fun ho => ?_, cartRead_discardsInside hacc hexec⟩
    subst ho
    exact cartRead_lasting hacc hdisc hidle hclean hexec

/-- RAM and disc of zeros, and the lines of a cache. -/
def sampleCache (line : ℕ → Option (Line ℕ UInt8)) : State Cached where
  mem := ⟨fun _ => 0, line⟩
  statics _ := 0
  drive := .idle
  regs _ := 0

/-- Three lines over 2088 bytes from `0x0c100000`: a dirty one of ones over the DMA
body, a clean one of ones inside the tail, and a dirty one across the end of the tail
with zeros inside it. -/
def sampleLines (k : ℕ) : Option (Line ℕ UInt8) :=
  if k = 0x608000 then some ⟨fun _ => 1, true⟩
  else if k = 0x608040 then some ⟨fun _ => 1, false⟩
  else if k = 0x608041 then some ⟨fun x => if x < 0x0c100828 then 0 else 1, true⟩
  else none

/-- None of them disputes a byte of the read. -/
theorem cartRead_coherent_sample :
    Undisputed .gdi (fun _ => 0) (sampleCache sampleLines).mem 0 2088 0x0c100000 ∧
      Coherent .gdi ⟨fun _ _ => 0, fun _ _ _ => False⟩ (fun _ => 0) 0 2088 0x0c100000
        (sampleCache sampleLines) := by
  have hclean : Undisputed .gdi (fun _ => 0) (sampleCache sampleLines).mem 0 2088
      0x0c100000 := by
    intro i hi hdma l hl hd
    have hbody : 2048 ≤ i := by
      by_contra hlt
      exact hdma ⟨by decide, Nat.zero_le i, not_le.1 hlt⟩
    rcases Nat.lt_or_ge i 2080 with hlt | hge
    · have hline : lineOf (0x0c100000 + i) = 0x608040 := by
        unfold lineOf
        omega
      rw [hline] at hl hd
      cases hl
      rcases hd with hd | ⟨x, hx, hout⟩
      · cases hd
      · refine absurd ⟨?_, ?_⟩ hout
        · unfold lineOf at hx
          omega
        · unfold lineOf at hx
          omega
    · have hline : lineOf (0x0c100000 + i) = 0x608041 := by
        unfold lineOf
        omega
      rw [hline] at hl
      cases hl
      exact if_pos (by omega)
  exact ⟨hclean, (cartRead_coherent_iff .gdi (fun k _ j _ => rfl)
    ⟨by decide, by decide, by decide⟩ rfl).2 hclean⟩

/-- One line of ones over four bytes of the destination is enough, dirty or clean. -/
theorem cartRead_incoherent_stale :
    ¬ Coherent .gdi ⟨fun _ _ => 0, fun _ _ _ => False⟩ (fun _ => 0) 0 4 0x0c100000
        (sampleCache fun k => if k = 0x608000 then some ⟨fun _ => 1, true⟩ else none) ∧
      ¬ Coherent .gdi ⟨fun _ _ => 0, fun _ _ _ => False⟩ (fun _ => 0) 0 4 0x0c100000
        (sampleCache fun k => if k = 0x608000 then some ⟨fun _ => 1, false⟩ else none) := by
  have hdma : ¬ byDma .gdi 0 4 0x0c100000 0 := by
    rintro ⟨-, -, h⟩
    exact absurd h (by decide)
  have hexposed : Cache.Exposed lineOf (range 0x0c100000 4) (lineOf (0x0c100000 + 0)) := by
    refine ⟨0x0c100004, by decide, ?_⟩
    rintro ⟨-, h⟩
    exact absurd h (by decide)
  have hstale : ∀ dirty, ¬ Undisputed .gdi (fun _ => 0) (sampleCache fun k =>
      if k = 0x608000 then some ⟨fun _ => 1, dirty⟩ else none).mem 0 4 0x0c100000 :=
    fun dirty h => absurd (h 0 (by decide) hdma ⟨fun _ => 1, dirty⟩ rfl (.inr hexposed))
      (show (1 : UInt8) ≠ 0 by decide)
  have hnot : ∀ dirty, ¬ Coherent .gdi ⟨fun _ _ => 0, fun _ _ _ => False⟩ (fun _ => 0) 0 4
      0x0c100000 (sampleCache fun k =>
        if k = 0x608000 then some ⟨fun _ => 1, dirty⟩ else none) := by
    intro dirty hall
    obtain ⟨tr, s', hexec, hlast⟩ := cartRead_overwritten ⟨fun _ _ => 0, fun _ _ _ => False⟩
      ⟨by decide, by decide, by decide⟩ rfl (hstale dirty)
    exact hlast ((hall tr _ s' hexec).1 rfl)
  exact ⟨hnot true, hnot false⟩

end Cfp2Dreamcast
