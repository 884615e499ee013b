import Cfp2Dreamcast.Loader.Handoff

/-!
# What the handoff stub leaves

A stub that is loaded at its scratch address copies the range word by word and
arrives at the entry of the game with an empty cache. The loop is followed by
induction on the words that are left; what it does to memory is `copied`.
-/

namespace Cfp2Dreamcast

open Memory Sh4

namespace Stub

theorem ofNat_ofBytes (b₀ b₁ b₂ b₃ : UInt8) :
    UInt8.ofNat (ofBytes b₀ b₁ b₂ b₃) = b₀ ∧ UInt8.ofNat (ofBytes b₀ b₁ b₂ b₃ / 2 ^ 8) = b₁ ∧
      UInt8.ofNat (ofBytes b₀ b₁ b₂ b₃ / 2 ^ 16) = b₂ ∧
      UInt8.ofNat (ofBytes b₀ b₁ b₂ b₃ / 2 ^ 24) = b₃ := by
  have h₀ := b₀.toNat_lt
  have h₁ := b₁.toNat_lt
  have h₂ := b₂.toNat_lt
  have h₃ := b₃.toNat_lt
  simp only [← UInt8.toNat_inj, UInt8.toNat_ofNat', ofBytes]
  omega

/-- RAM holds the stub at its scratch address. -/
def Loaded (m : Cached) : Prop :=
  ∀ i, (h : i < handoffStub.length) → m.ram (phys handoffScratch + i) = handoffStub[i]

/-- The memory after `n` words are copied. -/
def copied (m : Cached) (src dst : ℕ) : ℕ → Cached
  | 0 => m
  | n + 1 => copied (pokeWord m dst (word m src)) (src + 4) (dst + 4) n

theorem p2Addr_scratch : p2Addr handoffScratch = 0xace00000 := rfl

theorem phys_scratch : phys handoffScratch = 0x0ce00000 := rfl

theorem length_handoffStub : handoffStub.length = 48 := by decide +kernel

/-- The halfword at offset `2 * j` of the stub. -/
def opcode (j : ℕ) : ℕ :=
  (handoffStub.getD (2 * j) 0).toNat + (handoffStub.getD (2 * j + 1) 0).toNat * 2 ^ 8

theorem Loaded.half_eq {m : Cached} (h : Loaded m) {a j : ℕ}
    (ha : a = p2Addr handoffScratch + 2 * j) (hj : j < 24) : half m a = opcode j := by
  have hphys : phys a = phys handoffScratch + 2 * j := by
    rw [ha, p2Addr_scratch, phys_scratch, phys]
    omega
  have h₀ : 2 * j < handoffStub.length := by rw [length_handoffStub]; omega
  have h₁ : 2 * j + 1 < handoffStub.length := by rw [length_handoffStub]; omega
  rw [half, hphys, h _ h₀, Nat.add_assoc, h _ h₁, opcode, List.getD_eq_getElem _ _ h₀,
    List.getD_eq_getElem _ _ h₁]

/-- A literal of the stub. -/
theorem Loaded.word_eq {m : Cached} (h : Loaded m) {a j : ℕ}
    (ha : a = p2Addr handoffScratch + 2 * j) (hj : j < 23) :
    word m a = opcode j + opcode (j + 1) * 2 ^ 16 := by
  have hlow := h.half_eq ha (by omega)
  have hhigh : half m (a + 2) = opcode (j + 1) := h.half_eq (by omega) (by omega)
  have hphys : phys (a + 2) = phys a + 2 := by
    rw [ha, p2Addr_scratch, phys, phys]
    omega
  rw [← hlow, ← hhigh, half, half, hphys, show phys a + 2 + 1 = phys a + 3 from rfl, word,
    ofBytes]
  omega

theorem direct_scratch {a j : ℕ} (ha : a = p2Addr handoffScratch + 2 * j) (hj : j < 24) :
    Direct a := by
  rw [ha, p2Addr_scratch, Direct, isRam_iff, uncached, phys]
  omega

/-- One instruction of the loaded stub. -/
theorem arrives_op {s s₁ s' : Stub} (j : ℕ) (op : StubOp) (h : Loaded s.mem)
    (hpc : s.pc = p2Addr handoffScratch + 2 * j) (hj : j < 24)
    (hop : StubOp.decode (opcode j) = some op) (hex : s.exec op = some s₁)
    (hrest : Arrives gameEntry s₁ s') : Arrives gameEntry s s' := by
  refine .step ?_ ?_ hrest
  · rw [hpc, p2Addr_scratch, gameEntry_eq]
    omega
  · rw [step, if_pos (direct_scratch hpc hj), h.half_eq hpc hj, hop]
    exact hex

section Execute

variable {s : Stub} {m n : Reg}

theorem exec_loadInc (ha : Direct (s.r m)) (hlt : s.r m + 4 < 2 ^ 32) :
    s.exec (.loadInc m n) = some
      ⟨Function.update (Function.update s.r m (s.r m + 4)) n (word s.mem (s.r m)), s.pc + 2, s.t,
        s.mem⟩ := by
  rw [exec, if_pos ha, Nat.mod_eq_of_lt hlt]
  rfl

theorem exec_store (ha : Direct (s.r n)) :
    s.exec (.store m n) = some ⟨s.r, s.pc + 2, s.t, pokeWord s.mem (s.r n) (s.r m)⟩ := by
  rw [exec, put, if_pos ha]
  rfl

theorem exec_store_ccr (ha : s.r n = ccr) (hv : (s.r m).testBit 3 = true) :
    s.exec (.store m n) = some ⟨s.r, s.pc + 2, s.t, s.mem.discardAll⟩ := by
  rw [exec, put, if_neg (by rw [ha]; decide), if_pos ha, if_pos hv]
  rfl

theorem exec_add {v : ℕ} (hv : s.r n = v) (hlt : v + 4 < 2 ^ 32) :
    s.exec (.add 4 n) = some ⟨Function.update s.r n (v + 4), s.pc + 2, s.t, s.mem⟩ := by
  rw [exec, hv, addImm, if_pos (by decide), Nat.mod_eq_of_lt hlt]
  rfl

theorem exec_dt {k : ℕ} (hk : s.r n = k + 1) (hlt : k + 1 < 2 ^ 32) :
    s.exec (.dt n) = some ⟨Function.update s.r n k, s.pc + 2, k = 0, s.mem⟩ := by
  have hv : (k + 1 + (2 ^ 32 - 1)) % 2 ^ 32 = k := by omega
  rw [exec, hk, hv]
  rfl

theorem exec_jmp {v : ℕ} (hv : s.r n = v)
    (hslot : StubOp.decode (half s.mem (s.pc + 2)) = some .nop) :
    s.exec (.jmp n) = some ⟨s.r, v, s.t, s.mem⟩ := by
  rw [exec, if_pos hslot, hv]

end Execute

variable {r : Reg → ℕ} {t : Bool} {m : Cached} {src dst k pc : ℕ} {s' : Stub}

/-- One round of the copy loop. -/
theorem arrives_round (h : Loaded m) (h₄ : r 4 = src) (h₅ : r 5 = dst) (h₀ : r 0 = k + 1)
    (hk : k + 1 < 2 ^ 32) (hsrc : Direct src) (hdst : Direct dst) (hsrc' : src + 4 < 2 ^ 32)
    (hdst' : dst + 4 < 2 ^ 32) (hl : Loaded (pokeWord m dst (word m src)))
    (hrest : Arrives gameEntry
      ⟨Function.update (Function.update (Function.update (Function.update r 4 (src + 4)) 1
          (word m src)) 5 (dst + 4)) 0 k,
        if k = 0 then p2Addr handoffScratch + 14 else p2Addr handoffScratch + 4, k = 0,
        pokeWord m dst (word m src)⟩ s') :
    Arrives gameEntry ⟨r, p2Addr handoffScratch + 4, t, m⟩ s' := by
  subst h₄ h₅
  refine arrives_op 2 (.loadInc 4 1) h rfl (by decide) (by decide +kernel)
    (exec_loadInc hsrc hsrc') ?_
  refine arrives_op 3 (.store 1 5) h rfl (by decide) (by decide +kernel) (exec_store hdst) ?_
  refine arrives_op 4 (.add 4 5) hl rfl (by decide) (by decide +kernel) (exec_add rfl hdst') ?_
  refine arrives_op 5 (.dt 0) hl rfl (by decide) (by decide +kernel) (exec_dt h₀ hk) ?_
  refine arrives_op 6 (.bf 0xfa) hl rfl (by decide) (by decide +kernel) rfl ?_
  have hpc : (if decide (k = 0) = true then p2Addr handoffScratch + 4 + 2 + 2 + 2 + 2 + 2
      else branch (p2Addr handoffScratch + 4 + 2 + 2 + 2 + 2) 0xfa) =
      if k = 0 then p2Addr handoffScratch + 14 else p2Addr handoffScratch + 4 := by
    simp only [decide_eq_true_eq]
    rfl
  simp only [hpc]
  exact hrest

/-- The tail of the stub: CCR drops the operand cache, and the jump. -/
theorem arrives_tail (h : Loaded m) (h₇ : r 7 = gameEntry) :
    ∃ r', Arrives gameEntry ⟨r, p2Addr handoffScratch + 14, t, m⟩
      ⟨r', gameEntry, t, m.discardAll⟩ := by
  have hl : Loaded m.discardAll := h
  have hlit₁ : word m ((p2Addr handoffScratch + 14) / 4 * 4 + 4 + 4 * 6) = ccr :=
    h.word_eq (j := 20) rfl (by decide)
  have hlit₂ : word m ((p2Addr handoffScratch + 16) / 4 * 4 + 4 + 4 * 6) = 0x90d :=
    h.word_eq (j := 22) rfl (by decide)
  let r₁ := Function.update (Function.update r 1 ccr) 2 0x90d
  have h₇' : r₁ 7 = gameEntry := h₇
  refine ⟨r₁, arrives_op 7 (.lit 6 1) h rfl (by decide) (by decide +kernel)
    (congrArg (fun v => some (⟨Function.update r 1 v, _, t, m⟩ : Stub)) hlit₁) ?_⟩
  refine arrives_op 8 (.lit 6 2) h rfl (by decide) (by decide +kernel)
    (congrArg (fun v => some (⟨Function.update (Function.update r 1 ccr) 2 v, _, t, m⟩ : Stub))
      hlit₂) ?_
  refine arrives_op 9 (.store 2 1) h rfl (by decide) (by decide +kernel)
    (exec_store_ccr rfl (show (0x90d : ℕ).testBit 3 = true by decide)) ?_
  refine arrives_op 10 .nop hl rfl (by decide) (by decide +kernel) rfl ?_
  refine arrives_op 11 .nop hl rfl (by decide) (by decide +kernel) rfl ?_
  refine arrives_op 12 .nop hl rfl (by decide) (by decide +kernel) rfl ?_
  refine arrives_op 13 .nop hl rfl (by decide) (by decide +kernel) rfl ?_
  refine arrives_op 14 .nop hl rfl (by decide) (by decide +kernel) rfl ?_
  refine arrives_op 15 .nop hl rfl (by decide) (by decide +kernel) rfl ?_
  refine arrives_op 16 .nop hl rfl (by decide) (by decide +kernel) rfl ?_
  refine arrives_op 17 .nop hl rfl (by decide) (by decide +kernel) rfl ?_
  have hslot : StubOp.decode (half m.discardAll (p2Addr handoffScratch + 2 * 19)) = some .nop := by
    rw [hl.half_eq rfl (by decide)]
    decide +kernel
  exact arrives_op 18 (.jmp 7) hl rfl (by decide) (by decide +kernel) (exec_jmp h₇' hslot)
    (.here rfl)

/-! The memory that the loop leaves. -/

/-- A range of the uncached alias of area 3. -/
def Span (a n : ℕ) : Prop := 0xac000000 ≤ a ∧ a + n ≤ 0xb0000000

theorem Span.phys_add {a n i : ℕ} (h : Span a n) (hi : i < n) : phys (a + i) = phys a + i := by
  unfold Span at h
  unfold phys
  omega

theorem Span.direct {a n : ℕ} (h : Span a n) (hn : 0 < n) : Direct a := by
  unfold Span at h
  rw [Direct, isRam_iff, uncached, phys]
  omega

theorem Span.tail {a n : ℕ} (h : Span a (4 * (n + 1))) : Span (a + 4) (4 * n) := by
  unfold Span at h ⊢
  omega

theorem pokeWord_ram_off {a v x : ℕ} (hx : x < phys a ∨ phys a + 4 ≤ x) :
    (pokeWord m a v).ram x = m.ram x := by
  have h₀ : x ≠ phys a := by omega
  have h₁ : x ≠ phys a + 1 := by omega
  have h₂ : x ≠ phys a + 2 := by omega
  have h₃ : x ≠ phys a + 3 := by omega
  simp only [pokeWord, Cache.poke, Function.update_of_ne h₀, Function.update_of_ne h₁,
    Function.update_of_ne h₂, Function.update_of_ne h₃]

/-- A word that is copied is copied byte by byte. -/
theorem pokeWord_word_ram {a b i : ℕ} (hi : i < 4) :
    (pokeWord m a (word m b)).ram (phys a + i) = m.ram (phys b + i) := by
  obtain ⟨e₀, e₁, e₂, e₃⟩ := ofNat_ofBytes (m.ram (phys b)) (m.ram (phys b + 1))
    (m.ram (phys b + 2)) (m.ram (phys b + 3))
  simp only [pokeWord, word, Cache.poke, e₀, e₁, e₂, e₃, Function.update_apply]
  interval_cases i <;> simp

theorem copied_ram_off {n x : ℕ} (hdst : Span dst (4 * n))
    (hx : x < phys dst ∨ phys dst + 4 * n ≤ x) : (copied m src dst n).ram x = m.ram x := by
  induction n generalizing m src dst with
  | zero => rfl
  | succ n ih =>
      rw [copied]
      by_cases hn : n = 0
      · subst hn
        exact pokeWord_ram_off (by omega)
      · have hphys : phys (dst + 4) = phys dst + 4 := hdst.phys_add (by omega)
        rw [ih hdst.tail (by omega)]
        exact pokeWord_ram_off (by omega)

/-- Copying between ranges that do not meet. -/
theorem copied_ram {n i : ℕ} (hsrc : Span src (4 * n)) (hdst : Span dst (4 * n))
    (hapart : phys src + 4 * n ≤ phys dst ∨ phys dst + 4 * n ≤ phys src) (hi : i < 4 * n) :
    (copied m src dst n).ram (phys dst + i) = m.ram (phys src + i) := by
  induction n generalizing m src dst i with
  | zero => omega
  | succ n ih =>
      rw [copied]
      by_cases hn : n = 0
      · subst hn
        exact pokeWord_word_ram (by omega)
      · have hphys : phys (dst + 4) = phys dst + 4 := hdst.phys_add (by omega)
        have hphys' : phys (src + 4) = phys src + 4 := hsrc.phys_add (by omega)
        by_cases hlow : i < 4
        · rw [copied_ram_off hdst.tail (by omega), pokeWord_word_ram hlow]
        · have hrest := ih (m := pokeWord m dst (word m src)) (i := i - 4) hsrc.tail hdst.tail
            (by omega) (by omega)
          rw [hphys, hphys', show phys dst + 4 + (i - 4) = phys dst + i by omega,
            show phys src + 4 + (i - 4) = phys src + i by omega] at hrest
          rw [hrest]
          exact pokeWord_ram_off (by omega)

theorem Loaded.pokeWord {a v : ℕ} (h : Loaded m)
    (ha : phys a + 4 ≤ 0x0ce00000 ∨ 0x0ce00030 ≤ phys a) : Loaded (pokeWord m a v) := by
  intro i hi
  have hlen := length_handoffStub
  rw [pokeWord_ram_off (by rw [phys_scratch]; omega)]
  exact h i hi

/-- The copy loop, by induction on the words that are left. -/
theorem arrives_loop (h : Loaded m) (h₄ : r 4 = src) (h₅ : r 5 = dst) (h₀ : r 0 = k + 1)
    (h₇ : r 7 = gameEntry) (hsrc : Span src (4 * (k + 1))) (hdst : Span dst (4 * (k + 1)))
    (hapart : phys dst + 4 * (k + 1) ≤ 0x0ce00000 ∨ 0x0ce00030 ≤ phys dst) :
    ∃ r' t', Arrives gameEntry ⟨r, p2Addr handoffScratch + 4, t, m⟩
      ⟨r', gameEntry, t', (copied m src dst (k + 1)).discardAll⟩ := by
  induction k generalizing m r t src dst with
  | zero =>
      have hl : Loaded (Stub.pokeWord m dst (word m src)) := h.pokeWord (by omega)
      obtain ⟨r', htail⟩ := arrives_tail (t := decide (0 = 0)) hl (r := Function.update
        (Function.update (Function.update (Function.update r 4 (src + 4)) 1 (word m src))
          5 (dst + 4)) 0 0) h₇
      unfold Span at hsrc hdst
      exact ⟨r', _, arrives_round h h₄ h₅ h₀ (by omega) (Span.direct hsrc (by omega))
        (Span.direct hdst (by omega)) (by omega) (by omega) hl htail⟩
  | succ k ih =>
      have hphys : phys (dst + 4) = phys dst + 4 := hdst.phys_add (by omega)
      have hl : Loaded (Stub.pokeWord m dst (word m src)) := h.pokeWord (by omega)
      obtain ⟨r', t', hrest⟩ := ih (t := decide (k + 1 = 0)) hl (r := Function.update
        (Function.update (Function.update (Function.update r 4 (src + 4)) 1 (word m src))
          5 (dst + 4)) 0 (k + 1))
        (rfl : _ = src + 4) (rfl : _ = dst + 4) rfl h₇ hsrc.tail hdst.tail (by omega)
      unfold Span at hsrc hdst
      exact ⟨r', t', arrives_round h h₄ h₅ h₀ (by omega) (Span.direct hsrc (by omega))
        (Span.direct hdst (by omega)) (by omega) (by omega) hl hrest⟩

/-- The stub from its call to the entry of the game. -/
theorem arrives_handoff {len : ℕ} (h : Loaded m) (hlen : len = 4 * (k + 1)) (hsrc : Span src len)
    (hdst : Span dst len) (hapart : phys dst + len ≤ 0x0ce00000 ∨ 0x0ce00030 ≤ phys dst) :
    ∃ r' t', Arrives gameEntry (handoffCall r t src dst len gameEntry m)
      ⟨r', gameEntry, t', (copied m src dst (k + 1)).discardAll⟩ := by
  subst hlen
  obtain ⟨r', t', hloop⟩ := arrives_loop (t := t) (r := Function.update (Function.update
    (Function.update (Function.update (Function.update (Function.update r 4 src) 5 dst) 6
      (4 * (k + 1))) 7 gameEntry) 0 (4 * (k + 1))) 0 (k + 1)) h rfl rfl rfl rfl hsrc hdst hapart
  refine ⟨r', t', arrives_op 0 (.mov 6 0) h rfl (by decide) (by decide +kernel) rfl ?_⟩
  refine arrives_op 1 (.shlr2 0) h rfl (by decide) (by decide +kernel) ?_ hloop
  have hdiv : 4 * (k + 1) / 4 = k + 1 := by omega
  exact congrArg (fun v => some (⟨Function.update _ 0 v, _, t, m⟩ : Stub)) hdiv

end Stub

end Cfp2Dreamcast
