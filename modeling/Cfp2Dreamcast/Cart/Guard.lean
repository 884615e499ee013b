import Cfp2Dreamcast.Cart.Service
import Cfp2Dreamcast.Machine.Frame

/-!
# What the cart code issues

`cartGuard P D W` is the guard of the read engine and of `cart_read`: the reads
it asks the drive for satisfy `P`, the blocks it invalidates `D`, the bytes it
stores are at addresses of `W`, and it halts only with code 4 or 5. Before it
halts it stores to the error block alone.
-/

namespace Cfp2Dreamcast

open Program

/-- The device registers that `gd_read_sectors_dma` writes. -/
def gdRegs : List ℕ := [0xa05f6900, 0xa05f6910, 0xa05f6920, 0xa05f6930]

def CartCmd (P : Read → Prop) (D W : ℕ → Prop) : Cmd → Prop
  | .load8 o _ => o = .own
  | .load32 o _ => o = .own
  | .store8 o a _ => o = .own ∧ W a
  | .store32 o a _ => o = .own ∧ a ∈ gdRegs
  | .ocbi a => D a
  | .get x => x = .gdLastErr
  | .put x _ => x = .gdLastErr
  | .gdc r4 block r7 => r7 = gdSend → ∀ rd, sentRead r4 block = some rd → P rd
  | _ => False

/-- The stores of `shim_die`. -/
def DieCmd : Cmd → Prop
  | .store32 o a _ => o = .own ∧ p2Addr shimErr ≤ a ∧ a + 4 ≤ p2Addr shimErr + 16
  | _ => False

def cartGuard (P : Read → Prop) (D W : ℕ → Prop) : Guard shimSig where
  cmd := CartCmd P D W
  last := DieCmd
  halt e := ∃ a b, e = .die 4 a b ∨ e = .die 5 a b

variable {P P' : Read → Prop} {D D' W W' : ℕ → Prop}

theorem CartCmd.mono {c : Cmd} (hc : CartCmd P D W c) (hP : ∀ rd, P rd → P' rd)
    (hD : ∀ a, D a → D' a) (hW : ∀ a, W a → W' a) : CartCmd P' D' W' c := by
  cases c with
  | store8 o a v => exact ⟨hc.1, hW a hc.2⟩
  | ocbi a => exact hD a hc
  | gdc r4 block r7 => exact fun hr7 rd hrd => hP rd (hc hr7 rd hrd)
  | _ => exact hc

theorem gdRegs_not_isRam {a : ℕ} (ha : a ∈ gdRegs) : ¬ isRam a := by
  revert a
  decide

/-- The frame of a command of the cart code. -/
theorem CartCmd.within {c : Cmd} (hc : CartCmd P D W c)
    (hP : ∀ rd, P rd → ∀ a, rd.buffer.Mem a → W' a) (hW : ∀ a, W a → W' a) :
    c.Within W' D := by
  cases c with
  | store8 o a v => exact fun _ => hW a hc.2
  | store32 o a v => exact fun hram => absurd hram (gdRegs_not_isRam hc.2)
  | ocbi a => exact hc
  | gdc r4 block r7 => exact fun hr7 rd hrd => hP rd (hc hr7 rd hrd)
  | load8 | load16 | load32 | get | put => trivial
  | store16 | engine | awaitMaple => exact hc.elim

theorem DieCmd.within {c : Cmd} (hc : DieCmd c)
    (hW : ∀ i < 16, W' (p2Addr shimErr + i)) : c.Within W' D := by
  cases c with
  | store32 o a v =>
      intro _ i hi
      obtain ⟨-, hlo, hhi⟩ := hc
      have h := hW (a + i - p2Addr shimErr) (by omega)
      rwa [Nat.add_sub_cancel' (by omega)] at h
  | _ => exact hc.elim

theorem dooms_shimDie {α : Type} {g : Guard shimSig} {code a b : ℕ}
    (hlast : ∀ c, DieCmd c → g.last c) (hhalt : g.halt (.die code a b)) :
    Dooms g (shimDie code a b : Shim α) := by
  have hstore : ∀ i v, i + 4 ≤ 16 → g.last (.store32 .own (p2Addr shimErr + i) v) :=
    fun i v hi => hlast _ ⟨rfl, Nat.le_add_right _ _, by omega⟩
  exact ⟨hstore 4 _ (by decide), fun _ => ⟨hstore 8 _ (by decide), fun _ =>
    ⟨hstore 12 _ (by decide), fun _ => ⟨hstore 0 _ (by decide), fun _ => hhalt⟩⟩⟩⟩

theorem shimDie_keeps {α : Type} {code a b : ℕ} (hcode : code = 4 ∨ code = 5) :
    Keeps (cartGuard P D W) (shimDie code a b : Shim α) := by
  have hhalt : (cartGuard P D W).halt (.die code a b) := by
    rcases hcode with rfl | rfl
    · exact ⟨a, b, .inl rfl⟩
    · exact ⟨a, b, .inr rfl⟩
  exact (dooms_shimDie (fun _ hc => hc) hhalt).keeps

/-! The syscalls other than a read request. -/

theorem keeps_gdc {α : Type} {r4 : ℕ} {block : List ℕ} {r7 : ℕ}
    {k : GdReply → Shim α} (h : r7 ≠ gdSend)
    (hk : ∀ r, Keeps (cartGuard P D W) (k r)) :
    Keeps (cartGuard P D W) (.op (.gdc r4 block r7) k) :=
  .op (fun hr7 => absurd hr7 h) hk

theorem gdInitPollStep_keeps {req guard : ℕ} {again : Shim Unit}
    (hagain : Keeps (cartGuard P D W) again) :
    Keeps (cartGuard P D W) (gdInitPollStep req guard again) := by
  refine keeps_gdc (by decide) fun _ => keeps_gdc (by decide) fun s => ?_
  show Keeps _ (ite _ _ _)
  split
  · trivial
  · split
    · trivial
    · exact hagain

theorem gdInitPoll_keeps (req left guard : ℕ) :
    Keeps (cartGuard P D W) (gdInitPoll req left guard) := by
  induction left generalizing guard with
  | zero => exact gdInitPollStep_keeps (shimDie_keeps (.inr rfl))
  | succ left ih => exact gdInitPollStep_keeps (ih (guard + 1))

theorem gdInitDrive_keeps : Keeps (cartGuard P D W) gdInitDrive := by
  refine .op (fun _ rd hrd => by cases hrd) fun req => ?_
  show Keeps _ (ite _ _ _)
  split
  · trivial
  · exact gdInitPoll_keeps _ _ _

theorem gdRecover_keeps (b : Build) : Keeps (cartGuard P D W) (gdRecover b) := by
  refine Keeps.bind (keeps_gdc (by decide) fun _ => trivial) fun _ => ?_
  refine Keeps.bind gdInitDrive_keeps fun _ => ?_
  exact Keeps.whenever fun _ => keeps_gdc (by decide) fun _ => trivial

theorem gdPollStep_keeps {req guard : ℕ} {again : Shim Bool}
    (hagain : Keeps (cartGuard P D W) again) :
    Keeps (cartGuard P D W) (gdPollStep req guard again) := by
  refine keeps_gdc (by decide) fun _ => keeps_gdc (by decide) fun s => ?_
  show Keeps _ (ite _ _ _)
  split
  · trivial
  · split
    · exact .op rfl fun _ => trivial
    · split
      · exact .op rfl fun _ => trivial
      · exact hagain

theorem gdPoll_keeps (fad n req left guard : ℕ) :
    Keeps (cartGuard P D W) (gdPoll fad n req left guard) := by
  induction left generalizing guard with
  | zero => exact gdPollStep_keeps (shimDie_keeps (.inr rfl))
  | succ left ih => exact gdPollStep_keeps (ih (guard + 1))

section Read

variable {md : GdMode} {dst fad n : ℕ}

theorem gdAttempt_keeps (hprepare : Keeps (cartGuard P D W) md.prepare)
    (hfinish : Keeps (cartGuard P D W) md.finish)
    (hP : ∀ rd, sentRead md.cmd [fad, n, dst, 0] = some rd → P rd) :
    Keeps (cartGuard P D W) (gdAttempt md dst fad n) := by
  refine Keeps.bind hprepare fun _ => .op (fun _ => hP) fun req => ?_
  show Keeps _ (ite _ _ _)
  split
  · exact .op rfl fun _ => trivial
  · refine Keeps.bind (gdPoll_keeps _ _ _ _ _) fun ok => ?_
    cases ok with
    | false => trivial
    | true => exact Keeps.bind hfinish fun _ => trivial

theorem gdRead_keeps (b : Build) (hprepare : Keeps (cartGuard P D W) md.prepare)
    (hfinish : Keeps (cartGuard P D W) md.finish)
    (hP : ∀ rd, sentRead md.cmd [fad, n, dst, 0] = some rd → P rd) (left attempt : ℕ) :
    Keeps (cartGuard P D W) (gdRead b md dst fad n left attempt) := by
  induction left generalizing attempt with
  | zero => trivial
  | succ left ih =>
      refine Keeps.bind (Keeps.whenever fun _ => gdRecover_keeps b) fun _ => ?_
      refine Keeps.bind (gdAttempt_keeps hprepare hfinish hP) fun ok => ?_
      cases ok with
      | false => exact ih (attempt + 1)
      | true => trivial

end Read

theorem ocbiBlocks_keeps {a k : ℕ} (hD : ∀ j < k, D (a + 32 * j)) :
    Keeps (cartGuard P D W) (ocbiBlocks a k) := by
  induction k generalizing a with
  | zero => trivial
  | succ k ih =>
      refine .op (hD 0 (by omega)) fun _ => ih fun j hj => ?_
      have h := hD (j + 1) (by omega)
      rwa [Nat.mul_add, Nat.mul_one, Nat.add_comm (32 * j) 32, ← Nat.add_assoc] at h

theorem maskGdIrq_keeps {a : ℕ} (ha : a ∈ gdRegs) :
    Keeps (cartGuard P D W) (maskGdIrq a) :=
  .op rfl fun _ => .op ⟨rfl, ha⟩ fun _ => trivial

theorem xmemcpy_keeps {d s n : ℕ} (hW : ∀ i < n, W (d + i)) :
    Keeps (cartGuard P D W) (xmemcpy d s n) := by
  induction n generalizing d s with
  | zero => trivial
  | succ n ih =>
      refine .op rfl fun _ => .op ⟨rfl, hW 0 (by omega)⟩ fun _ => ih fun i hi => ?_
      have h := hW (i + 1) (by omega)
      rwa [Nat.add_comm i 1, ← Nat.add_assoc] at h

section Sectors

variable {fad n p dst : ℕ}

theorem sentRead_pio : sentRead cmdPioread [fad, n, dst, 0] = some ⟨fad, n, dst⟩ := rfl

theorem sentRead_dma :
    sentRead cmdDmaread [fad, n, p, 0] = some ⟨fad, n, p2Addr p⟩ := rfl

theorem gdReadSectors_keeps (b : Build) (hP : P ⟨fad, n, dst⟩) :
    Keeps (cartGuard P D W) (gdReadSectors b dst fad n) := by
  have hpure : Keeps (cartGuard P D W) (pure () : Shim Unit) := trivial
  refine gdRead_keeps b hpure hpure (fun rd hrd => ?_) 4 0
  cases sentRead_pio.symm.trans hrd
  exact hP

/-- The blocks of the cached alias of `[p, p + len)`. -/
def blocksOf (p len a : ℕ) : Prop :=
  a % 32 = 0 ∧ 0x80000000 + p ≤ a ∧ a + 32 ≤ 0x80000000 + p + len

/-- On an aligned range `dcache_inval` is the loop over its blocks. -/
theorem dcacheInval_eq (hp : p < 2 ^ 29) (hal : p % 32 = 0) (n : ℕ) :
    dcacheInval p (n * 2048) = ocbiBlocks (p + 0x80000000) (n * 64) := by
  have hor : p ||| 0x80000000 = p + 0x80000000 := Memory.or_high_eq_add hp 4
  unfold dcacheInval
  simp only [and_physMask, phys_of_lt hp, hor]
  congr 1
  · omega
  · omega

theorem gdDma_prepare_keeps (hp : p < 2 ^ 29) (hal : p % 32 = 0)
    (hD : ∀ a, blocksOf p (n * 2048) a → D a) :
    Keeps (cartGuard P D W) (gdDma p n).prepare := by
  show Keeps _ (dcacheInval p (n * 2048))
  rw [dcacheInval_eq hp hal]
  refine ocbiBlocks_keeps fun j hj => hD _ ?_
  unfold blocksOf
  omega

theorem gdDma_finish_keeps : Keeps (cartGuard P D W) (gdDma p n).finish :=
  .op ⟨rfl, by decide⟩ fun _ => trivial

theorem gdReadSectorsDma_keeps (b : Build) (hp : p < 2 ^ 29) (hal : p % 32 = 0)
    (hD : ∀ a, blocksOf p (n * 2048) a → D a) (hP : P ⟨fad, n, p2Addr p⟩) :
    Keeps (cartGuard P D W) (gdReadSectorsDma b p fad n) := by
  unfold gdReadSectorsDma
  simp only [and_physMask, phys_of_lt hp]
  refine Keeps.bind (maskGdIrq_keeps (by decide)) fun _ => ?_
  refine Keeps.bind (maskGdIrq_keeps (by decide)) fun _ => ?_
  refine Keeps.bind (maskGdIrq_keeps (by decide)) fun _ => ?_
  refine gdRead_keeps b (gdDma_prepare_keeps hp hal hD) gdDma_finish_keeps
    (fun rd hrd => ?_) 4 0
  cases sentRead_dma.symm.trans hrd
  exact hP

end Sectors

end Cfp2Dreamcast
