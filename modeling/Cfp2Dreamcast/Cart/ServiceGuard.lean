import Cfp2Dreamcast.Cart.Read

/-!
# What the cart service issues

A refused request goes straight to `shim_die(2)`. Any other request passes the
guard in the sense of `Accepted`, and the service then issues the commands of
`cart_read`, clears the SB_GDST mirror word and paints the progress bar into
video memory.
-/

namespace Cfp2Dreamcast

open Program Memory

/-- The request is bad, over the integers. -/
def Request.bad (q : Request) : Prop :=
  q.len = 0 ∨ q.len > 0x1000000 ∨ q.off + q.len > cartSize ∨
    ¬ ∀ x, range q.dest q.len x → 0x0c000000 ≤ x ∧ x < 0x0cfc0000

theorem decodeRequest_bounds (offH offL len star : ℕ) :
    (decodeRequest offH offL len star).off < 2 ^ 28 ∧
      (decodeRequest offH offL len star).dest < 2 ^ 29 := by
  constructor
  · exact Nat.lt_of_le_of_lt Nat.and_le_right (by decide)
  · exact Nat.lt_of_le_of_lt Nat.and_le_right (by decide)

/-- The region test of the guard selects the 16 MB of RAM. -/
theorem and_region {dest : ℕ} (hdest : dest < 2 ^ 29) :
    dest &&& 0x1f000000 = 0x0c000000 ↔ 0x0c000000 ≤ dest ∧ dest < 0x0d000000 := by
  have h : dest &&& 0x1f000000 = dest / 2 ^ 24 % 2 ^ 5 * 2 ^ 24 := and_field dest 24 5
  rw [h]
  omega

/-- The guard of the code is the integer condition: no sum in it wraps for a
request that gets as far. -/
theorem Request.refused_iff_bad {q : Request} (hoff : q.off < 2 ^ 28)
    (hdest : q.dest < 2 ^ 29) : q.refused ↔ q.bad := by
  have hfence : shimBase &&& 0x1fffffff = 0x0cfc0000 := by decide
  unfold Request.refused Request.bad
  rw [hfence, Ne, and_region hdest, cartSize_eq]
  by_cases hlen : q.len = 0 ∨ q.len > 0x1000000
  · rcases hlen with h | h
    · simp [h]
    · simp [h]
  · obtain ⟨hpos, hmax⟩ := not_or.1 hlen
    have hsum : u32 (q.off + q.len) = q.off + q.len := u32_of_lt (by omega)
    have hsum' : u32 (q.dest + q.len) = q.dest + q.len := u32_of_lt (by omega)
    have hrange : (∀ x, range q.dest q.len x → 0x0c000000 ≤ x ∧ x < 0x0cfc0000) ↔
        0x0c000000 ≤ q.dest ∧ q.dest + q.len ≤ 0x0cfc0000 := by
      constructor
      · intro h
        have hfirst := h q.dest ⟨le_rfl, by omega⟩
        have hlast := h (q.dest + q.len - 1) ⟨by omega, by omega⟩
        omega
      · rintro ⟨hlo, hhi⟩ x ⟨hx, hx'⟩
        omega
    rw [hsum, hsum', hrange]
    omega

theorem Request.accepted {q : Request} (h : ¬ q.bad) : Accepted q.off q.len q.dest := by
  simp only [Request.bad, not_or, not_not] at h
  obtain ⟨hpos, hmax, harea, hrange⟩ := h
  have hfirst := hrange q.dest ⟨le_rfl, by omega⟩
  have hlast := hrange (q.dest + q.len - 1) ⟨by omega, by omega⟩
  exact ⟨by omega, by omega, by omega⟩

/-- The SB_GDST word of the mirror. -/
def sbGdst : ℕ := p2Addr g1Mirror + 0x418

/-- The commands of the progress bar. -/
def BarCmd : Cmd → Prop
  | .load32 o _ => o = .own
  | .store32 o a _ => o = .own ∧ a = 0xa05f80e8
  | .store16 a _ => 0xa4000000 ≤ a ∧ a < 0xa8000000
  | .get x => x = .pbLeft
  | .put x _ => x = .pbLeft
  | _ => False

def barGuard : Guard shimSig := ⟨BarCmd, fun _ => False, fun _ => False⟩

def serviceGuard (b : Build) (q : Request) : Guard shimSig where
  cmd c := (readGuard b q.dest q.len).cmd c ∨ c = .store32 .own sbGdst 0 ∨ BarCmd c
  last := DieCmd
  halt := (readGuard b q.dest q.len).halt

section Bar

theorem forPixels_keeps {g : Guard shimSig} {paint : ℕ → Shim Unit} {x n : ℕ}
    (hpaint : ∀ i < n, Keeps g (paint (x + i))) : Keeps g (forPixels x paint n) := by
  induction n generalizing x with
  | zero => trivial
  | succ n ih =>
      refine Keeps.bind (hpaint 0 (by omega)) fun _ => ih fun i hi => ?_
      have h := hpaint (i + 1) (by omega)
      rwa [Nat.add_comm i 1, ← Nat.add_assoc] at h

theorem fbStore_keeps {fb y x c : ℕ} (hfb : 0xa5000000 ≤ fb) (hfb' : fb < 0xa6000000)
    (hy : y < 480) (hx : x < 640) : Keeps barGuard (fbStore fb y x c) := by
  refine .op ?_ fun _ => trivial
  show 0xa4000000 ≤ _ ∧ _ < 0xa8000000
  omega

/-- The framebuffer base lies in the first 16 MB behind `0xa5000000`. -/
theorem keeps_fbBase {f : ℕ → Shim Unit}
    (hf : ∀ fb, 0xa5000000 ≤ fb → fb < 0xa6000000 → Keeps barGuard (f fb)) :
    Keeps barGuard (fbBase >>= f) := by
  refine .op rfl fun (sof : ℕ) => hf _ (Nat.le_add_right _ _) ?_
  have : sof &&& 0x00fffffc ≤ 0x00fffffc := Nat.and_le_right
  omega

theorem loadbarPaint_keeps (fill : ℕ) : Keeps barGuard (loadbarPaint fill) := by
  refine keeps_fbBase fun fb hfb hfb' => ?_
  refine Keeps.bind (forPixels_keeps fun i hi => ?_) fun _ => ?_
  · exact Keeps.bind (fbStore_keeps hfb hfb' (by omega) (by omega)) fun _ =>
      fbStore_keeps hfb hfb' (by omega) (by omega)
  refine Keeps.bind (forPixels_keeps fun i hi => ?_) fun _ => ?_
  · exact Keeps.bind (fbStore_keeps hfb hfb' (by omega) (by omega)) fun _ =>
      fbStore_keeps hfb hfb' (by omega) (by omega)
  refine Keeps.bind (forPixels_keeps fun i hi => ?_) fun _ => ?_
  · exact forPixels_keeps fun j hj => fbStore_keeps hfb hfb' (by omega) (by omega)
  · exact .op rfl fun _ => .op ⟨rfl, rfl⟩ fun _ => trivial

theorem loadbarStep_keeps (len : ℕ) : Keeps barGuard (loadbarStep len) :=
  .op rfl fun _ => Keeps.whenever fun _ => .op rfl fun _ =>
    loadbarPaint_keeps _

end Bar

variable {b : Build} {q : Request}

theorem serveRequest_keeps (hq : ¬ q.bad) : Keeps (serviceGuard b q) (serveRequest b q) := by
  refine Keeps.bind ?_ fun _ => ?_
  · exact (cartRead_keeps b (q.accepted hq)).mono (fun _ hc => .inl hc) (fun _ hc => hc)
      fun _ he => he
  · refine .op (.inr (.inl rfl)) fun _ => Keeps.whenever fun _ => ?_
    exact (loadbarStep_keeps q.len).mono (fun _ hc => .inr (.inr hc)) (fun _ hc => hc.elim)
      fun _ he => he.elim

/-- The bar is painted outside main RAM. -/
theorem BarCmd.within {c : Cmd} (hc : BarCmd c) (W D : ℕ → Prop) : c.Within W D := by
  cases c with
  | store32 o a v =>
      intro hram
      rw [hc.2] at hram
      exact absurd hram (by decide)
  | store16 a v =>
      intro hram
      obtain ⟨hlo, hhi⟩ := hc
      unfold isRam phys at hram
      omega
  | load32 | get | put => trivial
  | _ => exact hc.elim

end Cfp2Dreamcast
