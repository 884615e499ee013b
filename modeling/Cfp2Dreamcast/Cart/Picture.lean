import Cfp2Dreamcast.Cart.Service
import Cfp2Dreamcast.Program.Draws

/-!
# The picture

What is seen is a frame of 640 by 480 halfwords, scanned out from a base in the video
memory. The shim paints on it pixel by pixel, in loops over rows and columns.
-/

namespace Cfp2Dreamcast

open Program

/-- The pixel of the picture scanned out from `fb`. -/
def fbPixel (fb y x : ℕ) : ℕ := fb + (y * 640 + x) * 2

/-- Where a picture is scanned out from. -/
def scanout (sof : ℕ) : ℕ := 0xa5000000 + (sof &&& 0x00fffffc)

/-- A store that may be seen: one of a pixel, or any other to the video memory, area 1. -/
def PictureCmd : Cmd → Prop
  | .store16 _ _ => True
  | .store8 _ a _ => phys a / 2 ^ 26 = 1
  | .store32 _ a _ => phys a / 2 ^ 26 = 1
  | _ => False

section Paint

variable {σ : Type} {M : Machine shimSig σ} {stores : Event shimSig → List (ℕ × ℕ)} {f : ℕ → ℕ}

theorem draws_fbStore (hstores : ∀ a v r, stores ⟨.store16 a v, r⟩ = [(a, v)]) {fb y x v : ℕ}
    (hv : v = f (fbPixel fb y x)) :
    Draws M stores (· = fbPixel fb y x) f (fbStore fb y x v) := by
  have hws : ∀ w ∈ [(fbPixel fb y x, v)], w.2 = f w.1 := by
    intro w hw
    rw [List.mem_singleton.1 hw]
    exact hv
  refine (Draws.op [(fbPixel fb y x, v)] (fun r => hstores _ _ r) hws
    fun _ => draws_ret ()).congr (fun a => ?_) fun _ _ => rfl
  simp [eq_comm]

theorem draws_forPixels {A : ℕ → ℕ → Prop} {paint : ℕ → Shim Unit} {x n : ℕ}
    (h : ∀ i, x ≤ i → i < x + n → Draws M stores (A i) f (paint i)) :
    Draws M stores (fun a => ∃ i, x ≤ i ∧ i < x + n ∧ A i a) f (forPixels x paint n) := by
  induction n generalizing x with
  | zero =>
      refine (draws_ret ()).congr (fun a => ⟨False.elim, ?_⟩) fun _ _ => rfl
      rintro ⟨i, hlo, hhi, -⟩
      omega
  | succ n ih =>
      refine ((h x le_rfl (by omega)).bind fun _ => ih fun i hlo hhi =>
        h i (by omega) (by omega)).congr (fun a => ⟨?_, ?_⟩) fun _ _ => rfl
      · rintro (ha | ⟨i, hlo, hhi, ha⟩)
        · exact ⟨x, le_rfl, by omega, ha⟩
        · exact ⟨i, by omega, by omega, ha⟩
      · rintro ⟨i, hlo, hhi, ha⟩
        rcases Nat.eq_or_lt_of_le hlo with rfl | hlt
        · exact .inl ha
        · exact .inr ⟨i, hlt, by omega, ha⟩

end Paint

end Cfp2Dreamcast
