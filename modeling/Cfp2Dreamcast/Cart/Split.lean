import Cfp2Dreamcast.Cart.Service

/-!
# The split of a request

`cart_split` cuts `[off, off + len)` into a head inside one sector, whole
sectors and a tail inside one sector, in this order and without gaps.
-/

namespace Cfp2Dreamcast

/-- The three parts of a split cover the request. -/
structure Split.Covers (s : Split) (off len : ℕ) : Prop where
  total : s.headTake + s.bodySect * 2048 + s.tailTake = len
  head : s.headTake ≠ 0 →
    s.headFad * 2048 + s.headSkip = off ∧ s.headSkip + s.headTake ≤ 2048
  body : s.bodySect ≠ 0 → s.bodyFad * 2048 = off + s.headTake
  tail : s.tailTake ≠ 0 → s.tailTake < 2048 ∧
    s.tailFad * 2048 = off + s.headTake + s.bodySect * 2048

theorem cartSplit_covers (off len : ℕ) : (cartSplit off len).Covers off len := by
  unfold cartSplit Split.rest
  by_cases hskip : off % 2048 = 0
  · simp only [hskip, if_true]
    constructor
    · simp only
      omega
    · simp
    · simp only
      omega
    · intro ht
      simp only at ht ⊢
      rw [if_neg ht]
      omega
  · simp only [hskip, if_false]
    constructor
    · simp only
      omega
    · simp only
      omega
    · simp only
      omega
    · intro ht
      simp only at ht ⊢
      rw [if_neg ht]
      omega

end Cfp2Dreamcast
