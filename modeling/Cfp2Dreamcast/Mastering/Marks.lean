import Cfp2Dreamcast.Memory.Bytes
import Cfp2Dreamcast.Memory.Search

/-!
# The build mark of a loader

A CD build bakes the words `0x0FADC0DE` and `CART_FAD` into the shim, which the
loader embeds. `cdi_marks` of `make_gdi.py` collects the second word of every
mark it finds.
-/

namespace Cfp2Dreamcast

open Memory

/-- The value of a little-endian byte string, `int.from_bytes(b, "little")`. -/
def fromBytesLittle : List UInt8 → ℕ
  | [] => 0
  | b :: bs => b.toNat + 256 * fromBytesLittle bs

/-- `(0x0FADC0DE).to_bytes(4, "little")`. -/
def magic : List UInt8 := [0xde, 0xc0, 0xad, 0x0f]

/-- The value after a mark at `i`. A slice past the end of the file is shorter
than four bytes. -/
def markValue (ldr : List UInt8) (i : ℕ) : ℕ :=
  fromBytesLittle ((ldr.drop (i + 4)).take 4)

def cdiMarks (ldr : List UInt8) : List ℕ := scan ldr magic (markValue ldr) 0

/-- The positions of the marks in a loader. -/
def markPositions (ldr : List UInt8) : List ℕ :=
  (List.range ldr.length).filter fun i => decide ((ldr.drop i).take 4 = magic)

/-- The four bytes of a mark are at `i`. -/
def MarkAt (ldr : List UInt8) (i : ℕ) : Prop :=
  ldr[i]? = some 0xde ∧ ldr[i + 1]? = some 0xc0 ∧ ldr[i + 2]? = some 0xad ∧
    ldr[i + 3]? = some 0x0f

theorem take_four_eq_iff (l : List UInt8) (a b c d : UInt8) :
    l.take 4 = [a, b, c, d] ↔
      l[0]? = some a ∧ l[1]? = some b ∧ l[2]? = some c ∧ l[3]? = some d := by
  match l with
  | [] | [_] | [_, _] | [_, _, _] => simp
  | _ :: _ :: _ :: _ :: l => simp

theorem mem_markPositions {ldr : List UInt8} {i : ℕ} :
    i ∈ markPositions ldr ↔ MarkAt ldr i := by
  have htake : (ldr.drop i).take 4 = magic ↔ MarkAt ldr i := by
    rw [magic, take_four_eq_iff]
    simp only [List.getElem?_drop, Nat.add_zero]
    rfl
  rw [markPositions, List.mem_filter, List.mem_range, decide_eq_true_iff, htake]
  refine ⟨And.right, fun h => ⟨?_, h⟩⟩
  exact (List.getElem?_eq_some_iff.1 h.1).1

theorem markPositions_pairwise (ldr : List UInt8) : (markPositions ldr).Pairwise (· < ·) :=
  List.pairwise_lt_range.filter _

/-- The value of a mark is the little-endian word behind it; past the end of the file
its bytes count as zero. -/
theorem markValue_eq (ldr : List UInt8) (i : ℕ) :
    markValue ldr i = ofBytes (ldr.getD (i + 4) 0) (ldr.getD (i + 5) 0)
      (ldr.getD (i + 6) 0) (ldr.getD (i + 7) 0) := by
  have hword : ∀ l : List UInt8, fromBytesLittle (l.take 4) =
      ofBytes (l.getD 0 0) (l.getD 1 0) (l.getD 2 0) (l.getD 3 0) := by
    intro l
    match l with
    | [] => rfl
    | [a] => simp [fromBytesLittle, ofBytes]
    | [a, b] | [a, b, c] | a :: b :: c :: d :: l =>
      simp [fromBytesLittle, ofBytes]
      omega
  have hbyte : ∀ k, (ldr.drop (i + 4)).getD k 0 = ldr.getD (i + 4 + k) 0 := by
    intro k
    simp only [List.getD_eq_getElem?_getD, List.getElem?_drop]
  rw [markValue, hword, hbyte, hbyte, hbyte, hbyte]

theorem occursAt_magic (ldr : List UInt8) (i : ℕ) :
    occursAt ldr magic i = decide ((ldr.drop i).take 4 = magic) := by
  unfold occursAt
  rw [Bool.eq_iff_iff, List.isPrefixOf_iff_prefix, decide_eq_true_iff,
    List.prefix_iff_eq_take]
  exact eq_comm

/-- There is one entry for each mark and nothing else. -/
theorem cdiMarks_eq (ldr : List UInt8) :
    cdiMarks ldr = (markPositions ldr).map (markValue ldr) := by
  have hend : decide ((ldr.drop ldr.length).take 4 = magic) = false := by
    simp [magic]
  have hocc : occursAt ldr magic = fun i => decide ((ldr.drop i).take 4 = magic) :=
    funext (occursAt_magic ldr)
  unfold cdiMarks markPositions
  rw [scan_zero, List.range_succ, List.filter_append, hocc]
  rw [List.filter_cons_of_neg (by rw [hend]; decide), List.filter_nil, List.append_nil]

end Cfp2Dreamcast
