import Cfp2Dreamcast.Maple.Polls
import Cfp2Dreamcast.Memory.Splice

/-!
# The harvested replies

`extract_jvs_replies.py`: the enumeration replies of a capture, whose dumps are 64
bytes long, cut to the length that the Maple header declares. The reply with the
board ID is longer than a dump and is rebuilt. `write_mie_dumps` of
`parse_cart_log.py` writes a dump as it is.
-/

namespace Cfp2Dreamcast

open Memory

/-- The payload words that the header of a Maple frame declares. -/
def wordCount (b : List UInt8) : ℕ := (b.getD 3 0).toNat

/-- The bytes are one Maple frame and nothing else. -/
def IsFrame (b : List UInt8) : Prop := b.length = (wordCount b + 1) * 4

instance (b : List UInt8) : Decidable (IsFrame b) := inferInstanceAs (Decidable (_ = _))

/-- `natural`: the part of a dump that its header declares. -/
def natural (b : List UInt8) : List UInt8 := b.take ((wordCount b + 1) * 4)

/-- `BOARD_ID`. -/
def boardId : List UInt8 :=
  "SEGA ENTERPRISES,LTD.;I/O BD JVS;837-13551 ;Ver1.00;98/10".toList.map fun c =>
    UInt8.ofNat c.toNat

/-- The rebuilt board-ID reply up to its checksum: the header and the sync of the dump,
then the ID. -/
def boardBytes (raw : List UInt8) (body : ℕ) : List UInt8 :=
  setSlice (setSlice (List.replicate ((wordCount raw + 1) * 4) 0) 0 body (raw.take body))
    body (body + boardId.length) boardId

/-- The assertions on the board-ID reply, and its indices in range. -/
def BoardOk (raw : List UInt8) (body csum : ℕ) : Prop :=
  (raw.drop body).take 33 = boardId.take 33 ∧
    body + boardId.length < (boardBytes raw body).length ∧
      csum = body + boardId.length + 1 ∧ csum < (boardBytes raw body).length

instance (raw : List UInt8) (body csum : ℕ) : Decidable (BoardOk raw body csum) :=
  inferInstanceAs (Decidable (_ ∧ _))

/-- The board-ID reply with its terminator and checksum. -/
def boardBlob (raw : List UInt8) (e0 csum : ℕ) : List UInt8 :=
  let b := (boardBytes raw (e0 + 5)).set (e0 + 5 + boardId.length) 0
  b.set csum (harvestSum b e0 csum)

/-- The blob of a JVS command from the dump of its reply; `none` when an assertion
fails or an index is out of range. -/
def jvsBlob (cmd : ℕ) (raw : List UInt8) : Option (List UInt8) :=
  let e0 := raw.idxOf 0xe0
  raw[e0 + 2]?.bind fun jvsLen =>
    let csum := e0 + 2 + jvsLen.toNat
    if cmd = 0x10 then
      if BoardOk raw (e0 + 5) csum then some (boardBlob raw e0 csum) else none
    else if (natural raw)[csum]? = some (harvestSum raw e0 csum) then some (natural raw)
    else none

theorem wordCount_congr {b b' : List UInt8} (h : b[3]? = b'[3]?) : wordCount b = wordCount b' := by
  rw [wordCount, wordCount, List.getD_eq_getElem?_getD, List.getD_eq_getElem?_getD, h]

theorem wordCount_natural (raw : List UInt8) : wordCount (natural raw) = wordCount raw :=
  wordCount_congr (List.getElem?_take_of_lt (by omega))

/-- A cut dump is one frame unless the dump itself cut the reply off. -/
theorem isFrame_natural {raw : List UInt8} (hraw : raw.length = 64) :
    IsFrame (natural raw) ↔ wordCount raw ≤ 15 := by
  rw [IsFrame, wordCount_natural, natural, List.length_take, hraw]
  omega

/-- The rebuilt reply has the length and the header of the dump. -/
theorem isFrame_boardBlob {raw : List UInt8} {e0 csum : ℕ} (hraw : raw.length = 64)
    (h : BoardOk raw (e0 + 5) csum) : IsFrame (boardBlob raw e0 csum) := by
  obtain ⟨hpre, hlong, hcsum, -⟩ := h
  have hid : boardId.length = 57 := by decide
  have hbody : e0 + 5 + 33 ≤ 64 := by
    have := congrArg List.length hpre
    rw [List.length_take, List.length_drop, List.length_take, hid, hraw] at this
    omega
  have htake : (raw.take (e0 + 5)).length = e0 + 5 := List.length_take_of_le (by omega)
  have hfirst : (setSlice (List.replicate ((wordCount raw + 1) * 4) 0) 0 (e0 + 5)
      (raw.take (e0 + 5))).length = e0 + 5 + ((wordCount raw + 1) * 4 - (e0 + 5)) := by
    rw [length_setSlice (Nat.zero_le _), htake, List.length_replicate, Nat.zero_add]
  have hlength : (boardBytes raw (e0 + 5)).length = (wordCount raw + 1) * 4 := by
    rw [boardBytes, length_setSlice (by omega), hfirst, hid] at hlong ⊢
    omega
  have hcount : wordCount (boardBlob raw e0 csum) = wordCount raw := by
    refine wordCount_congr ?_
    rw [boardBlob, List.getElem?_set_ne (by omega), List.getElem?_set_ne (by omega), boardBytes,
      getElem?_setSlice_of_lt (by omega) (by omega), setSlice, List.take_zero, List.nil_append,
      List.getElem?_append_left (by omega), List.getElem?_take_of_lt (by omega)]
  rw [IsFrame, hcount, boardBlob, List.length_set, List.length_set, hlength]

/-- The enumeration blobs are single frames; only a reply that the dump cut off and
that is not rebuilt is not. -/
theorem isFrame_jvsBlob {cmd : ℕ} {raw blob : List UInt8} (hraw : raw.length = 64)
    (h : jvsBlob cmd raw = some blob) : IsFrame blob ↔ (cmd ≠ 0x10 → wordCount raw ≤ 15) := by
  obtain ⟨jvsLen, -, h⟩ := Option.bind_eq_some_iff.1 h
  by_cases hcmd : cmd = 0x10
  · refine iff_of_true ?_ fun h => absurd hcmd h
    simp only [if_pos hcmd] at h
    split at h
    · next hok =>
      cases h
      exact isFrame_boardBlob hraw hok
    · cases h
  · simp only [if_neg hcmd] at h
    split at h
    · cases h
      rw [isFrame_natural hraw]
      exact ⟨fun h _ => h, fun h => h hcmd⟩
    · cases h

end Cfp2Dreamcast
