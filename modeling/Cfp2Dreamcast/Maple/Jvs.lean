import Mathlib.Data.UInt

/-!
# The JVS digital read

`jvs.c`: the button word of a pad as a JVS word, the reset combination, and the
64-byte reply to a digital read.
-/

namespace Cfp2Dreamcast

/-- `dc_to_jvs`: a pad word is active-low, a JVS word active-high. -/
def dcToJvs (dc : UInt16) : UInt16 :=
  let b := ~~~dc
  let key (k j : UInt16) : UInt16 := if b &&& k ≠ 0 then j else 0
  key 0x08 0x8000 ||| key 0x10 0x2000 ||| key 0x20 0x1000 ||| key 0x40 0x0800 |||
    key 0x80 0x0400 ||| key 0x04 0x0200 ||| key 0x02 0x0100

/-- `dc_reset_combo`: A, B, X, Y and Start are all held. -/
def dcResetCombo (dc : UInt16) : Prop := ~~~dc &&& 0x060e = 0x060e

instance (dc : UInt16) : Decidable (dcResetCombo dc) := inferInstanceAs (Decidable (_ = _))

/-- `jvs_checksum`: the sum of the bytes after the E0 sync. -/
def jvsChecksum (f : List UInt8) : UInt8 := ((f.drop 0x1b).take 0x1f).sum

/-- `jvs_hasdata`. -/
def jvsHasdata : List UInt8 :=
  [0x87, 0x00, 0x20, 0x0f, 0x16, 0xff, 0xff, 0xff, 0x00, 0xff, 0xff, 0xff, 0x00, 0x00, 0x00, 0x00,
    0x00, 0x00, 0x00, 0x00, 0x00, 0x00, 0x8e, 0x01, 0x00, 0x21, 0xe0, 0x00, 0x1e, 0x01, 0x01, 0x00,
    0x00, 0x00, 0x00, 0x00, 0x01, 0x00, 0x00, 0x00, 0x00, 0x01, 0x80, 0x00, 0x80, 0x00, 0x80, 0x00,
    0x80, 0x00, 0x80, 0x00, 0x80, 0x00, 0x80, 0x00, 0x80, 0x00, 0x22, 0x00, 0x00, 0x00, 0x00, 0x00]

/-- The template with the button words of both pads and a fresh checksum. -/
def digitalFrame (raw raw2 : UInt16) : List UInt8 :=
  let j := dcToJvs raw
  let j2 := dcToJvs raw2
  let f := (((jvsHasdata.set 0x20 (j >>> 8).toUInt8).set 0x21 (j &&& 0xff).toUInt8).set
    0x22 (j2 >>> 8).toUInt8).set 0x23 (j2 &&& 0xff).toUInt8
  f.set 0x3a (jvsChecksum f)

theorem digitalFrame_length (raw raw2 : UInt16) : (digitalFrame raw raw2).length = 64 := by
  simp only [digitalFrame, List.length_set]
  rfl

/-- The checksum does not cover its own byte. -/
theorem jvsChecksum_set (f : List UInt8) (v : UInt8) :
    jvsChecksum (f.set 0x3a v) = jvsChecksum f := by
  rw [jvsChecksum, jvsChecksum, List.drop_set, if_neg (by decide), List.take_set_of_le]
  decide

theorem digitalFrame_checksum (raw raw2 : UInt16) :
    (digitalFrame raw raw2)[0x3a]? = some (jvsChecksum (digitalFrame raw raw2)) := by
  simp only [digitalFrame]
  rw [jvsChecksum_set, List.getElem?_set_self]
  simp only [List.length_set]
  decide

end Cfp2Dreamcast
