import Cfp2Dreamcast.Coding.Crc
import Cfp2Dreamcast.Mastering.Track

/-!
# The checksum of the device information

`ip_crc16` is the check register of 16 bits with the generator
`X ^ 16 + X ^ 12 + X ^ 5 + 1`, started with all bits set: CRC-16/CCITT-FALSE.
-/

namespace Cfp2Dreamcast

open Coding Polynomial

/-- The masks of the loop select the top bit and the low 16 bits. -/
theorem crcBit_eq_shiftBit : crcBit = shiftBit 16 0x1021 := by
  funext n
  have hmask : ∀ m : ℕ, m &&& 0xffff = m % 2 ^ 16 := fun m => Nat.and_two_pow_sub_one_eq_mod m 16
  have htop : n &&& 0x8000 = (n.testBit 15).toNat * 2 ^ 15 := Nat.and_two_pow n 15
  rw [crcBit, shiftBit, hmask, hmask, htop]
  cases n.testBit 15 <;> rfl

theorem ipCrc16_eq_register (data : List UInt8) :
    ipCrc16 data = register 16 0x1021 0xffff data := by
  rw [ipCrc16, crcBit_eq_shiftBit]
  rfl

theorem generator_ccitt : generator 16 0x1021 = X ^ 16 + X ^ 12 + X ^ 5 + 1 := by
  have hbits : 0x1021 = 2 ^ 12 ^^^ (2 ^ 5 ^^^ 2 ^ 0) := by decide
  rw [generator, hbits, bitPoly_xor, bitPoly_xor, bitPoly_two_pow, bitPoly_two_pow,
    bitPoly_two_pow, pow_zero, ← add_assoc, ← add_assoc]

/-- The checksum is the remainder of the message, with the initial value above it,
divided by the generator; a change of the data inside 16 consecutive bits changes it. -/
theorem ipCrc16_ccittFalse (data : List UInt8) :
    bitPoly (ipCrc16 data) =
        (bitPoly 0xffff * X ^ (8 * data.length) + message data * X ^ 16) %ₘ
          (X ^ 16 + X ^ 12 + X ^ 5 + 1) ∧
      ∀ (data' : List UInt8) (k : ℕ), data.length = data'.length →
        (∀ i, i < k ∨ k + 16 ≤ i → messageBit data i = messageBit data' i) →
        data ≠ data' → ipCrc16 data ≠ ipCrc16 data' := by
  constructor
  · rw [ipCrc16_eq_register, ← generator_ccitt]
    exact bitPoly_register (by decide) (by decide) (by decide) data
  · intro data' k hlen hburst hne
    rw [ipCrc16_eq_register, ipCrc16_eq_register]
    exact register_ne_of_burst (by decide) (by decide) (by decide) (by decide) hlen hburst hne

/-- The last digit of the version is eight of the bits. -/
theorem ipCrc16_detects_version :
    ipCrc16 (asciiBytes "T-CFP001M V1.000") ≠ ipCrc16 (asciiBytes "T-CFP001M V1.001") := by
  have hbelow : ∀ i < 120, messageBit (asciiBytes "T-CFP001M V1.000") i =
      messageBit (asciiBytes "T-CFP001M V1.001") i := by decide +kernel
  have hlen : (asciiBytes "T-CFP001M V1.000").length = 16 ∧
      (asciiBytes "T-CFP001M V1.001").length = 16 := by decide +kernel
  have hne : asciiBytes "T-CFP001M V1.000" ≠ asciiBytes "T-CFP001M V1.001" := by decide +kernel
  refine (ipCrc16_ccittFalse (asciiBytes "T-CFP001M V1.000")).2 _ 120
    (hlen.1.trans hlen.2.symm) (fun i hi => ?_) hne
  rcases hi with hi | hi
  · exact hbelow i hi
  · have hend : 16 ≤ i / 8 := by omega
    rw [messageBit, messageBit, List.getD_eq_default _ _ (hlen.1.trans_le hend),
      List.getD_eq_default _ _ (hlen.2.trans_le hend)]

/-- The checksum that the source quotes from a disc. -/
example : ipCrc16 (asciiBytes "MK-51049  V1.007") = 0x743c := by decide +kernel

end Cfp2Dreamcast
