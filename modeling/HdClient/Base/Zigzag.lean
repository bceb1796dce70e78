-- SUMMARY: Zigzag numbers over words of any width: the encoding that puts the sign last, and its inverse.
import Mathlib.Data.Nat.Notation

/-! # Zigzag

A signed number is stored with its sign in the lowest bit, and with the other
bits inverted if it is negative, so that small numbers have few bits. -/

namespace Zigzag

variable {w : ℕ}

def encode (v : BitVec w) : BitVec w := (v <<< 1) ^^^ v.sshiftRight (w - 1)

def decode (z : BitVec w) : BitVec w := (z >>> 1) ^^^ -(z &&& 1)

/-- The lowest bit, everywhere. -/
theorem getLsbD_neg_and_one (x : BitVec w) {j : ℕ} (hj : j < w) :
    (-(x &&& 1)).getLsbD j = x.getLsbD 0 := by
  have hone : x &&& 1 = if x.getLsbD 0 then 1 else 0 := by
    apply BitVec.eq_of_getLsbD_eq
    intro i hi
    by_cases h : i = 0
    · subst h
      cases hx : x.getLsbD 0 <;> simp [hx]
    · cases hx : x.getLsbD 0 <;> simp [h]
  rw [hone]
  cases hx : x.getLsbD 0 with
  | false => simp
  | true => simp [BitVec.neg_one_eq_allOnes, hj]

theorem getLsbD_encode (v : BitVec w) {j : ℕ} (hj : j < w) :
    (encode v).getLsbD j = ((decide (0 < j) && v.getLsbD (j - 1)) ^^ v.getLsbD (w - 1)) := by
  simp only [encode, BitVec.getLsbD_xor, BitVec.getLsbD_shiftLeft, BitVec.getLsbD_sshiftRight,
    BitVec.msb_eq_getLsbD_last]
  by_cases hzero : j = 0
  · subst hzero
    simp [hj, Nat.ne_of_gt hj]
  · have hpos : 0 < j := Nat.pos_of_ne_zero hzero
    have hone : ¬ j < 1 := by omega
    have hlast : ¬ w - 1 + j < w := by omega
    have hge : ¬ w ≤ j := by omega
    simp [hj, hpos, hone, hlast, hge]

theorem getLsbD_decode (z : BitVec w) {j : ℕ} (hj : j < w) :
    (decode z).getLsbD j = (z.getLsbD (j + 1) ^^ z.getLsbD 0) := by
  rw [decode, BitVec.getLsbD_xor, getLsbD_neg_and_one _ hj, BitVec.getLsbD_ushiftRight,
    Nat.add_comm]

theorem decode_encode (v : BitVec w) : decode (encode v) = v := by
  apply BitVec.eq_of_getLsbD_eq
  intro j hj
  rw [getLsbD_decode _ hj, getLsbD_encode v (by omega : 0 < w)]
  by_cases hlast : j + 1 < w
  · rw [getLsbD_encode v hlast]
    simp
  · obtain rfl : w = j + 1 := by omega
    rw [BitVec.getLsbD_of_ge _ _ (Nat.le_refl _)]
    simp

theorem encode_decode (z : BitVec w) : encode (decode z) = z := by
  apply BitVec.eq_of_getLsbD_eq
  intro j hj
  have hlast : (decode z).getLsbD (w - 1) = z.getLsbD 0 := by
    rw [getLsbD_decode _ (by omega), BitVec.getLsbD_of_ge _ _ (by omega), Bool.false_xor]
  rw [getLsbD_encode _ hj, hlast]
  by_cases hzero : j = 0
  · subst hzero
    simp
  · have hpos := Nat.pos_of_ne_zero hzero
    rw [getLsbD_decode _ (by omega), Nat.sub_add_cancel hpos]
    simp [hpos]

theorem decode_injective {y z : BitVec w} (h : decode y = decode z) : y = z := by
  rw [← encode_decode y, h, encode_decode]

end Zigzag
