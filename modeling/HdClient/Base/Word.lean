-- SUMMARY: Thirty-two-bit words as bytes: the big-endian form on the wire and the little-endian image in memory.
import HdClient.Base.Format

/-! # Thirty-two-bit words

A word has a big-endian form, which is what goes over the wire, and an image in
the memory of a little-endian machine. -/

namespace Word

/-! ## Masks -/

/-- Masking a field of `a` bits at offset `b` is arithmetic. -/
theorem and_mask (n a b : ℕ) : n &&& ((2 ^ a - 1) * 2 ^ b) = n / 2 ^ b % 2 ^ a * 2 ^ b := by
  rw [← Nat.shiftLeft_eq, ← Nat.shiftLeft_eq, ← Nat.shiftRight_eq_div_pow]
  apply Nat.eq_of_testBit_eq
  intro k
  simp only [Nat.testBit_and, Nat.testBit_shiftLeft, Nat.testBit_two_pow_sub_one,
    Nat.testBit_mod_two_pow, Nat.testBit_shiftRight]
  by_cases h : b ≤ k
  · simp [h, Bool.and_comm]
  · simp [h]

theorem and_low_mask (n a : ℕ) : n &&& (2 ^ a - 1) = n % 2 ^ a :=
  Nat.and_two_pow_sub_one_eq_mod n a

/-- Setting bits above those of a number adds them to it. -/
theorem toNat_or_shiftLeft {w k : ℕ} {r d : BitVec w} (hr : r.toNat < 2 ^ k)
    (hd : d.toNat * 2 ^ k < 2 ^ w) : (r ||| d <<< k).toNat = r.toNat + d.toNat * 2 ^ k := by
  rw [BitVec.toNat_or, BitVec.toNat_shiftLeft, Nat.shiftLeft_eq, Nat.mod_eq_of_lt hd,
    Nat.or_comm, Nat.mul_comm, ← Nat.two_pow_add_eq_or_of_lt hr, Nat.add_comm]

/-! ## Bytes -/

theorem toNat_and_7f (b : UInt8) : (b &&& 0x7f).toNat = b.toNat % 128 := by
  rw [UInt8.toNat_and]
  exact and_low_mask b.toNat 7

theorem and_80_eq_zero (b : UInt8) : b &&& 0x80 = 0 ↔ b.toNat < 128 := by
  have hmask : (b &&& 0x80).toNat = b.toNat / 128 % 2 * 128 := by
    rw [UInt8.toNat_and]
    exact and_mask b.toNat 1 7
  have hb := b.toNat_lt
  rw [← UInt8.toNat_inj, hmask, UInt8.toNat_zero]
  omega

/-! ## The bytes of a word -/

/-- The four low bytes of a number, the lowest one first. -/
structure Digits (n a b c d : ℕ) : Prop where
  d0 : n % 2 ^ 8 = a
  d1 : n / 2 ^ 8 % 2 ^ 8 = b
  d2 : n / 2 ^ 16 % 2 ^ 8 = c
  d3 : n / 2 ^ 24 % 2 ^ 8 = d

theorem digits_of_sum {a b c d : ℕ} (ha : a < 2 ^ 8) (hb : b < 2 ^ 8) (hc : c < 2 ^ 8)
    (hd : d < 2 ^ 8) : Digits (a + 2 ^ 8 * b + 2 ^ 16 * c + 2 ^ 24 * d) a b c d := by
  constructor <;> omega

theorem sum_of_digits (n : ℕ) :
    n % 2 ^ 8 + 2 ^ 8 * (n / 2 ^ 8 % 2 ^ 8) + 2 ^ 16 * (n / 2 ^ 16 % 2 ^ 8) +
      2 ^ 24 * (n / 2 ^ 24 % 2 ^ 8) = n % 2 ^ 32 := by
  omega

private theorem mod_lt (n : ℕ) : n % 2 ^ 8 < 2 ^ 8 := Nat.mod_lt _ (by decide)

/-! ## Big-endian words -/

/-- The four bytes of a word, most significant first. -/
def be32 (n : ℕ) : List UInt8 :=
  [UInt8.ofNat (n / 2 ^ 24), UInt8.ofNat (n / 2 ^ 16), UInt8.ofNat (n / 2 ^ 8), UInt8.ofNat n]

@[simp] theorem be32_length (n : ℕ) : (be32 n).length = 4 := rfl

/-- Only the low 32 bits of a number show in its big-endian form. -/
theorem be32_mod (n : ℕ) : be32 (n % 2 ^ 32) = be32 n := by
  simp only [be32, List.cons.injEq, and_true, ← UInt8.toNat_inj, UInt8.toNat_ofNat']
  omega

theorem be32_injective {m n : ℕ} (hm : m < 2 ^ 32) (hn : n < 2 ^ 32) (h : be32 m = be32 n) :
    m = n := by
  simp only [be32, List.cons.injEq, and_true, ← UInt8.toNat_inj, UInt8.toNat_ofNat'] at h
  omega

/-- The format of big-endian words. -/
def Be32 : Format UInt8 ℕ := fun n bs => n < 2 ^ 32 ∧ bs = be32 n

theorem be32_unambiguous : Be32.Unambiguous := by
  rintro m n _ _ r s ⟨hm, rfl⟩ ⟨hn, rfl⟩ h
  obtain ⟨hbe, hrest⟩ := List.append_inj h rfl
  exact ⟨be32_injective hm hn hbe, hbe, hrest⟩

theorem not_be32_nil (n : ℕ) : ¬ Be32 n [] := by
  rintro ⟨-, h⟩
  simp [be32] at h

/-! ## Words in memory -/

/-- The image of a word in memory, least significant byte first. -/
def le (w : BitVec 32) : List UInt8 :=
  [UInt8.ofNat w.toNat, UInt8.ofNat (w.toNat / 2 ^ 8), UInt8.ofNat (w.toNat / 2 ^ 16),
    UInt8.ofNat (w.toNat / 2 ^ 24)]

/-- The word that four bytes of memory hold. -/
def ofLe (bs : List UInt8) : BitVec 32 :=
  BitVec.ofNat 32 (bs.foldr (fun b n => b.toNat + 2 ^ 8 * n) 0)

/-- What a word in memory becomes when its first bytes are overwritten. -/
def overwrite (w : BitVec 32) (bs : List UInt8) : BitVec 32 :=
  ofLe (bs ++ (le w).drop bs.length)

theorem ofLe_be32_digits (n : ℕ) :
    Digits (ofLe (be32 n)).toNat (n / 2 ^ 24 % 2 ^ 8) (n / 2 ^ 16 % 2 ^ 8) (n / 2 ^ 8 % 2 ^ 8)
      (n % 2 ^ 8) := by
  have h0 := mod_lt n
  have h1 := mod_lt (n / 2 ^ 8)
  have h2 := mod_lt (n / 2 ^ 16)
  have h3 := mod_lt (n / 2 ^ 24)
  have hsum : (ofLe (be32 n)).toNat = n / 2 ^ 24 % 2 ^ 8 + 2 ^ 8 * (n / 2 ^ 16 % 2 ^ 8) +
      2 ^ 16 * (n / 2 ^ 8 % 2 ^ 8) + 2 ^ 24 * (n % 2 ^ 8) := by
    simp only [ofLe, be32, List.foldr_cons, List.foldr_nil, UInt8.toNat_ofNat',
      BitVec.toNat_ofNat]
    generalize n / 2 ^ 24 % 2 ^ 8 = a at *
    generalize n / 2 ^ 16 % 2 ^ 8 = b at *
    generalize n / 2 ^ 8 % 2 ^ 8 = c at *
    generalize n % 2 ^ 8 = d at *
    omega
  rw [hsum]
  exact digits_of_sum h3 h2 h1 h0

/-- The image of a word and the big-endian form of a number agree byte by byte. -/
theorem le_eq_be32 {w : BitVec 32} {n : ℕ}
    (h : Digits w.toNat (n / 2 ^ 24 % 2 ^ 8) (n / 2 ^ 16 % 2 ^ 8) (n / 2 ^ 8 % 2 ^ 8)
      (n % 2 ^ 8)) : le w = be32 n := by
  simp only [le, be32, List.cons.injEq, and_true, ← UInt8.toNat_inj, UInt8.toNat_ofNat']
  exact ⟨h.d0, h.d1, h.d2, h.d3⟩

@[simp] theorem le_length (w : BitVec 32) : (le w).length = 4 := rfl

@[simp] theorem ofLe_le (w : BitVec 32) : ofLe (le w) = w := by
  apply BitVec.eq_of_toNat_eq
  simp only [ofLe, le, List.foldr_cons, List.foldr_nil, UInt8.toNat_ofNat', BitVec.toNat_ofNat]
  omega

@[simp] theorem overwrite_nil (w : BitVec 32) : overwrite w [] = w := by
  simp [overwrite]

/-- Nothing is left of the old word once four bytes are written. -/
theorem overwrite_of_length {bs : List UInt8} (h : bs.length = 4) (w : BitVec 32) :
    overwrite w bs = ofLe bs := by
  simp [overwrite, h, le]

end Word
