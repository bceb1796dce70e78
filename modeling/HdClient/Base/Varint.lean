-- SUMMARY: Base-128 varints over the natural numbers: the canonical encoding and the words that stand for a number.
import HdClient.Base.Format

/-! # Base-128 varints

A number is written seven bits at a time, least significant first; the top bit
of a byte says that another byte follows. -/

namespace Varint

private def encodeAux : ℕ → ℕ → List UInt8
  | 0, n => [UInt8.ofNat n]
  | fuel + 1, n =>
      if n < 128 then [UInt8.ofNat n]
      else UInt8.ofNat (n % 128 + 128) :: encodeAux fuel (n / 128)

/-- The shortest varint of `n`. -/
def encode (n : ℕ) : List UInt8 := encodeAux n n

private theorem encodeAux_of_lt {n : ℕ} (h : n < 128) (fuel : ℕ) :
    encodeAux fuel n = [UInt8.ofNat n] := by
  cases fuel <;> simp [encodeAux, h]

/-- The fuel does not matter once it is at least the number. -/
private theorem encodeAux_eq {fuel n : ℕ} (h : n ≤ fuel) : encodeAux fuel n = encodeAux n n := by
  induction n using Nat.strongRecOn generalizing fuel with
  | _ n ih =>
    by_cases hn : n < 128
    · rw [encodeAux_of_lt hn, encodeAux_of_lt hn]
    · obtain ⟨f, rfl⟩ : ∃ f, fuel = f + 1 := ⟨fuel - 1, by omega⟩
      obtain ⟨m, rfl⟩ : ∃ m, n = m + 1 := ⟨n - 1, by omega⟩
      have hlt : (m + 1) / 128 < m + 1 := by omega
      simp only [encodeAux, if_neg hn]
      rw [ih _ hlt (by omega : (m + 1) / 128 ≤ f), ih _ hlt (by omega : (m + 1) / 128 ≤ m)]

theorem encode_of_lt {n : ℕ} (h : n < 128) : encode n = [UInt8.ofNat n] :=
  encodeAux_of_lt h n

theorem encode_of_ge {n : ℕ} (h : 128 ≤ n) :
    encode n = UInt8.ofNat (n % 128 + 128) :: encode (n / 128) := by
  obtain ⟨m, rfl⟩ : ∃ m, n = m + 1 := ⟨n - 1, by omega⟩
  have hn : ¬ m + 1 < 128 := by omega
  simp only [encode, encodeAux, if_neg hn]
  rw [encodeAux_eq (by omega : (m + 1) / 128 ≤ m)]

theorem encode_ne_nil (n : ℕ) : encode n ≠ [] := by
  by_cases h : n < 128
  · simp [encode_of_lt h]
  · simp [encode_of_ge (Nat.le_of_not_lt h)]

theorem encode_length_pos (n : ℕ) : 0 < (encode n).length :=
  List.length_pos_of_ne_nil (encode_ne_nil n)

theorem encode_length_le {n k : ℕ} (h : n < 128 ^ (k + 1)) : (encode n).length ≤ k + 1 := by
  induction k generalizing n with
  | zero => simp [encode_of_lt (by simpa using h)]
  | succ k ih =>
      by_cases hn : n < 128
      · simp [encode_of_lt hn]
      · rw [encode_of_ge (Nat.le_of_not_lt hn), List.length_cons]
        have hdiv : n / 128 < 128 ^ (k + 1) := by
          rw [Nat.div_lt_iff_lt_mul (by decide)]
          simpa [Nat.pow_succ] using h
        have := ih hdiv
        omega

/-- A larger number takes as many bytes at least. -/
theorem encode_length_mono {m n : ℕ} (h : m ≤ n) : (encode m).length ≤ (encode n).length := by
  induction n using Nat.strongRecOn generalizing m with
  | _ n ih =>
    by_cases hm : m < 128
    · rw [encode_of_lt hm]
      exact encode_length_pos n
    · rw [encode_of_ge (Nat.le_of_not_lt hm), encode_of_ge (by omega : 128 ≤ n)]
      simpa using ih (n / 128) (by omega) (Nat.div_le_div_right h)

/-! ## The words that stand for a number -/

/-- `Encodes n bs`: the bytes `bs` are a varint of `n`, not necessarily the
shortest one. -/
inductive Encodes : Format UInt8 ℕ where
  | last {b : UInt8} : b.toNat < 128 → Encodes b.toNat [b]
  | more {b : UInt8} {n : ℕ} {bs : List UInt8} :
      128 ≤ b.toNat → Encodes n bs → Encodes (b.toNat % 128 + 128 * n) (b :: bs)

theorem encodes_encode (n : ℕ) : Encodes n (encode n) := by
  induction n using Nat.strongRecOn with
  | _ n ih =>
    by_cases hn : n < 128
    · rw [encode_of_lt hn]
      have hb : (UInt8.ofNat n).toNat = n := by
        rw [UInt8.toNat_ofNat']
        omega
      simpa [hb] using Encodes.last (b := UInt8.ofNat n) (by omega)
    · rw [encode_of_ge (Nat.le_of_not_lt hn)]
      have hb : (UInt8.ofNat (n % 128 + 128)).toNat = n % 128 + 128 := by
        rw [UInt8.toNat_ofNat']
        omega
      have hmore := Encodes.more (b := UInt8.ofNat (n % 128 + 128)) (by omega)
        (ih (n / 128) (by omega))
      have hval : (n % 128 + 128) % 128 + 128 * (n / 128) = n := by omega
      rwa [hb, hval] at hmore

theorem Encodes.ne_nil {n : ℕ} {bs : List UInt8} (h : Encodes n bs) : bs ≠ [] := by
  cases h <;> simp

theorem not_encodes_nil (n : ℕ) : ¬ Encodes n [] := fun h => h.ne_nil rfl

theorem encodes_unambiguous : Format.Unambiguous Encodes := by
  intro n m xs ys r s hn
  induction hn generalizing m ys with
  | @last b hb =>
      intro hm h
      cases hm with
      | last _ =>
          obtain ⟨rfl, rfl⟩ := List.cons.inj h
          exact ⟨rfl, rfl, rfl⟩
      | more hb' _ =>
          obtain ⟨rfl, -⟩ := List.cons.inj h
          omega
  | @more b n xs hb _ ih =>
      intro hm h
      cases hm with
      | last hb' =>
          obtain ⟨rfl, -⟩ := List.cons.inj h
          omega
      | more _ hm' =>
          obtain ⟨rfl, hrest⟩ := List.cons.inj h
          obtain ⟨rfl, rfl, rfl⟩ := ih hm' hrest
          exact ⟨rfl, rfl, rfl⟩

end Varint
