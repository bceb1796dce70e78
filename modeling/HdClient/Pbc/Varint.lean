-- SUMMARY: The varint writer and reader of the protobuf library, and their agreement with base-128 varints.
import HdClient.Base.Varint
import HdClient.Base.Word

/-! # Varints of the protobuf library -/

namespace Pbc

/-- Conversion to `uint8_t`. -/
def toByte {w : ℕ} (n : BitVec w) : UInt8 := UInt8.ofNat n.toNat

theorem toByte_toNat {w : ℕ} (n : BitVec w) : (toByte n).toNat = n.toNat % 256 := by
  rw [toByte, UInt8.toNat_ofNat']

/-! ## Writing -/

/-- `_pbcV_encode32` -/
def encode32 (number : BitVec 32) : List UInt8 :=
  if number.toNat < 0x80 then
    [toByte number]
  else if number.toNat < 0x4000 then
    [toByte (number ||| 0x80), toByte (number >>> 7)]
  else if number.toNat < 0x200000 then
    [toByte (number ||| 0x80), toByte (number >>> 7 ||| 0x80), toByte (number >>> 14)]
  else if number.toNat < 0x10000000 then
    [toByte (number ||| 0x80), toByte (number >>> 7 ||| 0x80), toByte (number >>> 14 ||| 0x80),
      toByte (number >>> 21)]
  else
    [toByte (number ||| 0x80), toByte (number >>> 7 ||| 0x80), toByte (number >>> 14 ||| 0x80),
      toByte (number >>> 21 ||| 0x80), toByte (number >>> 28)]

private def encodeLoop : ℕ → BitVec 64 → List UInt8
  | 0, number => [toByte number]
  | fuel + 1, number =>
      let rest := number >>> 7
      toByte (number ||| 0x80) :: if 0x80 ≤ rest.toNat then encodeLoop fuel rest else [toByte rest]

/-- `_pbcV_encode`; ten rounds of the loop exhaust 64 bits. -/
def encode (number : BitVec 64) : List UInt8 :=
  if number &&& 0xffffffff = number then encode32 (number.setWidth 32)
  else encodeLoop 10 number

/-! ## Reading -/

/-- `struct longlong` -/
structure Longlong where
  low : BitVec 32
  hi : BitVec 32
  deriving DecidableEq

/-- The shift of an `int`; the shift count counts modulo 32 on the machines this runs on. -/
private def shl (x : BitVec 32) (k : ℕ) : BitVec 32 := x <<< (k % 32)

/-- The seven bits of a byte that count, as an `int`. -/
private def low7 (b : UInt8) : BitVec 32 := BitVec.ofNat 32 (b &&& 0x7f).toNat

/-- The bytes from the fifth one on. -/
private def decodeHigh (r : BitVec 32) : ℕ → ℕ → BitVec 64 → List UInt8 → Option (Longlong × ℕ)
  | 0, _, _, _ => some (⟨0, 0⟩, 10)
  | _ + 1, _, _, [] => none
  | fuel + 1, i, lr, b :: bs =>
      let lr := lr ||| (shl (low7 b) (7 * (i - 4))).signExtend 64
      if b &&& 0x80 = 0 then
        some (⟨r ||| ((lr.setWidth 32 &&& 0xf) <<< 28), (lr >>> 4).setWidth 32⟩, i + 1)
      else decodeHigh r fuel (i + 1) lr bs

/-- The bytes from the second one to the fourth. -/
private def decodeLow : ℕ → ℕ → BitVec 32 → List UInt8 → Option (Longlong × ℕ)
  | 0, i, r, bs => decodeHigh r 6 i 0 bs
  | _ + 1, _, _, [] => none
  | fuel + 1, i, r, b :: bs =>
      let r := r ||| shl (low7 b) (7 * i)
      if b &&& 0x80 = 0 then some (⟨r, 0⟩, i + 1) else decodeLow fuel (i + 1) r bs

/-- `_pbcV_decode`: the number and the length of a varint; nothing when the
varint runs past the end of the buffer. -/
def decode : List UInt8 → Option (Longlong × ℕ)
  | [] => none
  | b :: bs =>
      if b &&& 0x80 = 0 then some (⟨BitVec.ofNat 32 b.toNat, 0⟩, 1)
      else decodeLow 3 1 (low7 b) bs

/-- `_pbcV_dezigzag32` -/
def dezigzag32 (r : Longlong) : Longlong :=
  ⟨(r.low >>> 1) ^^^ -(r.low &&& 1), -(r.low >>> 31)⟩

/-- `_pbcV_dezigzag64` -/
def dezigzag64 (r : Longlong) : Longlong :=
  ⟨((r.low >>> 1) ||| ((r.hi &&& 1) <<< 31)) ^^^ -(r.low &&& 1), (r.hi >>> 1) ^^^ -(r.low &&& 1)⟩

/-! ## Writing is canonical -/

private theorem or_128 : ∀ m < 256, m ||| 128 = m % 128 + 128 := by decide +kernel

private theorem toByte_or_80 {w : ℕ} (n : BitVec w) (hw : 8 ≤ w) :
    toByte (n ||| 0x80) = UInt8.ofNat (n.toNat % 128 + 128) := by
  have h80 : (0x80 : BitVec w).toNat = 128 := by
    refine (BitVec.toNat_ofNat _ _).trans ?_
    exact Nat.mod_eq_of_lt (Nat.lt_of_lt_of_le (by decide) (Nat.pow_le_pow_right (by decide) hw))
  rw [← UInt8.toNat_inj, toByte_toNat, UInt8.toNat_ofNat', BitVec.toNat_or, h80,
    Nat.or_mod_two_pow (n := 8), or_128 _ (Nat.mod_lt _ (by decide))]
  omega

private theorem toNat_ushiftRight_div {w : ℕ} (n : BitVec w) (k : ℕ) :
    (n >>> k).toNat = n.toNat / 2 ^ k := by
  rw [BitVec.toNat_ushiftRight, Nat.shiftRight_eq_div_pow]

theorem encode32_eq (w : BitVec 32) : encode32 w = Varint.encode w.toNat := by
  have hw := w.isLt
  have hdiv : ∀ a b : ℕ, w.toNat / 2 ^ a / 128 = w.toNat / 2 ^ (a + 7) := fun a _ => by
    rw [Nat.div_div_eq_div_mul, Nat.pow_add]
  have hlast : ∀ k, w.toNat / 2 ^ k < 128 →
      [toByte (w >>> k)] = Varint.encode (w.toNat / 2 ^ k) := by
    intro k hk
    rw [Varint.encode_of_lt hk, toByte, toNat_ushiftRight_div]
  have hmore : ∀ k, 128 ≤ w.toNat / 2 ^ k → Varint.encode (w.toNat / 2 ^ k) =
      toByte (w >>> k ||| 0x80) :: Varint.encode (w.toNat / 2 ^ (k + 7)) := by
    intro k hk
    rw [Varint.encode_of_ge hk, toByte_or_80 _ (by decide), toNat_ushiftRight_div, hdiv k 0]
  have hfirst : 128 ≤ w.toNat → Varint.encode w.toNat =
      toByte (w ||| 0x80) :: Varint.encode (w.toNat / 2 ^ 7) := by
    intro hk
    have hseven : (2 : ℕ) ^ 7 = 128 := by decide
    rw [Varint.encode_of_ge hk, toByte_or_80 _ (by decide), hseven]
  rw [encode32]
  split
  · rename_i h
    rw [Varint.encode_of_lt h, toByte]
  split
  · rw [hfirst (by omega), ← hlast 7 (by omega)]
  split
  · rw [hfirst (by omega), hmore 7 (by omega), ← hlast 14 (by omega)]
  split
  · rw [hfirst (by omega), hmore 7 (by omega), hmore 14 (by omega), ← hlast 21 (by omega)]
  · rw [hfirst (by omega), hmore 7 (by omega), hmore 14 (by omega), hmore 21 (by omega),
      ← hlast 28 (by omega)]

private theorem encodeLoop_eq (fuel : ℕ) (n : BitVec 64) (hlow : 128 ≤ n.toNat)
    (hhigh : n.toNat < 128 ^ (fuel + 1)) : encodeLoop fuel n = Varint.encode n.toNat := by
  induction fuel generalizing n with
  | zero => omega
  | succ fuel ih =>
      have hrest : (n >>> 7).toNat = n.toNat / 128 := toNat_ushiftRight_div n 7
      rw [encodeLoop, Varint.encode_of_ge hlow, toByte_or_80 _ (by decide)]
      split
      · rename_i hge
        rw [Nat.pow_succ] at hhigh
        rw [ih _ hge (by omega), hrest]
      · rename_i hlt
        rw [← hrest, Varint.encode_of_lt (by omega), toByte]

theorem encode_eq (n : BitVec 64) : encode n = Varint.encode n.toNat := by
  have hmask : (n &&& 0xffffffff).toNat = n.toNat % 2 ^ 32 := Word.and_low_mask n.toNat 32
  rw [encode]
  split
  · rename_i h
    have hlt : n.toNat % 2 ^ 32 = n.toNat := by rw [← hmask, h]
    rw [encode32_eq, BitVec.toNat_setWidth, hlt]
  · rename_i h
    refine encodeLoop_eq 10 n ?_ (Nat.lt_of_lt_of_le n.isLt (by decide))
    by_contra hlt
    refine h (BitVec.eq_of_toNat_eq ?_)
    rw [hmask]
    omega

/-! ## Reading a varint -/

/-- The low word of a number as it is read. The tenth byte is shifted by more
than there are bits, and its lowest bit ends up in front of the others. -/
def lowWord (n : ℕ) : BitVec 32 :=
  BitVec.ofNat 32 n ||| if n.testBit 63 then 0x80000000 else 0

theorem lowWord_of_not_testBit {n : ℕ} (h : n.testBit 63 = false) : lowWord n = BitVec.ofNat 32 n := by
  rw [lowWord, h, if_neg (by decide)]
  exact BitVec.or_zero

theorem lowWord_of_lt {n : ℕ} (h : n < 2 ^ 32) : lowWord n = BitVec.ofNat 32 n :=
  lowWord_of_not_testBit (Nat.testBit_lt_two_pow (Nat.lt_trans h (by decide)))

private theorem toNat_low7 (b : UInt8) : (low7 b).toNat = b.toNat % 128 := by
  rw [low7, BitVec.toNat_ofNat, Word.toNat_and_7f]
  omega

private theorem low7_zero {b : UInt8} (h : b.toNat % 128 = 0) : low7 b = 0 :=
  BitVec.eq_of_toNat_eq ((toNat_low7 b).trans h)

private theorem nibble_signExtend (x : BitVec 32) : (x.signExtend 64).toNat % 16 = x.toNat % 16 := by
  have hx := x.isLt
  rw [BitVec.toNat_signExtend, BitVec.toNat_setWidth]
  split <;> omega

private theorem nibble_or (x y : BitVec 64) :
    (x ||| y).toNat % 16 = (x.toNat % 16) ||| (y.toNat % 16) := by
  rw [BitVec.toNat_or]
  exact Nat.or_mod_two_pow (n := 4)

/-- Nothing is left in the four lowest bits. -/
private theorem nibble_shl (x : BitVec 32) {k : ℕ} (h : 4 ≤ k) (hk : k < 32) :
    (shl x k).toNat % 16 = 0 := by
  obtain ⟨j, rfl⟩ : ∃ j, k = 4 + j := ⟨k - 4, by omega⟩
  have hpow : 2 ^ (4 + j) = 16 * 2 ^ j := by rw [Nat.pow_add]
  rw [shl, Nat.mod_eq_of_lt hk, BitVec.toNat_shiftLeft, Nat.shiftLeft_eq, hpow, ← Nat.mul_assoc,
    Nat.mul_comm x.toNat, Nat.mul_assoc]
  omega

/-- What one byte from the fifth one on adds to the four lowest bits. -/
private theorem nibble_step (lr : BitVec 64) (b : UInt8) {i : ℕ} (h : 4 < i) (hi : i < 9) :
    (lr ||| (shl (low7 b) (7 * (i - 4))).signExtend 64).toNat % 16 = lr.toNat % 16 := by
  rw [nibble_or, nibble_signExtend, nibble_shl _ (by omega) (by omega), Nat.or_zero]

private theorem or_zero_byte (lr : BitVec 64) {b : UInt8} (h : b.toNat % 128 = 0) (k : ℕ) :
    lr ||| (shl (low7 b) k).signExtend 64 = lr := by
  have hshl : shl 0 k = 0 := BitVec.zero_shiftLeft _
  rw [low7_zero h, hshl]
  exact BitVec.or_zero

/-- The lowest bit of the tenth byte. -/
private theorem nibble_tenth (lr : BitVec 64) (b : UInt8) :
    (lr ||| (shl (low7 b) 35).signExtend 64).toNat % 16 =
      (lr.toNat % 16 ||| if b.toNat.testBit 0 then 8 else 0) := by
  have hshl : (shl (low7 b) 35).toNat % 16 = if b.toNat.testBit 0 then 8 else 0 := by
    have hpow : 2 ^ (35 % 32) = 8 := by decide
    rw [shl, BitVec.toNat_shiftLeft, toNat_low7, Nat.shiftLeft_eq, Nat.testBit_zero, hpow]
    by_cases hodd : b.toNat % 2 = 1
    · simp only [hodd, decide_true, if_true]
      omega
    · simp only [hodd, decide_false, Bool.false_eq_true, if_false]
      omega
  rw [nibble_or, nibble_signExtend, hshl]

/-- The number that is made of the four bytes in `r` and of the others in `lr`. -/
private def highWords (r : BitVec 32) (lr : BitVec 64) : Longlong :=
  ⟨r ||| ((lr.setWidth 32 &&& 0xf) <<< 28), (lr >>> 4).setWidth 32⟩

private theorem decodeHigh_last {b : UInt8} (h : b.toNat < 128) (r : BitVec 32) (fuel i : ℕ)
    (lr : BitVec 64) (rest : List UInt8) :
    decodeHigh r (fuel + 1) i lr ([b] ++ rest) =
      some (highWords r (lr ||| (shl (low7 b) (7 * (i - 4))).signExtend 64), i + 1) := by
  rw [List.singleton_append, decodeHigh, if_pos ((Word.and_80_eq_zero b).mpr h)]
  rfl

private theorem decodeHigh_more {b : UInt8} (h : 128 ≤ b.toNat) (r : BitVec 32) (fuel i : ℕ)
    (lr : BitVec 64) (bs : List UInt8) :
    decodeHigh r (fuel + 1) i lr (b :: bs) =
      decodeHigh r fuel (i + 1) (lr ||| (shl (low7 b) (7 * (i - 4))).signExtend 64) bs := by
  rw [decodeHigh, if_neg (mt (Word.and_80_eq_zero b).mp (by omega))]

private theorem testBit_more (b : ℕ) (n k : ℕ) :
    (b % 128 + 128 * n).testBit (7 + k) = n.testBit k := by
  have hdiv : (b % 128 + 128 * n) / 2 ^ 7 = n := by omega
  rw [Nat.add_comm 7 k, Nat.testBit_add, hdiv]

/-- The bytes from the sixth one on leave the low word alone, but for the tenth. -/
private theorem decodeHigh_encodes {m : ℕ} {bs : List UInt8} (h : Varint.Encodes m bs) {fuel i : ℕ}
    (hi : i + fuel = 10) (hfour : 4 < i) (hlen : bs.length ≤ fuel) (r : BitVec 32)
    (lr : BitVec 64) (rest : List UInt8) :
    ∃ lr', decodeHigh r fuel i lr (bs ++ rest) = some (highWords r lr', i + bs.length) ∧
      lr'.toNat % 16 = (lr.toNat % 16 ||| if m.testBit (7 * (9 - i)) then 8 else 0) ∧
      (m = 0 → lr' = lr) := by
  induction h generalizing fuel i lr with
  | @last b hb =>
      obtain ⟨fuel, rfl⟩ : ∃ k, fuel = k + 1 := ⟨fuel - 1, by simp at hlen; omega⟩
      refine ⟨_, decodeHigh_last hb r fuel i lr rest, ?_, fun hzero => ?_⟩
      · by_cases hten : i = 9
        · subst hten
          exact nibble_tenth lr b
        · have hbit : b.toNat.testBit (7 * (9 - i)) = false := by
            refine Nat.testBit_lt_two_pow (Nat.lt_of_lt_of_le hb ?_)
            exact Nat.pow_le_pow_right (n := 2) (by decide) (by omega : 7 ≤ 7 * (9 - i))
          rw [nibble_step lr b hfour (by omega), hbit, if_neg (by decide), Nat.or_zero]
      · exact or_zero_byte lr (by omega) _
  | @more b n bs hb _ ih =>
      rw [List.length_cons] at hlen
      have hne : bs ≠ [] := by
        rintro rfl
        cases ‹Varint.Encodes n []›
      have hpos := List.length_pos_of_ne_nil hne
      obtain ⟨fuel, rfl⟩ : ∃ k, fuel = k + 1 := ⟨fuel - 1, by omega⟩
      obtain ⟨lr', hrun, hnibble, hzero⟩ := ih (by omega : i + 1 + fuel = 10) (by omega) (by omega)
        (lr ||| (shl (low7 b) (7 * (i - 4))).signExtend 64)
      refine ⟨lr', ?_, ?_, fun hm => ?_⟩
      · rw [List.cons_append, decodeHigh_more hb, hrun, List.length_cons]
        congr 2
        omega
      · have hexp : 7 * (9 - i) = 7 + 7 * (9 - (i + 1)) := by omega
        rw [hnibble, nibble_step lr b hfour (by omega), hexp, testBit_more]
      · rw [hzero (by omega), or_zero_byte lr (by omega)]

private theorem fifth_toNat (b : UInt8) :
    ((0 : BitVec 64) ||| (shl (low7 b) (7 * (4 - 4))).signExtend 64).toNat = b.toNat % 128 := by
  have hlt : b.toNat % 128 < 128 := Nat.mod_lt _ (by decide)
  have hshl : shl (low7 b) (7 * (4 - 4)) = low7 b := BitVec.shiftLeft_zero _
  have hmsb : (low7 b).msb = false := by
    rw [BitVec.msb_eq_false_iff_two_mul_lt, toNat_low7]
    omega
  rw [hshl, BitVec.signExtend_eq_setWidth_of_msb_false hmsb]
  have hor : (0 : BitVec 64) ||| (low7 b).setWidth 64 = (low7 b).setWidth 64 := BitVec.zero_or
  rw [hor, BitVec.toNat_setWidth, toNat_low7]
  omega

/-- What the bytes from the fifth one on leave of their number. -/
private theorem decodeHigh_fifth {m : ℕ} {bs : List UInt8} (h : Varint.Encodes m bs)
    (hlen : bs.length ≤ 6) (r : BitVec 32) (rest : List UInt8) :
    ∃ lr, decodeHigh r 6 4 0 (bs ++ rest) = some (highWords r lr, 4 + bs.length) ∧
      lr.toNat % 16 = (m % 16 ||| if m.testBit 35 then 8 else 0) ∧ (m < 16 → lr.toNat = m) := by
  cases h with
  | @last b hb =>
      have hfifth := fifth_toNat b
      have hbit : b.toNat.testBit 35 = false :=
        Nat.testBit_lt_two_pow (Nat.lt_trans hb (by decide))
      refine ⟨_, decodeHigh_last hb r 5 4 0 rest, ?_, fun _ => ?_⟩
      · rw [hfifth, hbit, if_neg (by decide), Nat.or_zero]
        omega
      · rw [hfifth]
        omega
  | @more b n bs hb hbs =>
      rw [List.length_cons] at hlen
      have hfifth := fifth_toNat b
      obtain ⟨lr, hrun, hnibble, hzero⟩ := decodeHigh_encodes hbs (by omega : 5 + 5 = 10) (by omega)
        (by omega) r _ rest
      refine ⟨lr, ?_, ?_, fun hm => ?_⟩
      · rw [List.cons_append, decodeHigh_more hb, hrun, List.length_cons]
        congr 2
        omega
      · have hbit : (b.toNat % 128 + 128 * n).testBit 35 = n.testBit 28 := testBit_more b.toNat n 28
        rw [hnibble, hfifth, hbit]
        congr 1
        omega
      · rw [hzero (by omega), hfifth]
        omega

/-- The low word of a number of which the first four bytes are read. -/
private theorem lowWord_eq {r : BitVec 32} {m : ℕ} {lr : BitVec 64} (hr : r.toNat < 2 ^ 28)
    (hnibble : lr.toNat % 16 = (m % 16 ||| if m.testBit 35 then 8 else 0)) :
    r ||| ((lr.setWidth 32 &&& 0xf) <<< 28) = lowWord (r.toNat + m * 2 ^ 28) := by
  have hlow : (lr.setWidth 32 &&& (0xf : BitVec 32)).toNat = lr.toNat % 16 := by
    rw [BitVec.toNat_and, BitVec.toNat_setWidth]
    exact (Word.and_low_mask _ 4).trans (by omega)
  have hbit : (r.toNat + m * 2 ^ 28).testBit 63 = m.testBit 35 := by
    have hdiv : (r.toNat + m * 2 ^ 28) / 2 ^ 28 = m := by omega
    rw [Nat.testBit_add _ 35 28, hdiv]
  have hdigit : (BitVec.ofNat 32 (m % 16)).toNat = m % 16 := by
    rw [BitVec.toNat_ofNat]
    omega
  have hsplit : BitVec.ofNat 32 (r.toNat + m * 2 ^ 28) =
      r ||| (BitVec.ofNat 32 (m % 16)) <<< 28 := by
    apply BitVec.eq_of_toNat_eq
    rw [Word.toNat_or_shiftLeft hr (by omega), hdigit, BitVec.toNat_ofNat]
    omega
  have hmask : lr.setWidth 32 &&& (0xf : BitVec 32) =
      BitVec.ofNat 32 (m % 16) ||| if m.testBit 35 then 8 else 0 := by
    apply BitVec.eq_of_toNat_eq
    rw [hlow, hnibble, BitVec.toNat_or, hdigit]
    split <;> rfl
  rw [lowWord, hsplit, hbit, hmask, BitVec.shiftLeft_or_distrib, BitVec.or_assoc]
  split <;> rfl

private theorem decodeHigh_value {m : ℕ} {bs : List UInt8} (h : Varint.Encodes m bs)
    (hlen : bs.length ≤ 6) {r : BitVec 32} (hr : r.toNat < 2 ^ 28) (rest : List UInt8) :
    ∃ hi, decodeHigh r 6 4 0 (bs ++ rest) =
        some (⟨lowWord (r.toNat + m * 2 ^ 28), hi⟩, 4 + bs.length) ∧ (m < 16 → hi = 0) := by
  obtain ⟨lr, hrun, hnibble, hsmall⟩ := decodeHigh_fifth h hlen r rest
  refine ⟨(lr >>> 4).setWidth 32, ?_, fun hm => ?_⟩
  · rw [hrun, highWords, lowWord_eq hr hnibble]
  · apply BitVec.eq_of_toNat_eq
    rw [BitVec.toNat_setWidth, toNat_ushiftRight_div, hsmall hm]
    change m / 2 ^ 4 % 2 ^ 32 = 0
    omega

private theorem decodeLow_value {m : ℕ} {bs : List UInt8} (h : Varint.Encodes m bs) {fuel i : ℕ}
    (hi : i + fuel = 4) (hlen : bs.length ≤ fuel + 6) {r : BitVec 32} (hr : r.toNat < 2 ^ (7 * i))
    (rest : List UInt8) :
    ∃ hi, decodeLow fuel i r (bs ++ rest) =
        some (⟨lowWord (r.toNat + m * 2 ^ (7 * i)), hi⟩, i + bs.length) ∧
      (r.toNat + m * 2 ^ (7 * i) < 2 ^ 32 → hi = 0) := by
  induction fuel generalizing m bs i r with
  | zero =>
      obtain rfl : i = 4 := by omega
      obtain ⟨hi, hrun, hzero⟩ := decodeHigh_value h hlen hr rest
      exact ⟨hi, hrun, fun hlt => hzero (by omega)⟩
  | succ fuel ih =>
      have hseven : 7 * i ≤ 21 := by omega
      have hpow : 2 ^ (7 * i) ≤ 2 ^ 21 := Nat.pow_le_pow_right (by decide) hseven
      have hnext : 2 ^ (7 * (i + 1)) = 128 * 2 ^ (7 * i) := by
        rw [Nat.mul_add, Nat.pow_add, Nat.mul_comm]
      have hor : ∀ b : UInt8, (r ||| shl (low7 b) (7 * i)).toNat =
          r.toNat + b.toNat % 128 * 2 ^ (7 * i) := by
        intro b
        have hdigit : b.toNat % 128 * 2 ^ (7 * i) ≤ 127 * 2 ^ 21 :=
          Nat.mul_le_mul (by omega) hpow
        rw [shl, Nat.mod_eq_of_lt (by omega), Word.toNat_or_shiftLeft hr (by rw [toNat_low7]; omega),
          toNat_low7]
      cases h with
      | @last b hb =>
          refine ⟨0, ?_, fun _ => rfl⟩
          have hmod : b.toNat % 128 = b.toNat := Nat.mod_eq_of_lt hb
          have hlt : b.toNat * 2 ^ (7 * i) ≤ 127 * 2 ^ 21 := Nat.mul_le_mul (by omega) hpow
          rw [List.singleton_append, decodeLow, if_pos ((Word.and_80_eq_zero b).mpr hb),
            lowWord_of_lt (by omega), ← hmod, ← hor, BitVec.ofNat_toNat, BitVec.setWidth_eq]
          rfl
      | @more b n bs hb hbs =>
          rw [List.length_cons] at hlen
          have hdigit : b.toNat % 128 * 2 ^ (7 * i) ≤ 127 * 2 ^ (7 * i) :=
            Nat.mul_le_mul_right _ (by omega)
          have hsum : r.toNat + b.toNat % 128 * 2 ^ (7 * i) + n * 2 ^ (7 * (i + 1)) =
              r.toNat + (b.toNat % 128 + 128 * n) * 2 ^ (7 * i) := by
            rw [hnext, Nat.add_mul, Nat.mul_comm 128 n, Nat.mul_assoc n, Nat.add_assoc]
          obtain ⟨hi, hrun, hzero⟩ := ih hbs (by omega : i + 1 + fuel = 4) (by omega)
            (r := r ||| shl (low7 b) (7 * i)) (by rw [hor, hnext]; omega)
          rw [hor, hsum] at hrun hzero
          refine ⟨hi, ?_, hzero⟩
          rw [List.cons_append, decodeLow, if_neg (mt (Word.and_80_eq_zero b).mp (by omega)), hrun,
            List.length_cons]
          congr 2
          omega

/-- A varint of ten bytes at most is read to its end. -/
theorem decode_encodes {n : ℕ} {bs : List UInt8} (h : Varint.Encodes n bs) (hlen : bs.length ≤ 10)
    (rest : List UInt8) :
    ∃ hi, decode (bs ++ rest) = some (⟨lowWord n, hi⟩, bs.length) ∧ (n < 2 ^ 32 → hi = 0) := by
  cases h with
  | @last b hb =>
      refine ⟨0, ?_, fun _ => rfl⟩
      rw [List.singleton_append, decode, if_pos ((Word.and_80_eq_zero b).mpr hb),
        lowWord_of_lt (by omega)]
      rfl
  | @more b n bs hb hbs =>
      rw [List.length_cons] at hlen
      obtain ⟨hi, hrun, hzero⟩ := decodeLow_value hbs (by omega : 1 + 3 = 4) (by omega)
        (r := low7 b) (by rw [toNat_low7]; omega) rest
      have hsum : (low7 b).toNat + n * 2 ^ (7 * 1) = b.toNat % 128 + 128 * n := by
        rw [toNat_low7]
        omega
      rw [hsum] at hrun hzero
      refine ⟨hi, ?_, hzero⟩
      rw [List.cons_append, decode, if_neg (mt (Word.and_80_eq_zero b).mp (by omega)), hrun,
        List.length_cons, Nat.add_comm bs.length]

/-- A number of 32 bits is read back, however it is written. -/
theorem decode_small {n : ℕ} {bs : List UInt8} (h : Varint.Encodes n bs) (hlen : bs.length ≤ 10)
    (hn : n < 2 ^ 32) (rest : List UInt8) :
    decode (bs ++ rest) = some (⟨BitVec.ofNat 32 n, 0⟩, bs.length) := by
  obtain ⟨hi, hrun, hzero⟩ := decode_encodes h hlen rest
  rw [hrun, hzero hn, lowWord_of_lt hn]

/-! ### The high word -/

/-- The high word of a number as it is read: the four highest bits are copies of
the one below them. -/
def highWord (v : BitVec 64) : BitVec 32 := ((v <<< 4).sshiftRight 36).setWidth 32

/-- The bits that a byte adds to a number of 64 bits, shifted as an `int`. -/
private def byteBit (b : UInt8) (k j : ℕ) : Bool :=
  if j < 32 then decide (k ≤ j) && (decide (j - k < 7) && b.toNat.testBit (j - k))
  else decide (31 - k < 7) && b.toNat.testBit (31 - k)

private theorem getLsbD_low7 (b : UInt8) (j : ℕ) :
    (low7 b).getLsbD j = (decide (j < 7) && b.toNat.testBit j) := by
  have hmod : (low7 b).toNat = b.toNat % 2 ^ 7 := toNat_low7 b
  rw [BitVec.getLsbD, hmod, Nat.testBit_mod_two_pow]

private theorem getLsbD_byte (b : UInt8) (k : ℕ) {j : ℕ} (hj : j < 64) :
    ((shl (low7 b) k).signExtend 64).getLsbD j = byteBit b (k % 32) j := by
  have hk : k % 32 < 32 := Nat.mod_lt _ (by decide)
  rw [BitVec.getLsbD_signExtend, BitVec.msb_eq_getLsbD_last, byteBit]
  simp only [shl, BitVec.getLsbD_shiftLeft, getLsbD_low7, hj, decide_true, Bool.true_and]
  split
  · rename_i hlt
    by_cases hle : k % 32 ≤ j
    · simp [hlt, hle]
    · simp [hle, Nat.lt_of_not_le hle]
  · have hle : ¬ 31 < k % 32 := by omega
    simp [hle]

/-- The bits of the number `m` after the first `s` of those from the fifth byte on. -/
private def restBit (m s j : ℕ) : Bool :=
  if j < 32 then
    (decide (s ≤ j) && m.testBit (j - s)) || (decide (j = 3) && m.testBit (35 - s))
  else decide (s ≤ 31) && m.testBit (31 - s)

private theorem testBit_more' (b : ℕ) (n q : ℕ) :
    (b % 128 + 128 * n).testBit q =
      if q < 7 then b.testBit q else n.testBit (q - 7) := by
  split
  · rename_i hlt
    have hmod : (b % 128 + 128 * n) % 2 ^ 7 = b % 2 ^ 7 := by omega
    have h := congrArg (Nat.testBit · q) hmod
    simp only [Nat.testBit_mod_two_pow, hlt, decide_true, Bool.true_and] at h
    exact h
  · obtain ⟨k, rfl⟩ : ∃ k, q = 7 + k := ⟨q - 7, by omega⟩
    rw [testBit_more, Nat.add_sub_cancel_left]

private theorem restBit_more (b : UInt8) (n : ℕ) {s : ℕ} (hs : s ≤ 28) (j : ℕ) :
    restBit (b.toNat % 128 + 128 * n) s j = (byteBit b s j || restBit n (s + 7) j) := by
  unfold restBit byteBit
  simp only [testBit_more']
  split
  · have h35 : ¬ 35 - s < 7 := by omega
    by_cases hsj : s ≤ j
    · by_cases hq : j - s < 7
      · have hno : ¬ s + 7 ≤ j := by omega
        simp [hsj, hq, h35, hno, Nat.sub_sub]
      · have hyes : s + 7 ≤ j := by omega
        simp [hsj, hq, h35, hyes, Nat.sub_sub]
    · have hno : ¬ s + 7 ≤ j := by omega
      simp [hsj, h35, hno, Nat.sub_sub]
  · by_cases hq : 31 - s < 7
    · have hno : ¬ s + 7 ≤ 31 := by omega
      simp [hq, hno]
      omega
    · have hyes : s + 7 ≤ 31 := by omega
      simp [hq, hyes, Nat.sub_sub]
      omega

private theorem restBit_last {b : UInt8} (hb : b.toNat < 128) {s : ℕ} (hs : s ≤ 28) (j : ℕ) :
    restBit b.toNat s j = byteBit b s j := by
  have hsplit : b.toNat = b.toNat % 128 + 128 * 0 := by omega
  rw [hsplit, restBit_more b 0 hs j]
  simp [restBit]

private theorem restBit_tenth {b : UInt8} (hb : b.toNat < 2) {j : ℕ} :
    restBit b.toNat 35 j = byteBit b 3 j := by
  have hbit : ∀ q, 0 < q → b.toNat.testBit q = false := fun q hq =>
    Nat.testBit_lt_two_pow (Nat.lt_of_lt_of_le hb (Nat.pow_le_pow_right (n := 2) (by decide) hq))
  unfold restBit byteBit
  split
  · by_cases hj : j = 3
    · subst hj
      simp
    · by_cases hle : 3 ≤ j
      · simp [hj, hbit (j - 3) (by omega), show ¬ 35 ≤ j by omega]
      · simp [hj, hle, show ¬ 35 ≤ j by omega]
  · simp

/-- The bits of the bytes from the fifth one on. -/
private theorem decodeHigh_bits {m : ℕ} {bs : List UInt8} (h : Varint.Encodes m bs) {fuel i : ℕ}
    (hi : i + fuel = 10) (hfour : 4 ≤ i) (hlen : bs.length ≤ fuel)
    (hm : m < 2 ^ (36 - 7 * (i - 4))) (r : BitVec 32) (lr : BitVec 64) (rest : List UInt8) :
    ∃ lr', decodeHigh r fuel i lr (bs ++ rest) = some (highWords r lr', i + bs.length) ∧
      ∀ j < 64, lr'.getLsbD j = (lr.getLsbD j || restBit m (7 * (i - 4)) j) := by
  induction h generalizing fuel i lr with
  | @last b hb =>
      obtain ⟨fuel, rfl⟩ : ∃ k, fuel = k + 1 := ⟨fuel - 1, by simp at hlen; omega⟩
      refine ⟨_, decodeHigh_last hb r fuel i lr rest, fun j hj => ?_⟩
      rw [BitVec.getLsbD_or, getLsbD_byte b _ hj]
      congr 1
      by_cases hten : i = 9
      · subst hten
        exact (restBit_tenth (by simpa using hm)).symm
      · rw [Nat.mod_eq_of_lt (by omega)]
        exact (restBit_last hb (by omega) j).symm
  | @more b n bs hb hbs ih =>
      rw [List.length_cons] at hlen
      have hpos := List.length_pos_of_ne_nil hbs.ne_nil
      obtain ⟨fuel, rfl⟩ : ∃ k, fuel = k + 1 := ⟨fuel - 1, by omega⟩
      have hexp : 36 - 7 * (i - 4) = 7 + (36 - 7 * (i + 1 - 4)) := by omega
      have hn : n < 2 ^ (36 - 7 * (i + 1 - 4)) := by
        rw [hexp, Nat.pow_add] at hm
        generalize 2 ^ (36 - 7 * (i + 1 - 4)) = bound at *
        omega
      obtain ⟨lr', hrun, hbits⟩ := ih (by omega : i + 1 + fuel = 10) (by omega) (by omega) hn
        (lr ||| (shl (low7 b) (7 * (i - 4))).signExtend 64)
      refine ⟨lr', ?_, fun j hj => ?_⟩
      · rw [List.cons_append, decodeHigh_more hb, hrun, List.length_cons]
        congr 2
        omega
      · have hs : 7 * (i + 1 - 4) = 7 * (i - 4) + 7 := by omega
        rw [hbits j hj, BitVec.getLsbD_or, getLsbD_byte b _ hj, Nat.mod_eq_of_lt (by omega),
          restBit_more b n (by omega), hs, Bool.or_assoc]

/-- The high word that the bits from the fifth byte on make. -/
private theorem highWord_eq {n m : ℕ} {r : BitVec 32} {lr : BitVec 64} (hr : r.toNat < 2 ^ 28)
    (hn : n = r.toNat + m * 2 ^ 28) (hbits : ∀ j < 64, lr.getLsbD j = restBit m 0 j) :
    (lr >>> 4).setWidth 32 = highWord (BitVec.ofNat 64 n) := by
  have hbit : ∀ q, n.testBit (28 + q) = m.testBit q := by
    intro q
    have hdiv : n / 2 ^ 28 = m := by omega
    rw [Nat.add_comm 28 q, Nat.testBit_add, hdiv]
  apply BitVec.eq_of_getLsbD_eq
  intro j hj
  rw [highWord, BitVec.getLsbD_setWidth, BitVec.getLsbD_setWidth, BitVec.getLsbD_ushiftRight,
    BitVec.getLsbD_sshiftRight, hbits _ (by omega), restBit, BitVec.msb_eq_getLsbD_last,
    BitVec.getLsbD_shiftLeft, BitVec.getLsbD_shiftLeft, BitVec.getLsbD_ofNat, BitVec.getLsbD_ofNat]
  by_cases hhigh : 4 + j < 32
  · have h := hbit (4 + j)
    have hsum : 36 + j - 4 = 28 + (4 + j) := by omega
    rw [if_pos hhigh, if_pos (by omega), hsum, h]
    simp [hj, show ¬ 4 + j = 3 by omega, show 36 + j < 64 by omega, show ¬ 64 ≤ j by omega,
      show ¬ 36 + j < 4 by omega, show 28 + (4 + j) < 64 by omega]
  · have h := hbit 31
    rw [if_neg hhigh, if_neg (by omega)]
    simp [hj, ← h, show j < 64 by omega]

private theorem highWord_of_lt {n : ℕ} (h : n < 2 ^ 32) : highWord (BitVec.ofNat 64 n) = 0 := by
  apply BitVec.eq_of_getLsbD_eq
  intro j hj
  have hbit : ∀ q, 32 ≤ q → n.testBit q = false := fun q hq =>
    Nat.testBit_lt_two_pow (Nat.lt_of_lt_of_le h (Nat.pow_le_pow_right (by decide) hq))
  rw [highWord, BitVec.getLsbD_setWidth, BitVec.getLsbD_sshiftRight, BitVec.msb_eq_getLsbD_last,
    BitVec.getLsbD_shiftLeft, BitVec.getLsbD_shiftLeft, BitVec.getLsbD_ofNat, BitVec.getLsbD_ofNat,
    hbit _ (by omega), hbit _ (by omega)]
  simp

private theorem decodeHigh_high {m : ℕ} {bs : List UInt8} (h : Varint.Encodes m bs)
    (hlen : bs.length ≤ 6) {r : BitVec 32} (hr : r.toNat < 2 ^ 28) (hm : m < 2 ^ 36)
    (rest : List UInt8) :
    ∃ v, decodeHigh r 6 4 0 (bs ++ rest) = some v ∧
      v.1.hi = highWord (BitVec.ofNat 64 (r.toNat + m * 2 ^ 28)) := by
  obtain ⟨lr, hrun, hbits⟩ := decodeHigh_bits h (by omega : 4 + 6 = 10) (by omega) hlen hm r 0 rest
  refine ⟨_, hrun, highWord_eq hr rfl fun j hj => ?_⟩
  rw [hbits j hj]
  simp

private theorem decodeLow_high {m : ℕ} {bs : List UInt8} (h : Varint.Encodes m bs) {fuel i : ℕ}
    (hi : i + fuel = 4) (hlen : bs.length ≤ fuel + 6) {r : BitVec 32} (hr : r.toNat < 2 ^ (7 * i))
    (hm : m < 2 ^ (64 - 7 * i)) (rest : List UInt8) :
    ∃ v, decodeLow fuel i r (bs ++ rest) = some v ∧
      v.1.hi = highWord (BitVec.ofNat 64 (r.toNat + m * 2 ^ (7 * i))) := by
  induction fuel generalizing m bs i r with
  | zero =>
      obtain rfl : i = 4 := by omega
      exact decodeHigh_high h hlen hr hm rest
  | succ fuel ih =>
      have hpow : 2 ^ (7 * i) ≤ 2 ^ 21 := Nat.pow_le_pow_right (by decide) (by omega)
      have hnext : 2 ^ (7 * (i + 1)) = 128 * 2 ^ (7 * i) := by
        rw [Nat.mul_add, Nat.pow_add, Nat.mul_comm]
      cases h with
      | @last b hb =>
          have hlt : b.toNat * 2 ^ (7 * i) ≤ 127 * 2 ^ 21 := Nat.mul_le_mul (by omega) hpow
          have hzero := highWord_of_lt (n := r.toNat + b.toNat * 2 ^ (7 * i)) (by omega)
          refine ⟨(⟨r ||| shl (low7 b) (7 * i), 0⟩, i + 1), ?_, hzero.symm⟩
          rw [List.singleton_append, decodeLow, if_pos ((Word.and_80_eq_zero b).mpr hb)]
      | @more b n bs hb hbs =>
          have hor : (r ||| shl (low7 b) (7 * i)).toNat =
              r.toNat + b.toNat % 128 * 2 ^ (7 * i) := by
            have hdigit : b.toNat % 128 * 2 ^ (7 * i) ≤ 127 * 2 ^ 21 :=
              Nat.mul_le_mul (by omega) hpow
            rw [shl, Nat.mod_eq_of_lt (by omega),
              Word.toNat_or_shiftLeft hr (by rw [toNat_low7]; omega), toNat_low7]
          have hdigit : b.toNat % 128 * 2 ^ (7 * i) ≤ 127 * 2 ^ (7 * i) :=
            Nat.mul_le_mul_right _ (by omega)
          have hsum : r.toNat + b.toNat % 128 * 2 ^ (7 * i) + n * 2 ^ (7 * (i + 1)) =
              r.toNat + (b.toNat % 128 + 128 * n) * 2 ^ (7 * i) := by
            rw [hnext, Nat.add_mul, Nat.mul_comm 128 n, Nat.mul_assoc n, Nat.add_assoc]
          have hexp : 64 - 7 * i = 7 + (64 - 7 * (i + 1)) := by omega
          rw [List.length_cons] at hlen
          obtain ⟨v, hrun, hhigh⟩ := ih hbs (by omega : i + 1 + fuel = 4) (by omega)
            (r := r ||| shl (low7 b) (7 * i)) (by rw [hor, hnext]; omega) (by
              rw [hexp, Nat.pow_add] at hm
              generalize 2 ^ (64 - 7 * (i + 1)) = bound at *
              omega)
          rw [hor, hsum] at hhigh
          refine ⟨v, ?_, hhigh⟩
          rw [List.cons_append, decodeLow, if_neg (mt (Word.and_80_eq_zero b).mp (by omega)), hrun]

/-- What the library makes of a number of 64 bits that it reads. -/
def readBack (v : BitVec 64) : Longlong := ⟨lowWord v.toNat, highWord v⟩

/-- Both words of a varint of ten bytes at most. -/
theorem decode_readBack {v : BitVec 64} {bs : List UInt8} (h : Varint.Encodes v.toNat bs)
    (hlen : bs.length ≤ 10) (rest : List UInt8) :
    decode (bs ++ rest) = some (readBack v, bs.length) := by
  obtain ⟨hi, hrun, hzero⟩ := decode_encodes h hlen rest
  suffices hhigh : ∃ u, decode (bs ++ rest) = some u ∧
      u.1.hi = highWord (BitVec.ofNat 64 v.toNat) by
    obtain ⟨u, hrun', hu⟩ := hhigh
    obtain rfl := Option.some.inj (hrun'.symm.trans hrun)
    rw [BitVec.ofNat_toNat, BitVec.setWidth_eq] at hu
    obtain rfl : hi = highWord v := hu
    exact hrun
  have hv := v.isLt
  generalize v.toNat = n at *
  cases h with
  | @last b hb => exact ⟨_, hrun, (hzero (by omega)).trans (highWord_of_lt (by omega)).symm⟩
  | @more b n bs hb hbs =>
      rw [List.length_cons] at hlen
      have hsum : (low7 b).toNat + n * 2 ^ (7 * 1) = b.toNat % 128 + 128 * n := by
        rw [toNat_low7]
        omega
      obtain ⟨u, hrun', hu⟩ := decodeLow_high hbs (by omega : 1 + 3 = 4) (by omega)
        (r := low7 b) (by rw [toNat_low7]; omega) (by omega) rest
      rw [hsum] at hu
      refine ⟨u, ?_, hu⟩
      rw [List.cons_append, decode, if_neg (mt (Word.and_80_eq_zero b).mp (by omega)), hrun']

/-! ## Bytes behind a varint -/

private theorem decodeHigh_append {r : BitVec 32} {fuel i : ℕ} {lr : BitVec 64} {bs : List UInt8}
    {v : Longlong × ℕ} (h : decodeHigh r fuel i lr bs = some v) (hsum : i + fuel = 10)
    (rest : List UInt8) :
    decodeHigh r fuel i lr (bs ++ rest) = some v ∧ 0 < v.2 ∧ v.2 ≤ i + bs.length := by
  induction fuel generalizing i lr bs with
  | zero =>
      cases h
      exact ⟨by rw [decodeHigh], by simp, by simp only; omega⟩
  | succ fuel ih =>
      cases bs with
      | nil => cases h
      | cons b bs =>
          rw [decodeHigh] at h
          rw [List.cons_append, decodeHigh]
          split at h
          · rename_i hlast
            cases h
            rw [if_pos hlast, List.length_cons]
            exact ⟨rfl, by simp, by simp only; omega⟩
          · rename_i hmore
            obtain ⟨hrun, hpos, hle⟩ := ih h (by omega)
            rw [if_neg hmore, List.length_cons]
            exact ⟨hrun, hpos, by omega⟩

private theorem decodeLow_append {r : BitVec 32} {fuel i : ℕ} {bs : List UInt8}
    {v : Longlong × ℕ} (h : decodeLow fuel i r bs = some v) (hsum : i + fuel = 4)
    (rest : List UInt8) :
    decodeLow fuel i r (bs ++ rest) = some v ∧ 0 < v.2 ∧ v.2 ≤ i + bs.length := by
  induction fuel generalizing i r bs with
  | zero =>
      rw [decodeLow] at h ⊢
      exact decodeHigh_append h (by omega) rest
  | succ fuel ih =>
      cases bs with
      | nil => cases h
      | cons b bs =>
          rw [decodeLow] at h
          rw [List.cons_append, decodeLow]
          split at h
          · rename_i hlast
            cases h
            rw [if_pos hlast, List.length_cons]
            exact ⟨rfl, by simp, by simp only; omega⟩
          · rename_i hmore
            obtain ⟨hrun, hpos, hle⟩ := ih h (by omega)
            rw [if_neg hmore, List.length_cons]
            exact ⟨hrun, hpos, by omega⟩

/-- What is behind a varint does not matter to how it is read. -/
theorem decode_append {bs : List UInt8} {v : Longlong × ℕ} (h : decode bs = some v)
    (rest : List UInt8) : decode (bs ++ rest) = some v ∧ 0 < v.2 ∧ v.2 ≤ bs.length := by
  cases bs with
  | nil => cases h
  | cons b bs =>
      rw [decode] at h
      rw [List.cons_append, decode]
      split at h
      · rename_i hlast
        cases h
        rw [if_pos hlast, List.length_cons]
        exact ⟨rfl, by simp, by simp only; omega⟩
      · rename_i hmore
        obtain ⟨hrun, hpos, hle⟩ := decodeLow_append h (by omega) rest
        rw [if_neg hmore, List.length_cons]
        exact ⟨hrun, hpos, by omega⟩

end Pbc
