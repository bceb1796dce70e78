-- SUMMARY: Byte order, varints and the loops around read and write, with what each of them does to a connection.
import HdClient.Client.Conn

/-! # Net utils -/

namespace HdClient

open Pbc Conn

/-! ## Byte order -/

def intEndianSwap (i : BitVec 32) : BitVec 32 :=
  ((i &&& 0xff) <<< 24) + ((i &&& 0xff00) <<< 8) + ((i &&& 0xff0000).sshiftRight 8) +
    ((i.sshiftRight 24) &&& 0xff)

/-! ## Writing -/

/-- `write_raw_varint32` into a buffer of `room` bytes; undefined when the loop
runs past its end. -/
def writeRawVarint32 : ℕ → BitVec 32 → Option (List UInt8)
  | 0, _ => none
  | room + 1, value =>
      if value &&& ~~~0x7f = 0 then some [toByte value]
      else (writeRawVarint32 room (value.sshiftRight 7)).map
        (toByte ((value &&& 0x7f) ||| 0x80) :: ·)

/-- The loop of `write_all`. No round is made without an answer, so `fuel`, which
is more than there are answers, does not run out. -/
def writeLoop (buffer : List UInt8) : ℕ → ℕ → Prog Conn ℤ
  | 0, _ => .await
  | fuel + 1, bytes_written =>
      if bytes_written < buffer.length then do
        match ← Conn.write (buffer.drop bytes_written) with
        | some retval => writeLoop buffer fuel (bytes_written + retval)
        | none => do
            print .errorWriting
            pure (-1)
      else pure 0

/-- `write_all`; `buffer` is the memory at a pointer that is not null. -/
def writeAll (buffer : Option (List UInt8)) (size : ℤ) : Prog Conn ℤ :=
  if size < 0 then do
    print .sizeNegative
    pure (-1)
  else match buffer with
    | none => do
        print .writeBufferNull
        pure 0
    | some mem =>
        -- bytes are written that are not there
        if mem.length < size.toNat then .undefined
        else do
          let s ← .get
          writeLoop (mem.take size.toNat) (s.writes.length + 1) 0

/-! ## Reading -/

/-- The loop of `read_all`, with the bytes stored so far. -/
def readLoop (size : ℕ) : ℕ → List UInt8 → Prog Conn (ℤ × List UInt8)
  | 0, _ => .await
  | fuel + 1, buffer =>
      if buffer.length < size then do
        match ← Conn.read (size - buffer.length) with
        | some bytes => readLoop size fuel (buffer ++ bytes)
        | none => do
            print .errorReading
            pure (-1, buffer)
      else pure (0, buffer)

/-- `read_all`: its return code and the bytes it has stored. -/
def readAll (nonnull : Bool) (size : ℤ) : Prog Conn (ℤ × List UInt8) :=
  if size < 0 then do
    print .sizeNegative
    pure (-1, [])
  else if !nonnull then do
    print .readBufferNull
    pure (-1, [])
  else do
    let s ← .get
    readLoop size.toNat (s.reads.length + 1) []

/-- A `read` of one byte into `tmp` whose result is not looked at. -/
def readChar (tmp : UInt8) : Prog Conn UInt8 := do
  match ← Conn.read 1 with
  | some (b :: _) => pure b
  | _ => pure tmp

/-- `tmp >= 0`, for a signed `char`. -/
def charNonneg (tmp : UInt8) : Bool := tmp.toNat < 128

/-- A signed `char` as an `int`. -/
def charToInt (tmp : UInt8) : BitVec 32 := tmp.toBitVec.signExtend 32

/-- The loop over the bytes behind the fifth one: whether one of them ends the varint. -/
def discardLoop : ℕ → UInt8 → ℕ → Prog Conn (Bool × ℕ)
  | 0, _, readlen => pure (false, readlen)
  | i + 1, tmp, readlen => do
      let tmp ← readChar tmp
      if charNonneg tmp then pure (true, readlen + 1) else discardLoop i tmp (readlen + 1)

/-- What `read_raw_varint32` returns and stores. -/
structure RawVarint where
  rc : ℤ
  readlen : ℕ
  value : BitVec 32
  deriving DecidableEq

/-- The bytes two to four of a varint: byte `j` ends it with a digit at bit `k`,
or adds that digit and goes on. -/
def rawVarintByte (j k : ℕ) (next : BitVec 32 → UInt8 → Prog Conn RawVarint)
    (result : BitVec 32) (tmp : UInt8) : Prog Conn RawVarint := do
  let tmp ← readChar tmp
  if charNonneg tmp then pure ⟨0, j, result ||| charToInt tmp <<< k⟩
  else next (result ||| (charToInt tmp &&& 0x7f) <<< k) tmp

/-- The fifth byte, and those behind it, of which nothing is kept. -/
def rawVarintTail (value result : BitVec 32) (tmp : UInt8) : Prog Conn RawVarint := do
  let tmp ← readChar tmp
  if charNonneg tmp then pure ⟨0, 5, result ||| charToInt tmp <<< 28⟩
  else do
    match ← discardLoop 5 tmp 5 with
    | (true, readlen) => pure ⟨-1, readlen, result ||| charToInt tmp <<< 28⟩
    -- ten bytes without an end: `*value` is not stored to
    | (false, readlen) => pure ⟨0, readlen, value⟩

/-- `read_raw_varint32`; `tmp` and `value` are what these variables hold before. -/
def readRawVarint32 (tmp : UInt8) (value : BitVec 32) : Prog Conn RawVarint := do
  let tmp ← readChar tmp
  if charNonneg tmp then pure ⟨0, 1, charToInt tmp⟩
  else
    rawVarintByte 2 7 (rawVarintByte 3 14 (rawVarintByte 4 21 (rawVarintTail value)))
      (charToInt tmp &&& 0x7f) tmp

/-! ## What the loops do -/

/-- A connection after a transfer to the socket. -/
def Conn.sent (s : Conn) (buffer : List UInt8) (t : Transfer) : Conn :=
  { s with outgoing := s.outgoing ++ buffer.take t.carried, writes := t.left }

/-- A connection after a transfer from the socket. -/
def Conn.received (s : Conn) (t : Transfer) : Conn :=
  { s with incoming := s.incoming.drop t.carried, reads := t.left }

def Conn.printing (s : Conn) (d : Diag) : Conn := { s with printed := s.printed ++ [d] }

/-- What `write_all` comes to, by how the transfer ended. -/
def wroteAll (s : Conn) (buffer : List UInt8) (t : Transfer) : Outcome Conn ℤ :=
  match t.ending with
  | .done => .ret 0 (s.sent buffer t)
  | .failed => .ret (-1) ((s.sent buffer t).printing .errorWriting)
  | .waiting => .wait (s.sent buffer t)

/-- What `read_all` comes to. -/
def haveRead (s : Conn) (stored : List UInt8) (t : Transfer) : Outcome Conn (ℤ × List UInt8) :=
  match t.ending with
  | .done => .ret (0, stored ++ s.incoming.take t.carried) (s.received t)
  | .failed => .ret (-1, stored ++ s.incoming.take t.carried) ((s.received t).printing .errorReading)
  | .waiting => .wait (s.received t)

private theorem wroteAll_upTo {s : Conn} {buffer : List UInt8} {m : ℕ} (as : List Ans)
    (t : Transfer) :
    wroteAll { s with outgoing := s.outgoing ++ buffer.take m, writes := as } (buffer.drop m) t =
      wroteAll s buffer ⟨m + t.carried, t.ending, t.left⟩ := by
  have hout : s.outgoing ++ buffer.take m ++ (buffer.drop m).take t.carried =
      s.outgoing ++ buffer.take (m + t.carried) := by
    rw [List.append_assoc, ← List.take_add]
  simp only [wroteAll, Conn.sent, hout]

private theorem writeLoop_run {buffer : List UInt8} {fuel written : ℕ} {s : Conn}
    (hfuel : s.writes.length < fuel) (hwritten : written ≤ buffer.length) :
    (writeLoop buffer fuel written).run s =
      wroteAll s (buffer.drop written)
        (Transfer.carry s.writes (buffer.length - written) (buffer.length - written)) := by
  induction fuel generalizing written s with
  | zero => omega
  | succ fuel ih =>
      rw [writeLoop]
      split
      · rename_i hlt
        have hpos : 0 < buffer.length - written := by omega
        obtain ⟨proxy, incoming, outgoing, reads, writes, allocs, printed⟩ := s
        cases writes with
        | nil => simp [Conn.write, wroteAll, Transfer.carry_nil hpos, Conn.sent]
        | cons a as =>
            cases a with
            | fail => simp [Conn.write, wroteAll, Transfer.carry_fail hpos, Conn.sent, Conn.printing]
            | upTo k =>
                rw [List.length_cons] at hfuel
                have hmin : min k (min (buffer.length - written) (buffer.length - written)) =
                    min k (buffer.length - written) := by omega
                rw [Transfer.carry_upTo hpos, hmin, ← wroteAll_upTo as]
                simp only [Prog.run_bind, Conn.write, Outcome.andThen_ret, List.length_drop]
                rw [ih (by dsimp only; omega) (by omega), List.drop_drop]
                congr 2 <;> omega
      · rename_i hge
        obtain rfl : written = buffer.length := by omega
        simp [wroteAll, Conn.sent]

/-- `write_all` carries the buffer as far as the answers of `write` let it. -/
theorem writeAll_run {mem : List UInt8} {size : ℤ} (hsize : 0 ≤ size)
    (hmem : size.toNat ≤ mem.length) (s : Conn) :
    (writeAll (some mem) size).run s =
      wroteAll s (mem.take size.toNat) (Transfer.carry s.writes size.toNat size.toNat) := by
  have hlen : (mem.take size.toNat).length = size.toNat := List.length_take_of_le hmem
  rw [writeAll, if_neg (by omega), if_neg (by omega)]
  simp only [Prog.run_bind, Prog.run_get, Outcome.andThen_ret]
  rw [writeLoop_run (by omega) (by omega), List.drop_zero, hlen, Nat.sub_zero]

private theorem haveRead_upTo {s : Conn} {stored : List UInt8} {m : ℕ} (as : List Ans)
    (t : Transfer) :
    haveRead { s with reads := as, incoming := s.incoming.drop m }
        (stored ++ s.incoming.take m) t =
      haveRead s stored ⟨m + t.carried, t.ending, t.left⟩ := by
  have hstored : stored ++ s.incoming.take m ++ (s.incoming.drop m).take t.carried =
      stored ++ s.incoming.take (m + t.carried) := by
    rw [List.append_assoc, ← List.take_add]
  simp only [haveRead, Conn.received, List.drop_drop, hstored]

private theorem readLoop_run {size fuel : ℕ} {stored : List UInt8} {s : Conn}
    (hfuel : s.reads.length < fuel) (hstored : stored.length ≤ size) :
    (readLoop size fuel stored).run s =
      haveRead s stored
        (Transfer.carry s.reads (size - stored.length) s.incoming.length) := by
  induction fuel generalizing stored s with
  | zero => omega
  | succ fuel ih =>
      rw [readLoop]
      split
      · rename_i hlt
        have hpos : 0 < size - stored.length := by omega
        obtain ⟨proxy, incoming, outgoing, reads, writes, allocs, printed⟩ := s
        cases reads with
        | nil => simp [Conn.read, haveRead, Transfer.carry_nil hpos, Conn.received]
        | cons a as =>
            cases a with
            | fail =>
                simp [Conn.read, haveRead, Transfer.carry_fail hpos, Conn.received, Conn.printing]
            | upTo k =>
                rw [List.length_cons] at hfuel
                dsimp only
                rw [Transfer.carry_upTo hpos, ← haveRead_upTo as]
                simp only [Prog.run_bind, Conn.read, Outcome.andThen_ret]
                rw [ih (by dsimp only; omega)
                  (by simp only [List.length_append, List.length_take]; omega)]
                have hleft : size - (stored ++ incoming.take
                    (min k (min (size - stored.length) incoming.length))).length =
                    size - stored.length - min k (min (size - stored.length) incoming.length) := by
                  simp only [List.length_append, List.length_take]
                  omega
                rw [hleft, List.length_drop]
      · rename_i hge
        obtain hfull : size - stored.length = 0 := by omega
        simp [haveRead, Conn.received, hfull]

/-- `read_all` stores what the answers of `read` let through. -/
theorem readAll_run {size : ℤ} (hsize : 0 ≤ size) (s : Conn) :
    (readAll true size).run s =
      haveRead s [] (Transfer.carry s.reads size.toNat s.incoming.length) := by
  rw [readAll, if_neg (by omega), if_neg (by decide)]
  simp only [Prog.run_bind, Prog.run_get, Outcome.andThen_ret]
  rw [readLoop_run (by omega) (by simp), List.length_nil, Nat.sub_zero]

/-! ## Byte order -/

theorem intEndianSwap_toNat (w : BitVec 32) :
    (intEndianSwap w).toNat = w.toNat / 2 ^ 24 % 2 ^ 8 + 2 ^ 8 * (w.toNat / 2 ^ 16 % 2 ^ 8) +
      2 ^ 16 * (w.toNat / 2 ^ 8 % 2 ^ 8) + 2 ^ 24 * (w.toNat % 2 ^ 8) := by
  have h0 : (w &&& 0xff).toNat = w.toNat % 2 ^ 8 := Word.and_low_mask w.toNat 8
  have h1 : (w &&& 0xff00).toNat = w.toNat / 2 ^ 8 % 2 ^ 8 * 2 ^ 8 := Word.and_mask w.toNat 8 8
  have h2 : (w &&& 0xff0000).toNat = w.toNat / 2 ^ 16 % 2 ^ 8 * 2 ^ 16 :=
    Word.and_mask w.toNat 8 16
  have hmsb : (w &&& 0xff0000).msb = false := by
    rw [BitVec.msb_eq_false_iff_two_mul_lt, h2]
    omega
  have h3 : ((w.sshiftRight 24) &&& 0xff).toNat = w.toNat / 2 ^ 24 % 2 ^ 8 := by
    have hmask : ∀ k, ∀ hk : k < 32, (0xff#32)[k] = decide (k < 8) := by decide
    have heq : (w.sshiftRight 24) &&& 0xff#32 = w >>> 24 := by
      ext k hk
      simp only [BitVec.getElem_and, BitVec.getElem_sshiftRight, hmask k hk,
        BitVec.getElem_ushiftRight]
      by_cases h8 : k < 8
      · have hin : 24 + k < 32 := by omega
        simp [h8, hin]
      · simp only [h8, decide_false, Bool.and_false]
        rw [BitVec.getLsbD_of_ge]
        omega
    refine (congrArg BitVec.toNat heq).trans ?_
    rw [BitVec.toNat_ushiftRight, Nat.shiftRight_eq_div_pow]
    have := w.isLt
    omega
  rw [intEndianSwap, BitVec.sshiftRight_eq_of_msb_false hmsb]
  simp only [BitVec.toNat_add, BitVec.toNat_shiftLeft, BitVec.toNat_ushiftRight, h0, h1, h2, h3,
    Nat.shiftLeft_eq, Nat.shiftRight_eq_div_pow]
  omega

private theorem swap_digits {w : BitVec 32} {a b c d : ℕ} (h : Word.Digits w.toNat a b c d) :
    (intEndianSwap w).toNat = d + 2 ^ 8 * c + 2 ^ 16 * b + 2 ^ 24 * a := by
  rw [intEndianSwap_toNat, h.d0, h.d1, h.d2, h.d3]

/-- The bytes of a swapped word in memory are those of the word in network order. -/
theorem le_intEndianSwap (w : BitVec 32) : Word.le (intEndianSwap w) = Word.be32 w.toNat := by
  refine Word.le_eq_be32 ?_
  rw [intEndianSwap_toNat]
  refine Word.digits_of_sum ?_ ?_ ?_ ?_ <;> exact Nat.mod_lt _ (by decide)

/-- A word read in network order and swapped is the word that was sent. -/
theorem intEndianSwap_ofLe (n : ℕ) :
    intEndianSwap (Word.ofLe (Word.be32 n)) = BitVec.ofNat 32 n := by
  apply BitVec.eq_of_toNat_eq
  rw [swap_digits (Word.ofLe_be32_digits n), Word.sum_of_digits, BitVec.toNat_ofNat]

/-! ## Varints -/

private theorem and_not_7f_eq_zero (w : BitVec 32) : w &&& ~~~0x7f = 0 ↔ w.toNat < 128 := by
  have hlow : (w &&& 0x7f).toNat = w.toNat % 2 ^ 7 := Word.and_low_mask w.toNat 7
  have hor : (w &&& 0x7f) ||| (w &&& ~~~0x7f) = w := by
    ext k hk
    simp only [BitVec.getElem_or, BitVec.getElem_and, BitVec.getElem_not]
    cases w[k] <;> simp
  constructor
  · intro h
    rw [h] at hor
    have hw : (w &&& 0x7f) = w := by simpa using hor
    rw [hw] at hlow
    omega
  · intro h
    have hw : (w &&& 0x7f) = w := by
      apply BitVec.eq_of_toNat_eq
      rw [hlow]
      omega
    rw [← hw, BitVec.and_assoc]
    simp

private theorem toNat_or_80 {x : BitVec 32} (hx : x.toNat < 2 ^ 7) :
    (x ||| 0x80).toNat = x.toNat + 128 :=
  Word.toNat_or_shiftLeft (d := 1#32) hx (by decide)

/-- A number that is not negative is written in full, canonically. -/
theorem writeRawVarint32_eq {room : ℕ} {w : BitVec 32} (hw : w.toNat < 2 ^ 31)
    (hroom : w.toNat < 128 ^ (room + 1)) :
    writeRawVarint32 (room + 1) w = some (Varint.encode w.toNat) := by
  induction room generalizing w with
  | zero =>
      have hlt : w.toNat < 128 := by simpa using hroom
      rw [writeRawVarint32, if_pos ((and_not_7f_eq_zero w).mpr hlt), Varint.encode_of_lt hlt, toByte]
  | succ room ih =>
      rw [writeRawVarint32]
      split
      · rename_i h
        rw [and_not_7f_eq_zero] at h
        rw [Varint.encode_of_lt h, toByte]
      · rename_i h
        rw [and_not_7f_eq_zero] at h
        have hmsb : w.msb = false := by
          rw [BitVec.msb_eq_false_iff_two_mul_lt]
          omega
        have hshift : (w.sshiftRight 7).toNat = w.toNat / 128 := by
          rw [BitVec.sshiftRight_eq_of_msb_false hmsb, BitVec.toNat_ushiftRight,
            Nat.shiftRight_eq_div_pow]
        have hlow : (w &&& 0x7f).toNat = w.toNat % 128 := Word.and_low_mask w.toNat 7
        have hbyte : toByte ((w &&& 0x7f) ||| 0x80) = UInt8.ofNat (w.toNat % 128 + 128) := by
          rw [toByte, toNat_or_80 (by rw [hlow]; omega), hlow]
        rw [Nat.pow_succ] at hroom
        rw [ih (by omega) (by omega), hshift, hbyte, Varint.encode_of_ge (Nat.le_of_not_lt h)]
        rfl

/-! ## Reading a varint -/

/-- A byte that is at hand is read when the answer carries anything. -/
theorem readChar_run {s : Conn} {b : UInt8} {rest : List UInt8} {k : ℕ} {as : List Ans}
    (hin : s.incoming = b :: rest) (hreads : s.reads = .upTo k :: as) (hk : 0 < k) (tmp : UInt8) :
    (readChar tmp).run s = .ret b { s with incoming := rest, reads := as } := by
  have hmin : min k (min 1 (b :: rest).length) = 1 := by
    rw [List.length_cons]
    omega
  simp only [readChar, Prog.run_bind, Conn.read, hin, hreads, hmin]
  rfl

theorem charNonneg_iff (b : UInt8) : charNonneg b = true ↔ b.toNat < 128 := by
  simp [charNonneg]

theorem charToInt_toNat (b : UInt8) :
    (charToInt b).toNat = b.toNat + if b.toNat < 128 then 0 else 2 ^ 32 - 2 ^ 8 := by
  have hb := b.toNat_lt
  have hmsb : b.toBitVec.msb = decide (128 ≤ b.toNat) := by
    rw [BitVec.msb_eq_decide]
    rfl
  rw [charToInt, BitVec.toNat_signExtend, BitVec.toNat_setWidth, hmsb]
  have hbv : b.toBitVec.toNat = b.toNat := rfl
  by_cases h : b.toNat < 128
  · simp only [Nat.not_le.mpr h, decide_false, Bool.false_eq_true, if_false, h, if_true, hbv]
    omega
  · simp only [Nat.le_of_not_lt h, decide_true, if_true, h, if_false, hbv]
    omega

theorem charToInt_of_lt {b : UInt8} (h : b.toNat < 128) : (charToInt b).toNat = b.toNat := by
  rw [charToInt_toNat, if_pos h, Nat.add_zero]

theorem charToInt_and_7f (b : UInt8) : (charToInt b &&& 0x7f).toNat = b.toNat % 128 := by
  have hand : (charToInt b &&& 0x7f).toNat = (charToInt b).toNat % 2 ^ 7 :=
    Word.and_low_mask _ 7
  rw [hand, charToInt_toNat]
  split <;> omega

/-- The digits of a varint, as its reader meets them: the last byte, or one more
byte and the rest. -/
inductive VarintHead : ℕ → UInt8 → List UInt8 → Prop where
  | last {m : ℕ} {b : UInt8} : b.toNat = m → m < 128 → VarintHead m b []
  | more {m : ℕ} {b : UInt8} {bs : List UInt8} : b.toNat = m % 128 + 128 →
      Varint.Encodes (m / 128) bs → VarintHead m b bs

theorem varintHead {m : ℕ} {ws : List UInt8} (h : Varint.Encodes m ws) :
    ∃ b bs, ws = b :: bs ∧ VarintHead m b bs := by
  cases h with
  | last hlt => exact ⟨_, _, rfl, .last rfl hlt⟩
  | @more b n bs hge hbs =>
      have hb := b.toNat_lt
      have hdiv : (b.toNat % 128 + 128 * n) / 128 = n := by omega
      exact ⟨_, _, rfl, .more (by omega) (hdiv.symm ▸ hbs)⟩

/-- Reading the next byte of a varint. -/
private theorem readChar_varint {s : Conn} {m : ℕ} {ws rest : List UInt8} {as₁ as₂ : List Ans}
    (hws : Varint.Encodes m ws) (hin : s.incoming = ws ++ rest) (hreads : s.reads = as₁ ++ as₂)
    (hlive : Transfer.Live as₁) (hlen : as₁.length = ws.length) (tmp : UInt8) :
    ∃ b bs as, ws = b :: bs ∧ VarintHead m b bs ∧ Transfer.Live as ∧
      as.length = bs.length ∧
      (readChar tmp).run s = .ret b { s with incoming := bs ++ rest, reads := as ++ as₂ } := by
  obtain ⟨b, bs, rfl, hhead⟩ := varintHead hws
  rw [List.length_cons] at hlen
  obtain ⟨a, as, rfl⟩ := List.exists_cons_of_length_eq_add_one hlen
  obtain ⟨⟨k, hk, rfl⟩, has⟩ := Transfer.live_cons.mp hlive
  refine ⟨b, bs, as, rfl, hhead, has, by simpa using hlen, ?_⟩
  exact readChar_run (by rw [hin, List.cons_append]) (by rw [hreads, List.cons_append]) hk tmp

private theorem eq_ofNat {n : ℕ} {r : BitVec 32} (h : r.toNat = n) : r = BitVec.ofNat 32 n := by
  subst h
  simp

private theorem not_charNonneg {b : UInt8} {m : ℕ} (h : b.toNat = m % 128 + 128) :
    ¬ charNonneg b = true := by
  rw [charNonneg_iff]
  omega

/-- The last digit, at bit `k` of the number, as far as it fits. -/
private theorem or_last {r : BitVec 32} {b : UInt8} {k m : ℕ} (hr : r.toNat < 2 ^ k)
    (hb : b.toNat = m) (hm : m < 128) (hk : k ≤ 32) :
    r ||| charToInt b <<< k = BitVec.ofNat 32 (r.toNat + m * 2 ^ k) := by
  subst hb
  have hsplit : 2 ^ (32 - k) * 2 ^ k = 2 ^ 32 := by rw [← Nat.pow_add, Nat.sub_add_cancel hk]
  have hdigit : b.toNat % 2 ^ (32 - k) + 1 ≤ 2 ^ (32 - k) := Nat.mod_lt _ (Nat.two_pow_pos _)
  have hsum : r.toNat + b.toNat % 2 ^ (32 - k) * 2 ^ k < 2 ^ 32 := by
    have hmul := Nat.mul_le_mul_right (2 ^ k) hdigit
    rw [Nat.succ_mul, hsplit] at hmul
    omega
  have hmod : (r.toNat + b.toNat * 2 ^ k) % 2 ^ 32 =
      r.toNat + b.toNat % 2 ^ (32 - k) * 2 ^ k := by
    rw [← hsplit, Nat.add_mod, Nat.mul_mod_mul_right, hsplit, Nat.mod_eq_of_lt r.isLt,
      Nat.mod_eq_of_lt hsum]
  have hlow : (BitVec.ofNat 32 (b.toNat % 2 ^ (32 - k))).toNat = b.toNat % 2 ^ (32 - k) := by
    have hle : b.toNat % 2 ^ (32 - k) ≤ b.toNat := Nat.mod_le _ _
    rw [BitVec.toNat_ofNat]
    omega
  have hshift : charToInt b <<< k = BitVec.ofNat 32 (b.toNat % 2 ^ (32 - k)) <<< k := by
    apply BitVec.eq_of_toNat_eq
    rw [BitVec.toNat_shiftLeft, BitVec.toNat_shiftLeft, charToInt_of_lt hm, hlow,
      Nat.shiftLeft_eq, Nat.shiftLeft_eq, ← hsplit, Nat.mul_mod_mul_right, Nat.mul_mod_mul_right,
      Nat.mod_mod]
  apply BitVec.eq_of_toNat_eq
  rw [hshift, Word.toNat_or_shiftLeft hr (by rw [hlow]; omega), hlow, BitVec.toNat_ofNat, hmod]

/-- A digit that others follow. -/
private theorem or_more {r : BitVec 32} {b : UInt8} {k m : ℕ} (hr : r.toNat < 2 ^ k)
    (hb : b.toNat = m % 128 + 128) (hk : k ≤ 21) :
    (r ||| (charToInt b &&& 0x7f) <<< k).toNat = r.toNat + m % 128 * 2 ^ k := by
  have hd : (charToInt b &&& 0x7f).toNat = m % 128 := by
    rw [charToInt_and_7f, hb]
    omega
  have hpow : 2 ^ k ≤ 2 ^ 21 := Nat.pow_le_pow_right (by decide) hk
  have hle : m % 128 * 2 ^ k ≤ 127 * 2 ^ 21 := Nat.mul_le_mul (by omega) hpow
  rw [Word.toNat_or_shiftLeft hr, hd]
  rw [hd]
  omega

/-- A middle byte: the digits `m` are still to come, from bit `k` on. -/
private theorem rawVarintByte_run {m n k j : ℕ} {ws rest : List UInt8} {as₂ : List Ans} {s : Conn}
    {next : BitVec 32 → UInt8 → Prog Conn RawVarint} (hk : k ≤ 21)
    (hws : Varint.Encodes m ws)
    (hnext : ∀ r b bs as, Varint.Encodes (m / 128) bs → bs.length + 1 = ws.length →
      r.toNat < 2 ^ (k + 7) → r.toNat + m / 128 * 2 ^ (k + 7) = n →
      Transfer.Live as → as.length = bs.length →
      (next r b).run { s with incoming := bs ++ rest, reads := as ++ as₂ } =
        .ret ⟨0, j + 1 + bs.length, BitVec.ofNat 32 n⟩
          { s with incoming := rest, reads := as₂ })
    (r : BitVec 32) (tmp : UInt8) (as₁ : List Ans) (hr : r.toNat < 2 ^ k)
    (hsum : r.toNat + m * 2 ^ k = n) (hlive : Transfer.Live as₁)
    (hlen : as₁.length = ws.length) :
    (rawVarintByte (j + 1) k next r tmp).run
        { s with incoming := ws ++ rest, reads := as₁ ++ as₂ } =
      .ret ⟨0, j + ws.length, BitVec.ofNat 32 n⟩
        { s with incoming := rest, reads := as₂ } := by
  obtain ⟨b, bs, as, rfl, hhead, has, hlen', hread⟩ :=
    readChar_varint (s := { s with incoming := _, reads := _ }) hws rfl rfl hlive hlen tmp
  rw [rawVarintByte, Prog.run_bind, hread, Outcome.andThen_ret]
  cases hhead with
  | last hb hm =>
      obtain rfl := List.length_eq_zero_iff.mp hlen'
      rw [if_pos ((charNonneg_iff _).mpr (by omega)), or_last hr hb hm (by omega), hsum]
      rfl
  | more hb hbs =>
      have hvalue := or_more hr hb hk
      have hsplit : m % 128 * 2 ^ k + m / 128 * 2 ^ (k + 7) = m * 2 ^ k := by
        rw [Nat.pow_add, ← Nat.mul_assoc, Nat.mul_right_comm, ← Nat.add_mul]
        congr 1
        omega
      have hle : m % 128 * 2 ^ k ≤ 127 * 2 ^ k := Nat.mul_le_mul_right _ (by omega)
      have hpow : 2 ^ (k + 7) = 128 * 2 ^ k := by rw [Nat.pow_add, Nat.mul_comm]
      rw [if_neg (not_charNonneg hb), hnext _ b bs as hbs rfl (by omega) (by omega) has hlen',
        List.length_cons]
      congr 2
      omega

/-- The fifth byte of a varint, of which the lowest four bits fit. -/
private theorem rawVarintTail_run {m n : ℕ} {ws rest : List UInt8} {as₂ : List Ans} {s : Conn}
    (hws : Varint.Encodes m ws) (hlast : ws.length ≤ 1)
    (value r : BitVec 32) (tmp : UInt8) (as₁ : List Ans)
    (hr : r.toNat < 2 ^ 28) (hsum : r.toNat + m * 2 ^ 28 = n) (hlive : Transfer.Live as₁)
    (hlen : as₁.length = ws.length) :
    (rawVarintTail value r tmp).run
        { s with incoming := ws ++ rest, reads := as₁ ++ as₂ } =
      .ret ⟨0, 4 + ws.length, BitVec.ofNat 32 n⟩
        { s with incoming := rest, reads := as₂ } := by
  obtain ⟨b, bs, as, rfl, hhead, -, hlen', hread⟩ :=
    readChar_varint (s := { s with incoming := _, reads := _ }) hws rfl rfl hlive hlen tmp
  rw [rawVarintTail, Prog.run_bind, hread, Outcome.andThen_ret]
  cases hhead with
  | last hb hm =>
      obtain rfl := List.length_eq_zero_iff.mp hlen'
      rw [if_pos ((charNonneg_iff _).mpr (by omega)), or_last hr hb hm (by omega), hsum]
      rfl
  | more hb hbs =>
      have hpos := List.length_pos_of_ne_nil hbs.ne_nil
      rw [List.length_cons] at hlast
      omega

/-- The reader of varints recovers the low 32 bits of a number from any varint of
five bytes at most, at one answer a byte. -/
theorem readRawVarint32_run {s : Conn} {n : ℕ} {ws rest : List UInt8} {as₁ as₂ : List Ans}
    (hws : Varint.Encodes n ws) (hfive : ws.length ≤ 5)
    (hin : s.incoming = ws ++ rest) (hreads : s.reads = as₁ ++ as₂)
    (hlive : Transfer.Live as₁) (hlen : as₁.length = ws.length)
    (tmp : UInt8) (value : BitVec 32) :
    (readRawVarint32 tmp value).run s =
      .ret ⟨0, ws.length, BitVec.ofNat 32 n⟩
        { s with incoming := rest, reads := as₂ } := by
  rw [readRawVarint32, Prog.run_bind]
  obtain ⟨b, bs, as, rfl, hhead, has, hlen', hread⟩ :=
    readChar_varint hws hin hreads hlive hlen tmp
  rw [hread, Outcome.andThen_ret]
  cases hhead with
  | last hb hm =>
      obtain rfl := List.length_eq_zero_iff.mp hlen'
      rw [if_pos ((charNonneg_iff _).mpr (by omega)),
        eq_ofNat ((charToInt_of_lt (by omega)).trans hb)]
      rfl
  | more hb hbs =>
      have hr : (charToInt b &&& 0x7f).toNat = n % 128 := by
        rw [charToInt_and_7f, hb]
        omega
      rw [List.length_cons] at hfive
      rw [if_neg (not_charNonneg hb), List.length_cons, Nat.add_comm]
      refine rawVarintByte_run (j := 1) (by decide) hbs ?_ _ b as (by omega) (by omega) has hlen'
      refine fun r b cs as hcs hlen₂ hr hsum has hlen =>
        rawVarintByte_run (j := 2) (by decide) hcs ?_ r b as hr hsum has hlen
      refine fun r b ds as hds hlen₃ hr hsum has hlen =>
        rawVarintByte_run (j := 3) (by decide) hds ?_ r b as hr hsum has hlen
      exact fun r b es as hes hlen₄ hr hsum has hlen =>
        rawVarintTail_run hes (by omega) value r b as hr hsum has hlen

end HdClient
