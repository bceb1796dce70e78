-- SUMMARY: The reader and the writer of varints on a connection: what each accepts, and that one undoes the other.
import HdClient.Client.Arrivals
import HdClient.Client.ClientRmProtocol

/-! # Varints on a connection -/

namespace HdClient

open Pbc Conn

variable {s u : Conn} {n : ℕ} {ws rest : List UInt8} {tmp : UInt8}

/-! ## One byte after the other -/

/-- The byte in `tmp` after a `read` that may not bring one. -/
def nextChar (tmp : UInt8) (s : Conn) : UInt8 := s.incoming.head?.getD tmp

theorem gives_readChar (tmp : UInt8) (s : Conn) :
    Gives 1 (readChar tmp) s (nextChar tmp s) (s.dropping 1) := by
  intro as hlive hlen
  obtain ⟨a, as, rfl⟩ := List.exists_cons_of_length_pos hlen
  obtain ⟨⟨k, hk, rfl⟩, -⟩ := Transfer.live_cons.mp hlive
  refine ⟨as, List.suffix_cons _ as, by simp, ?_⟩
  rw [readChar, Prog.run_bind, read_run (s := s.withReads (.upTo k :: as)) rfl, nextChar]
  cases hin : s.incoming with
  | nil => simp [hin, Conn.setIncoming, Conn.withReads, Conn.dropping]
  | cons b bs =>
      have hmin : min k (min 1 (b :: bs).length) = 1 := by
        rw [List.length_cons]
        omega
      rw [Conn.incoming_withReads, hin, hmin]
      simp [hin, Conn.setIncoming, Conn.withReads, Conn.dropping]

/-- Every byte that can still come says that another one follows. -/
structure Unending (tmp : UInt8) (s : Conn) : Prop where
  next : charNonneg (nextChar tmp s) = false
  more : ∀ b ∈ s.incoming, charNonneg b = false

theorem Unending.step (h : Unending tmp s) :
    Unending (nextChar tmp s) (s.dropping 1) := by
  have hmore : ∀ b ∈ (s.dropping 1).incoming, charNonneg b = false :=
    fun b hb => h.more b (List.mem_of_mem_drop hb)
  refine ⟨?_, hmore⟩
  rw [nextChar]
  cases hhead : (s.dropping 1).incoming.head? with
  | none => exact h.next
  | some b => exact hmore b (List.mem_of_head? hhead)

/-- The next `k` bytes, as far as they come, each say that another one follows. -/
def UnendingFor : ℕ → UInt8 → Conn → Prop
  | 0, _, _ => True
  | k + 1, tmp, s =>
      charNonneg (nextChar tmp s) = false ∧ UnendingFor k (nextChar tmp s) (s.dropping 1)

theorem Unending.for (h : Unending tmp s) (k : ℕ) : UnendingFor k tmp s := by
  induction k generalizing tmp s with
  | zero => trivial
  | succ k ih => exact ⟨h.next, ih h.step⟩

theorem gives_discardLoop (i readlen : ℕ) (h : UnendingFor i tmp s) :
    Gives i (discardLoop i tmp readlen) s (false, readlen + i) (s.dropping i) := by
  induction i generalizing tmp s readlen with
  | zero => exact gives_pure _ s
  | succ i ih =>
      have hrest := ih (readlen + 1) h.2
      rw [Conn.dropping_dropping, Nat.add_comm 1 i] at hrest
      refine ((gives_readChar tmp s).bind (n := i) ?_).mono (by omega)
      rw [if_neg (by rw [h.1]; decide), Nat.add_comm i 1, ← Nat.add_assoc, Nat.add_comm 1 i]
      exact hrest

/-- A byte that another one follows is added to the result, whatever that comes to. -/
theorem gives_rawVarintByte_more {j k : ℕ} {out : RawVarint}
    {next : BitVec 32 → UInt8 → Prog Conn RawVarint} {r : BitVec 32}
    (hneg : charNonneg (nextChar tmp s) = false)
    (hnext : Gives n (next (r ||| (charToInt (nextChar tmp s) &&& 0x7f) <<< k) (nextChar tmp s))
      (s.dropping 1) out u) : Gives (n + 1) (rawVarintByte j k next r tmp) s out u := by
  refine ((gives_readChar tmp s).bind (n := n) ?_).mono (by omega)
  rw [if_neg (by rw [hneg]; decide)]
  exact hnext

private theorem gives_rawVarintTail_unending (value r : BitVec 32) (h : UnendingFor 6 tmp s) :
    Gives 6 (rawVarintTail value r tmp) s ⟨0, 10, value⟩ (s.dropping 6) := by
  refine (gives_readChar tmp s).bind (n := 5) ?_
  rw [if_neg (by rw [h.1]; decide)]
  refine (gives_discardLoop 5 5 h.2).bind (n := 0) ?_
  rw [Conn.dropping_dropping]
  exact gives_pure _ _

/-- A varint without an end leaves its value as it was, after ten reads. -/
theorem gives_readRawVarint32_unending (value : BitVec 32) (h : UnendingFor 10 tmp s) :
    Gives 10 (readRawVarint32 tmp value) s ⟨0, 10, value⟩ (s.dropping 10) := by
  obtain ⟨h₁, h₂, h₃, h₄, htail⟩ := h
  have hdrop : ((((s.dropping 1).dropping 1).dropping 1).dropping 1).dropping 6 = s.dropping 10 := by
    simp only [Conn.dropping_dropping]
  refine (gives_readChar tmp s).bind (n := 9) ?_
  rw [if_neg (by rw [h₁]; decide), ← hdrop]
  exact gives_rawVarintByte_more h₂ (gives_rawVarintByte_more h₃
    (gives_rawVarintByte_more h₄ (gives_rawVarintTail_unending value _ htail)))

/-! ## Varints that come -/

/-- Reading a varint of five bytes at most takes one read a byte. -/
theorem gives_readRawVarint32 (hws : Varint.Encodes n ws) (hfive : ws.length ≤ 5)
    (hin : s.incoming = ws ++ rest) (tmp : UInt8) (value : BitVec 32) :
    Gives ws.length (readRawVarint32 tmp value) s ⟨0, ws.length, BitVec.ofNat 32 n⟩
      (s.dropping ws.length) := by
  intro as hlive hlen
  have hsplit := (List.take_append_drop ws.length as).symm
  refine ⟨as.drop ws.length, List.drop_suffix _ as, by rw [List.length_drop]; omega, ?_⟩
  rw [readRawVarint32_run (s := s.withReads as) hws hfive hin hsplit
    (fun a ha => hlive a (List.mem_of_mem_take ha)) (List.length_take_of_le hlen)]
  simp [Conn.dropping, Conn.withReads, hin]

/-- All bytes of a varint but the last one say that another one follows. -/
theorem unendingFor_of_encodes (h : Varint.Encodes n ws) (hin : s.incoming = ws ++ rest) {k : ℕ}
    (hk : k < ws.length) : UnendingFor k tmp s := by
  induction h generalizing s k tmp with
  | last _ =>
      obtain rfl : k = 0 := by simpa using hk
      trivial
  | @more b n bs hb _ ih =>
      cases k with
      | zero => trivial
      | succ k =>
          have hnext : nextChar tmp s = b := by simp [nextChar, hin]
          have hrest : (s.dropping 1).incoming = bs ++ rest := by simp [hin]
          refine ⟨?_, ih hrest (by simpa using hk)⟩
          rw [hnext]
          simpa [charNonneg] using hb

theorem encodes_drop (h : Varint.Encodes n ws) {k : ℕ} (hk : k < ws.length) :
    ∃ m, Varint.Encodes m (ws.drop k) := by
  induction h generalizing k with
  | last hb =>
      obtain rfl : k = 0 := by simpa using hk
      exact ⟨_, .last hb⟩
  | @more b n bs hb hbs ih =>
      cases k with
      | zero => exact ⟨_, .more hb hbs⟩
      | succ k => exact ih (by simpa using hk)

/-- The loop over the bytes behind the fifth one stops at the one that ends the varint. -/
theorem gives_discardLoop_ended (h : Varint.Encodes n ws) (hin : s.incoming = ws ++ rest)
    {i : ℕ} (hlen : ws.length ≤ i) (readlen : ℕ) :
    Gives ws.length (discardLoop i tmp readlen) s (true, readlen + ws.length)
      (s.dropping ws.length) := by
  induction h generalizing s i tmp readlen with
  | @last b hb =>
      obtain ⟨i, rfl⟩ : ∃ j, i = j + 1 := ⟨i - 1, by simp at hlen; omega⟩
      have hnext : nextChar tmp s = b := by simp [nextChar, hin]
      refine (gives_readChar tmp s).bind (n := 0) ?_
      rw [if_pos (by rw [hnext, charNonneg_iff]; exact hb)]
      exact gives_pure _ _
  | @more b n bs hb _ ih =>
      obtain ⟨i, rfl⟩ : ∃ j, i = j + 1 := ⟨i - 1, by simp at hlen; omega⟩
      have hnext : nextChar tmp s = b := by simp [nextChar, hin]
      have hrest : (s.dropping 1).incoming = bs ++ rest := by simp [hin]
      have htail := @ih (s.dropping 1) b hrest i (by simpa using hlen) (readlen + 1)
      rw [Conn.dropping_dropping, Nat.add_comm 1 bs.length] at htail
      have hcount : readlen + 1 + bs.length = readlen + (b :: bs).length := by
        rw [List.length_cons]
        omega
      refine ((gives_readChar tmp s).bind (n := bs.length) ?_).mono (by simp; omega)
      rw [if_neg (by rw [hnext, charNonneg_iff]; omega), hnext, ← hcount]
      exact htail

/-- A fifth byte that others follow, up to one that ends the varint. -/
private theorem gives_rawVarintTail_ended (value r : BitVec 32)
    (hneg : charNonneg (nextChar tmp s) = false) (hws : Varint.Encodes n ws)
    (hin : (s.dropping 1).incoming = ws ++ rest) (hlen : ws.length ≤ 5) :
    Gives (ws.length + 1) (rawVarintTail value r tmp) s
      ⟨-1, 5 + ws.length, r ||| charToInt (nextChar tmp s) <<< 28⟩
      ((s.dropping 1).dropping ws.length) := by
  refine ((gives_readChar tmp s).bind (n := ws.length) ?_).mono (by omega)
  rw [if_neg (by rw [hneg]; decide)]
  exact (gives_discardLoop_ended hws hin hlen 5).bind (n := 0) (gives_pure _ _)

/-- A varint of six to ten bytes is refused, once its last byte has been read. -/
theorem gives_readRawVarint32_long (hws : Varint.Encodes n ws) (hfive : 5 < ws.length)
    (hten : ws.length ≤ 10) (hin : s.incoming = ws ++ rest) (tmp : UInt8) (value : BitVec 32) :
    ∃ value', Gives 10 (readRawVarint32 tmp value) s ⟨-1, ws.length, value'⟩
      (s.dropping ws.length) := by
  obtain ⟨h₁, h₂, h₃, h₄, h₅, -⟩ := unendingFor_of_encodes (s := s) hws hin hfive
  obtain ⟨m, hdrop⟩ := encodes_drop hws hfive
  have hlen : (ws.drop 5).length = ws.length - 5 := List.length_drop
  have hin' : (((((s.dropping 1).dropping 1).dropping 1).dropping 1).dropping 1).incoming =
      ws.drop 5 ++ rest := by
    simp only [Conn.dropping_dropping, Conn.incoming_dropping, hin]
    rw [List.drop_append_of_le_length (by omega)]
  have hend : (((((s.dropping 1).dropping 1).dropping 1).dropping 1).dropping 1).dropping
      (ws.drop 5).length = s.dropping ws.length := by
    simp only [Conn.dropping_dropping, hlen]
    congr 1
    omega
  have hcount : 5 + (ws.drop 5).length = ws.length := by omega
  have htail := fun r => gives_rawVarintTail_ended value r h₅ hdrop hin' (by omega)
  simp only [hend, hcount] at htail
  have hmore : ∀ r, ∃ value', Gives ((ws.drop 5).length + 1 + 1 + 1 + 1)
      (rawVarintByte 2 7 (rawVarintByte 3 14 (rawVarintByte 4 21 (rawVarintTail value))) r
        (nextChar tmp s)) (s.dropping 1) ⟨-1, ws.length, value'⟩ (s.dropping ws.length) :=
    fun r => ⟨_, gives_rawVarintByte_more h₂ (gives_rawVarintByte_more h₃
      (gives_rawVarintByte_more h₄ (htail _)))⟩
  obtain ⟨value', hgives⟩ := hmore (charToInt (nextChar tmp s) &&& 0x7f)
  refine ⟨value', ((gives_readChar tmp s).bind (n := (ws.drop 5).length + 4) ?_).mono (by omega)⟩
  rw [if_neg (by rw [h₁]; decide)]
  exact hgives

/-! ## What is accepted -/

/-- The bytes begin with a varint of `k` bytes at most. -/
def BeginsVarint (k : ℕ) (bytes : List UInt8) : Prop :=
  ∃ n ws rest, Varint.Encodes n ws ∧ ws.length ≤ k ∧ bytes = ws ++ rest

/-- Where no varint begins, every byte says that another one follows. -/
theorem unendingFor_of_not_begins {k : ℕ} (h : ¬ BeginsVarint k s.incoming)
    (hfirst : s.incoming = [] → charNonneg tmp = false) : UnendingFor k tmp s := by
  induction k generalizing s tmp with
  | zero => trivial
  | succ k ih =>
      cases hin : s.incoming with
      | nil =>
          have hnext : nextChar tmp s = tmp := by simp [nextChar, hin]
          have hrest : (s.dropping 1).incoming = [] := by simp [hin]
          refine ⟨by rw [hnext]; exact hfirst hin, ih ?_ fun _ => by rw [hnext]; exact hfirst hin⟩
          rintro ⟨n, ws, rest, hws, -, heq⟩
          exact hws.ne_nil (List.append_eq_nil_iff.mp (heq.symm.trans hrest)).1
      | cons b bs =>
          have hnext : nextChar tmp s = b := by simp [nextChar, hin]
          have hrest : (s.dropping 1).incoming = bs := by simp [hin]
          have hneg : charNonneg b = false := by
            rw [← Bool.not_eq_true, charNonneg_iff]
            exact fun hb => h ⟨b.toNat, [b], bs, .last hb, by simp, hin⟩
          refine ⟨by rw [hnext]; exact hneg, ih ?_ fun _ => by rw [hnext]; exact hneg⟩
          rintro ⟨n, ws, rest, hws, hlen, heq⟩
          rw [hrest] at heq
          have hb : 128 ≤ b.toNat := by
            rw [← Bool.not_eq_true, charNonneg_iff] at hneg
            omega
          exact h ⟨_, b :: ws, rest, .more hb hws, by simpa using hlen, by rw [hin, heq]; rfl⟩

/-- What a reader of varints is to do, however the bytes arrive: take a varint of
ten bytes at most and nothing else, refuse everything else, and never look at
what was in `tmp` before. -/
structure ReadsVarint (s : Conn) : Prop where
  accepts : ∀ n ws rest, Varint.Encodes n ws → ws.length ≤ 10 → s.incoming = ws ++ rest →
    ∀ tmp value, Gives 10 (readRawVarint32 tmp value) s ⟨0, ws.length, BitVec.ofNat 32 n⟩
      (s.dropping ws.length)
  refuses : ¬ BeginsVarint 10 s.incoming → ∀ tmp value, ∃ r u,
    Gives 10 (readRawVarint32 tmp value) s r u ∧ r.rc ≠ 0
  independent : ∀ tmp tmp' value r r' u u', Gives 10 (readRawVarint32 tmp value) s r u →
    Gives 10 (readRawVarint32 tmp' value) s r' u' → r.value = r'.value

/-- A call gives one value at most. -/
theorem Gives.unique {α : Type} {x : Prog Conn α} {m : ℕ} {a b : α} {v : Conn}
    (h : Gives n x s a u) (h' : Gives m x s b v) : a = b := by
  have hlive := Transfer.live_replicate (k := 1) (by decide) (n + m)
  obtain ⟨_, -, -, hrun⟩ := h _ hlive (by rw [List.length_replicate]; omega)
  obtain ⟨_, -, -, hrun'⟩ := h' _ hlive (by rw [List.length_replicate]; omega)
  rw [hrun, Outcome.ret.injEq] at hrun'
  exact hrun'.1

/-- The reader does that exactly where a varint of five bytes at most begins: a
longer one is refused, and what is no varint is taken for one. -/
theorem readsVarint_iff (s : Conn) : ReadsVarint s ↔ BeginsVarint 5 s.incoming := by
  constructor
  · intro h
    by_cases hten : BeginsVarint 10 s.incoming
    · obtain ⟨n, ws, rest, hws, hlen, hin⟩ := hten
      by_contra hfive
      have hlong : 5 < ws.length := by
        by_contra hle
        exact hfive ⟨n, ws, rest, hws, by omega, hin⟩
      obtain ⟨value', hgives⟩ := gives_readRawVarint32_long hws hlong hlen hin 0 0
      have heq := (h.accepts n ws rest hws hlen hin 0 0).unique hgives
      rw [RawVarint.mk.injEq] at heq
      exact absurd heq.1 (by decide)
    · obtain ⟨r, u, hgives, hrc⟩ := h.refuses hten 0x80 0
      have hunending : UnendingFor 10 0x80 s := unendingFor_of_not_begins hten fun _ => by decide
      have heq := hgives.unique (gives_readRawVarint32_unending 0 hunending)
      rw [heq] at hrc
      exact absurd rfl hrc
  · rintro ⟨n, ws, rest, hws, hfive, hin⟩
    have hgives := fun tmp value => (gives_readRawVarint32 hws hfive hin tmp value).mono
      (by omega : ws.length ≤ 10)
    refine ⟨fun n' ws' rest' hws' _ hin' tmp value => ?_, fun hten => ?_, ?_⟩
    · obtain ⟨rfl, rfl, -⟩ := Varint.encodes_unambiguous hws hws' (hin ▸ hin')
      exact hgives tmp value
    · exact absurd ⟨n, ws, rest, hws, by omega, hin⟩ hten
    · intro tmp tmp' value r r' u u' hr hr'
      rw [hr.unique (hgives tmp value), hr'.unique (hgives tmp' value)]

/-- A peer that sends these bytes and then closes its end. -/
def sendingConn (incoming : List UInt8) : Conn where
  proxy := ⟨1, .client, .rm, clientRmProtocolName, -1⟩
  incoming := incoming
  outgoing := []
  reads := []
  writes := []
  allocs := []
  printed := []

/-- A varint of ten bytes, as it is sent for a negative number, is refused. -/
theorem ten_bytes_refused : ¬ ∀ s : Conn, ReadsVarint s := by
  intro hclaim
  have hws : Varint.Encodes (2 ^ 64 - 1) (List.replicate 9 255 ++ [1]) := by
    have hencode : Varint.encode (2 ^ 64 - 1) = List.replicate 9 255 ++ [1] := by decide +kernel
    exact hencode ▸ Varint.encodes_encode _
  have hin : (sendingConn (List.replicate 9 255 ++ [1])).incoming =
      (List.replicate 9 255 ++ [1]) ++ [] := rfl
  obtain ⟨value', hgives⟩ := gives_readRawVarint32_long hws (by decide) (by decide) hin 0 0
  have heq := ((hclaim _).accepts _ _ _ hws (by decide) hin 0 0).unique hgives
  rw [RawVarint.mk.injEq] at heq
  exact absurd heq.1 (by decide)

/-! ## The writer -/

theorem toNat_of_nonneg {value : BitVec 32} (h : 0 ≤ value.toInt) : value.toNat < 2 ^ 31 := by
  by_contra hge
  rw [BitVec.toInt_eq_toNat_cond] at h
  split at h <;> omega

/-- A shift of a negative number is negative, so the loop goes on. -/
theorem writeRawVarint32_negative (room : ℕ) {value : BitVec 32} (h : value.toInt < 0) :
    writeRawVarint32 room value = none := by
  have hmsb : value.msb = true := by rwa [BitVec.msb_eq_toInt, decide_eq_true_iff]
  clear h
  induction room generalizing value with
  | zero => rfl
  | succ room ih =>
      have hne : value &&& ~~~0x7f ≠ 0 := by
        intro hzero
        have hbit := congrArg BitVec.msb hzero
        rw [BitVec.msb_and, hmsb] at hbit
        exact absurd hbit (by decide)
      rw [writeRawVarint32, if_neg hne, ih (by rw [BitVec.msb_sshiftRight, hmsb])]
      rfl

/-- A buffer that the loop does not run out of is as good as a larger one. -/
theorem writeRawVarint32_mono {room : ℕ} {value : BitVec 32}
    (h : writeRawVarint32 room value = some ws) (k : ℕ) :
    writeRawVarint32 (room + k) value = some ws := by
  induction room generalizing value ws with
  | zero => simp [writeRawVarint32] at h
  | succ room ih =>
      rw [Nat.add_right_comm]
      rw [writeRawVarint32] at h ⊢
      split at h
      · rename_i hlast
        rw [if_pos hlast, h]
      · rename_i hmore
        obtain ⟨tail, htail, rfl⟩ := Option.map_eq_some_iff.mp h
        rw [if_neg hmore, ih htail]
        rfl

/-- What is written for a number that is not negative is its canonical varint. -/
theorem writeRawVarint32_nonneg {value : BitVec 32} (h : 0 ≤ value.toInt) :
    writeRawVarint32 maxVintSize value = some (Varint.encode value.toNat) ∧
      ∀ room ws, writeRawVarint32 room value = some ws → ws = Varint.encode value.toNat := by
  have hlt := toNat_of_nonneg h
  refine ⟨writeRawVarint32_eq hlt (by omega), fun room ws hws => ?_⟩
  have hlarge : writeRawVarint32 (room + 8) value = some (Varint.encode value.toNat) :=
    writeRawVarint32_eq hlt (Nat.lt_of_lt_of_le (by omega : value.toNat < 128 ^ 8)
      (Nat.pow_le_pow_right (by decide) (by omega)))
  rw [writeRawVarint32_mono hws, Option.some.injEq] at hlarge
  exact hlarge

/-- The loop of `write_raw_varint32` ends within the buffer of a caller, after
five bytes at most, and has stored the varint of the 32 bits. -/
def WritesVarint (value : BitVec 32) : Prop :=
  ∃ bytes, writeRawVarint32 maxVintSize value = some bytes ∧ 1 ≤ bytes.length ∧ bytes.length ≤ 5 ∧
    bytes = Varint.encode value.toNat

theorem encode_length_le_five {value : BitVec 32} :
    1 ≤ (Varint.encode value.toNat).length ∧ (Varint.encode value.toNat).length ≤ 5 :=
  ⟨Varint.encode_length_pos _, Varint.encode_length_le (Nat.lt_trans value.isLt (by decide))⟩

/-- The loop ends for the numbers that are not negative. -/
theorem writesVarint_iff (value : BitVec 32) : WritesVarint value ↔ 0 ≤ value.toInt := by
  constructor
  · rintro ⟨bytes, hwrite, -⟩
    by_contra hneg
    rw [writeRawVarint32_negative _ (by omega)] at hwrite
    cases hwrite
  · intro h
    exact ⟨_, (writeRawVarint32_nonneg h).1, encode_length_le_five.1, encode_length_le_five.2, rfl⟩

/-- For minus one no buffer is large enough. -/
theorem minus_one_unending : (∀ room, writeRawVarint32 room (-1) = none) ∧
    ¬ ∀ value, WritesVarint value := by
  have hnone : ∀ room, writeRawVarint32 room (-1) = none := fun room =>
    writeRawVarint32_negative room (by decide)
  refine ⟨hnone, fun hclaim => ?_⟩
  obtain ⟨bytes, hwrite, -⟩ := hclaim (-1)
  rw [hnone] at hwrite
  cases hwrite

/-! ## Reading what was written -/

/-- What `write_raw_varint32` stores, if its loop ends within the buffer of a caller. -/
def writtenVarint (value : BitVec 32) : List UInt8 :=
  (writeRawVarint32 maxVintSize value).getD []

theorem writtenVarint_eq {value : BitVec 32} (h : 0 ≤ value.toInt) :
    writtenVarint value = Varint.encode value.toNat := by
  rw [writtenVarint, (writeRawVarint32_nonneg h).1]
  rfl

theorem gives_written {value : BitVec 32} (h : 0 ≤ value.toInt)
    (hin : s.incoming = writtenVarint value ++ rest) (tmp : UInt8) (old : BitVec 32) :
    Gives (writtenVarint value).length (readRawVarint32 tmp old) s
      ⟨0, (writtenVarint value).length, value⟩ (s.dropping (writtenVarint value).length) := by
  have heq := writtenVarint_eq h
  have hgives := gives_readRawVarint32 (heq ▸ Varint.encodes_encode value.toNat)
    (heq ▸ encode_length_le_five.2) hin tmp old
  rwa [BitVec.ofNat_toNat, BitVec.setWidth_eq] at hgives

/-- Reading one varint after the other. -/
def readVarints : List (UInt8 × BitVec 32) → Prog Conn (List RawVarint)
  | [] => pure []
  | (tmp, value) :: locals => do
      let r ← readRawVarint32 tmp value
      let rs ← readVarints locals
      pure (r :: rs)

theorem gives_readVarints {values : List (BitVec 32)} (h : ∀ v ∈ values, 0 ≤ v.toInt)
    {locals : List (UInt8 × BitVec 32)} (hlen : locals.length = values.length)
    (hin : s.incoming = values.flatMap writtenVarint ++ rest) :
    Gives (values.flatMap writtenVarint).length (readVarints locals) s
      (values.map fun v => ⟨0, (writtenVarint v).length, v⟩)
      (s.dropping (values.flatMap writtenVarint).length) := by
  induction values generalizing s locals with
  | nil =>
      obtain rfl : locals = [] := List.length_eq_zero_iff.mp hlen
      exact gives_pure _ s
  | cons v values ih =>
      obtain ⟨⟨tmp, value⟩, locals, rfl⟩ := List.exists_cons_of_length_eq_add_one hlen
      rw [List.flatMap_cons, List.append_assoc] at hin
      have hfirst := gives_written (h v List.mem_cons_self) hin tmp value
      have hrest : (s.dropping (writtenVarint v).length).incoming =
          values.flatMap writtenVarint ++ rest := by simp [hin]
      have htail := ih (fun w hw => h w (List.mem_cons_of_mem v hw)) (by simpa using hlen) hrest
      rw [Conn.dropping_dropping] at htail
      rw [List.flatMap_cons, List.length_append]
      exact hfirst.bind (htail.bind (n := 0) (gives_pure _ _))

/-- The reader undoes the writer: what is written for a number takes one to five
bytes, it is read back whatever follows it, it is not the beginning of what is
written for another number, and a sequence of numbers is read back in order. -/
theorem varint_roundtrip {value : BitVec 32} (hvalue : 0 ≤ value.toInt) :
    (∀ room ws, writeRawVarint32 room value = some ws → ws = writtenVarint value) ∧
      writeRawVarint32 maxVintSize value = some (writtenVarint value) ∧
      1 ≤ (writtenVarint value).length ∧ (writtenVarint value).length ≤ 5 ∧
      (∀ (s : Conn) rest tmp old, s.incoming = writtenVarint value ++ rest →
        Gives (writtenVarint value).length (readRawVarint32 tmp old) s
            ⟨0, (writtenVarint value).length, value⟩ (s.dropping (writtenVarint value).length) ∧
          (s.dropping (writtenVarint value).length).incoming = rest) ∧
      (∀ other : BitVec 32, 0 ≤ other.toInt → writtenVarint value <+: writtenVarint other →
        other = value) ∧
      ∀ (values : List (BitVec 32)) (locals : List (UInt8 × BitVec 32)) (s : Conn) rest,
        (∀ v ∈ value :: values, 0 ≤ v.toInt) → locals.length = (value :: values).length →
        s.incoming = (value :: values).flatMap writtenVarint ++ rest →
        Gives ((value :: values).flatMap writtenVarint).length (readVarints locals) s
            ((value :: values).map fun v => ⟨0, (writtenVarint v).length, v⟩)
            (s.dropping ((value :: values).flatMap writtenVarint).length) ∧
          (s.dropping ((value :: values).flatMap writtenVarint).length).incoming = rest := by
  have heq := writtenVarint_eq hvalue
  obtain ⟨hwrite, hall⟩ := writeRawVarint32_nonneg hvalue
  refine ⟨fun room ws hws => heq ▸ hall room ws hws, heq ▸ hwrite, heq ▸ encode_length_le_five.1,
    heq ▸ encode_length_le_five.2, ?_, ?_, ?_⟩
  · intro s rest tmp old hin
    exact ⟨gives_written hvalue hin tmp old, by simp [hin]⟩
  · rintro other hother ⟨rest, hbegin⟩
    rw [heq, writtenVarint_eq hother] at hbegin
    obtain ⟨hval, -, -⟩ := Varint.encodes_unambiguous (Varint.encodes_encode value.toNat)
      (Varint.encodes_encode other.toNat) (hbegin.trans (List.append_nil _).symm)
    exact (BitVec.eq_of_toNat_eq hval).symm
  · intro values locals s rest h hlen hin
    exact ⟨gives_readVarints h hlen hin, by simp [hin]⟩

/-- Three hundred is written in two bytes, and read back in front of others. -/
theorem varint_roundtrip_300 : Gives 2 (readRawVarint32 0 0) (sendingConn [0xac, 0x02, 0xff])
    ⟨0, 2, 300⟩ (sendingConn [0xff]) :=
  ((@varint_roundtrip 300 (by decide)).2.2.2.2.1
    (sendingConn [0xac, 0x02, 0xff]) [0xff] 0 0 (by decide)).1

end HdClient
