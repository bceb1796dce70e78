-- SUMMARY: The protobuf wire format: records of a field number and a payload, their canonical encoding, and the words that stand for a message.
import HdClient.Base.Varint

/-! # The protobuf wire format

A serialized message is a sequence of records. A record is a tag, which holds a
field number and a wire type, followed by a payload of that wire type. -/

namespace Wire

/-- What a record carries. -/
inductive Payload where
  | varint (v : BitVec 64)
  | bits64 (v : BitVec 64)
  | lend (body : List UInt8)
  | bits32 (v : BitVec 32)
  deriving DecidableEq

namespace Payload

def wiretype : Payload → ℕ
  | .varint _ => 0
  | .bits64 _ => 1
  | .lend _ => 2
  | .bits32 _ => 5

theorem wiretype_lt (p : Payload) : p.wiretype < 8 := by
  cases p <;> simp [wiretype]

end Payload

/-- One field of a serialized message. -/
structure Record where
  number : ℕ
  payload : Payload
  number_pos : 0 < number
  number_lt : number < 2 ^ 29
  deriving DecidableEq

def Record.tag (r : Record) : ℕ := r.number * 8 + r.payload.wiretype

theorem Record.tag_lt (r : Record) : r.tag < 2 ^ 32 := by
  have := r.number_lt
  have := r.payload.wiretype_lt
  simp only [tag]
  omega

theorem Record.tag_div (r : Record) : r.tag / 8 = r.number := by
  have := r.payload.wiretype_lt
  simp only [tag]
  omega

theorem Record.tag_mod (r : Record) : r.tag % 8 = r.payload.wiretype := by
  have := r.payload.wiretype_lt
  simp only [tag]
  omega

/-! ## Encoding -/

/-- The first `k` bytes of a number, least significant first. -/
def leBytes : ℕ → ℕ → List UInt8
  | 0, _ => []
  | k + 1, n => UInt8.ofNat n :: leBytes k (n / 256)

@[simp] theorem leBytes_length (k n : ℕ) : (leBytes k n).length = k := by
  induction k generalizing n with
  | zero => rfl
  | succ k ih => simp [leBytes, ih]

theorem leBytes_injective {k m n : ℕ} (hm : m < 256 ^ k) (hn : n < 256 ^ k)
    (h : leBytes k m = leBytes k n) : m = n := by
  induction k generalizing m n with
  | zero =>
      simp only [Nat.pow_zero] at hm hn
      omega
  | succ k ih =>
      simp only [leBytes, List.cons.injEq, ← UInt8.toNat_inj, UInt8.toNat_ofNat'] at h
      rw [Nat.pow_succ] at hm hn
      have hdiv := ih (by omega) (by omega) h.2
      omega

theorem leBytes_eight (n : ℕ) :
    leBytes 8 n = leBytes 4 n ++ leBytes 4 (n / 2 ^ 32) := by
  have hpow : 2 ^ 32 = 256 * 256 * 256 * 256 := by decide
  simp only [leBytes, Nat.div_div_eq_div_mul, List.cons_append, List.nil_append, hpow]

def Payload.encode : Payload → List UInt8
  | .varint v => Varint.encode v.toNat
  | .bits64 v => leBytes 8 v.toNat
  | .lend body => Varint.encode body.length ++ body
  | .bits32 v => leBytes 4 v.toNat

def Record.encode (r : Record) : List UInt8 := Varint.encode r.tag ++ r.payload.encode

/-- The canonical serialization of a message. -/
def encode (rs : List Record) : List UInt8 := rs.flatMap Record.encode

@[simp] theorem encode_nil : encode [] = [] := rfl

@[simp] theorem encode_cons (r : Record) (rs : List Record) :
    encode (r :: rs) = r.encode ++ encode rs := by
  simp [encode]

@[simp] theorem encode_append (rs ss : List Record) :
    encode (rs ++ ss) = encode rs ++ encode ss := by
  simp [encode]

theorem Record.encode_ne_nil (r : Record) : r.encode ≠ [] := by
  simp [Record.encode, Varint.encode_ne_nil]

theorem encode_eq_nil {rs : List Record} : encode rs = [] ↔ rs = [] := by
  cases rs with
  | nil => simp
  | cons r rs => simp [Record.encode_ne_nil]

/-! ## The words that stand for a message -/

/-- The words that stand for a payload of the wire type in question. -/
inductive Payload.Encodes : ℕ → Format UInt8 Payload where
  | varint {v : BitVec 64} {bs : List UInt8} :
      Varint.Encodes v.toNat bs → Encodes 0 (.varint v) bs
  | bits64 {v : BitVec 64} : Encodes 1 (.bits64 v) (leBytes 8 v.toNat)
  | lend {body bs : List UInt8} :
      Format.framed Varint.Encodes Format.raw body bs → Encodes 2 (.lend body) bs
  | bits32 {v : BitVec 32} : Encodes 5 (.bits32 v) (leBytes 4 v.toNat)

theorem Payload.encodes_encode (p : Payload) : Payload.Encodes p.wiretype p p.encode := by
  cases p with
  | varint v => exact .varint (Varint.encodes_encode _)
  | bits64 v => exact .bits64
  | lend body => exact .lend (Format.framed_intro (Varint.encodes_encode _) rfl)
  | bits32 v => exact .bits32

theorem Payload.encodes_unambiguous (wt : ℕ) : Format.Unambiguous (Payload.Encodes wt) := by
  intro p q xs ys r s hp hq h
  cases hp with
  | varint hv =>
      cases hq with
      | varint hw =>
          obtain ⟨hvw, rfl, rfl⟩ := Varint.encodes_unambiguous hv hw h
          exact ⟨congrArg _ (BitVec.eq_of_toNat_eq hvw), rfl, rfl⟩
  | bits64 =>
      cases hq with
      | bits64 =>
          obtain ⟨hvw, rfl⟩ := List.append_inj h (by simp)
          have hv := leBytes_injective (BitVec.isLt _) (BitVec.isLt _) hvw
          exact ⟨congrArg _ (BitVec.eq_of_toNat_eq hv), hvw, rfl⟩
  | lend hv =>
      cases hq with
      | lend hw =>
          obtain ⟨rfl, rfl, rfl⟩ := Format.framed_unambiguous Varint.encodes_unambiguous
            Format.raw_functional hv hw h
          exact ⟨rfl, rfl, rfl⟩
  | bits32 =>
      cases hq with
      | bits32 =>
          obtain ⟨hvw, rfl⟩ := List.append_inj h (by simp)
          have hv := leBytes_injective (BitVec.isLt _) (BitVec.isLt _) hvw
          exact ⟨congrArg _ (BitVec.eq_of_toNat_eq hv), hvw, rfl⟩

/-- A record: a tag, then a payload of the tag's wire type. -/
def Record.Encodes : Format UInt8 Record := fun r bs =>
  ∃ ts ps, bs = ts ++ ps ∧ Varint.Encodes r.tag ts ∧ Payload.Encodes (r.tag % 8) r.payload ps

theorem Record.encodes_encode (r : Record) : Record.Encodes r r.encode := by
  refine ⟨_, _, rfl, Varint.encodes_encode _, ?_⟩
  rw [r.tag_mod]
  exact r.payload.encodes_encode

theorem Record.encodes_unambiguous : Format.Unambiguous Record.Encodes := by
  rintro r s _ _ u v ⟨ts, ps, rfl, ht, hp⟩ ⟨ts', ps', rfl, ht', hp'⟩ h
  simp only [List.append_assoc] at h
  obtain ⟨htag, rfl, hrest⟩ := Varint.encodes_unambiguous ht ht' h
  rw [htag] at hp
  obtain ⟨hpay, rfl, rfl⟩ := Payload.encodes_unambiguous _ hp hp' hrest
  have hnum : r.number = s.number := by rw [← r.tag_div, ← s.tag_div, htag]
  refine ⟨?_, rfl, rfl⟩
  cases r
  cases s
  simp_all

theorem Record.Encodes.ne_nil {r : Record} {bs : List UInt8} (h : Record.Encodes r bs) :
    bs ≠ [] := by
  obtain ⟨ts, ps, rfl, ht, -⟩ := h
  simp [ht.ne_nil]

/-- A message: any number of records. -/
abbrev Message : Format UInt8 (List Record) := Format.Star Record.Encodes

theorem message_encode (rs : List Record) : Message rs (encode rs) := by
  induction rs with
  | nil => exact .nil
  | cons r rs ih =>
      rw [encode_cons]
      exact .cons r.encodes_encode ih

theorem message_functional : Format.Functional Message :=
  Format.star_functional Record.encodes_unambiguous fun _ _ h => h.ne_nil

/-! ## Short varints -/

/-- The number of bytes that are carried as they are. -/
def Payload.size : Payload → ℕ
  | .lend body => body.length
  | _ => 0

/-- A record that is written with varints of at most ten bytes, which is all
that a reader of 64-bit numbers follows. -/
def Record.Short : Format UInt8 Record := fun r bs =>
  ∃ ts ps, bs = ts ++ ps ∧ Varint.Encodes r.tag ts ∧ ts.length ≤ 10 ∧
    Payload.Encodes (r.tag % 8) r.payload ps ∧ ps.length ≤ 10 + r.payload.size

/-- A message that is written with varints of at most ten bytes. -/
abbrev ShortMessage : Format UInt8 (List Record) := Format.Star Record.Short

theorem Record.Short.encodes {r : Record} {bs : List UInt8} (h : Record.Short r bs) :
    Record.Encodes r bs := by
  obtain ⟨ts, ps, rfl, ht, -, hp, -⟩ := h
  exact ⟨ts, ps, rfl, ht, hp⟩

theorem Record.Short.ne_nil {r : Record} {bs : List UInt8} (h : Record.Short r bs) : bs ≠ [] :=
  h.encodes.ne_nil

/-- A message without records has no bytes. -/
theorem shortMessage_eq_nil {rs : List Record} {bs : List UInt8} (h : ShortMessage rs bs) :
    bs = [] ↔ rs = [] := by
  cases h with
  | nil => simp
  | cons hr _ => simp [hr.ne_nil]

theorem Record.short_encode (r : Record) (h : r.payload.size < 2 ^ 64) :
    Record.Short r r.encode := by
  refine ⟨_, _, rfl, Varint.encodes_encode _, ?_, ?_, ?_⟩
  · have htag : (Varint.encode r.tag).length ≤ 5 :=
      Varint.encode_length_le (Nat.lt_trans r.tag_lt (by decide))
    omega
  · rw [r.tag_mod]
    exact r.payload.encodes_encode
  · cases hp : r.payload with
    | varint v =>
        have hlen : (Varint.encode v.toNat).length ≤ 10 :=
          Varint.encode_length_le (Nat.lt_trans v.isLt (by decide))
        simpa [Payload.encode, Payload.size] using hlen
    | bits64 v => simp [Payload.encode, Payload.size]
    | lend body =>
        rw [hp] at h
        have hlen : (Varint.encode body.length).length ≤ 10 :=
          Varint.encode_length_le (Nat.lt_trans h (by decide))
        simpa [Payload.encode, Payload.size] using hlen
    | bits32 v => simp [Payload.encode, Payload.size]

theorem Record.size_le (r : Record) : r.payload.size ≤ r.encode.length := by
  rw [Record.encode, List.length_append]
  cases r.payload with
  | lend body =>
      simp only [Payload.size, Payload.encode, List.length_append]
      omega
  | varint | bits64 | bits32 => exact Nat.zero_le _

/-- The canonical serialization has short varints, unless it is of an absurd length. -/
theorem shortMessage_encode (rs : List Record) (h : (encode rs).length < 2 ^ 64) :
    ShortMessage rs (encode rs) := by
  induction rs with
  | nil => exact .nil
  | cons r rs ih =>
      have hsize := r.size_le
      rw [encode_cons, List.length_append] at h
      rw [encode_cons]
      exact .cons (r.short_encode (by omega)) (ih (by omega))

/-! ## Groups -/

mutual

/-- The words that stand for one field: those of a record, or those of a group, which
are the fields between two tags of its own and make no record. -/
inductive Piece.Encodes : Option Record → List UInt8 → Prop where
  | record {r : Record} {bs : List UInt8} : Record.Short r bs → Piece.Encodes (some r) bs
  | group {n : ℕ} {ts ms es : List UInt8} : 0 < n → n < 2 ^ 29 →
      Varint.Encodes (n * 8 + 3) ts → ts.length ≤ 10 → Piece.Inside ms →
      Varint.Encodes (n * 8 + 4) es → es.length ≤ 10 → Piece.Encodes none (ts ++ (ms ++ es))

/-- The words that stand for any number of fields. -/
inductive Piece.Inside : List UInt8 → Prop where
  | nil : Piece.Inside []
  | cons {r : Option Record} {ws bs : List UInt8} :
      Piece.Encodes r ws → Piece.Inside bs → Piece.Inside (ws ++ bs)

end

/-- One field of a message as it is written. -/
structure Piece where
  record : Option Record
  bytes : List UInt8
  encodes : Piece.Encodes record bytes

/-- A message as it is written, with groups or without. -/
def written (ps : List Piece) : List UInt8 := ps.flatMap (·.bytes)

@[simp] theorem written_nil : written [] = [] := rfl

@[simp] theorem written_cons (p : Piece) (ps : List Piece) :
    written (p :: ps) = p.bytes ++ written ps := by
  simp [written]

theorem Piece.ne_nil (p : Piece) : p.bytes ≠ [] := by
  obtain ⟨r, bs, h⟩ := p
  cases h with
  | record h => exact h.ne_nil
  | group _ _ ht => simp [ht.ne_nil]

theorem written_eq_nil {ps : List Piece} : written ps = [] ↔ ps = [] := by
  cases ps with
  | nil => simp
  | cons p ps => simp [p.ne_nil]

/-- There is a group among the fields of the message itself. -/
def HasGroup (ps : List Piece) : Prop := ∃ p ∈ ps, p.record = none

instance (ps : List Piece) : Decidable (HasGroup ps) :=
  inferInstanceAs (Decidable (∃ p ∈ ps, _))

/-- A record of a message, and the number of bytes of the message up to its end. -/
structure Spot where
  record : Record
  stop : ℕ

/-- The records of a message behind `front` bytes. -/
def spots : ℕ → List Piece → List Spot
  | _, [] => []
  | front, p :: ps =>
      (p.record.map fun r => (⟨r, front + p.bytes.length⟩ : Spot)).toList ++
        spots (front + p.bytes.length) ps

/-- The records of a message, without those inside groups. -/
def records (ps : List Piece) : List Record := ps.filterMap (·.record)

theorem map_record_spots (front : ℕ) (ps : List Piece) :
    (spots front ps).map (·.record) = records ps := by
  induction ps generalizing front with
  | nil => rfl
  | cons p ps ih =>
      rw [spots, List.map_append, ih, records, records, List.filterMap_cons]
      cases p.record <;> rfl

theorem mem_spots {ps : List Piece} {s : Spot} {front : ℕ} (h : s ∈ spots front ps) :
    s.record ∈ records ps :=
  map_record_spots front ps ▸ List.mem_map_of_mem h

theorem written_pos {ps : List Piece} {s : Spot} {front : ℕ} (h : s ∈ spots front ps) :
    0 < (written ps).length := by
  refine List.length_pos_of_ne_nil fun hnil => ?_
  rw [written_eq_nil.mp hnil] at h
  cases h

/-- Every record takes up a byte. -/
theorem spots_length_le (front : ℕ) (ps : List Piece) :
    (spots front ps).length ≤ (written ps).length := by
  induction ps generalizing front with
  | nil => simp [spots]
  | cons p ps ih =>
      have hpos := List.length_pos_of_ne_nil p.ne_nil
      have hone : (p.record.map fun r => (⟨r, front + p.bytes.length⟩ : Spot)).toList.length ≤ 1 := by
        cases p.record <;> simp
      have ih := ih (front + p.bytes.length)
      rw [spots, written_cons, List.length_append, List.length_append]
      omega

/-- A record, written in the canonical way. -/
def Record.piece (r : Record) (h : r.payload.size < 2 ^ 64) : Piece :=
  ⟨some r, r.encode, .record (r.short_encode h)⟩

/-- The records of fields, in order; those that are none are left out. -/
def fields (fs : List (ℕ × Payload)) : List Record :=
  fs.filterMap fun f =>
    if h : 0 < f.1 ∧ f.1 < 2 ^ 29 then some ⟨f.1, f.2, h.1, h.2⟩ else none

/-- Records, written in the canonical way; those that are too long are left out. -/
def pieces (rs : List Record) : List Piece :=
  rs.filterMap fun r => if h : r.payload.size < 2 ^ 64 then some (r.piece h) else none

/-- A message without groups, in its pieces. -/
theorem ShortMessage.pieces {rs : List Record} {bs : List UInt8} (h : ShortMessage rs bs) :
    ∃ ps, written ps = bs ∧ ¬ HasGroup ps ∧ records ps = rs := by
  induction h with
  | nil => exact ⟨[], rfl, by simp [HasGroup], rfl⟩
  | @cons r rs ws bs hr hrs ih =>
      obtain ⟨ps, rfl, hno, rfl⟩ := ih
      refine ⟨⟨some r, ws, .record hr⟩ :: ps, by simp, ?_, by simp [records]⟩
      rintro ⟨p, hp, hgroup⟩
      rcases List.mem_cons.mp hp with rfl | hp
      · cases hgroup
      · exact hno ⟨p, hp, hgroup⟩

/-! ## Fields -/

/-- The payloads of the records with a given number, in order. -/
def payloads (number : ℕ) (rs : List Record) : List Payload :=
  (rs.filter (·.number = number)).map (·.payload)

@[simp] theorem payloads_nil (number : ℕ) : payloads number [] = [] := rfl

theorem mem_payloads {number : ℕ} {rs : List Record} {p : Payload} :
    p ∈ payloads number rs ↔ ∃ r ∈ rs, r.number = number ∧ r.payload = p := by
  simp [payloads, and_assoc]

/-- The field `number` is set, once, to `p`. -/
def SetsOnce (rs : List Record) (number : ℕ) (p : Payload) : Prop := payloads number rs = [p]

instance (rs : List Record) (number : ℕ) (p : Payload) : Decidable (SetsOnce rs number p) :=
  inferInstanceAs (Decidable (_ = _))

end Wire
