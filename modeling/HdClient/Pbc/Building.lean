-- SUMMARY: Building messages with sub-messages: the objects of the library, the calls that fill them, the draft they stand for, and their serialization.
import Mathlib.Algebra.Group.Int.Defs
import HdClient.Pbc.Numbers

/-! # Building messages with sub-messages

A message under construction is a tree of objects, which the calls of a program
reach through pointers in any order. What the calls mean is a draft: for each
object the payloads that were put into it, and its sub-messages. -/

namespace Pbc

/-! ## Objects -/

/-- `struct pbc_wmessage` with its sub-messages; a pointer to one is its index. -/
structure WObject where
  m : Wmessage
  sub : List (Field × ℕ)

/-- The objects of one message; the first one is the message itself. -/
abbrev WHeap := List WObject

/-- `pbc_wmessage_message`: the object, or null for a key that is not there.
Undefined where the field is not one for messages. -/
def wmessageMessage (env : Env) (h : WHeap) (i : ℕ) (key : CStr) : Option (Option ℕ × WHeap) := do
  let w ← h[i]?
  match ← w.m.type.queryName key with
  | none => pure (none, h)
  | some f => match f.type_name with
      | .m (some t) => do
          let type ← env.messages[t]?
          pure (some h.length,
            h.set i { w with sub := w.sub ++ [(f, h.length)] } ++ [⟨.new type, []⟩])
      | _ => none

/-- The loop of `pbc_wmessage_buffer`, over the sub-messages `subs` of the object at `i`. -/
def appendSubs (buffer : WHeap → ℕ → Option (List UInt8 × WHeap)) (i : ℕ) :
    List (Field × ℕ) → WHeap → Option WHeap
  | [], h => some h
  | (f, j) :: subs, h => do
      let (s, h) ← buffer h j
      let w ← h[i]?
      let m ← w.m.expand (20 + s.length)
      let m := m.append (Wmessage.tag f 2 ++ encode32 (BitVec.ofNat 32 s.length) ++ s)
      appendSubs buffer i subs (h.set i { w with m := m })

/-- `pbc_wmessage_buffer`; what it appends stays in the objects. -/
def wmessageBufferAux : ℕ → WHeap → ℕ → Option (List UInt8 × WHeap)
  | 0, _, _ => none
  | fuel + 1, h, i => do
      let w ← h[i]?
      let m ← w.m.pack
      let h ← appendSubs (wmessageBufferAux fuel) i w.sub (h.set i { w with m := m })
      let w ← h[i]?
      pure (w.m.bytes, h)

/-- No more objects than there are can be nested. -/
def wmessageBufferTree (h : WHeap) : Option (List UInt8 × WHeap) := wmessageBufferAux h.length h 0

/-- A call that fills an object. -/
inductive WCall where
  | integer (i : ℕ) (key : CStr) (low hi : BitVec 32)
  | string (i : ℕ) (key : CStr) (v : List UInt8) (len : ℤ)
  | message (i : ℕ) (key : CStr)

/-- The return code says whether the key was there; what follows does not depend on it. -/
def WCall.run (env : Env) : WCall → WHeap → Option WHeap
  | integer i key low hi, h => do
      let w ← h[i]?
      let (_, m) ← wmessageInteger w.m key low hi
      pure (h.set i { w with m := m })
  | string i key v len, h => do
      let w ← h[i]?
      let (_, m) ← wmessageString env w.m key v len
      pure (h.set i { w with m := m })
  | message i key, h => do
      let (_, h) ← wmessageMessage env h i key
      pure h

/-- The call is none on a packed field. -/
def WCall.Plain (h : WHeap) : WCall → Prop
  | integer i key _ _ | string i key _ _ =>
      ∀ w ∈ h[i]?, ∀ found ∈ w.m.type.queryName key, ∀ f ∈ found, f.label ≠ .packed
  | message _ _ => True

instance (h : WHeap) (c : WCall) : Decidable (c.Plain h) := by
  cases c <;> unfold WCall.Plain <;> infer_instance

/-! ## Drafts -/

/-- What an object stands for. -/
structure Draft.Node where
  type : Message
  puts : List (Field × Wire.Payload)
  subs : List (Field × ℕ)

abbrev Draft := List Draft.Node

namespace Draft

def start (type : Message) : Draft := [⟨type, [], []⟩]

/-- The payload `p`, if there is one, is put into the object at `i`. -/
def put (d : Draft) (i : ℕ) (key : CStr) (p : Field → Option Wire.Payload) : Draft :=
  match d[i]? with
  | none => d
  | some n => match n.type.queryName key with
      | some (some f) => match p f with
          | some p => d.set i { n with puts := n.puts ++ [(f, p)] }
          | none => d
      | _ => d

/-- A new object becomes the last sub-message of the one at `i`. -/
def nest (env : Env) (d : Draft) (i : ℕ) (key : CStr) : Draft :=
  match d[i]? with
  | none => d
  | some n => match n.type.queryName key with
      | some (some f) => match f.type_name with
          | .m (some t) => match env.messages[t]? with
              | some type =>
                  d.set i { n with subs := n.subs ++ [(f, d.length)] } ++ [⟨type, [], []⟩]
              | none => d
          | _ => d
      | _ => d

end Draft

/-- What `pbc_wmessage_string` appends behind the tag: the number of an enum that
is called so, or the bytes themselves. -/
def stringPayload (env : Env) (v : List UInt8) (len : ℤ) (f : Field) : Option Wire.Payload := do
  let len ← stringLength v len
  match f.type with
  | .string | .bytes => some (.lend (v.take len.toNat))
  | .enum => match f.type_name with
      | .e (some i) => do
          let e ← env.enumObjs[i]?
          let id ← e.name.query (cstr (v.take len.toNat))
          let id ← id
          some (.varint ((BitVec.ofInt 32 id).setWidth 64))
      | _ => none
  | _ => none

/-- What a call means. -/
def WCall.mean (env : Env) : WCall → Draft → Draft
  | integer i key low hi, d => d.put i key fun f => f.type.payload low hi
  | string i key v len, d => d.put i key (stringPayload env v len)
  | message i key, d => d.nest env i key

/-- Any calls on a new message of a type, none of them on a packed field, and what they mean. -/
inductive WRun (env : Env) (type : Message) : List WCall → WHeap → Draft → Prop where
  | new : WRun env type [] [⟨.new type, []⟩] (Draft.start type)
  | call {cs : List WCall} {h h' : WHeap} {d : Draft} {c : WCall} :
      WRun env type cs h d → c.Plain h → c.run env h = some h' →
      WRun env type (cs ++ [c]) h' (c.mean env d)

/-! ## Records -/

/-- The bytes of a payload under the tag of a field. -/
def Field.written (f : Field) (p : Wire.Payload) : List UInt8 :=
  Wmessage.tag f (BitVec.ofNat 32 p.wiretype) ++ p.encode

/-- The field has a number that a tag can hold. -/
structure Field.Numbered (f : Field) : Prop where
  pos : 0 < f.id
  lt : f.id < 2 ^ 29

def Field.record (f : Field) (hf : f.Numbered) (p : Wire.Payload) : Wire.Record where
  number := f.id.toNat
  payload := p
  number_pos := by have := hf.pos; omega
  number_lt := by have := hf.pos; have := hf.lt; omega

theorem Field.written_eq {f : Field} (hf : f.Numbered) (p : Wire.Payload) :
    f.written p = (f.record hf p).encode := by
  have hid : f.id = (f.record hf p).number := (Int.toNat_of_nonneg (Int.le_of_lt hf.pos)).symm
  have hwt : (BitVec.ofNat 32 p.wiretype).toNat = (f.record hf p).payload.wiretype := by
    have := p.wiretype_lt
    rw [BitVec.toNat_ofNat]
    exact Nat.mod_eq_of_lt (by omega)
  rw [written, Wmessage.tag_eq hid hwt]
  rfl

theorem tag_length (f : Field) (wt : BitVec 32) : (Wmessage.tag f wt).length ≤ 5 := by
  rw [Wmessage.tag, encode32_eq]
  exact Varint.encode_length_le (Nat.lt_of_lt_of_le (BitVec.isLt _) (by decide))

theorem encode32_length (v : BitVec 32) : (encode32 v).length ≤ 5 := by
  rw [encode32_eq]
  exact Varint.encode_length_le (Nat.lt_of_lt_of_le v.isLt (by decide))

theorem encode_length (v : BitVec 64) : (encode v).length ≤ 10 := by
  rw [encode_eq]
  exact Varint.encode_length_le (Nat.lt_of_lt_of_le v.isLt (by decide))

theorem encode32_wide (v : BitVec 32) :
    encode32 v = Wire.Payload.encode (.varint (v.setWidth 64)) := by
  have hv := v.isLt
  rw [encode32_eq, Wire.Payload.encode, BitVec.toNat_setWidth, Nat.mod_eq_of_lt (by omega)]

theorem le_eq_leBytes (v : BitVec 32) : Word.le v = Wire.leBytes 4 v.toNat := by
  simp only [Word.le, Wire.leBytes, Nat.div_div_eq_div_mul]
  rfl

theorem le_le (low hi : BitVec 32) :
    Word.le low ++ Word.le hi = Wire.Payload.encode (.bits64 (hi ++ low)) := by
  have hlow := low.isLt
  have hsum : (hi ++ low : BitVec 64).toNat = low.toNat + hi.toNat * 2 ^ 32 := by
    have h := BitVec.toNat_append hi low
    rw [Nat.shiftLeft_eq, Nat.mul_comm, ← Nat.two_pow_add_eq_or_of_lt hlow] at h
    rw [h]
    omega
  rw [Wire.Payload.encode, hsum, Wire.leBytes_eight, le_eq_leBytes, le_eq_leBytes]
  congr 1
  · rw [← leBytes_mod (low.toNat + hi.toNat * 2 ^ 32), Nat.add_mul_mod_self_right,
      Nat.mod_eq_of_lt hlow]
  · congr 1
    omega

/-! ## What the calls append -/

namespace Wmessage

/-- The buffer is as large as it says, and holds what was written. -/
structure Fits (m : Wmessage) : Prop where
  cap : m.CapOk
  le : m.bytes.length ≤ m.cap

theorem fits_new (type : Message) : Fits (.new type) where
  cap := ⟨6, by decide, by decide, rfl⟩
  le := Nat.zero_le _

/-- The message with `bs` appended, in a buffer that holds it. -/
structure Appended (m : Wmessage) (bs : List UInt8) (m' : Wmessage) : Prop where
  type_eq : m'.type = m.type
  bytes_eq : m'.bytes = m.bytes ++ bs
  packed_eq : m'.packed = m.packed
  fits : m'.Fits

theorem Fits.expand {m m' : Wmessage} {sz : ℕ} (hm : m.Fits) (h : m.expand sz = some m') :
    m.Appended [] m' ∧ m'.bytes.length + sz ≤ m'.cap := by
  obtain ⟨cap, rfl, hle, hok⟩ := expand_some hm.cap h
  exact ⟨⟨rfl, (List.append_nil _).symm, rfl, hok, Nat.le_trans (Nat.le_add_right _ _) hle⟩, hle⟩

/-- Bytes for which there is room are appended. -/
theorem Appended.append {m m' : Wmessage} {bs : List UInt8} (h : m.Appended bs m')
    (cs : List UInt8) (hroom : m'.bytes.length + cs.length ≤ m'.cap) :
    m.Appended (bs ++ cs) (m'.append cs) where
  type_eq := h.type_eq
  bytes_eq := by rw [bytes_append, h.bytes_eq, List.append_assoc]
  packed_eq := h.packed_eq
  fits := ⟨h.fits.cap, by rw [bytes_append, List.length_append]; exact hroom⟩

end Wmessage

/-- The bytes of a payload, if there is one, under the tag of a field. -/
def Field.writtenOpt (f : Field) (p : Option Wire.Payload) : List UInt8 :=
  (p.map f.written).getD []

theorem wmessageInteger_appends {m : Wmessage} {key : CStr} {f : Field} {low hi : BitVec 32}
    {a : ℤ × Wmessage} (hf : m.type.queryName key = some (some f)) (hlabel : f.label ≠ .packed)
    (hm : m.Fits) (h : wmessageInteger m key low hi = some a) :
    m.Appended (f.writtenOpt (f.type.payload low hi)) a.2 := by
  unfold wmessageInteger at h
  rw [hf] at h
  simp only [Option.bind_eq_bind, Option.bind_some] at h
  split at h
  · contradiction
  · obtain ⟨m', hexpand, h⟩ := Option.bind_eq_some_iff.mp h
    obtain ⟨hnil, hroom⟩ := hm.expand hexpand
    cases h
    -- what each type appends is its payload, and short
    have hput : ∀ (p : Wire.Payload) (wt : BitVec 32) (bs : List UInt8),
        wt = BitVec.ofNat 32 p.wiretype → bs = p.encode → bs.length ≤ 10 →
        m.Appended (f.writtenOpt (some p)) (m'.append (Wmessage.tag f wt ++ bs)) := by
      rintro p _ _ rfl rfl hlen
      have htag := tag_length f (BitVec.ofNat 32 p.wiretype)
      have hdone := hnil.append (f.written p) (by
        rw [Field.written, List.length_append]
        omega)
      rwa [List.nil_append] at hdone
    have hnothing : m.Appended (f.writtenOpt none) m' := hnil
    cases htype : f.type with
    | int64 | uint64 | int32 =>
        exact hput (.varint (hi ++ low)) 0 _ rfl (encode_eq _) (encode_length _)
    | uint32 | enum | bool =>
        exact hput (.varint (low.setWidth 64)) 0 _ rfl (encode32_wide _)
          (Nat.le_trans (encode32_length _) (by decide))
    | fixed64 | sfixed64 =>
        have hdone := hput (.bits64 (hi ++ low)) 1 _ rfl (le_le low hi) (by simp)
        rwa [← List.append_assoc] at hdone
    | fixed32 | sfixed32 => exact hput (.bits32 low) 5 _ rfl (le_eq_leBytes low) (by simp)
    | sint32 =>
        exact hput (.varint ((Zigzag.encode low).setWidth 64)) 0 _ rfl (encode32_wide _)
          (Nat.le_trans (encode32_length _) (by decide))
    | sint64 =>
        exact hput (.varint (Zigzag.encode (hi ++ low : BitVec 64))) 0 _ rfl (encode_eq _)
          (encode_length _)
    | double | float | string | group | message | bytes | other => exact hnothing

theorem wmessageString_appends {env : Env} {m : Wmessage} {key : CStr} {f : Field}
    {v : List UInt8} {len : ℤ} {a : ℤ × Wmessage} (hf : m.type.queryName key = some (some f))
    (hlabel : f.label ≠ .packed) (hm : m.Fits) (h : wmessageString env m key v len = some a) :
    m.Appended (f.writtenOpt (stringPayload env v len f)) a.2 := by
  unfold wmessageString at h
  rw [hf] at h
  simp only [Option.bind_eq_bind, Option.bind_some] at h
  obtain ⟨len', hlen, h⟩ := Option.bind_eq_some_iff.mp h
  split at h
  · contradiction
  · obtain ⟨m', hexpand, h⟩ := Option.bind_eq_some_iff.mp h
    obtain ⟨hnil, hroom⟩ := hm.expand hexpand
    have hpayload : stringPayload env v len f = match f.type with
        | .string | .bytes => some (.lend (v.take len'.toNat))
        | .enum => match f.type_name with
            | .e (some i) => do
                let e ← env.enumObjs[i]?
                let id ← e.name.query (cstr (v.take len'.toNat))
                let id ← id
                some (.varint ((BitVec.ofInt 32 id).setWidth 64))
            | _ => none
        | _ => none := by
      rw [stringPayload, hlen]
      rfl
    have hnothing : m.Appended (f.writtenOpt none) m' := hnil
    have hbytes : Wmessage.appendBytes m' f v len' = some a →
        m.Appended (f.writtenOpt (some (.lend (v.take len'.toNat)))) a.2 := by
      intro happend
      unfold Wmessage.appendBytes at happend
      split at happend
      · cases happend
      · rename_i hfits
        rw [not_or, Nat.not_lt] at hfits
        obtain ⟨m'', hgrow, happend⟩ := Option.bind_eq_some_iff.mp happend
        cases happend
        have htag := tag_length f 2
        have hword := encode32_length len'
        have hhead := hnil.append (Wmessage.tag f 2 ++ encode32 len') (by
          rw [List.length_append]
          omega)
        obtain ⟨hsame, hbody⟩ := hhead.fits.expand hgrow
        have htake : (v.take len'.toNat).length = len'.toNat := List.length_take_of_le hfits.2
        have hgrown : m.Appended ([] ++ (Wmessage.tag f 2 ++ encode32 len')) m'' :=
          ⟨hsame.type_eq.trans hhead.type_eq,
            by rw [hsame.bytes_eq, List.append_nil, hhead.bytes_eq],
            hsame.packed_eq.trans hhead.packed_eq, hsame.fits⟩
        have hdone := hgrown.append (v.take len'.toNat) (by rw [htake]; exact hbody)
        have hwritten : f.writtenOpt (some (.lend (v.take len'.toNat))) =
            [] ++ (Wmessage.tag f 2 ++ encode32 len') ++ v.take len'.toNat := by
          have hencode : Wire.Payload.encode (.lend (v.take len'.toNat)) =
              encode32 len' ++ v.take len'.toNat := by
            rw [Wire.Payload.encode, htake, encode32_eq]
          change Wmessage.tag f 2 ++ Wire.Payload.encode (.lend (v.take len'.toNat)) = _
          rw [hencode, List.nil_append, List.append_assoc]
        rw [hwritten]
        exact hdone
    cases htype : f.type with
    | string | bytes =>
        rw [htype] at h
        rw [hpayload, htype]
        exact hbytes h
    | enum =>
        rw [htype] at h
        have hnamed : ∀ i e found, f.type_name = .e (some i) → env.enumObjs[i]? = some e →
            e.name.query (cstr (v.take len'.toNat)) = some found →
            stringPayload env v len f =
              found.map fun id => .varint ((BitVec.ofInt 32 id).setWidth 64) := by
          intro i e found hname he hfound
          rw [hpayload, htype, hname]
          simp only [he, hfound, Option.bind_eq_bind, Option.bind_some]
          cases found <;> rfl
        obtain ⟨found, hfound, h⟩ := Option.bind_eq_some_iff.mp h
        unfold enumNumber at hfound
        split at hfound
        · cases hfound
        split at hfound
        · rename_i i hname
          obtain ⟨e, he, hfound⟩ := Option.bind_eq_some_iff.mp hfound
          rw [hnamed i e found hname he hfound]
          cases found with
          | none =>
              cases h
              exact hnothing
          | some id =>
              cases h
              have htag := tag_length f 0
              have hword := encode32_length (BitVec.ofInt 32 id)
              have hdone := hnil.append
                (Wmessage.tag f 0 ++ encode32 (BitVec.ofInt 32 id)) (by
                  rw [List.length_append]
                  omega)
              rw [List.nil_append, encode32_wide] at hdone
              rw [encode32_wide]
              exact hdone
        · cases hfound
    | double | float | int64 | uint64 | int32 | fixed64 | fixed32 | bool | group | message | uint32
    | sfixed32 | sfixed64 | sint32 | sint64 | other =>
        rw [htype] at h
        rw [hpayload, htype]
        cases h
        exact hnothing

end Pbc
