-- SUMMARY: Building serialized messages field by field, and the records that the calls of this program append.
import HdClient.Pbc.Proto
import HdClient.Base.Wire

/-! # Building messages

`wmessage.c` appends one record a call to a buffer that doubles when it is full.
The numbers of packed fields are kept, and written together at the end. -/

namespace Pbc

/-- `struct _packed`. Real numbers are left out. -/
structure Packed where
  id : ℤ
  ptype : PType
  data : List Longlong

/-- `struct pbc_wmessage`: its type, what has been written, the size of the buffer, and
the numbers of its packed fields by their keys, which are strings of the program. -/
structure Wmessage where
  type : Message
  bytes : List UInt8
  cap : ℕ
  packed : Option (MapSp Packed)

def wmessageSize : ℕ := 64

/-- `_wmessage_new` -/
def Wmessage.new (type : Message) : Wmessage := ⟨type, [], wmessageSize, none⟩

/-- `pbc_wmessage_new`; null when the type is not registered. -/
def wmessageNew (env : Env) (typename : CStr) : Option (Option Wmessage) := do
  match ← getMessage env typename with
  | none => pure none
  | some i => do
      let type ← env.messages[i]?
      pure (some (.new type))

/-- The loop of `_expand`; undefined when the capacity outgrows an `int`. -/
private def growCap (sz : ℕ) : ℕ → ℕ → Option ℕ
  | 0, _ => none
  | fuel + 1, cap =>
      if 2 ^ 31 ≤ cap * 2 then none
      else if cap * 2 < sz then growCap sz fuel (cap * 2)
      else some (cap * 2)

namespace Wmessage

/-- `_expand` -/
def expand (m : Wmessage) (sz : ℕ) : Option Wmessage :=
  if m.cap < m.bytes.length + sz then do
    let cap ← growCap (m.bytes.length + sz) 32 m.cap
    pure { m with cap := cap }
  else pure m

/-- `_packed_integer`; undefined when the array outgrows an `int`. -/
def packedInteger (m : Wmessage) (f : Field) (key : CStr) (low hi : BitVec 32) :
    Option Wmessage :=
  let (packed, i) := (m.packed.getD (MapSp.new 4)).queryInsert key
  let p := (packed.slot i).pointer.getD ⟨f.id, f.type, []⟩
  let pushed := { p with data := p.data ++ [⟨low, hi⟩] }
  if p.data.length < arrayMax then
    some { m with packed := some (packed.setPointer i (some pushed)) }
  else none

def append (m : Wmessage) (bytes : List UInt8) : Wmessage := { m with bytes := m.bytes ++ bytes }

/-- The tag that starts a record of a field. -/
def tag (f : Field) (wiretype : BitVec 32) : List UInt8 :=
  encode32 ((BitVec.ofInt 32 f.id) <<< 3 ||| wiretype)

end Wmessage

/-- `pbc_wmessage_integer`, with its return code. -/
def wmessageInteger (m : Wmessage) (key : CStr) (low hi : BitVec 32) : Option (ℤ × Wmessage) := do
  match ← m.type.queryName key with
  | none => pure (-1, m)
  | some f =>
      if f.label = .packed then do
        let m ← m.packedInteger f key low hi
        pure (0, m)
      else do
        let m ← m.expand 20
        pure (0, match f.type with
          | .int64 | .uint64 | .int32 =>
              m.append (Wmessage.tag f 0 ++ encode (hi ++ low))
          | .uint32 | .enum | .bool => m.append (Wmessage.tag f 0 ++ encode32 low)
          | .fixed64 | .sfixed64 => m.append (Wmessage.tag f 1 ++ Word.le low ++ Word.le hi)
          | .fixed32 | .sfixed32 => m.append (Wmessage.tag f 5 ++ Word.le low)
          | .sint32 => m.append (Wmessage.tag f 0 ++ encode32 ((low <<< 1) ^^^ low.sshiftRight 31))
          | .sint64 =>
              m.append (Wmessage.tag f 0 ++
                encode (((hi ++ low) <<< 1) ^^^ (hi ++ low : BitVec 64).sshiftRight 63))
          | _ => m)

/-- The length that `pbc_wmessage_string` works with: a length that is not
positive stands for that of the string, less it. Undefined where the memory
holds no string. -/
def stringLength (v : List UInt8) (len : ℤ) : Option (BitVec 32) :=
  if len ≤ 0 then
    if 0 ∈ v then some (BitVec.ofInt 32 ((cstr v).length - len)) else none
  else some (BitVec.ofInt 32 len)

/-- The number that `pbc_wmessage_string` writes for the name of an enum value, if it is
one; undefined where a negative length, or bytes that are not there, would be copied. -/
def enumNumber (env : Env) (f : Field) (v : List UInt8) (len : BitVec 32) : Option (Option ℤ) :=
  if len.toInt < 0 ∨ v.length < len.toNat then none
  else match f.type_name with
    | .e (some i) => do
        let e ← env.enumObjs[i]?
        e.name.query (cstr (v.take len.toNat))
    | _ => none

/-- The branch of `pbc_wmessage_string` for strings and bytes; undefined where a
negative length, or bytes that are not there, would be copied. -/
def Wmessage.appendBytes (m : Wmessage) (f : Field) (v : List UInt8) (len : BitVec 32) :
    Option (ℤ × Wmessage) :=
  if len.toInt < 0 ∨ v.length < len.toNat then none
  else do
    let m ← (m.append (Wmessage.tag f 2 ++ encode32 len)).expand len.toNat
    pure (0, m.append (v.take len.toNat))

/-- `pbc_wmessage_string`, with its return code; `v` is the memory from the
pointer on. -/
def wmessageString (env : Env) (m : Wmessage) (key : CStr) (v : List UInt8) (len : ℤ) :
    Option (ℤ × Wmessage) := do
  match ← m.type.queryName key with
  | none => pure (-1, m)
  | some f => do
      let len ← stringLength v len
      if f.label = .packed then
        if f.type = .enum then do
          match ← enumNumber env f v len with
          | none => pure (-1, m)
          | some id => do
              let m ← m.packedInteger f key (BitVec.ofInt 32 id) 0
              pure (0, m)
        else pure (0, m)
      else do
        let m ← m.expand 20
        match f.type with
        | .enum => do
            match ← enumNumber env f v len with
            | none => pure (-1, m)
            | some id => pure (0, m.append (Wmessage.tag f 0 ++ encode32 (BitVec.ofInt 32 id)))
        | .string | .bytes => m.appendBytes f v len
        | _ => pure (0, m)

/-! ## Packed fields -/

/-- A number as `_pack_packed_varint` writes it. -/
def PType.packedVarint (type : PType) (v : Longlong) : Option (List UInt8) :=
  match type with
  | .int64 | .uint64 => some (encode (v.hi ++ v.low))
  | .int32 | .bool | .uint32 | .enum => some (encode32 v.low)
  | .sint32 => some (encode32 ((v.low <<< 1) ^^^ v.low.sshiftRight 31))
  | .sint64 =>
      some (encode (((v.hi ++ v.low) <<< 1) ^^^ (v.hi ++ v.low : BitVec 64).sshiftRight 63))
  | _ => none

/-- The loops of `_pack_packed_varint`; for a type that has none, zeros are written. -/
def packVarints (type : PType) : List Longlong → Wmessage → Option Wmessage
  | [], m => some m
  | v :: vs, m => match type.packedVarint v with
      | some bytes => do
          let m ← m.expand 10
          packVarints type vs (m.append bytes)
      | none => packVarints type vs (m.append [0])

/-- The memory `old` after `new` has been written from its start on. What goes
beyond it is not seen. -/
def overlay (old new : List UInt8) : List UInt8 :=
  (new ++ old.drop new.length).take old.length

/-- `_pack_packed_varint`. When the guess of the length was of another size, the
numbers are moved, but the end of the message is not. -/
def packPackedVarint (p : Packed) (m : Wmessage) : Option Wmessage := do
  let n := p.data.length
  let len := if p.ptype = .bool then n else n * 2
  let m₁ ← m.expand (10 + len)
  let head := encode32 (BitVec.ofNat 32 len)
  let m₂ ← packVarints p.ptype p.data (m₁.append head)
  let numbers := m₂.bytes.drop (m.bytes.length + head.length)
  if numbers.length = len then pure m₂
  else do
    let temp := encode32 (BitVec.ofNat 32 numbers.length)
    let m₃ ← if temp.length = head.length then pure m₂ else m₂.expand temp.length
    pure { m₃ with bytes := m.bytes ++ overlay (head ++ numbers) (temp ++ numbers) }

/-- `_pack_packed_64` -/
def packPacked64 (p : Packed) (m : Wmessage) : Option Wmessage := do
  let n := p.data.length
  let m ← m.expand (10 + n * 8)
  pure (m.append (encode32 (BitVec.ofNat 32 (n * 8)) ++
    p.data.flatMap fun v => Word.le v.low ++ Word.le v.hi))

/-- The numbers as `_pack_packed_32` stores them, eight bytes apart. What is
between them happens to be in the buffer. -/
def spread (mem : ℕ → UInt8) (data : List Longlong) : List UInt8 :=
  (List.range (4 * data.length)).map fun j =>
    if j % 8 < 4 then
      match data[j / 8]? with
      | some v => (Word.le v.low).getD (j % 8) 0
      | none => mem j
    else mem j

/-- `_pack_packed_32`; undefined when the last number is stored behind the buffer. -/
def packPacked32 (mem : ℕ → UInt8) (p : Packed) (m : Wmessage) : Option Wmessage := do
  let n := p.data.length
  let m ← m.expand (10 + n * 4)
  let m := m.append (encode32 (BitVec.ofNat 32 (n * 4)))
  if m.cap < m.bytes.length + (n * 8 - 4) then none
  else pure (m.append (spread mem p.data))

/-- `_pack_packed` -/
def packPacked (mem : ℕ → UInt8) (p : Packed) (m : Wmessage) : Option Wmessage := do
  let m ← m.expand 10
  let m := m.append (encode32 ((BitVec.ofInt 32 p.id) <<< 3 ||| 2))
  match p.ptype with
  | .double | .float => none
  | .fixed64 | .sfixed64 => packPacked64 p m
  | .fixed32 | .sfixed32 => packPacked32 mem p m
  | _ => packPackedVarint p m

/-- `_pbcM_sp_foreach_ud` with `_pack_packed`. Undefined where two numbers of 32 bits are
left with bytes between them that nothing was stored in. -/
def packAll : List Packed → Wmessage → Option Wmessage
  | [], m => some m
  | p :: ps, m =>
      if (p.ptype = .fixed32 ∨ p.ptype = .sfixed32) ∧ 1 < p.data.length then none
      else do
        let m ← packPacked (fun _ => 0) p m
        packAll ps m

/-- The loop of `pbc_wmessage_buffer` over the packed fields. -/
def Wmessage.pack (m : Wmessage) : Option Wmessage :=
  match m.packed with
  | none => some m
  | some packed => packAll packed.pointers m

/-- `pbc_wmessage_buffer` of a message without sub-messages: the bytes written so far,
and those of the packed fields. -/
def wmessageBuffer (m : Wmessage) : Option (List UInt8) := do
  let m ← m.pack
  pure m.bytes

/-! ## The records that are appended -/

theorem wmessageNew_eq {env : Env} {name : CStr} {m : Message} (h : Registered env name m) :
    wmessageNew env name = some (some (.new m)) := by
  obtain ⟨i, hget, hm⟩ := h
  simp [wmessageNew, hget, hm]

namespace Wmessage

@[simp] theorem type_new (type : Message) : (new type).type = type := rfl
@[simp] theorem bytes_new (type : Message) : (new type).bytes = [] := rfl
@[simp] theorem packed_new (type : Message) : (new type).packed = none := rfl
@[simp] theorem packed_append (m : Wmessage) (bs : List UInt8) :
    (m.append bs).packed = m.packed := rfl
@[simp] theorem type_append (m : Wmessage) (bs : List UInt8) : (m.append bs).type = m.type := rfl
@[simp] theorem cap_append (m : Wmessage) (bs : List UInt8) : (m.append bs).cap = m.cap := rfl
@[simp] theorem bytes_append (m : Wmessage) (bs : List UInt8) :
    (m.append bs).bytes = m.bytes ++ bs := rfl

/-- A message of which no field is packed is what was written. -/
theorem buffer_eq {m : Wmessage} (h : m.packed = none) : wmessageBuffer m = some m.bytes := by
  simp [wmessageBuffer, pack, h]

@[simp] theorem buffer_mk (type : Message) (bytes : List UInt8) (cap : ℕ) :
    wmessageBuffer ⟨type, bytes, cap, none⟩ = some bytes := buffer_eq rfl

/-- The capacity is a power of two that an `int` holds. -/
def CapOk (m : Wmessage) : Prop := ∃ k, 6 ≤ k ∧ k ≤ 30 ∧ m.cap = 2 ^ k

theorem expand_of_le {m : Wmessage} {sz : ℕ} (h : m.bytes.length + sz ≤ m.cap) :
    m.expand sz = some m := by
  rw [expand, if_neg (by omega)]
  rfl

private theorem growCap_eq {sz k : ℕ} (fuel : ℕ) (hsz : sz ≤ 2 ^ 30) (hk : 2 ^ k < sz)
    (hfuel : 30 ≤ k + fuel) :
    ∃ k', k ≤ k' ∧ k' ≤ 30 ∧ sz ≤ 2 ^ k' ∧ growCap sz fuel (2 ^ k) = some (2 ^ k') := by
  have hk30 : k < 30 := by
    by_contra hge
    have := Nat.pow_le_pow_right (n := 2) (by decide) (Nat.le_of_not_lt hge)
    omega
  induction fuel generalizing k with
  | zero => omega
  | succ fuel ih =>
      have hle : 2 ^ (k + 1) ≤ 2 ^ 30 := Nat.pow_le_pow_right (by decide) hk30
      rw [growCap, ← Nat.pow_succ, if_neg (by omega)]
      split
      · rename_i hlt
        have hk' : k + 1 < 30 := by
          by_contra hge
          obtain rfl : k = 29 := by omega
          omega
        obtain ⟨k', hkk', hk'30, hszk', hgrow⟩ := ih hlt (by omega) hk'
        exact ⟨k', by omega, hk'30, hszk', hgrow⟩
      · exact ⟨k + 1, by omega, by omega, by omega, rfl⟩

/-- The buffer grows to any size that an `int` capacity allows. -/
theorem expand_eq {m : Wmessage} (hm : m.CapOk) (sz : ℕ) (h : m.bytes.length + sz ≤ 2 ^ 30) :
    ∃ cap, m.expand sz = some { m with cap := cap } ∧ m.bytes.length + sz ≤ cap ∧
      Wmessage.CapOk { m with cap := cap } := by
  obtain ⟨k, hk6, hk30, hcap⟩ := hm
  rw [expand, hcap]
  split
  · rename_i hlt
    obtain ⟨k', hkk', hk'30, hle, hgrow⟩ := growCap_eq 32 h hlt (by omega)
    exact ⟨2 ^ k', by rw [hgrow]; rfl, hle, k', by omega, hk'30, rfl⟩
  · rename_i hge
    exact ⟨m.cap, rfl, by omega, k, hk6, hk30, hcap⟩

private theorem le_of_growCap {sz fuel k cap : ℕ} (h : growCap sz fuel (2 ^ k) = some cap) :
    sz ≤ cap ∧ ∃ k', k ≤ k' ∧ k' ≤ 30 ∧ cap = 2 ^ k' := by
  induction fuel generalizing k with
  | zero => cases h
  | succ fuel ih =>
      rw [growCap, ← Nat.pow_succ] at h
      split at h
      · cases h
      · rename_i hsmall
        have hk : k + 1 ≤ 30 := Nat.le_of_lt_succ
          ((Nat.pow_lt_pow_iff_right (by decide : 1 < 2)).mp (Nat.lt_of_not_le hsmall))
        split at h
        · obtain ⟨hle, k', hkk', hk', rfl⟩ := ih h
          exact ⟨hle, k', by omega, hk', rfl⟩
        · cases h
          exact ⟨by omega, k + 1, by omega, hk, rfl⟩

/-- A buffer that has grown holds what was asked for. -/
theorem expand_some {m m' : Wmessage} {sz : ℕ} (hm : m.CapOk) (h : m.expand sz = some m') :
    ∃ cap, m' = { m with cap := cap } ∧ m.bytes.length + sz ≤ cap ∧
      Wmessage.CapOk { m with cap := cap } := by
  obtain ⟨k, hk6, hk30, hcap⟩ := hm
  rw [expand, hcap] at h
  split at h
  · cases hgrow : growCap (m.bytes.length + sz) 32 (2 ^ k) with
    | none =>
        rw [hgrow] at h
        cases h
    | some cap =>
        rw [hgrow] at h
        cases h
        obtain ⟨hle, k', hkk', hk', rfl⟩ := le_of_growCap hgrow
        exact ⟨2 ^ k', rfl, hle, k', by omega, hk', rfl⟩
  · cases h
    exact ⟨m.cap, rfl, by omega, k, hk6, hk30, hcap⟩

theorem CapOk.cap_le {m : Wmessage} (h : m.CapOk) : m.cap ≤ 2 ^ 30 := by
  obtain ⟨k, -, hk30, hcap⟩ := h
  rw [hcap]
  exact Nat.pow_le_pow_right (by decide) hk30

/-- The tag of a field is that of the record that carries it. -/
theorem tag_eq {f : Field} {r : Wire.Record} (hid : f.id = r.number) {wt : BitVec 32}
    (hwt : wt.toNat = r.payload.wiretype) : tag f wt = Varint.encode r.tag := by
  have hnum := r.number_lt
  have hlt := r.payload.wiretype_lt
  have hn : (BitVec.ofInt 32 f.id).toNat = r.number := by
    rw [hid, BitVec.toNat_ofInt]
    omega
  have htag : ((BitVec.ofInt 32 f.id) <<< 3 ||| wt).toNat = r.tag := by
    rw [BitVec.or_comm, Word.toNat_or_shiftLeft (by omega) (by omega), hn, hwt, Wire.Record.tag]
    omega
  rw [tag, encode32_eq, htag]

end Wmessage

/-- An unsigned or enumerated number is appended as one record. -/
theorem wmessageInteger_eq {m : Wmessage} {f : Field} {r : Wire.Record} {low : BitVec 32}
    (hf : m.type.queryName f.name = some (some f)) (hlabel : f.label ≠ .packed)
    (htype : f.type = .uint32 ∨ f.type = .enum) (hid : f.id = r.number)
    (hr : r.payload = .varint (low.setWidth 64)) (hroom : m.bytes.length + 20 ≤ m.cap)
    (hi : BitVec 32) : wmessageInteger m f.name low hi = some (0, m.append r.encode) := by
  have hbody : Wmessage.tag f 0 ++ encode32 low = r.encode := by
    have hlow : (low.setWidth 64).toNat = low.toNat := by
      rw [BitVec.toNat_setWidth]
      exact Nat.mod_eq_of_lt (Nat.lt_trans low.isLt (by decide))
    rw [Wmessage.tag_eq hid (by rw [hr]; rfl), encode32_eq, Wire.Record.encode, hr,
      Wire.Payload.encode, hlow]
  rw [wmessageInteger, hf, ← hbody]
  rcases htype with htype | htype <;> simp [hlabel, Wmessage.expand_of_le hroom, htype]

/-- A number of 64 bits. -/
theorem wmessageInteger64_eq {m : Wmessage} {f : Field} {r : Wire.Record} (low hi : BitVec 32)
    (hf : m.type.queryName f.name = some (some f)) (hlabel : f.label ≠ .packed)
    (htype : f.type = .uint64) (hid : f.id = r.number) (hr : r.payload = .varint (hi ++ low))
    (hcap : m.CapOk) (hroom : m.bytes.length + 20 ≤ 2 ^ 30) :
    ∃ cap, wmessageInteger m f.name low hi =
      some (0, { m with bytes := m.bytes ++ r.encode, cap := cap }) := by
  have hbody : Wmessage.tag f 0 ++ encode (hi ++ low) = r.encode := by
    rw [Wmessage.tag_eq hid (by rw [hr]; rfl), encode_eq, Wire.Record.encode, hr,
      Wire.Payload.encode]
  obtain ⟨cap, hexpand, -, -⟩ := Wmessage.expand_eq hcap 20 hroom
  refine ⟨cap, ?_⟩
  rw [wmessageInteger, hf, ← hbody]
  simp [hlabel, hexpand, htype, Wmessage.append]

/-- The length given is used when it is positive. -/
theorem stringLength_of_pos {v : List UInt8} {len : ℤ} (h : 0 < len) :
    stringLength v len = some (BitVec.ofInt 32 len) := by
  rw [stringLength, if_neg (by omega)]

/-- A length of zero stands for that of the string. -/
theorem stringLength_zero {v : List UInt8} (h : 0 ∈ v) :
    stringLength v 0 = some (BitVec.ofNat 32 (cstr v).length) := by
  rw [stringLength, if_pos (by decide), if_pos h, Int.sub_zero]
  rfl

/-- A string is appended as one record, as long as the buffer can hold it. -/
theorem wmessageString_eq (env : Env) {m : Wmessage} {f : Field} {r : Wire.Record}
    {v body : List UInt8} {len : ℤ} (hf : m.type.queryName f.name = some (some f))
    (hlabel : f.label ≠ .packed) (htype : f.type = .string ∨ f.type = .bytes)
    (hid : f.id = r.number) (hr : r.payload = .lend body)
    (hlen : stringLength v len = some (BitVec.ofNat 32 body.length)) (hv : body <+: v)
    (hcap : m.CapOk) (hroom : m.bytes.length + 20 ≤ 2 ^ 30)
    (hfit : m.bytes.length + r.encode.length ≤ 2 ^ 30) :
    ∃ cap, wmessageString env m f.name v len =
        some (0, { m with bytes := m.bytes ++ r.encode, cap := cap }) ∧
      Wmessage.CapOk { m with bytes := m.bytes ++ r.encode, cap := cap } ∧
      m.bytes.length + r.encode.length ≤ cap := by
  obtain ⟨rest, rfl⟩ := hv
  have hrlen : r.encode = Varint.encode r.tag ++ (Varint.encode body.length ++ body) := by
    rw [Wire.Record.encode, hr, Wire.Payload.encode]
  have hsmall : body.length < 2 ^ 31 := by
    rw [hrlen] at hfit
    simp only [List.length_append] at hfit
    omega
  have hnat : (BitVec.ofNat 32 body.length).toNat = body.length := by
    rw [BitVec.toNat_ofNat]
    omega
  have hint : ¬ ((BitVec.ofNat 32 body.length).toInt < 0 ∨
      (body ++ rest).length < (BitVec.ofNat 32 body.length).toNat) := by
    rw [BitVec.toInt_eq_toNat_of_lt (by omega), hnat, List.length_append]
    omega
  have hbody : Wmessage.tag f 2 ++ encode32 (BitVec.ofNat 32 body.length) ++ body = r.encode := by
    rw [Wmessage.tag_eq hid (by rw [hr]; rfl), encode32_eq, hnat, hrlen, List.append_assoc]
  have hlen' : (Wmessage.tag f 2 ++ encode32 (BitVec.ofNat 32 body.length)).length + body.length =
      r.encode.length := by
    rw [← hbody]
    simp only [List.length_append]
  obtain ⟨cap₀, hroom', -, hok₀⟩ := Wmessage.expand_eq hcap 20 hroom
  obtain ⟨cap, hexpand, hle, hok⟩ := Wmessage.expand_eq
    (m := { m with cap := cap₀ }.append
      (Wmessage.tag f 2 ++ encode32 (BitVec.ofNat 32 body.length)))
    hok₀ body.length (by rw [Wmessage.bytes_append, List.length_append]; dsimp only; omega)
  have happend : { m with cap := cap₀ }.appendBytes f (body ++ rest)
      (BitVec.ofNat 32 body.length) =
      some (0, { m with bytes := m.bytes ++ r.encode, cap := cap }) := by
    rw [Wmessage.appendBytes, if_neg hint, hnat, hexpand, ← hbody, List.take_left]
    simp [Wmessage.append]
  refine ⟨cap, ?_, hok, ?_⟩
  · rw [wmessageString, hf, ← happend]
    rcases htype with htype | htype <;>
      simp [hlen, hlabel, hroom', htype]
  · rw [Wmessage.bytes_append, List.length_append] at hle
    dsimp only at hle
    omega

/-- A number that was appended had room in the buffer. -/
theorem wmessageInteger_room {m : Wmessage} {f : Field} {low hi : BitVec 32} {a : ℤ × Wmessage}
    (hf : m.type.queryName f.name = some (some f)) (hlabel : f.label ≠ .packed) (hcap : m.CapOk)
    (h : wmessageInteger m f.name low hi = some a) : m.bytes.length + 20 ≤ 2 ^ 30 := by
  unfold wmessageInteger at h
  rw [hf] at h
  simp only [Option.bind_eq_bind, Option.bind_some, if_neg hlabel, Option.bind_eq_some_iff] at h
  obtain ⟨m', hexpand, -⟩ := h
  obtain ⟨cap, -, hle, hok⟩ := Wmessage.expand_some hcap hexpand
  exact Nat.le_trans hle hok.cap_le

/-- A string that was appended is one record, around as many bytes of the memory
as its length in 32 bits. -/
theorem wmessageString_some (env : Env) {m : Wmessage} {f : Field} {number : ℕ}
    (hpos : 0 < number) (hnumber : number < 2 ^ 29) {v : List UInt8} {len : ℤ} {a : ℤ × Wmessage}
    (hf : m.type.queryName f.name = some (some f)) (hlabel : f.label ≠ .packed)
    (htype : f.type = .string ∨ f.type = .bytes) (hid : f.id = number) (hcap : m.CapOk)
    (h : wmessageString env m f.name v len = some a) :
    ∃ w cap, stringLength v len = some w ∧ w.toNat ≤ v.length ∧
      a = (0, { m with
        bytes := m.bytes ++ Wire.Record.encode ⟨number, .lend (v.take w.toNat), hpos, hnumber⟩,
        cap := cap }) ∧
      Wmessage.CapOk { m with
        bytes := m.bytes ++ Wire.Record.encode ⟨number, .lend (v.take w.toNat), hpos, hnumber⟩,
        cap := cap } ∧
      m.bytes.length +
        (Wire.Record.encode ⟨number, .lend (v.take w.toNat), hpos, hnumber⟩).length ≤ cap := by
  unfold wmessageString at h
  rw [hf] at h
  simp only [Option.bind_eq_bind, Option.bind_some, if_neg hlabel, Option.bind_eq_some_iff] at h
  obtain ⟨w, hlen, m₀, hexpand, hbody⟩ := h
  obtain ⟨cap₀, rfl, -, hok₀⟩ := Wmessage.expand_some hcap hexpand
  have happend : Wmessage.appendBytes { m with cap := cap₀ } f v w = some a := by
    rcases htype with htype | htype <;> simpa [htype] using hbody
  unfold Wmessage.appendBytes at happend
  split at happend
  · cases happend
  · rename_i hfits
    rw [not_or, Nat.not_lt] at hfits
    simp only [Option.bind_eq_bind, Option.bind_eq_some_iff] at happend
    obtain ⟨m₁, hgrow, hlast⟩ := happend
    obtain ⟨cap, rfl, hroom, hok⟩ := Wmessage.expand_some
      (m := Wmessage.append { m with cap := cap₀ } (Wmessage.tag f 2 ++ encode32 w)) hok₀ hgrow
    have hrecord : Wmessage.tag f 2 ++ encode32 w ++ v.take w.toNat =
        Wire.Record.encode ⟨number, .lend (v.take w.toNat), hpos, hnumber⟩ := by
      rw [Wmessage.tag_eq (r := ⟨number, .lend (v.take w.toNat), hpos, hnumber⟩) hid rfl,
        encode32_eq, Wire.Record.encode, Wire.Payload.encode, List.length_take_of_le hfits.2,
        List.append_assoc]
    refine ⟨w, cap, hlen, hfits.2, ?_, hok, ?_⟩
    · cases hlast
      rw [← hrecord]
      simp [Wmessage.append]
    · rw [Wmessage.bytes_append, List.length_append] at hroom
      rw [← hrecord, List.length_append, List.length_take_of_le hfits.2]
      dsimp only at hroom
      omega

end Pbc
