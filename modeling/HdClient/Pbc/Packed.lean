-- SUMMARY: Packed fields: how their numbers are written and read, and exactly when what is written is the record of the numbers.
import HdClient.Pbc.Building

/-! # Packed fields

The numbers that are pushed to a packed field are written together, when the
message is finished, as one record. The length is written before the numbers, as
it is guessed from how many there are. -/

namespace Pbc

/-! ## The record of the numbers -/

/-- A number as it is written among others of its field. -/
def PType.packedBytes (type : PType) (v : Longlong) : List UInt8 :=
  match type with
  | .fixed64 | .sfixed64 => Word.le v.low ++ Word.le v.hi
  | .fixed32 | .sfixed32 => Word.le v.low
  | _ => (type.packedVarint v).getD []

/-- A number as the wire format has it, which is what a single one is written as. -/
def PType.wireBytes (type : PType) (v : Longlong) : List UInt8 :=
  ((type.payload v.low v.hi).map Wire.Payload.encode).getD []

namespace Packed

/-- The numbers of the field in the wire format. -/
def body (p : Packed) : List UInt8 := p.data.flatMap p.ptype.wireBytes

/-- The field has a number that a tag can hold. -/
structure Numbered (p : Packed) : Prop where
  pos : 0 < p.id
  lt : p.id < 2 ^ 29

/-- The record that a reader expects. -/
def record (p : Packed) (h : p.Numbered) : Wire.Record where
  number := p.id.toNat
  payload := .lend p.body
  number_pos := by have := h.pos; omega
  number_lt := by have := h.pos; have := h.lt; omega

/-- The type is one of integers. -/
def IsInteger (p : Packed) : Prop := p.ptype.payload 0 0 ≠ none

instance (p : Packed) : Decidable p.IsInteger := inferInstanceAs (Decidable (_ ≠ _))

/-- The length that is guessed. -/
def guess (p : Packed) : ℕ := if p.ptype = .bool then p.data.length else p.data.length * 2

/-- The guess takes as many bytes as the length. -/
def Guessed (p : Packed) : Prop :=
  (Varint.encode p.body.length).length = (Varint.encode p.guess).length

instance (p : Packed) : Decidable p.Guessed := inferInstanceAs (Decidable (_ = _))

/-- The field can be written: the length is guessed well; a field of 32-bit numbers
has one number at most; and no `int32` has a high word, which is dropped here. -/
def Writable (p : Packed) : Prop :=
  match p.ptype with
  | .fixed64 | .sfixed64 => True
  | .fixed32 | .sfixed32 => p.data.length ≤ 1
  | .int32 => (∀ v ∈ p.data, v.hi = 0) ∧ p.Guessed
  | _ => p.Guessed

end Packed

/-! ## What is written -/

theorem overlay_length (old new : List UInt8) : (overlay old new).length = old.length := by
  rw [overlay, List.length_take, List.length_append, List.length_drop]
  omega

/-- All of what is written is seen if it is as long as the memory was. -/
theorem overlay_eq_iff (old new : List UInt8) :
    overlay old new = new ↔ old.length = new.length := by
  constructor
  · intro h
    rw [← overlay_length old new, h]
  · intro h
    rw [overlay, h, List.take_left]

private theorem encode32_ofNat {n : ℕ} (h : n < 2 ^ 32) :
    encode32 (BitVec.ofNat 32 n) = Varint.encode n := by
  rw [encode32_eq, BitVec.toNat_ofNat, Nat.mod_eq_of_lt h]

/-! ### Numbers -/

/-- All varints of a list that is written without a gap can be told from the whole. -/
private theorem eq_of_flatMap_encode {α : Type} {g g' : α → ℕ} {l : List α}
    (h : (l.flatMap fun a => Varint.encode (g a)) = l.flatMap fun a => Varint.encode (g' a)) :
    ∀ a ∈ l, g a = g' a := by
  induction l with
  | nil =>
      intro a ha
      cases ha
  | cons a l ih =>
      rw [List.flatMap_cons, List.flatMap_cons] at h
      obtain ⟨hhead, -, hrest⟩ := Varint.encodes_unambiguous (Varint.encodes_encode _)
        (Varint.encodes_encode _) h
      exact List.forall_mem_cons.mpr ⟨hhead, ih hrest⟩

private theorem wireBytes_int32 (v : Longlong) :
    PType.wireBytes .int32 v = Varint.encode (v.hi ++ v.low : BitVec 64).toNat := rfl

private theorem packedBytes_int32 (v : Longlong) :
    PType.packedBytes .int32 v = Varint.encode v.low.toNat := encode32_eq v.low

/-- Only a high word is not written as the wire format has it. -/
private theorem packedBytes_eq {type : PType} (h : type ≠ .int32) (hint : type.payload 0 0 ≠ none)
    (v : Longlong) : type.packedBytes v = type.wireBytes v := by
  cases type with
  | int32 => exact absurd rfl h
  | int64 | uint64 => exact encode_eq (v.hi ++ v.low)
  | uint32 | enum | bool => exact encode32_wide v.low
  | sint32 => exact encode32_wide (Zigzag.encode v.low)
  | sint64 => exact encode_eq (Zigzag.encode (v.hi ++ v.low : BitVec 64))
  | fixed32 | sfixed32 => exact le_eq_leBytes v.low
  | fixed64 | sfixed64 => exact le_le v.low v.hi
  | double | float | string | group | message | bytes | other => exact absurd rfl hint

private theorem append_toNat_eq_iff (v : Longlong) :
    v.low.toNat = (v.hi ++ v.low : BitVec 64).toNat ↔ v.hi = 0 := by
  have hlow := v.low.isLt
  rw [BitVec.toNat_append, Nat.shiftLeft_eq, Nat.mul_comm, ← Nat.two_pow_add_eq_or_of_lt hlow,
    ← BitVec.toNat_inj]
  change _ ↔ v.hi.toNat = 0
  omega

/-- The numbers are written as the wire format has them unless some `int32` has a high word. -/
theorem Packed.numbers_eq_iff {p : Packed} (hint : p.IsInteger) :
    p.data.flatMap p.ptype.packedBytes = p.body ↔
      (p.ptype = .int32 → ∀ v ∈ p.data, v.hi = 0) := by
  rw [Packed.body]
  by_cases htype : p.ptype = .int32
  · simp only [htype, true_imp_iff, funext packedBytes_int32, funext wireBytes_int32]
    constructor
    · exact fun h v hv => (append_toNat_eq_iff v).mp (eq_of_flatMap_encode h v hv)
    · intro h
      refine List.flatMap_congr fun v hv => ?_
      rw [(append_toNat_eq_iff v).mpr (h v hv)]
  · refine iff_of_true (List.flatMap_congr fun v _ => packedBytes_eq htype hint v) fun h => ?_
    exact absurd h htype

theorem PType.packedBytes_length (type : PType) (v : Longlong) : (type.packedBytes v).length ≤ 10 := by
  have hshort : ∀ w : BitVec 32, (encode32 w).length ≤ 10 := fun w =>
    Nat.le_trans (encode32_length w) (by decide)
  cases type with
  | int64 | uint64 | sint64 => exact encode_length _
  | int32 | bool | uint32 | enum | sint32 => exact hshort _
  | fixed32 | sfixed32 => exact (by decide : 4 ≤ 10)
  | fixed64 | sfixed64 => exact (by decide : 8 ≤ 10)
  | double | float | string | group | message | bytes | other => exact Nat.zero_le _

private theorem PType.wireBytes_length (type : PType) (v : Longlong) :
    (type.wireBytes v).length ≤ 10 := by
  have hwide : ∀ w : BitVec 64, (Varint.encode w.toNat).length ≤ 10 := fun w =>
    Varint.encode_length_le (Nat.lt_of_lt_of_le w.isLt (by decide))
  cases type with
  | int64 | uint64 | sint64 | int32 | bool | uint32 | enum | sint32 => exact hwide _
  | fixed32 | sfixed32 => simp [wireBytes, payload, Wire.Payload.encode]
  | fixed64 | sfixed64 => simp [wireBytes, payload, Wire.Payload.encode]
  | double | float | string | group | message | bytes | other => exact Nat.zero_le _

private theorem length_flatMap_le {g : Longlong → List UInt8} {k : ℕ} (hg : ∀ v, (g v).length ≤ k)
    (data : List Longlong) : (data.flatMap g).length ≤ k * data.length := by
  induction data with
  | nil => exact Nat.le_refl _
  | cons v vs ih =>
      have hv := hg v
      rw [List.flatMap_cons, List.length_append, List.length_cons, Nat.mul_succ]
      omega

theorem Packed.body_length_le (p : Packed) : p.body.length ≤ 10 * p.data.length :=
  length_flatMap_le p.ptype.wireBytes_length p.data

theorem Packed.tag_record (p : Packed) (h : p.Numbered) :
    encode32 ((BitVec.ofInt 32 p.id) <<< 3 ||| 2) = Varint.encode (p.record h).tag :=
  Wmessage.tag_eq (f := ⟨p.id, [], p.ptype, .packed, .integer ⟨0, 0⟩, .n []⟩)
    (Int.toNat_of_nonneg (Int.le_of_lt h.pos)).symm rfl

/-- What is written over the guess is the record of `body` only if the numbers are those
and the guess was as long as their length. -/
theorem overlay_record_iff {head numbers body : List UInt8} (hhead : head ≠ []) :
    overlay (head ++ numbers) (Varint.encode numbers.length ++ numbers) =
        Varint.encode body.length ++ body ↔
      numbers = body ∧ (Varint.encode body.length).length = head.length := by
  constructor
  · intro h
    have hlen := congrArg List.length h
    rw [overlay_length, List.length_append, List.length_append] at hlen
    -- the length of the numbers is never cut off
    have hfits : (Varint.encode numbers.length).length ≤ (head ++ numbers).length := by
      have hpos := List.length_pos_of_ne_nil hhead
      have hle : (Varint.encode numbers.length).length ≤ numbers.length + 1 :=
        Varint.encode_length_le (Nat.lt_trans (Nat.lt_succ_self _)
          (Nat.lt_pow_self (by decide)))
      rw [List.length_append]
      omega
    obtain ⟨rest, hrest⟩ : ∃ rest, overlay (head ++ numbers)
        (Varint.encode numbers.length ++ numbers) = Varint.encode numbers.length ++ rest := by
      rw [overlay, List.append_assoc, List.take_append, List.take_of_length_le hfits]
      exact ⟨_, rfl⟩
    obtain ⟨hsame, -, -⟩ := Varint.encodes_unambiguous (Varint.encodes_encode _)
      (Varint.encodes_encode _) (hrest.symm.trans h)
    have hold : (head ++ numbers).length =
        (Varint.encode numbers.length ++ numbers).length := by
      rw [List.length_append, List.length_append, hsame]
      omega
    rw [(overlay_eq_iff _ _).mpr hold, hsame] at h
    exact ⟨List.append_cancel_left h, by omega⟩
  · rintro ⟨rfl, hlen⟩
    refine (overlay_eq_iff _ _).mpr ?_
    rw [List.length_append, List.length_append, hlen]

section Writing

variable {p : Packed} {m : Wmessage}

/-- Numbers that are written as varints are appended one by one. -/
private theorem packVarints_appends {type : PType}
    (htype : ∀ v, ∃ bs, type.packedVarint v = some bs ∧ bs.length ≤ 10) (data : List Longlong)
    (hm : m.Fits) (hfit : m.bytes.length + 10 * data.length + 10 ≤ 2 ^ 30) :
    ∃ a, packVarints type data m = some a ∧
      m.Appended (data.flatMap fun v => (type.packedVarint v).getD []) a := by
  induction data generalizing m with
  | nil => exact ⟨m, rfl, rfl, (List.append_nil _).symm, rfl, hm⟩
  | cons v vs ih =>
      rw [List.length_cons] at hfit
      obtain ⟨bs, hbs, hlen⟩ := htype v
      obtain ⟨cap, hexpand, -, -⟩ := Wmessage.expand_eq hm.cap 10 (by omega)
      obtain ⟨hnil, hroom⟩ := hm.expand hexpand
      have hone := hnil.append bs (by omega)
      have hbytes := hone.bytes_eq
      rw [List.nil_append] at hbytes
      obtain ⟨a, ha, happ⟩ := ih hone.fits (by rw [hbytes, List.length_append]; omega)
      refine ⟨a, ?_, happ.type_eq.trans hone.type_eq, ?_, happ.packed_eq.trans hone.packed_eq,
        happ.fits⟩
      · simp only [packVarints, hbs, hexpand, Option.bind_eq_bind, Option.bind_some]
        exact ha
      · rw [happ.bytes_eq, hbytes, List.flatMap_cons, hbs, Option.getD_some, List.append_assoc]

/-! ### What was written before -/

private theorem expand_keeps {m' : Wmessage} {sz : ℕ} (h : m.expand sz = some m') :
    m'.bytes = m.bytes := by
  unfold Wmessage.expand at h
  split at h
  · obtain ⟨cap, -, h⟩ := Option.bind_eq_some_iff.mp h
    cases h
    rfl
  · cases h
    rfl

private theorem packVarints_keeps {type : PType} {data : List Longlong} {a : Wmessage}
    (h : packVarints type data m = some a) : m.bytes <+: a.bytes := by
  induction data generalizing m with
  | nil =>
      cases h
      exact List.prefix_refl _
  | cons v vs ih =>
      rw [packVarints] at h
      split at h
      · rename_i bs hbs
        obtain ⟨m', hexpand, h⟩ := Option.bind_eq_some_iff.mp h
        rw [← expand_keeps hexpand]
        exact (List.prefix_append _ bs).trans (ih h)
      · exact (List.prefix_append _ [0]).trans (ih h)

private theorem packPackedVarint_keeps {a : Wmessage} (h : packPackedVarint p m = some a) :
    m.bytes <+: a.bytes := by
  simp only [packPackedVarint, Option.bind_eq_bind, Option.bind_eq_some_iff] at h
  generalize (if p.ptype = .bool then p.data.length else p.data.length * 2) = len at h
  obtain ⟨m₁, hexpand, m₂, hpack, h⟩ := h
  split at h
  · cases h
    rw [← expand_keeps hexpand]
    exact (List.prefix_append m₁.bytes _).trans (packVarints_keeps hpack)
  · split at h <;> obtain ⟨m₃, -, h⟩ := Option.bind_eq_some_iff.mp h <;> cases h <;>
      exact List.prefix_append _ _

/-- Whatever is written for a packed field, the message before it is not touched. -/
theorem packPacked_keeps {mem : ℕ → UInt8} {a : Wmessage} (h : packPacked mem p m = some a) :
    m.bytes <+: a.bytes := by
  unfold packPacked at h
  simp only [Option.bind_eq_bind, Option.bind_eq_some_iff] at h
  obtain ⟨m₁, hexpand, h⟩ := h
  have htag : m.bytes <+: (m₁.append (encode32 ((BitVec.ofInt 32 p.id) <<< 3 ||| 2))).bytes := by
    rw [← expand_keeps hexpand]
    exact List.prefix_append _ _
  refine htag.trans ?_
  generalize m₁.append (encode32 ((BitVec.ofInt 32 p.id) <<< 3 ||| 2)) = m₂ at h ⊢
  have h64 : packPacked64 p m₂ = some a → m₂.bytes <+: a.bytes := by
    intro h
    obtain ⟨m₃, hexpand, h⟩ := Option.bind_eq_some_iff.mp h
    cases h
    rw [← expand_keeps hexpand]
    exact List.prefix_append _ _
  have h32 : packPacked32 mem p m₂ = some a → m₂.bytes <+: a.bytes := by
    intro h
    obtain ⟨m₃, hexpand, h⟩ := Option.bind_eq_some_iff.mp h
    dsimp only at h
    split at h
    · cases h
    · cases h
      rw [← expand_keeps hexpand]
      exact (List.prefix_append m₃.bytes _).trans (List.prefix_append _ _)
  cases htype : p.ptype with
  | double | float =>
      rw [htype] at h
      cases h
  | fixed64 | sfixed64 =>
      rw [htype] at h
      exact h64 h
  | fixed32 | sfixed32 =>
      rw [htype] at h
      exact h32 h
  | int64 | uint64 | int32 | uint32 | enum | sint32 | sint64 | bool | string | group | message
  | bytes | other =>
      rw [htype] at h
      exact packPackedVarint_keeps h

private theorem packPackedVarint_bytes {n : ℕ} {body : List UInt8}
    (htype : ∀ v, ∃ bs, p.ptype.packedVarint v = some bs ∧ bs.length ≤ 10)
    (hbody : (p.data.flatMap fun v => (p.ptype.packedVarint v).getD []) = body)
    (hlong : body.length ≤ 10 * n)
    (hn : p.data.length = n) (hm : m.Fits) (hfit : m.bytes.length + 10 * n + 30 ≤ 2 ^ 30) :
    ∃ a, packPackedVarint p m = some a ∧ a.bytes = m.bytes ++
      overlay (Varint.encode p.guess ++ body) (Varint.encode body.length ++ body) := by
  have hguess : p.guess ≤ 2 * n := by
    rw [Packed.guess]
    split <;> omega
  have hhead : encode32 (BitVec.ofNat 32 p.guess) = Varint.encode p.guess :=
    encode32_ofNat (by omega)
  have hheadlen := encode32_length (BitVec.ofNat 32 p.guess)
  rw [hhead] at hheadlen
  obtain ⟨cap, hexpand, -, -⟩ := Wmessage.expand_eq hm.cap (10 + p.guess) (by omega)
  obtain ⟨hnil, hroom⟩ := hm.expand hexpand
  have hone := hnil.append (Varint.encode p.guess) (by omega)
  have hbytes₁ := hone.bytes_eq
  rw [List.nil_append] at hbytes₁
  obtain ⟨m₂, hpack, happ⟩ := packVarints_appends htype p.data hone.fits
    (by rw [hbytes₁, List.length_append]; omega)
  rw [hbody] at happ
  have hbytes₂ : m₂.bytes = m.bytes ++ (Varint.encode p.guess ++ body) := by
    rw [happ.bytes_eq, hbytes₁, List.append_assoc]
  have hnumbers : m₂.bytes.drop (m.bytes.length + (Varint.encode p.guess).length) = body := by
    rw [hbytes₂, ← List.append_assoc, ← List.length_append]
    exact List.drop_left
  have htemp : encode32 (BitVec.ofNat 32 body.length) = Varint.encode body.length :=
    encode32_ofNat (by omega)
  have htemplen := encode32_length (BitVec.ofNat 32 body.length)
  rw [htemp] at htemplen
  have hstart : (if p.ptype = .bool then p.data.length else p.data.length * 2) = p.guess := rfl
  by_cases hsame : body.length = p.guess
  · refine ⟨m₂, ?_, ?_⟩
    · simp only [packPackedVarint, hstart, hexpand, hhead, hpack, hnumbers, hsame, if_true,
        Option.bind_eq_bind, Option.bind_some, Option.pure_def]
    · rw [hbytes₂, hsame, (overlay_eq_iff _ _).mpr rfl]
  · obtain ⟨cap₃, hexpand₃, -, -⟩ := Wmessage.expand_eq happ.fits.cap
      (Varint.encode body.length).length (by
        rw [hbytes₂]
        simp only [List.length_append]
        omega)
    by_cases hlens : (Varint.encode body.length).length = (Varint.encode p.guess).length
    · refine ⟨⟨m₂.type, m.bytes ++ overlay (Varint.encode p.guess ++ body)
        (Varint.encode body.length ++ body), m₂.cap, m₂.packed⟩, ?_, rfl⟩
      simp only [packPackedVarint, hstart, hexpand, hhead, hpack, hnumbers, hsame, hlens, htemp,
        if_true, if_false, Option.bind_eq_bind, Option.bind_some, Option.pure_def]
    · refine ⟨⟨m₂.type, m.bytes ++ overlay (Varint.encode p.guess ++ body)
        (Varint.encode body.length ++ body), cap₃, m₂.packed⟩, ?_, rfl⟩
      simp only [packPackedVarint, hstart, hexpand, hhead, hpack, hnumbers, hsame, hlens, htemp,
        hexpand₃, if_false, Option.bind_eq_bind, Option.bind_some, Option.pure_def]

private theorem varints_record (hint : p.IsInteger)
    (htype : ∀ v, ∃ bs, p.ptype.packedVarint v = some bs ∧ bs.length ≤ 10)
    (hbytes : ∀ v, (p.ptype.packedVarint v).getD [] = p.ptype.packedBytes v) (hm : m.Fits)
    (hfit : m.bytes.length + 10 * p.data.length + 30 ≤ 2 ^ 30) :
    (∃ a, packPackedVarint p m = some a ∧
        a.bytes = m.bytes ++ (Varint.encode p.body.length ++ p.body)) ↔
      (p.ptype = .int32 → ∀ v ∈ p.data, v.hi = 0) ∧ p.Guessed := by
  obtain ⟨a, ha, hwritten⟩ := packPackedVarint_bytes htype
    (List.flatMap_congr fun v _ => hbytes v)
    (length_flatMap_le p.ptype.packedBytes_length p.data) rfl hm hfit
  have hiff : a.bytes = m.bytes ++ (Varint.encode p.body.length ++ p.body) ↔
      (p.ptype = .int32 → ∀ v ∈ p.data, v.hi = 0) ∧ p.Guessed := by
    rw [hwritten, List.append_cancel_left_eq, overlay_record_iff (Varint.encode_ne_nil _),
      Packed.numbers_eq_iff hint]
    rfl
  constructor
  · rintro ⟨a', ha', hrecord⟩
    obtain rfl := Option.some.inj (ha.symm.trans ha')
    exact hiff.mp hrecord
  · exact fun h => ⟨a, ha, hiff.mpr h⟩

private theorem length_flatMap_const {β : Type} {g : Longlong → List β} {k : ℕ}
    (hg : ∀ v, (g v).length = k) (data : List Longlong) :
    (data.flatMap g).length = data.length * k := by
  induction data with
  | nil => simp
  | cons v vs ih => rw [List.flatMap_cons, List.length_append, hg, ih, List.length_cons,
      Nat.succ_mul, Nat.add_comm]

private theorem words64_record
    (hbody : p.body = p.data.flatMap fun v => Word.le v.low ++ Word.le v.hi) (hm : m.Fits)
    (hfit : m.bytes.length + 10 * p.data.length + 30 ≤ 2 ^ 30) :
    ∃ a, packPacked64 p m = some a ∧
      a.bytes = m.bytes ++ (Varint.encode p.body.length ++ p.body) := by
  have hlen : p.body.length = p.data.length * 8 := by
    rw [hbody]
    exact length_flatMap_const (fun v => by rw [List.length_append]; rfl) _
  obtain ⟨cap, hexpand, -, -⟩ := Wmessage.expand_eq hm.cap (10 + p.data.length * 8) (by omega)
  refine ⟨_, by simp only [packPacked64, hexpand, Option.bind_eq_bind, Option.bind_some]; rfl, ?_⟩
  rw [Wmessage.bytes_append, encode32_ofNat (by omega), ← hlen, ← hbody]

private theorem words32_record (hbody : p.body = p.data.flatMap fun v => Word.le v.low)
    (hm : m.Fits) (hfit : m.bytes.length + 10 * p.data.length + 30 ≤ 2 ^ 30) :
    (∀ mem, ∃ a, packPacked32 mem p m = some a ∧
        a.bytes = m.bytes ++ (Varint.encode p.body.length ++ p.body)) ↔ p.data.length ≤ 1 := by
  have hlen : p.body.length = p.data.length * 4 := by
    rw [hbody]
    exact length_flatMap_const (g := fun v => Word.le v.low) (fun _ => rfl) _
  obtain ⟨cap, hexpand, -, -⟩ := Wmessage.expand_eq hm.cap (10 + p.data.length * 4) (by omega)
  obtain ⟨-, hroom⟩ := hm.expand hexpand
  have hhead : encode32 (BitVec.ofNat 32 (p.data.length * 4)) = Varint.encode p.body.length := by
    rw [encode32_ofNat (by omega), hlen]
  have hheadlen := encode32_length (BitVec.ofNat 32 (p.data.length * 4))
  have hbytes : ∀ {mem : ℕ → UInt8} {a : Wmessage}, packPacked32 mem p m = some a →
      a.bytes = m.bytes ++ (Varint.encode p.body.length ++ spread mem p.data) := by
    intro mem a ha
    simp only [packPacked32, hexpand, Option.bind_eq_bind, Option.bind_some] at ha
    split at ha
    · cases ha
    · cases ha
      rw [Wmessage.bytes_append, Wmessage.bytes_append, hhead, List.append_assoc]
  constructor
  · intro hall
    by_contra hmany
    -- the byte behind the first number is whatever it was
    have hfifth : ∀ mem : ℕ → UInt8, p.body[4]? = some (mem 4) := by
      intro mem
      obtain ⟨a, ha, hrecord⟩ := hall mem
      rw [hbytes ha, List.append_cancel_left_eq, List.append_cancel_left_eq] at hrecord
      rw [← hrecord, spread, List.getElem?_map, List.getElem?_range (by omega)]
      rfl
    have hclash := (hfifth fun _ => 0).symm.trans (hfifth fun _ => 1)
    cases hclash
  · intro hfew mem
    have hspread : spread mem p.data = p.body := by
      rw [hbody]
      rcases hdata : p.data with _ | ⟨v, _ | ⟨w, rest⟩⟩
      · rfl
      · rfl
      · rw [hdata] at hfew
        simp at hfew
    have hinside : ¬ cap < m.bytes.length + (encode32 (BitVec.ofNat 32 (p.data.length * 4))).length +
        (p.data.length * 8 - 4) := by
      dsimp only at hroom
      omega
    have hrun : packPacked32 mem p m = some ((Wmessage.append { m with cap := cap }
        (encode32 (BitVec.ofNat 32 (p.data.length * 4)))).append (spread mem p.data)) := by
      simp only [packPacked32, hexpand, Option.bind_eq_bind, Option.bind_some,
        Wmessage.bytes_append, Wmessage.cap_append, List.length_append, hinside, if_false]
      rfl
    exact ⟨_, hrun, hspread ▸ hbytes hrun⟩

/-- Every type of integers that is written as varints. -/
private theorem packedVarint_some {type : PType} (hint : type.payload 0 0 ≠ none)
    (h32 : type ≠ .fixed32 ∧ type ≠ .sfixed32) (h64 : type ≠ .fixed64 ∧ type ≠ .sfixed64)
    (v : Longlong) : ∃ bs, type.packedVarint v = some bs ∧ bs.length ≤ 10 := by
  have hshort : ∀ w : BitVec 32, (encode32 w).length ≤ 10 := fun w =>
    Nat.le_trans (encode32_length w) (by decide)
  cases type with
  | int64 | uint64 | sint64 => exact ⟨_, rfl, encode_length _⟩
  | int32 | bool | uint32 | enum | sint32 => exact ⟨_, rfl, hshort _⟩
  | fixed32 | sfixed32 => simp at h32
  | fixed64 | sfixed64 => simp at h64
  | double | float | string | group | message | bytes | other => exact absurd rfl hint

/-- What is written for a packed field is the record of its numbers exactly when
the field is writable. -/
theorem packPacked_record_iff (hint : p.IsInteger) (hid : p.Numbered) (hm : m.Fits)
    (hfit : m.bytes.length + 10 * p.data.length + 40 ≤ 2 ^ 30) :
    (∀ mem, ∃ a, packPacked mem p m = some a ∧ a.bytes = m.bytes ++ (p.record hid).encode) ↔
      p.Writable := by
  obtain ⟨cap, hexpand, -, -⟩ := Wmessage.expand_eq hm.cap 10 (by omega)
  obtain ⟨hnil, hroom⟩ := hm.expand hexpand
  have htaglen := encode32_length ((BitVec.ofInt 32 p.id) <<< 3 ||| 2)
  have htag := hnil.append (encode32 ((BitVec.ofInt 32 p.id) <<< 3 ||| 2)) (by omega)
  rw [List.nil_append] at htag
  obtain ⟨m₁, hm₁⟩ : ∃ m₁, m₁ = Wmessage.append { m with cap := cap }
    (encode32 ((BitVec.ofInt 32 p.id) <<< 3 ||| 2)) := ⟨_, rfl⟩
  rw [← hm₁] at htag
  have hrecord : ∀ a : Wmessage, a.bytes = m.bytes ++ (p.record hid).encode ↔
      a.bytes = m₁.bytes ++ (Varint.encode p.body.length ++ p.body) := by
    intro a
    rw [htag.bytes_eq, p.tag_record hid, List.append_assoc]
    rfl
  have hfit₁ : m₁.bytes.length + 10 * p.data.length + 30 ≤ 2 ^ 30 := by
    rw [htag.bytes_eq, List.length_append]
    omega
  simp only [packPacked, hexpand, ← hm₁, Option.bind_eq_bind, Option.bind_some, hrecord]
  have hvarints : p.ptype ≠ .fixed32 ∧ p.ptype ≠ .sfixed32 →
      p.ptype ≠ .fixed64 ∧ p.ptype ≠ .sfixed64 →
      ((∀ _ : ℕ → UInt8, ∃ a, packPackedVarint p m₁ = some a ∧
          a.bytes = m₁.bytes ++ (Varint.encode p.body.length ++ p.body)) ↔
        (p.ptype = .int32 → ∀ v ∈ p.data, v.hi = 0) ∧ p.Guessed) := by
    intro h32 h64
    have hbytes : ∀ v, (p.ptype.packedVarint v).getD [] = p.ptype.packedBytes v := by
      intro v
      cases htype : p.ptype <;> simp_all [PType.packedBytes]
    have hiff := varints_record hint (packedVarint_some hint h32 h64) hbytes htag.fits hfit₁
    exact ⟨fun h => hiff.mp (h fun _ => 0), fun h _ => hiff.mpr h⟩
  cases htype : p.ptype with
  | int32 =>
      simp only [Packed.Writable, htype]
      have hiff := hvarints (by simp [htype]) (by simp [htype])
      simpa only [htype, true_imp_iff] using hiff
  | int64 | uint64 | uint32 | enum | sint32 | sint64 | bool =>
      simp only [Packed.Writable, htype]
      have hiff := hvarints (by simp [htype]) (by simp [htype])
      simpa [htype] using hiff
  | fixed64 | sfixed64 =>
      have hbody := (Packed.numbers_eq_iff hint).mpr (by simp [htype])
      simp only [Packed.Writable, htype, iff_true]
      exact fun _ => words64_record (by rw [← hbody, htype]; rfl) htag.fits hfit₁
  | fixed32 | sfixed32 =>
      have hbody := (Packed.numbers_eq_iff hint).mpr (by simp [htype])
      simp only [Packed.Writable, htype]
      exact words32_record (by rw [← hbody, htype]; rfl) htag.fits hfit₁
  | double | float | string | group | message | bytes | other =>
      rw [Packed.IsInteger, htype] at hint
      exact absurd rfl hint

/-- Two numbers that take three bytes, where four were expected. -/
def twoNumbers : Packed := ⟨2, .uint32, [⟨3, 0⟩, ⟨270, 0⟩]⟩

theorem twoNumbers_numbered : twoNumbers.Numbered := ⟨by decide, by decide⟩

/-- A message with a record of two bytes. -/
def oneRecord (type : Message) : Wmessage := { Wmessage.new type with bytes := [8, 1] }

theorem fits_oneRecord (type : Message) : (oneRecord type).Fits :=
  ⟨(Wmessage.fits_new type).cap, (by decide : 2 ≤ wmessageSize)⟩

end Writing

/-! ## What is read -/

section Reading

/-- Varints that are read one after the other. -/
private theorem unpackVarints_flatMap (takes : Longlong → Longlong) {r : Longlong → Longlong}
    {e : Longlong → List UInt8}
    (hdec : ∀ v rest, decode (e v ++ rest) = some (r v, (e v).length))
    (hpos : ∀ v, 0 < (e v).length) {data : List Longlong} (rest : List UInt8) {fuel : ℕ}
    (hfuel : (data.flatMap e).length ≤ fuel) :
    unpackVarints takes fuel (data.flatMap e ++ rest) (data.flatMap e).length =
      some (data.map fun v => takes (r v), true) := by
  induction data generalizing fuel with
  | nil => cases fuel <;> rfl
  | cons v vs ih =>
      have hv := hpos v
      rw [List.flatMap_cons, List.length_append] at hfuel
      obtain ⟨fuel, rfl⟩ : ∃ k, fuel = k + 1 := ⟨fuel - 1, by omega⟩
      have hlong : ¬ (e v).length + (vs.flatMap e).length = 0 := by omega
      have hends : ¬ (e v).length + (vs.flatMap e).length < (e v).length := by omega
      rw [List.flatMap_cons, List.length_append, List.append_assoc, unpackVarints, if_neg hlong]
      simp only [hdec, hends, if_false, Option.bind_eq_bind, Option.bind_some, List.drop_left,
        Nat.add_sub_cancel_left, ih (by omega : (vs.flatMap e).length ≤ fuel), Option.pure_def,
        List.map_cons]

private theorem decode_number (w : BitVec 64) (rest : List UInt8) :
    decode (Varint.encode w.toNat ++ rest) = some (readBack w, (Varint.encode w.toNat).length) :=
  decode_readBack (Varint.encodes_encode _)
    (Varint.encode_length_le (Nat.lt_of_lt_of_le w.isLt (by decide))) rest

private theorem words32_flatMap (data : List Longlong) (rest : List UInt8) :
    words32 data.length ((data.flatMap fun v => Word.le v.low) ++ rest) =
      data.map fun v => ⟨v.low, 0⟩ := by
  induction data with
  | nil => rfl
  | cons v vs ih =>
      rw [List.length_cons, words32, List.flatMap_cons, List.append_assoc,
        List.take_left' (by rfl), List.drop_left' (by rfl), ih, Word.ofLe_le, List.map_cons]

private theorem words64_flatMap (data : List Longlong) (rest : List UInt8) :
    words64 data.length ((data.flatMap fun v => Word.le v.low ++ Word.le v.hi) ++ rest) = data := by
  induction data with
  | nil => rfl
  | cons v vs ih =>
      have hnext : ∀ more : List UInt8,
          (Word.le v.low ++ Word.le v.hi ++ more).drop 8 = more := fun more =>
        List.drop_left' (by rfl)
      rw [List.length_cons, words64, List.flatMap_cons, List.append_assoc, hnext, ih,
        List.append_assoc, List.take_left' (by rfl), List.drop_left' (by rfl),
        List.take_left' (by rfl), Word.ofLe_le, Word.ofLe_le]

/-- What is read of the numbers of a packed field: what is read of them outside of one. -/
def Packed.back (p : Packed) : List Longlong :=
  p.data.filterMap fun v => p.ptype.comesBack v.low v.hi

private theorem back_eq_map {p : Packed} {r : Longlong → Longlong}
    (h : ∀ v, p.ptype.comesBack v.low v.hi = some (r v)) : p.back = p.data.map r := by
  rw [Packed.back, funext h]
  exact List.filterMap_eq_map' (f := r) ▸ rfl

/-- The numbers of a packed field are read from the body of its record, whatever is behind it. -/
theorem unpackPacked_body {p : Packed} (hint : p.IsInteger) (rest : List UInt8) :
    unpackPacked p.ptype (p.body ++ rest) p.body.length = some (p.back, (p.data.length : ℤ)) := by
  have hvarints : ∀ {takes : Longlong → Longlong} (number : Longlong → BitVec 64),
      (∀ v, p.ptype.wireBytes v = Varint.encode (number v).toNat) →
      (∀ v, p.ptype.comesBack v.low v.hi = some (takes (readBack (number v)))) →
      (unpackVarints takes (p.body.length : ℤ).toNat (p.body ++ rest)
        (p.body.length : ℤ).toNat).map (fun r => (r.1, if r.2 then (r.1.length : ℤ) else -1)) =
        some (p.back, (p.data.length : ℤ)) := by
    intro takes number hbytes hback
    have hrun := unpackVarints_flatMap takes (r := fun v => readBack (number v))
      (e := p.ptype.wireBytes) (fun v rest => by rw [hbytes]; exact decode_number _ rest)
      (fun v => by rw [hbytes]; exact Varint.encode_length_pos _) rest
      (Nat.le_refl (p.data.flatMap p.ptype.wireBytes).length)
    rw [Int.toNat_natCast, Packed.body, hrun, back_eq_map hback]
    simp
  have hwords : ∀ {width : ℕ} {words : ℕ → List UInt8 → List Longlong},
      p.body.length = p.data.length * width → 0 < width →
      words p.data.length (p.body ++ rest) = p.back →
      unpackWords width words (p.body ++ rest) p.body.length =
        some (p.back, (p.data.length : ℤ)) := by
    intro width words hlen hwidth hwords
    have hmod : ((p.data.length * width : ℕ) : ℤ).tmod width = 0 := by
      rw [Int.natCast_mul]
      exact Int.mul_tmod_left _ _
    have hdiv : ((p.data.length * width : ℕ) : ℤ).tdiv width = p.data.length := by
      rw [Int.natCast_mul]
      exact Int.mul_tdiv_cancel _ (by omega)
    have hroom : ¬ (p.body ++ rest).length < p.data.length * width := by
      rw [List.length_append, hlen]
      omega
    rw [unpackWords, hlen, if_neg (by rw [hmod]; simp), Int.toNat_natCast, if_neg hroom, hdiv,
      Nat.mul_div_cancel _ hwidth, hwords]
  cases htype : p.ptype with
  | int64 | uint64 | int32 =>
      simp only [htype] at hvarints ⊢
      exact hvarints (fun v => v.hi ++ v.low) (fun v => rfl) fun v => rfl
  | uint32 | bool =>
      simp only [htype] at hvarints ⊢
      exact hvarints (fun v => v.low.setWidth 64) (fun v => rfl) fun v => rfl
  | enum =>
      simp only [htype] at hvarints ⊢
      refine hvarints (fun v => v.low.setWidth 64) (fun v => rfl) fun v => ?_
      simp [PType.comesBack, PType.payload, atomWords, PType.takes, readBack_setWidth]
  | sint32 =>
      simp only [htype] at hvarints ⊢
      exact hvarints (fun v => (Zigzag.encode v.low).setWidth 64) (fun v => rfl)
        fun v => rfl
  | sint64 =>
      simp only [htype] at hvarints ⊢
      exact hvarints (fun v => Zigzag.encode (v.hi ++ v.low : BitVec 64))
        (fun v => rfl) fun v => rfl
  | fixed32 | sfixed32 =>
      have hbody := (Packed.numbers_eq_iff hint).mpr (by simp [htype])
      have hback : p.back = p.data.map fun v => ⟨v.low, 0⟩ :=
        back_eq_map (by intro v; rw [htype]; rfl)
      rw [htype] at hbody
      refine hwords ?_ (by decide) ?_
      · rw [← hbody]
        exact length_flatMap_const (g := fun v => Word.le v.low) (fun _ => rfl) _
      · rw [← hbody, hback]
        exact words32_flatMap p.data rest
  | fixed64 | sfixed64 =>
      have hbody := (Packed.numbers_eq_iff hint).mpr (by simp [htype])
      have hback : p.back = p.data := by
        rw [back_eq_map (r := id) (by
          intro v
          rw [htype]
          exact congrArg some (Longlong.ofNumber_append v.low v.hi)), List.map_id]
      rw [htype] at hbody
      refine hwords ?_ (by decide) ?_
      · rw [← hbody]
        exact length_flatMap_const (g := fun v => Word.le v.low ++ Word.le v.hi)
          (fun v => by rw [List.length_append]; rfl) _
      · rw [← hbody, hback]
        exact words64_flatMap p.data rest
  | double | float | string | group | message | bytes | other =>
      rw [Packed.IsInteger, htype] at hint
      exact absurd rfl hint

end Reading

end Pbc
