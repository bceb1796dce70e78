-- SUMMARY: Numbers of every scalar type as they are written and read back, and exactly which of them come back unchanged.
import HdClient.Base.Zigzag
import HdClient.Pbc.Reading
import HdClient.Pbc.Wmessage

/-! # Numbers

A number is handed to the library as two words. Its type says how they are
written, and what is made of the words that are read. -/

namespace Pbc

/-! ## Two words -/

/-- The two words of a number. -/
def Longlong.ofNumber (v : BitVec 64) : Longlong := ⟨v.setWidth 32, (v >>> 32).setWidth 32⟩

theorem getLsbD_words (low hi : BitVec 32) (j : ℕ) :
    (hi ++ low : BitVec 64).getLsbD j = if j < 32 then low.getLsbD j else hi.getLsbD (j - 32) :=
  BitVec.getLsbD_append

@[simp] theorem Longlong.ofNumber_append (low hi : BitVec 32) : ofNumber (hi ++ low) = ⟨low, hi⟩ := by
  rw [ofNumber, Longlong.mk.injEq]
  constructor
  · apply BitVec.eq_of_getLsbD_eq
    intro j hj
    rw [BitVec.getLsbD_setWidth, getLsbD_words]
    simp [hj]
  · apply BitVec.eq_of_getLsbD_eq
    intro j hj
    rw [BitVec.getLsbD_setWidth, BitVec.getLsbD_ushiftRight, getLsbD_words]
    simp [hj]

theorem Longlong.ofNumber_injective {v w : BitVec 64} (h : ofNumber v = ofNumber w) : v = w := by
  apply BitVec.eq_of_getLsbD_eq
  intro j hj
  by_cases hlow : j < 32
  · have hbit := congrArg (fun l => l.low.getLsbD j) h
    simpa [ofNumber, BitVec.getLsbD_setWidth, hlow] using hbit
  · have hbit := congrArg (fun l => l.hi.getLsbD (j - 32)) h
    have hsum : 32 + (j - 32) = j := by omega
    have hhigh : j - 32 < 32 := by omega
    simpa [ofNumber, BitVec.getLsbD_setWidth, hhigh, hsum] using hbit

theorem Longlong.exists_number (l : Longlong) : ∃ v, l = ofNumber v :=
  ⟨l.hi ++ l.low, by rw [ofNumber_append]⟩

theorem dezigzag64_ofNumber (z : BitVec 64) :
    dezigzag64 (.ofNumber z) = .ofNumber (Zigzag.decode z) := by
  rw [dezigzag64, Longlong.ofNumber, Longlong.ofNumber, Longlong.mk.injEq]
  constructor
  · apply BitVec.eq_of_getLsbD_eq
    intro j hj
    rw [BitVec.getLsbD_xor, Zigzag.getLsbD_neg_and_one _ hj, BitVec.getLsbD_setWidth,
      BitVec.getLsbD_setWidth, Zigzag.getLsbD_decode _ (by omega), BitVec.getLsbD_or,
      BitVec.getLsbD_ushiftRight, BitVec.getLsbD_shiftLeft, BitVec.getLsbD_and,
      BitVec.getLsbD_setWidth, BitVec.getLsbD_setWidth, BitVec.getLsbD_ushiftRight]
    by_cases hlast : j = 31
    · subst hlast
      simp
    · have hlow : 1 + j < 32 := by omega
      have hhigh : j < 31 := by omega
      simp [hj, hlow, hhigh, Nat.add_comm j]
  · apply BitVec.eq_of_getLsbD_eq
    intro j hj
    simp only [BitVec.getLsbD_xor, Zigzag.getLsbD_neg_and_one _ hj, BitVec.getLsbD_setWidth,
      BitVec.getLsbD_ushiftRight]
    rw [Zigzag.getLsbD_decode _ (by omega)]
    by_cases hlast : j = 31
    · subst hlast
      simp
    · have hlow : 1 + j < 32 := by omega
      have hsum : 32 + (1 + j) = 32 + j + 1 := by omega
      simp [hj, hlow, hsum]

theorem dezigzag64_injective {k l : Longlong} (h : dezigzag64 k = dezigzag64 l) : k = l := by
  obtain ⟨v, rfl⟩ := k.exists_number
  obtain ⟨w, rfl⟩ := l.exists_number
  rw [dezigzag64_ofNumber, dezigzag64_ofNumber] at h
  rw [Zigzag.decode_injective (Longlong.ofNumber_injective h)]

/-! ## Varints of 64 bits -/

/-- The numbers that a varint keeps: those of which the four highest bits agree
with the one below them, and of which bit 31 is set if the highest one is. -/
def Legible (v : BitVec 64) : Prop :=
  (v <<< 4).sshiftRight 4 = v ∧ (v.msb = true → v.getLsbD 31 = true)

instance (v : BitVec 64) : Decidable (Legible v) := inferInstanceAs (Decidable (_ ∧ _))

private theorem highWord_eq_iff (v : BitVec 64) :
    highWord v = (v >>> 32).setWidth 32 ↔ (v <<< 4).sshiftRight 4 = v := by
  have hhigh : ∀ j < 32, (highWord v).getLsbD j = ((v <<< 4).sshiftRight 4).getLsbD (32 + j) := by
    intro j hj
    have hsum : 4 + (32 + j) = 36 + j := by omega
    have hge : ¬ 64 ≤ j := by omega
    have hge' : ¬ 64 ≤ 32 + j := by omega
    rw [highWord, BitVec.getLsbD_setWidth, BitVec.getLsbD_sshiftRight, BitVec.getLsbD_sshiftRight,
      hsum]
    simp [hj, hge, hge']
  have hkept : ∀ j < 60, ((v <<< 4).sshiftRight 4).getLsbD j = v.getLsbD j := by
    intro j hj
    have hge : ¬ 64 ≤ j := by omega
    have hlt : 4 + j < 64 := by omega
    rw [BitVec.getLsbD_sshiftRight, BitVec.getLsbD_shiftLeft]
    simp [hge, hlt]
  constructor
  · intro h
    apply BitVec.eq_of_getLsbD_eq
    intro j hj
    by_cases hlow : j < 60
    · exact hkept j hlow
    · obtain ⟨k, rfl⟩ : ∃ k, j = 32 + k := ⟨j - 32, by omega⟩
      have hk : k < 32 := by omega
      rw [← hhigh k hk, h, BitVec.getLsbD_setWidth, BitVec.getLsbD_ushiftRight]
      simp [hk]
  · intro h
    apply BitVec.eq_of_getLsbD_eq
    intro j hj
    rw [hhigh j hj, h, BitVec.getLsbD_setWidth, BitVec.getLsbD_ushiftRight]
    simp [hj]

theorem readBack_eq_iff (v : BitVec 64) : readBack v = .ofNumber v ↔ Legible v := by
  rw [readBack, Longlong.ofNumber, Longlong.mk.injEq, lowWord_eq_iff, highWord_eq_iff, and_comm]
  rfl

theorem legible_of_lt {v : BitVec 64} (h : v.toNat < 2 ^ 59) : Legible v := by
  have hbit : ∀ j, 59 ≤ j → v.getLsbD j = false := fun j hj =>
    Nat.testBit_lt_two_pow (Nat.lt_of_lt_of_le h (Nat.pow_le_pow_right (by decide) hj))
  refine ⟨?_, fun hmsb => ?_⟩
  · apply BitVec.eq_of_getLsbD_eq
    intro j hj
    have hge : ¬ 64 ≤ j := by omega
    rw [BitVec.getLsbD_sshiftRight, BitVec.msb_eq_getLsbD_last, BitVec.getLsbD_shiftLeft,
      BitVec.getLsbD_shiftLeft]
    by_cases hlt : 4 + j < 64
    · simp [hge, hlt]
    · have htop : v[59] = false := by simpa using hbit 59 (by decide)
      simp [hge, hlt, hbit j (by omega), htop]
  · rw [BitVec.msb_eq_getLsbD_last, hbit 63 (by decide)] at hmsb
    cases hmsb

theorem readBack_setWidth (v : BitVec 32) : readBack (v.setWidth 64) = ⟨v, 0⟩ := by
  have hv := v.isLt
  have hsmall : (v.setWidth 64).toNat < 2 ^ 59 := by
    rw [BitVec.toNat_setWidth]
    omega
  have hzero : (0 : BitVec 32) ++ v = v.setWidth 64 := by
    apply BitVec.eq_of_getLsbD_eq
    intro j hj
    rw [getLsbD_words, BitVec.getLsbD_setWidth]
    split
    · simp [hj]
    · rw [BitVec.getLsbD_of_ge v j (by omega)]
      simp
  rw [(readBack_eq_iff _).mpr (legible_of_lt hsmall), ← hzero, Longlong.ofNumber_append]

/-! ## Scalar types -/

/-- What `pbc_wmessage_integer` appends behind the tag, if the type is one of integers. -/
def PType.payload (type : PType) (low hi : BitVec 32) : Option Wire.Payload :=
  match type with
  | .int64 | .uint64 | .int32 => some (.varint (hi ++ low))
  | .uint32 | .enum | .bool => some (.varint (low.setWidth 64))
  | .fixed64 | .sfixed64 => some (.bits64 (hi ++ low))
  | .fixed32 | .sfixed32 => some (.bits32 low)
  | .sint32 => some (.varint ((Zigzag.encode low).setWidth 64))
  | .sint64 => some (.varint (Zigzag.encode (hi ++ low : BitVec 64)))
  | _ => none

/-- The words that an atom holds of a payload; those of bytes are their bounds. -/
def atomWords : Wire.Payload → Option Longlong
  | .varint v => some (readBack v)
  | .bits64 v => some (.ofNumber v)
  | .bits32 v => some ⟨v, 0⟩
  | .lend _ => none

/-- What a type of integers makes of the words that are read. -/
def PType.takes (type : PType) (l : Longlong) : Longlong :=
  match type with
  | .enum => ⟨l.low, 0⟩
  | .sint32 => dezigzag32 l
  | .sint64 => dezigzag64 l
  | _ => l

/-- What is read of a number that was written. -/
def PType.comesBack (type : PType) (low hi : BitVec 32) : Option Longlong :=
  (type.payload low hi).bind fun p => (atomWords p).map type.takes

/-- The numbers that come back with both words unchanged. -/
def PType.Exact (type : PType) (low hi : BitVec 32) : Prop :=
  match type with
  | .int64 | .uint64 | .int32 => Legible (hi ++ low)
  | .uint32 | .enum | .bool | .fixed32 | .sfixed32 => hi = 0
  | .fixed64 | .sfixed64 => True
  -- the sign is taken from the wrong end of the encoded number
  | .sint32 => hi = if low.getLsbD 30 = low.getLsbD 31 then 0 else BitVec.allOnes 32
  | .sint64 => Legible (Zigzag.encode (hi ++ low : BitVec 64))
  | _ => False

private theorem dezigzag32_encode (low : BitVec 32) :
    dezigzag32 ⟨Zigzag.encode low, 0⟩ =
      ⟨low, if low.getLsbD 30 = low.getLsbD 31 then 0 else BitVec.allOnes 32⟩ := by
  have hlow : Zigzag.decode (Zigzag.encode low) = low := Zigzag.decode_encode low
  have hsign : -(Zigzag.encode low >>> 31) =
      if low.getLsbD 30 = low.getLsbD 31 then 0 else BitVec.allOnes 32 := by
    have hbit := Zigzag.getLsbD_encode low (by decide : 31 < 32)
    have hword : Zigzag.encode low >>> 31 =
        if (Zigzag.encode low).getLsbD 31 then 1 else 0 := by
      apply BitVec.eq_of_getLsbD_eq
      intro j hj
      rw [BitVec.getLsbD_ushiftRight]
      by_cases hzero : j = 0
      · subst hzero
        cases (Zigzag.encode low).getLsbD 31 <;> rfl
      · rw [BitVec.getLsbD_of_ge _ _ (by omega)]
        cases (Zigzag.encode low).getLsbD 31 <;> simp [hzero]
    rw [hword, hbit]
    cases low.getLsbD 30 <;> cases low.getLsbD 31 <;> rfl
  rw [dezigzag32, Longlong.mk.injEq]
  exact ⟨hlow, hsign⟩

/-- Exactly these numbers come back. -/
theorem PType.comesBack_eq_iff (type : PType) (low hi : BitVec 32) :
    type.comesBack low hi = some ⟨low, hi⟩ ↔ type.Exact low hi := by
  have hwords : ∀ v : BitVec 64, readBack v = .ofNumber v ↔ Legible v := readBack_eq_iff
  have hsmall : (⟨low, 0⟩ : Longlong) = ⟨low, hi⟩ ↔ hi = 0 := by
    rw [Longlong.mk.injEq]
    exact ⟨fun h => h.2.symm, fun h => ⟨rfl, h.symm⟩⟩
  cases type with
  | int64 | uint64 | int32 =>
      simp only [comesBack, payload, Exact, Option.bind_some, atomWords, Option.map_some,
        takes, Option.some.injEq, ← hwords, Longlong.ofNumber_append]
  | uint32 | enum | bool =>
      simp only [comesBack, payload, Exact, Option.bind_some, atomWords, Option.map_some,
        takes, Option.some.injEq, readBack_setWidth, hsmall]
  | fixed32 | sfixed32 =>
      simp only [comesBack, payload, Exact, Option.bind_some, atomWords, Option.map_some,
        takes, Option.some.injEq, hsmall]
  | fixed64 | sfixed64 =>
      simp only [comesBack, payload, Exact, Option.bind_some, atomWords, Option.map_some,
        takes, Longlong.ofNumber_append]
  | sint32 =>
      simp only [comesBack, payload, Exact, Option.bind_some, atomWords, Option.map_some,
        takes, Option.some.injEq, readBack_setWidth, dezigzag32_encode, Longlong.mk.injEq, true_and]
      exact eq_comm
  | sint64 =>
      simp only [comesBack, payload, Exact, Option.bind_some, atomWords, Option.map_some,
        takes, Option.some.injEq, ← hwords]
      have hback : dezigzag64 (.ofNumber (Zigzag.encode (hi ++ low : BitVec 64))) = ⟨low, hi⟩ := by
        rw [dezigzag64_ofNumber, Zigzag.decode_encode, Longlong.ofNumber_append]
      constructor
      · intro h
        exact dezigzag64_injective (h.trans hback.symm)
      · intro h
        rw [h, hback]
  | double | float | string | group | message | bytes | other =>
      simp [comesBack, payload, Exact]

/-! ## Numbers in atoms -/

/-- Only the low 32 bits of a number show in four bytes. -/
theorem leBytes_mod (n : ℕ) : Wire.leBytes 4 (n % 2 ^ 32) = Wire.leBytes 4 n := by
  simp only [Wire.leBytes, List.cons.injEq, and_true, ← UInt8.toNat_inj, UInt8.toNat_ofNat']
  omega

/-- The atom of a record, with both words of a number. -/
structure Carries (buffer : List UInt8) (r : Wire.Record) (a : Atom) : Prop extends
    AtomOf buffer r a where
  words : ∀ l, atomWords r.payload = some l → (⟨a.x, a.y⟩ : Longlong) = l

abbrev CarriesAll (buffer : List UInt8) : List Wire.Record → List Atom → Prop :=
  List.Forall₂ (Carries buffer)

theorem wiretypeDecode_carries {r : Wire.Record} {ws : List UInt8} (h : Wire.Record.Short r ws)
    (front rest : List UInt8) (hfit : (front ++ (ws ++ rest)).length < 2 ^ 32) :
    ∃ a, wiretypeDecode (ws ++ rest) front.length = .ok (a, ws.length) ∧
      Carries (front ++ (ws ++ rest)) r a := by
  obtain ⟨a, hdecode, hatom⟩ := wiretypeDecode_record h front rest hfit
  refine ⟨a, hdecode, hatom.toAtomOf, fun l hl => ?_⟩
  obtain ⟨ts, ps, rfl, hts, htlen, hps, hplen⟩ := h
  have htag : (BitVec.ofNat 32 r.tag).toNat = r.tag := Nat.mod_eq_of_lt r.tag_lt
  have hand : (BitVec.ofNat 32 r.tag &&& 7).toNat = r.payload.wiretype := by
    rw [BitVec.toNat_and, htag]
    exact (Word.and_low_mask r.tag 3).trans r.tag_mod
  have hhead : decode (ts ++ ps ++ rest) = some (⟨BitVec.ofNat 32 r.tag, 0⟩, ts.length) := by
    rw [List.append_assoc]
    exact decode_small hts htlen r.tag_lt _
  have hdrop : (ts ++ ps ++ rest).drop ts.length = ps ++ rest := by
    rw [List.append_assoc, List.drop_left]
  simp only [wiretypeDecode, hhead, hdrop, hand] at hdecode
  rw [r.tag_mod] at hps
  cases hp : r.payload with
  | varint v =>
      rw [hp] at hps hl hdecode
      cases hps with
      | varint hv =>
          have hv' := decode_readBack hv (by simpa [hp, Wire.Payload.size] using hplen) rest
          simp [Wire.Payload.wiretype, hv'] at hdecode
          cases hl
          rw [← hdecode]
  | bits64 v =>
      rw [hp] at hps hl hdecode
      cases hps
      cases hl
      have hfour : (Wire.leBytes 8 v.toNat ++ rest).take 4 = Wire.leBytes 4 v.toNat := by
        rw [Wire.leBytes_eight, List.append_assoc]
        exact List.take_left' (by simp)
      have height : ((Wire.leBytes 8 v.toNat ++ rest).drop 4).take 4 =
          Wire.leBytes 4 (v.toNat / 2 ^ 32) := by
        rw [Wire.leBytes_eight, List.append_assoc, List.drop_left' (by simp)]
        exact List.take_left' (by simp)
      have hroom : ¬ 8 + rest.length < 8 := by omega
      simp [Wire.Payload.wiretype, hfour, height, ofLe_leBytes, hroom] at hdecode
      rw [← hdecode, Longlong.ofNumber, Longlong.mk.injEq]
      constructor
      · exact BitVec.ofNat_toNat 32 v
      · apply BitVec.eq_of_toNat_eq
        rw [BitVec.toNat_setWidth, BitVec.toNat_ushiftRight, BitVec.toNat_ofNat,
          Nat.shiftRight_eq_div_pow]
  | bits32 v =>
      rw [hp] at hps hl hdecode
      cases hps
      cases hl
      have hfour : (Wire.leBytes 4 v.toNat ++ rest).take 4 = Wire.leBytes 4 v.toNat :=
        List.take_left' (by simp)
      have hroom : ¬ 4 + rest.length < 4 := by omega
      simp [Wire.Payload.wiretype, hfour, ofLe_leBytes, hroom] at hdecode
      rw [← hdecode]
      rfl
  | lend body =>
      rw [hp] at hl
      cases hl

theorem openContext_carries {rs : List Wire.Record} {bs : List UInt8}
    (h : Wire.ShortMessage rs bs) (front : List UInt8) {fuel : ℕ} (hfuel : bs.length ≤ fuel)
    (hfit : (front ++ bs).length < 2 ^ 32) :
    ∃ as, openContext fuel bs front.length = .ok as ∧ CarriesAll (front ++ bs) rs as := by
  induction h generalizing front fuel with
  | nil =>
      refine ⟨[], ?_, .nil⟩
      cases fuel <;> rfl
  | @cons r rs ws bs hr hrs ih =>
      have hpos := List.length_pos_of_ne_nil hr.ne_nil
      obtain ⟨a, hdecode, ha⟩ := wiretypeDecode_carries hr front bs hfit
      rw [List.length_append] at hfuel
      obtain ⟨fuel, rfl⟩ : ∃ k, fuel = k + 1 := ⟨fuel - 1, by omega⟩
      obtain ⟨as, hopen, has⟩ := ih (front ++ ws) (by omega : bs.length ≤ fuel)
        (by rw [List.append_assoc]; exact hfit)
      rw [List.length_append] at hopen
      rw [List.append_assoc] at has
      refine ⟨a :: as, ?_, .cons ha has⟩
      rw [openContext_succ (List.append_ne_nil_of_left_ne_nil hr.ne_nil _), hdecode]
      simp only [Res.ok_bind, List.drop_left, hopen, Res.pure_eq]

/-! ## Numbers in fields -/

/-- The value of a field of integers for the words that were read. -/
def Field.ofWords (f : Field) (l : Longlong) : Var :=
  if f.type = .enum then .enum l.low else .integer (f.type.takes l)

/-- What a field shows of a payload. -/
def Field.shown (f : Field) : Wire.Payload → Var
  | .varint v => f.ofWords (readBack v)
  | .bits64 v => f.ofWords (.ofNumber v)
  | .bits32 v => f.ofWords ⟨v, 0⟩
  | .lend body => .str body

theorem Field.shown_of_words (f : Field) {p : Wire.Payload} {l : Longlong}
    (h : atomWords p = some l) : f.shown p = f.ofWords l := by
  cases p <;> cases h <;> rfl

/-- Every integer is written in words. -/
theorem PType.payload_words {type : PType} {low hi : BitVec 32} {p : Wire.Payload}
    (h : type.payload low hi = some p) : ∃ l, atomWords p = some l := by
  cases type <;> cases h <;> exact ⟨_, rfl⟩

theorem scalar_words {f : Field} {low hi : BitVec 32} {p : Wire.Payload}
    (h : f.type.payload low hi = some p) (henum : f.type = .enum → ∃ k, f.type_name = .e (some k))
    (a : Atom) : scalar f a = some (.ok (f.ofWords ⟨a.x, a.y⟩)) := by
  cases htype : f.type with
  | enum =>
      obtain ⟨k, hk⟩ := henum htype
      simp [scalar, Field.ofWords, htype, hk]
  | int64 | uint64 | int32 | uint32 | bool | fixed32 | sfixed32 | fixed64 | sfixed64 | sint32
  | sint64 => simp [scalar, Field.ofWords, htype, PType.takes]
  | double | float | string | group | message | bytes | other =>
      rw [htype] at h
      cases h

/-- `pbc_rmessage_integer`, with both words of the number. -/
def rmessageLonglong (env : Env) (m : RMessage) (key : CStr) (index : ℕ) : Option Longlong := do
  let (type, v) ← m.lookup env key index
  if type = some .enum then
    match v with
    | .enum id => pure ⟨id, 0⟩
    | .integer l => pure ⟨l.low, 0⟩
    | _ => none
  else match v with
    | .integer l => pure l
    | _ => none

theorem rmessageInteger_eq_low (env : Env) (m : RMessage) (key : CStr) (index : ℕ) :
    rmessageInteger env m key index = (rmessageLonglong env m key index).map (·.low) := by
  rw [rmessageInteger, rmessageLonglong]
  cases m.lookup env key index with
  | none => rfl
  | some found =>
      obtain ⟨type, v⟩ := found
      by_cases htype : type = some .enum
      · cases v <;> simp [htype]
      · cases v <;> simp [htype]

/-- The number that is read of one that was written. -/
theorem rmessageLonglong_of_lookup {env : Env} {m : RMessage} {f : Field} {key : CStr} {index : ℕ}
    {low hi : BitVec 32} {p : Wire.Payload} (h : f.type.payload low hi = some p)
    (hlookup : m.lookup env key index = some (some f.type, f.shown p)) :
    rmessageLonglong env m key index = f.type.comesBack low hi := by
  obtain ⟨l, hl⟩ := PType.payload_words h
  rw [rmessageLonglong, hlookup, f.shown_of_words hl, PType.comesBack, h]
  by_cases htype : f.type = .enum
  · simp [Field.ofWords, htype, hl, PType.takes]
  · simp [Field.ofWords, htype, hl]

end Pbc
