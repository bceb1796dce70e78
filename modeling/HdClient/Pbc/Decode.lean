-- SUMMARY: Decoding a buffer by callbacks, record after record: where it stops, and that it reports what reading the message shows.
import HdClient.Pbc.Contents
import HdClient.Pbc.Packed
import Mathlib.Data.List.TakeWhile

/-! # Decoding by callbacks

`decode.c` goes through the records of a buffer, and calls a function for each
one. The events are the calls, in order. -/

namespace Pbc

/-- `union pbc_value` -/
inductive PbcValue where
  | integer (v : Longlong)
  | real
  | enum (id : BitVec 32) (name : Option CStr)
  | slice (bytes : List UInt8)

/-- A call of the callback. The name of the type, which it is also given, is left out. -/
structure Event where
  type : ℕ
  v : PbcValue
  id : ℤ
  key : Option CStr

/-- `call_unknown`; it looks at the whole of the tag. -/
def callUnknown (id : ℤ) (a : Atom) (buffer : List UInt8) : Option Event :=
  if a.wire_id = 0 then some ⟨1, .integer ⟨a.x, a.y⟩, id, none⟩
  else if a.wire_id = 1 then some ⟨7, .integer ⟨a.x, a.y⟩, id, none⟩
  else if a.wire_id = 2 then some ⟨9, .slice (a.slice buffer), id, none⟩
  else if a.wire_id = 5 then some ⟨8, .integer ⟨a.x, 0⟩, id, none⟩
  else none

/-- The value of an enum, with its name if it has one. -/
def enumValue (env : Env) (f : Field) (id : BitVec 32) : Option PbcValue :=
  match f.type_name with
  | .e (some k) => (env.enumObjs[k]?).map fun e => .enum id (e.id.query id.toInt)
  | _ => none

/-- `call_type`: the event, or none where the wire type is not the one of the
field. Undefined for a field of no known type, and for one whose type is null. -/
def callType (env : Env) (f : Field) (a : Atom) (buffer : List UInt8) : Option (Option Event) :=
  let done (v : PbcValue) : Option (Option Event) := some (some ⟨f.pbcType, v, f.id, some f.name⟩)
  let lend : Option (Option Event) := if a.isLend then done (.slice (a.slice buffer)) else some none
  match f.type with
  | .double | .float => done .real
  | .enum => (enumValue env f a.x).bind done
  | .int64 | .uint64 | .fixed64 | .sfixed64 => done (.integer ⟨a.x, a.y⟩)
  | .int32 | .uint32 | .bool | .fixed32 | .sfixed32 => done (.integer ⟨a.x, 0⟩)
  | .sint32 => done (.integer (dezigzag32 ⟨a.x, a.y⟩))
  | .sint64 => done (.integer (dezigzag64 ⟨a.x, a.y⟩))
  | .string | .bytes => lend
  | .message => match f.type_name with
      | .m (some _) => lend
      | _ => none
  | .group | .other => none

/-- `call_array`: the events, and whether all of the field was read. Its bounds
are those of the atom, whatever wire type that is of. -/
def callArray (env : Env) (f : Field) (a : Atom) (buffer : List UInt8) :
    Option (List Event × Bool) := do
  if f.pbcType = 0 then none
  else do
    let (vs, n) ← unpackPacked f.type (buffer.drop a.x.toNat) (← a.span)
    let vs ← if f.type = .enum then vs.mapM fun v => enumValue env f v.low
      else some (vs.map .integer)
    pure (vs.map fun v => ⟨f.pbcType, v, f.id, some f.name⟩, decide (0 ≤ n))

/-- The loop body of `pbc_decode`: the events of one record, and whether it goes on. -/
def decodeAtom (env : Env) (m : Message) (buffer : List UInt8) (a : Atom) :
    Option (List Event × Bool) :=
  match m.queryId a.id with
  | none => match callUnknown a.id a buffer with
      | some e => some ([e], true)
      | none => some ([], false)
  | some f =>
      if f.label = .packed then callArray env f a buffer
      else (callType env f a buffer).map fun e => (e.toList, e.isSome)

/-- The loop of `pbc_decode` from the record `i` on, with its return code. -/
def decodeAtoms (env : Env) (m : Message) (buffer : List UInt8) :
    ℕ → List Atom → Option (List Event × ℤ)
  | i, [] => some ([], i)
  | i, a :: as => do
      let (es, ok) ← decodeAtom env m buffer a
      if ok then do
        let (rest, n) ← decodeAtoms env m buffer (i + 1) as
        pure (es ++ rest, n)
      else pure (es, -i - 1)

/-- How many records `_pbcC_open` splits off before it fails. -/
def openCount : ℕ → List UInt8 → ℕ → ℕ
  | 0, _, _ => 0
  | fuel + 1, bs, start => match wiretypeDecode bs start with
      | .ok (_, len) => openCount fuel (bs.drop len) (start + len) + 1
      | _ => 0

/-- `pbc_decode`, with its return code. -/
def pbcDecode (env : Env) (typename : CStr) (slice : List UInt8) : Option (List Event × ℤ) := do
  match ← getMessage env typename with
  | none => pure ([], -1)
  | some t =>
      if slice = [] then pure ([], 0)
      else do
        let m ← env.messages[t]?
        match openContext slice.length slice 0 with
        | .ok as => decodeAtoms env m slice 0 as
        | .null => pure ([], -(openCount slice.length slice 0) - 1)
        | .undefined => none

/-! ## Where decoding stops -/

/-- The tag is nothing but the wire type of a record that is known. -/
def Atom.isBare (a : Atom) : Bool :=
  a.wire_id = 0 ∨ a.wire_id = 1 ∨ a.wire_id = 2 ∨ a.wire_id = 5

/-- Decoding goes on behind the record. -/
def Message.accepts (m : Message) (a : Atom) : Bool :=
  match m.queryId a.id with
  | none => a.isBare
  | some f => !f.takesLend || a.isLend

/-- The event of a record at which decoding goes on. -/
def eventOf (env : Env) (m : Message) (buffer : List UInt8) (a : Atom) : Option Event :=
  match m.queryId a.id with
  | none => callUnknown a.id a buffer
  | some f => (callType env f a buffer).join

section Stops

variable {env : Env} {m : Message} {buffer : List UInt8} {a : Atom}

theorem callUnknown_isSome (id : ℤ) : (callUnknown id a buffer).isSome = a.isBare := by
  unfold callUnknown Atom.isBare
  split_ifs with h0 h1 h2 h5
  · simp only [h0, true_or, decide_true, Option.isSome_some]
  · simp only [h1, true_or, or_true, decide_true, Option.isSome_some]
  · simp only [h2, true_or, or_true, decide_true, Option.isSome_some]
  · simp only [h5, or_true, decide_true, Option.isSome_some]
  · simp only [h0, h1, h2, h5, or_self, decide_false, Option.isSome_none]

theorem callType_isSome {f : Field} {e : Option Event} (h : callType env f a buffer = some e) :
    e.isSome = (!f.takesLend || a.isLend) := by
  unfold callType at h
  cases htype : f.type with
  | string | bytes =>
      simp only [htype] at h
      split at h <;> rename_i hlend <;> cases h <;> simp [Field.takesLend, htype, hlend]
  | message =>
      simp only [htype] at h
      split at h
      · split at h <;> rename_i hlend <;> cases h <;> simp [Field.takesLend, htype, hlend]
      · cases h
  | enum =>
      simp only [htype] at h
      obtain ⟨v, -, h⟩ := Option.bind_eq_some_iff.mp h
      cases h
      simp [Field.takesLend, htype]
  | group | other =>
      simp only [htype] at h
      cases h
  | double | float | int64 | uint64 | fixed64 | sfixed64 | int32 | uint32 | bool | fixed32
  | sfixed32 | sint32 | sint64 =>
      simp only [htype, Option.some.injEq] at h
      simp [← h, Field.takesLend, htype]

/-- One record: its event, if decoding goes on. -/
theorem decodeAtom_eq (hm : m.Unpacked) {r : List Event × Bool}
    (h : decodeAtom env m buffer a = some r) :
    r = ((eventOf env m buffer a).toList, m.accepts a) ∧
      (eventOf env m buffer a).isSome = m.accepts a := by
  unfold decodeAtom at h
  unfold eventOf Message.accepts
  cases hquery : m.queryId a.id with
  | none =>
      have hsome : (callUnknown a.id a buffer).isSome = a.isBare := callUnknown_isSome a.id
      simp only [hquery] at h ⊢
      refine ⟨?_, hsome⟩
      cases hevent : callUnknown a.id a buffer <;> simp only [hevent, Option.some.injEq] at h <;>
        rw [← h, ← hsome, hevent] <;> rfl
  | some f =>
      simp only [hquery, if_neg (hm.label _ f hquery)] at h ⊢
      obtain ⟨e, he, rfl⟩ := Option.map_eq_some_iff.mp h
      have hsome := callType_isSome he
      rw [he, Option.join_some, ← hsome]
      exact ⟨rfl, rfl⟩

/-- A record and those behind it: it is reported and decoding goes on, or stops there. -/
private theorem decodeAtoms_cons (hm : m.Unpacked) {as : List Atom} {i : ℕ} {r : List Event × ℤ}
    (h : decodeAtoms env m buffer i (a :: as) = some r) :
    (m.accepts a = true ∧ ∃ e rest n, eventOf env m buffer a = some e ∧
      decodeAtoms env m buffer (i + 1) as = some (rest, n) ∧ r = (e :: rest, n)) ∨
    (m.accepts a = false ∧ r = ([], -(i : ℤ) - 1)) := by
  obtain ⟨⟨es, ok⟩, hatom, h⟩ := Option.bind_eq_some_iff.mp h
  obtain ⟨heq, hevent⟩ := decodeAtom_eq hm hatom
  obtain ⟨rfl, rfl⟩ := Prod.mk.inj heq
  cases haccept : m.accepts a with
  | true =>
      rw [haccept] at hevent
      obtain ⟨e, he⟩ := Option.isSome_iff_exists.mp hevent
      simp only [haccept, if_true] at h
      obtain ⟨⟨rest, n⟩, hrest, h⟩ := Option.bind_eq_some_iff.mp h
      cases h
      exact .inl ⟨rfl, e, rest, n, he, hrest, by rw [he]; rfl⟩
  | false =>
      rw [haccept, Option.isSome_eq_false_iff, Option.isNone_iff_eq_none] at hevent
      simp only [haccept, Bool.false_eq_true, if_false] at h
      cases h
      exact .inr ⟨rfl, by rw [hevent]; rfl⟩

/-- From any record on: the events of the records up to the first one that is not
accepted, and the return code that says which one it is. -/
theorem decodeAtoms_eq (hm : m.Unpacked) {as : List Atom} {i : ℕ} {r : List Event × ℤ}
    (h : decodeAtoms env m buffer i as = some r) :
    r = ((as.takeWhile m.accepts).filterMap (eventOf env m buffer),
      if as.all m.accepts then ((i + as.length : ℕ) : ℤ)
      else -((i + (as.takeWhile m.accepts).length : ℕ) : ℤ) - 1) := by
  induction as generalizing i r with
  | nil =>
      cases h
      rfl
  | cons a as ih =>
      rcases decodeAtoms_cons hm h with ⟨haccept, e, rest, n, he, hrest, rfl⟩ | ⟨haccept, rfl⟩
      · obtain ⟨rfl, rfl⟩ := Prod.mk.inj (ih hrest)
        have hstep : ∀ k : ℕ, i + 1 + k = i + (k + 1) := fun k => by omega
        simp only [List.takeWhile_cons, haccept, if_true, List.filterMap_cons, he, List.all_cons,
          Bool.true_and, List.length_cons, hstep]
      · simp [haccept]

/-- There is an event for each record before the one where decoding stops. -/
theorem decodeAtoms_length (hm : m.Unpacked) {as : List Atom} {i : ℕ} {r : List Event × ℤ}
    (h : decodeAtoms env m buffer i as = some r) :
    r.1.length = (as.takeWhile m.accepts).length := by
  induction as generalizing i r with
  | nil =>
      cases h
      rfl
  | cons a as ih =>
      rcases decodeAtoms_cons hm h with ⟨haccept, e, rest, n, -, hrest, rfl⟩ | ⟨haccept, rfl⟩
      · rw [List.takeWhile_cons_of_pos haccept, List.length_cons, List.length_cons, ← ih hrest]
      · rw [List.takeWhile_cons_of_neg (by simp [haccept])]
        rfl

/-- What a return of `pbc_decode` says of the buffer. -/
private theorem pbcDecode_cases {name : CStr} {t : ℕ} {events : List Event} {code : ℤ}
    (hget : getMessage env name = some (some t)) (ht : env.messages[t]? = some m)
    (h : pbcDecode env name buffer = some (events, code)) :
    (∃ as, openContext buffer.length buffer 0 = .ok as ∧
      decodeAtoms env m buffer 0 as = some (events, code)) ∨
    (openContext buffer.length buffer 0 = .null ∧ events = [] ∧
      code = -(openCount buffer.length buffer 0 : ℤ) - 1) := by
  simp only [pbcDecode, hget, Option.bind_eq_bind, Option.bind_some] at h
  split at h
  · rename_i hnil
    cases h
    exact .inl ⟨[], by rw [hnil]; rfl, rfl⟩
  · simp only [ht, Option.bind_some] at h
    split at h
    · rename_i as hopen
      exact .inl ⟨as, hopen, h⟩
    · rename_i hopen
      cases h
      exact .inr ⟨hopen, rfl, rfl⟩
    · cases h

/-- A return code that is no error. -/
private theorem accepts_of_nonneg (hm : m.Unpacked) {as : List Atom} {events : List Event} {code : ℤ}
    (h : decodeAtoms env m buffer 0 as = some (events, code)) (hcode : 0 ≤ code) :
    as.all m.accepts = true := by
  obtain ⟨-, hstop⟩ := Prod.mk.inj (decodeAtoms_eq hm h)
  by_contra hno
  rw [if_neg hno] at hstop
  omega

/-- All records have been reported when the return code is no error. -/
theorem decodeAtoms_all (hm : m.Unpacked) {as : List Atom} {events : List Event} {code : ℤ}
    (h : decodeAtoms env m buffer 0 as = some (events, code)) (hcode : 0 ≤ code) :
    events = as.filterMap (eventOf env m buffer) ∧
      ∀ a ∈ as, (eventOf env m buffer a).isSome := by
  obtain ⟨hevents, -⟩ := Prod.mk.inj (decodeAtoms_eq hm h)
  have hlen : events.length = (as.takeWhile m.accepts).length := decodeAtoms_length hm h
  have hall := List.all_eq_true.mp (accepts_of_nonneg hm h hcode)
  rw [List.takeWhile_eq_self_iff.mpr hall] at hevents hlen
  rw [hevents, List.filterMap_length_eq_length] at hlen
  exact ⟨hevents, hlen⟩

end Stops

/-! ## What is reported is what a message shows -/

/-- Only the low word of the number is reported. -/
def PType.isNarrow : PType → Bool
  | .int32 | .uint32 | .bool | .fixed32 | .sfixed32 => true
  | _ => false

/-- The value that is reported for an element that is not a message. -/
def Field.reported (env : Env) (f : Field) : Item RMessage → Option PbcValue
  | .var (.integer l) => some (.integer (if f.type.isNarrow then ⟨l.low, 0⟩ else l))
  | .var .real => some .real
  | .var (.enum id) => enumValue env f id
  | .var (.str bytes) => some (.slice bytes)
  | .message _ => none

section Reports

-- Reads a nested message, as in the definitions this is about.
variable (sub : Option ℕ → List UInt8 → Res RMessage)

/-- The element that a message shows for the bytes of a sub-message that are reported. -/
def Field.subItem (f : Field) : PbcValue → Option (Item RMessage)
  | .slice bytes => f.item sub (.lend bytes)
  | _ => none

/-- The events are those of one field, and report the elements `items` of it. -/
structure Reports (env : Env) (f : Field) (events : List Event) (items : List (Item RMessage)) :
    Prop where
  field : ∀ e ∈ events, e.type = f.pbcType ∧ e.key = some f.name
  values : f.type ≠ .message → events.map (fun e => some e.v) = items.map (f.reported env)
  messages : f.type = .message → items = events.filterMap fun e => f.subItem sub e.v

variable {sub} {env : Env} {m : Message} {buffer : List UInt8} {a : Atom} {f : Field} {e : Event}

private theorem atomItem_scalar {x : Var} (h : scalar f a = some (.ok x)) :
    atomItem sub f buffer a = some (.var x) := by
  simp only [atomItem, readItem, readValue, h]
  split <;> rfl

private theorem atomItem_slice (htype : f.type = .string ∨ f.type = .bytes)
    (hlend : a.isLend = true) :
    atomItem sub f buffer a = some (.var (.str (a.slice buffer))) := by
  have hscalar : scalar f a = none := by
    rcases htype with h | h <;> rw [scalar, h]
  simp only [atomItem, readItem, readValue, hscalar]
  rcases htype with h | h <;> rw [h] <;> simp only [hlend, if_true] <;> split <;> rfl

private theorem atomItem_message (htype : f.type = .message) (hlend : a.isLend = true) :
    atomItem sub f buffer a = f.subItem sub (.slice (a.slice buffer)) :=
  atomItem_lend hlend (by simp [Field.takesLend, htype])

variable (sub) in
/-- One record of a field, as it is reported and as it is read. -/
private theorem callType_item (h : callType env f a buffer = some (some e)) :
    (e.type = f.pbcType ∧ e.key = some f.name ∧ e.id = f.id) ∧
    (f.type ≠ .message →
      ∃ item, atomItem sub f buffer a = some item ∧ f.reported env item = some e.v) ∧
    (f.type = .message → atomItem sub f buffer a = f.subItem sub e.v) := by
  -- a number is read and reported whatever the wire type of the record is
  have hnumber : ∀ {x : Var} {v : PbcValue}, scalar f a = some (.ok x) →
      f.reported env (.var x) = some v → f.type ≠ .message →
      some (some (Event.mk f.pbcType v f.id (some f.name))) = some (some e) →
      (e.type = f.pbcType ∧ e.key = some f.name ∧ e.id = f.id) ∧
      (f.type ≠ .message →
        ∃ item, atomItem sub f buffer a = some item ∧ f.reported env item = some e.v) ∧
      (f.type = .message → atomItem sub f buffer a = f.subItem sub e.v) := by
    intro x v hscalar hreported hne heq
    cases heq
    exact ⟨⟨rfl, rfl, rfl⟩, fun _ => ⟨_, atomItem_scalar hscalar, hreported⟩, fun h => absurd h hne⟩
  unfold callType at h
  cases htype : f.type with
  | double | float | int64 | uint64 | fixed64 | sfixed64 | int32 | uint32 | bool | fixed32
  | sfixed32 | sint32 | sint64 =>
      simp only [htype] at h hnumber
      refine hnumber (by rw [scalar, htype]) ?_ (by decide) h
      simp [Field.reported, htype, PType.isNarrow]
  | enum =>
      simp only [htype] at h hnumber
      obtain ⟨v, hv, h⟩ := Option.bind_eq_some_iff.mp h
      have hscalar : ∀ i, f.type_name = .e (some i) → scalar f a = some (.ok (.enum a.x)) :=
        fun i hname => by simp [scalar, htype, hname]
      refine hnumber (x := .enum a.x) ?_ hv (by decide) h
      unfold enumValue at hv
      split at hv
      · exact hscalar _ ‹_›
      · cases hv
  | string | bytes =>
      simp only [htype] at h
      split at h
      · rename_i hlend
        cases h
        exact ⟨⟨rfl, rfl, rfl⟩, fun _ => ⟨_, atomItem_slice (by simp [htype]) hlend, rfl⟩,
          fun heq => absurd heq (by decide)⟩
      · cases h
  | message =>
      simp only [htype] at h
      split at h
      · split at h
        · rename_i hlend
          cases h
          exact ⟨⟨rfl, rfl, rfl⟩, fun hne => absurd rfl hne, fun _ => atomItem_message htype hlend⟩
        · cases h
      · cases h
  | group | other =>
      simp only [htype] at h
      cases h

/-- The event of a record is one of the field whose number the record has. -/
private theorem eventOf_id (hm : m.Unpacked) (h : eventOf env m buffer a = some e) : e.id = a.id := by
  unfold eventOf at h
  cases hquery : m.queryId a.id with
  | none =>
      simp only [hquery, callUnknown] at h
      split_ifs at h <;> cases h <;> rfl
  | some f =>
      simp only [hquery] at h
      rw [(callType_item (fun _ _ => .null) (Option.join_eq_some_iff.mp h)).1.2.2,
        hm.id_eq _ f hquery]

variable (sub) in
/-- The events of the records of a field, and the elements they make. -/
theorem eventOf_reports (hm : m.Unpacked) (hf : m.Files f) {as : List Atom}
    (hall : ∀ a ∈ as, (eventOf env m buffer a).isSome) :
    Reports sub env f ((as.filterMap (eventOf env m buffer)).filter (·.id = f.id))
      (contents sub f buffer as) := by
  induction as with
  | nil => exact ⟨nofun, fun _ => rfl, fun _ => rfl⟩
  | cons a as ih =>
      obtain ⟨hfield, hvalues, hmessages⟩ := ih fun b hb => hall b (List.mem_cons_of_mem a hb)
      obtain ⟨e, he⟩ := Option.isSome_iff_exists.mp (hall a List.mem_cons_self)
      have hid := eventOf_id hm he
      rw [List.filterMap_cons, he]
      by_cases hsame : a.id = f.id
      · have hquery : m.queryId a.id = some f := hsame ▸ hf
        simp only [eventOf, hquery] at he
        obtain ⟨hown, hvalue, hmessage⟩ :=
          callType_item sub (Option.join_eq_some_iff.mp he)
        have hcontents : contents sub f buffer (a :: as) =
            (atomItem sub f buffer a).toList ++ contents sub f buffer as := by
          rw [contents, List.filter_cons_of_pos (by simpa using hsame), contents]
          cases hitem : atomItem sub f buffer a <;> simp [hitem]
        rw [List.filter_cons_of_pos (by simpa [hid] using hsame), hcontents]
        refine ⟨?_, fun hne => ?_, fun heq => ?_⟩
        · simp only [List.mem_cons, forall_eq_or_imp]
          exact ⟨⟨hown.1, hown.2.1⟩, hfield⟩
        · obtain ⟨item, hitem, hreported⟩ := hvalue hne
          rw [hitem, List.map_cons, hvalues hne, ← hreported]
          rfl
        · rw [hmessage heq, List.filterMap_cons, hmessages heq]
          cases f.subItem sub e.v <;> rfl
      · have hskip : contents sub f buffer (a :: as) = contents sub f buffer as := by
          rw [contents, List.filter_cons_of_neg (by simpa using hsame), contents]
        rw [List.filter_cons_of_neg (by simpa [hid] using hsame), hskip]
        exact ⟨hfield, hvalues, hmessages⟩

/-- There are no more elements than events. -/
theorem Reports.length_le {events : List Event} {items : List (Item RMessage)}
    (h : Reports sub env f events items) : items.length ≤ events.length := by
  by_cases htype : f.type = .message
  · rw [h.messages htype]
    exact List.length_filterMap_le _ _
  · have hlen := congrArg List.length (h.values htype)
    rw [List.length_map, List.length_map] at hlen
    exact Nat.le_of_eq hlen.symm

end Reports

/-- A buffer that is decoded to its end, and is read as a message of the same type:
the message shows under each field what was reported of it, as long as a field
that is not repeated was not reported twice. -/
theorem pbcDecode_shows {env : Env} {m : Message} {name : CStr} {t : ℕ} {buffer : List UInt8}
    {events : List Event} {code : ℤ} {msg : RMessage}
    (hget : getMessage env name = some (some t)) (ht : env.messages[t]? = some m)
    (hm : m.Unpacked) (hdecode : pbcDecode env name buffer = some (events, code)) (hcode : 0 ≤ code)
    (hread : rmessageNew env name buffer = some (.ok msg)) :
    ∀ f, m.Files f → calcHash f.name ≠ 0 →
      f.label = .repeated ∨ (events.filter (·.id = f.id)).length ≤ 1 →
      ∃ items, Shows env msg f items ∧
        Reports (rmessageNewAux env buffer.length) env f (events.filter (·.id = f.id)) items := by
  intro f hf hhash hone
  obtain ⟨as, index, hopen, rfl, hholds⟩ := rmessageNew_holds hget ht hm hread
  rcases pbcDecode_cases hget ht hdecode with ⟨as', hopen', hrun⟩ | ⟨hnull, -⟩
  · obtain rfl := Res.ok.inj (hopen.symm.trans hopen')
    obtain ⟨hevents, hall⟩ := decodeAtoms_all hm hrun hcode
    have hreports := eventOf_reports (rmessageNewAux env buffer.length) hm hf hall
    rw [← hevents] at hreports
    have hone' := hone.imp_right (Nat.le_trans hreports.length_le)
    exact ⟨_, hholds.shows hm hf hhash hone' _, hreports⟩
  · rw [hopen] at hnull
    cases hnull

/-! ## The records that are reported -/

/-- What is reported of a record of the field. -/
def Field.reportedOf (env : Env) (f : Field) : Wire.Payload → Option PbcValue
  | .lend body => some (.slice body)
  | p => match f.type with
      | .double | .float => some .real
      | _ => f.reported env (.var (f.shown p))

namespace Message

/-- The field whose number the record has. -/
def fieldOf (m : Message) (r : Wire.Record) : Option Field := m.fields.find? (·.id = r.number)

/-- Decoding goes on behind the record: there is a field for it, which takes bytes only
from records of bytes. -/
def acceptsRecord (m : Message) (r : Wire.Record) : Bool :=
  match m.fieldOf r with
  | none => false
  | some f => !f.takesLend || r.payload matches .lend _

/-- The call of the callback for a record. -/
def event (env : Env) (m : Message) (r : Wire.Record) : Option Event :=
  (m.fieldOf r).bind fun f =>
    (f.reportedOf env r.payload).map fun v => ⟨f.pbcType, v, f.id, some f.name⟩

end Message

section Records

variable {env : Env} {m : Message} {buffer : List UInt8} {a : Atom} {r : Wire.Record} {f : Field}

theorem Message.fieldOf_some (h : m.fieldOf r = some f) : f ∈ m.fields ∧ f.id = r.number := by
  have hid := List.find?_some h
  exact ⟨List.mem_of_find?_eq_some h, of_decide_eq_true hid⟩

theorem Message.fieldOf_none (h : m.fieldOf r = none) : ∀ f ∈ m.fields, f.id ≠ r.number := by
  intro f hf hid
  exact List.find?_eq_none.mp h f hf (decide_eq_true hid)

/-- The field of an atom is the one of its record. -/
private theorem queryId_eq (hreg : Registries env) (hmem : m ∈ env.messages) (hm : m.Regular)
    (ha : Carries buffer r a) : m.queryId a.id = m.fieldOf r := by
  have hid : ∀ n : ℕ, n < 2 ^ 28 → (a.id = n ↔ r.number = n) := fun n hn => ha.id_eq hn
  cases hfield : m.fieldOf r with
  | some f =>
      obtain ⟨hf, hfid⟩ := m.fieldOf_some hfield
      have hnum := hm.number f hf
      have haid : a.id = f.id := by
        rw [hfid]
        exact (hid r.number (by omega)).mpr rfl
      rw [haid]
      exact hm.files hreg hmem hf
  | none =>
      cases hquery : m.queryId a.id with
      | none => rfl
      | some f =>
          obtain ⟨hf, hfid⟩ := (hreg.queryId_iff hmem hm.ids).mp hquery
          have hnum := hm.number f hf
          refine absurd ?_ (m.fieldOf_none hfield f hf)
          have hnumber := (hid f.id.toNat (by omega)).mp (by omega)
          omega

/-- A tag with a number is not bare. -/
private theorem isBare_false (ha : Carries buffer r a) : a.isBare = false := by
  have htag := ha.tag
  have hpos := r.number_pos
  rw [Bool.eq_false_iff]
  intro h
  simp only [Atom.isBare, decide_eq_true_eq, ← BitVec.toNat_inj, htag, Wire.Record.tag] at h
  simp at h
  omega

private theorem accepts_eq (hreg : Registries env) (hmem : m ∈ env.messages) (hm : m.Regular)
    (ha : Carries buffer r a) : m.accepts a = m.acceptsRecord r := by
  rw [Message.accepts, Message.acceptsRecord, queryId_eq hreg hmem hm ha]
  cases m.fieldOf r with
  | none => exact isBare_false ha
  | some f =>
      have hlend : a.isLend = (r.payload matches .lend _) := by
        rw [Bool.eq_iff_iff, ha.isLend_iff]
        cases r.payload <;> simp
      simp only [hlend]

/-- A record of a number is reported as what is read of it. -/
private theorem callType_number {e : Event} {l : Longlong} (ha : Carries buffer r a)
    (hres : env.Resolved f) (hl : atomWords r.payload = some l)
    (h : callType env f a buffer = some (some e)) : f.reportedOf env r.payload = some e.v := by
  have hlend : a.isLend = false := by
    rw [Bool.eq_false_iff]
    intro hlend
    obtain ⟨body, hbody⟩ := ha.isLend_iff.mp hlend
    rw [hbody] at hl
    cases hl
  have hne : f.type ≠ .message := by
    intro htype
    simp only [callType, htype, hlend] at h
    split at h <;> cases h
  obtain ⟨-, hvalue, -⟩ := callType_item (fun _ _ => .undefined) h
  obtain ⟨item, hitem, hreported⟩ := hvalue hne
  rw [atomItem_number ha hres hl] at hitem
  cases hp : r.payload with
  | lend body =>
      rw [hp] at hl
      cases hl
  | varint | bits64 | bits32 =>
      rw [hp] at hitem
      simp only [Field.item] at hitem
      simp only [Field.reportedOf]
      cases htype : f.type with
      | string | bytes | message | group | other =>
          simp only [htype] at hitem
          cases hitem
      | _ =>
          simp only [htype] at hitem ⊢
          cases hitem
          exact hreported

/-- What is reported of an atom is what its record holds. -/
private theorem callType_record {e : Event} (ha : Carries buffer r a) (hres : env.Resolved f)
    (hsuits : f.Suits r.payload) (h : callType env f a buffer = some (some e)) :
    (f.reportedOf env r.payload).map (fun v => ⟨f.pbcType, v, f.id, some f.name⟩) = some e := by
  obtain ⟨⟨htype, hkey, hid⟩, hvalue, -⟩ := callType_item (fun _ _ => .undefined) h
  have hevent : ∀ v, e.v = v → f.reportedOf env r.payload = some v →
      (f.reportedOf env r.payload).map (fun v => ⟨f.pbcType, v, f.id, some f.name⟩) = some e := by
    rintro _ rfl hv
    rw [hv, Option.map_some, ← htype, ← hkey, ← hid]
  cases hp : r.payload with
  | lend body =>
      have htakes := hsuits body hp
      have hslice : a.slice buffer = body := ha.body body hp
      have hlend : a.isLend = true := ha.isLend_iff.mpr ⟨body, hp⟩
      rw [← hp]
      refine hevent _ ?_ (by rw [hp]; rfl)
      unfold callType at h
      rcases of_decide_eq_true htakes with hty | hty | hty
      · simp only [hty, hlend, if_true] at h
        cases h
        exact congrArg _ hslice
      · simp only [hty, hlend, if_true] at h
        cases h
        exact congrArg _ hslice
      · simp only [hty, hlend, if_true] at h
        split at h
        · cases h
          exact congrArg _ hslice
        · cases h
  | varint | bits64 | bits32 =>
      rw [← hp]
      exact hevent _ rfl (callType_number ha hres (by rw [hp]; rfl) h)

/-- From any record on: each record before the first one that is not accepted is
reported, and the return code says how many there are, or which one that is. -/
private theorem decodeAtoms_records (hreg : Registries env) (hmem : m ∈ env.messages)
    (hm : m.Regular) {rs : List Wire.Record} {as : List Atom} (has : CarriesAll buffer rs as)
    (hsuits : ∀ r ∈ rs, ∀ f, m.fieldOf r = some f → f.Suits r.payload) {i : ℕ}
    {events : List Event} {code : ℤ} (h : decodeAtoms env m buffer i as = some (events, code)) :
    events.map some = (rs.takeWhile m.acceptsRecord).map (m.event env) ∧
      code = if rs.all m.acceptsRecord then ((i + rs.length : ℕ) : ℤ)
        else -((i + events.length : ℕ) : ℤ) - 1 := by
  have hunpacked := hm.unpacked hreg hmem
  induction has generalizing i events code with
  | nil =>
      cases h
      exact ⟨rfl, rfl⟩
  | @cons r a rs as ha _ ih =>
      have haccepts := accepts_eq hreg hmem hm ha
      rcases decodeAtoms_cons hunpacked h with ⟨haccept, e, rest, n, he, hrest, heq⟩ | ⟨hstop, heq⟩
      · cases heq
        rw [haccepts] at haccept
        obtain ⟨hevents, hcode⟩ := ih (fun r' hr' => hsuits r' (List.mem_cons_of_mem _ hr')) hrest
        have hone : m.event env r = some e := by
          unfold eventOf at he
          rw [queryId_eq hreg hmem hm ha] at he
          cases hfield : m.fieldOf r with
          | none => simp [Message.acceptsRecord, hfield] at haccept
          | some f =>
              simp only [hfield] at he
              have hres := hreg.resolved hmem (m.fieldOf_some hfield).1
              have hcall := callType_record ha hres (hsuits r List.mem_cons_self f hfield)
                (Option.join_eq_some_iff.mp he)
              rw [Message.event, hfield, ← hcall]
              rfl
        have hall : i + (rs.length + 1) = i + 1 + rs.length := by omega
        have hsome : i + (rest.length + 1) = i + 1 + rest.length := by omega
        rw [List.takeWhile_cons_of_pos haccept, List.map_cons, List.map_cons, hevents, hone,
          List.all_cons, haccept, Bool.true_and, List.length_cons, List.length_cons, hall, hsome]
        exact ⟨rfl, hcode⟩
      · cases heq
        rw [haccepts] at hstop
        rw [List.takeWhile_cons_of_neg (by simp [hstop])]
        exact ⟨rfl, by simp [hstop]⟩

/-- `pbc_decode` on any well-formed buffer: it reports the records before the first one
that is not accepted, and returns how many there are, or which one that is. A buffer
with a field that the type does not have is not decoded to its end. -/
theorem pbcDecode_events (hreg : Registries env) {name : CStr} (hname : Registered env name m)
    (hm : m.Regular) {rs : List Wire.Record} (hrs : Wire.ShortMessage rs buffer)
    (hfit : buffer.length < 2 ^ 31)
    (hsuits : ∀ r ∈ rs, ∀ f, m.fieldOf r = some f → f.Suits r.payload)
    {events : List Event} {code : ℤ} (h : pbcDecode env name buffer = some (events, code)) :
    events.map some = (rs.takeWhile m.acceptsRecord).map (m.event env) ∧
      (code = if rs.all m.acceptsRecord then (rs.length : ℤ) else -(events.length : ℤ) - 1) ∧
      (0 ≤ code → ∀ r ∈ rs, ∃ f ∈ m.fields, f.id = r.number) := by
  obtain ⟨t, hget, ht⟩ := hname
  have hmem := List.mem_of_getElem? ht
  obtain ⟨as, hopen, has⟩ := openContext_carries hrs [] (Nat.le_refl _)
    (Nat.lt_trans hfit (by decide))
  rcases pbcDecode_cases hget ht h with ⟨as', hopen', hrun⟩ | ⟨hnull, -⟩
  · obtain rfl := Res.ok.inj (hopen.symm.trans hopen')
    obtain ⟨hevents, hcode⟩ := decodeAtoms_records hreg hmem hm has hsuits hrun
    rw [Nat.zero_add, Nat.zero_add] at hcode
    refine ⟨hevents, hcode, fun hgood r hr => ?_⟩
    have hall : rs.all m.acceptsRecord = true := by
      by_contra hno
      rw [if_neg hno] at hcode
      omega
    have haccept := List.all_eq_true.mp hall r hr
    cases hfield : m.fieldOf r with
    | none => simp [Message.acceptsRecord, hfield] at haccept
    | some f => exact ⟨f, m.fieldOf_some hfield⟩
  · have hopen' : openContext buffer.length buffer 0 = .ok as := hopen
    rw [hnull] at hopen'
    cases hopen'

end Records

/-- The records of a value of an enum, with one between them that is not known. -/
def unknownRecords : List Wire.Record :=
  Wire.fields [(1, .lend [65]), (5, .varint 7), (2, .varint 7)]

/-- Whether a new environment decodes a value of an enum, and the return code for the
records with one that is not known. -/
def decodeNew : Option (Bool × ℤ × ℤ) := do
  let p ← pbcNew
  let i ← getMessage p (lit "google.protobuf.EnumValueDescriptorProto")
  let m ← p.messages[← i]?
  let r ← rmessageNew p (lit "google.protobuf.EnumValueDescriptorProto") [10, 1, 65, 16, 7]
  let d ← pbcDecode p (lit "google.protobuf.EnumValueDescriptorProto") [10, 1, 65, 16, 7]
  let u ← pbcDecode p (lit "google.protobuf.EnumValueDescriptorProto") [10, 1, 65, 40, 7, 16, 7]
  pure (decide (m.Regular ∧ ∀ r ∈ unknownRecords, ∀ f ∈ m.fieldOf r, f.Suits r.payload) &&
    (r matches .ok _), d.2, u.2)

private theorem decodeNew_eq : decodeNew = some (true, 2, -2) := by decide +kernel

private theorem decode_new : ∃ (p : Env) (m : Message) (msg : RMessage) (events : List Event)
    (unknown : List Event), Registries p ∧
    Registered p (lit "google.protobuf.EnumValueDescriptorProto") m ∧ m.Regular ∧
    (∀ r ∈ unknownRecords, ∀ f, m.fieldOf r = some f → f.Suits r.payload) ∧
    rmessageNew p (lit "google.protobuf.EnumValueDescriptorProto") [10, 1, 65, 16, 7] =
      some (.ok msg) ∧
    pbcDecode p (lit "google.protobuf.EnumValueDescriptorProto") [10, 1, 65, 16, 7] =
      some (events, 2) ∧
    pbcDecode p (lit "google.protobuf.EnumValueDescriptorProto") [10, 1, 65, 40, 7, 16, 7] =
      some (unknown, -2) := by
  have hrun := decodeNew_eq
  unfold decodeNew at hrun
  simp only [Option.bind_eq_bind, Option.bind_eq_some_iff] at hrun
  obtain ⟨p, hnew, found, hfound, i, rfl, m, hm, r, hr, ⟨events, code⟩, hd, ⟨unknown, code'⟩, hu,
    hrun⟩ :=
    hrun
  obtain ⟨hfirst, hcodes⟩ := Prod.mk.inj (Option.some.inj hrun)
  obtain ⟨rfl, rfl⟩ := Prod.mk.inj hcodes
  obtain ⟨hall, hok⟩ := Bool.and_eq_true_iff.mp hfirst
  obtain ⟨hregular, hsuits⟩ := of_decide_eq_true hall
  cases r with
  | error e => cases hok
  | ok msg =>
      exact ⟨p, m, msg, events, unknown, .new hnew, ⟨i, hfound, hm⟩, hregular, hsuits, hr, hd, hu⟩

/-- A buffer with a field that is not known, of which only the record before it is reported. -/
theorem pbcDecode_events_unknown : ∃ (p : Env) (m : Message) (events : List Event),
    pbcDecode p (lit "google.protobuf.EnumValueDescriptorProto") [10, 1, 65, 40, 7, 16, 7] =
      some (events, -2) ∧
    events.map some = (unknownRecords.takeWhile m.acceptsRecord).map (m.event p) ∧
      (-2 = if unknownRecords.all m.acceptsRecord then (3 : ℤ) else -(events.length : ℤ) - 1) ∧
      (0 ≤ (-2 : ℤ) → ∀ r ∈ unknownRecords, ∃ f ∈ m.fields, f.id = r.number) := by
  obtain ⟨p, m, -, -, unknown, hreg, hname, hm, hsuits, -, -, hu⟩ := decode_new
  exact ⟨p, m, unknown, hu, pbcDecode_events hreg hname hm
    (Wire.shortMessage_encode unknownRecords (by decide)) (by decide) hsuits hu⟩

/-- A value of an enum that is decoded and read. -/
theorem pbcDecode_shows_value : ∃ (p : Env) (m : Message) (events : List Event) (msg : RMessage),
    pbcDecode p (lit "google.protobuf.EnumValueDescriptorProto") [10, 1, 65, 16, 7] =
      some (events, 2) ∧
    ∀ f, m.Files f → calcHash f.name ≠ 0 →
      f.label = .repeated ∨ (events.filter (·.id = f.id)).length ≤ 1 →
      ∃ items, Shows p msg f items ∧
        Reports (rmessageNewAux p 5) p f (events.filter (·.id = f.id)) items := by
  obtain ⟨p, m, msg, events, -, hreg, ⟨t, hget, ht⟩, hm, -, hr, hd, -⟩ := decode_new
  exact ⟨p, m, events, msg, hd, pbcDecode_shows hget ht
    (hm.unpacked hreg (List.mem_of_getElem? ht)) hd (by decide) hr⟩

/-! ## Packed fields -/

/-- The value that is reported for a number of a packed field. -/
def Field.packedValue (env : Env) (f : Field) (v : Longlong) : Option PbcValue := do
  let l ← f.type.comesBack v.low v.hi
  if f.type = .enum then enumValue env f l.low else pure (.integer l)

section PackedFields

variable {env : Env} {f : Field} {p : Packed} {m : Wmessage}

/-- The bounds of the body of a record. -/
private theorem wiretypeDecode_lend {r : Wire.Record} {body : List UInt8}
    (hr : r.payload = .lend body) (front rest : List UInt8)
    (hfit : (front ++ (r.encode ++ rest)).length < 2 ^ 31) :
    ∃ a, wiretypeDecode (r.encode ++ rest) front.length = .ok (a, r.encode.length) ∧
      AtomOf (front ++ (r.encode ++ rest)) r a ∧
      (front ++ (r.encode ++ rest)).drop a.x.toNat = body ++ rest ∧
      a.span = some (body.length : ℤ) := by
  have hlens : (r.encode).length =
      (Varint.encode r.tag).length + ((Varint.encode body.length).length + body.length) := by
    rw [Wire.Record.encode, hr, Wire.Payload.encode, List.length_append, List.length_append]
  have htagle : (Varint.encode r.tag).length ≤ 5 :=
    Varint.encode_length_le (Nat.lt_trans r.tag_lt (by decide))
  have hlenle : (Varint.encode body.length).length ≤ 5 :=
    Varint.encode_length_le (by simp only [List.length_append] at hfit; omega)
  have hshort : Wire.Record.Short r r.encode := r.short_encode (by
    rw [hr, Wire.Payload.size]
    simp only [List.length_append] at hfit
    omega)
  obtain ⟨a, hrun, hatom⟩ := wiretypeDecode_record hshort front rest
    (Nat.lt_trans hfit (by decide))
  refine ⟨a, hrun, hatom.toAtomOf, ?_⟩
  rw [List.length_append, List.length_append] at hfit
  have hdecode := decode_small (Varint.encodes_encode r.tag) (by omega) r.tag_lt
    (Varint.encode body.length ++ (body ++ rest))
  have hvalue := decode_small (Varint.encodes_encode body.length) (by omega) (by omega) (body ++ rest)
  have hwire : (BitVec.ofNat 32 r.tag &&& 7).toNat = 2 := by
    have hmod := r.tag_mod
    rw [hr] at hmod
    rw [BitVec.toNat_and, BitVec.toNat_ofNat, Nat.mod_eq_of_lt r.tag_lt]
    exact (Word.and_low_mask r.tag 3).trans hmod
  have hsplit : r.encode ++ rest =
      Varint.encode r.tag ++ (Varint.encode body.length ++ (body ++ rest)) := by
    rw [Wire.Record.encode, hr, Wire.Payload.encode, List.append_assoc, List.append_assoc]
  have hroom : ¬ ((Varint.encode body.length).length + (body.length + rest.length) <
      ((Varint.encode body.length).length + body.length) % 2 ^ 32) := by omega
  have hwrap : ¬ 2 ^ 32 ≤ (Varint.encode body.length).length + body.length := by omega
  have hsmall : body.length % 2 ^ 32 = body.length := Nat.mod_eq_of_lt (by omega)
  rw [hsplit] at hrun
  simp only [wiretypeDecode, hdecode, List.drop_left, hwire, hvalue, BitVec.toNat_ofNat, hsmall,
    List.length_append, hroom, hwrap, ne_eq, not_true_eq_false, or_false, if_false, Res.ok.injEq,
    Prod.mk.injEq] at hrun
  obtain ⟨rfl, -⟩ := hrun
  have hstart : (BitVec.ofNat 32 (front.length + (Varint.encode r.tag).length +
      (Varint.encode body.length).length)).toNat =
      (front ++ (Varint.encode r.tag ++ Varint.encode body.length)).length := by
    rw [BitVec.toNat_ofNat, List.length_append, List.length_append, Nat.mod_eq_of_lt (by omega)]
    omega
  constructor
  · have hwhole : front ++ (r.encode ++ rest) =
        (front ++ (Varint.encode r.tag ++ Varint.encode body.length)) ++ (body ++ rest) := by
      rw [hsplit]
      simp only [List.append_assoc]
    rw [hstart, hwhole, List.drop_left]
  · have hword : ∀ n : ℕ, n < 2 ^ 31 → (BitVec.ofNat 32 n).toInt = n := by
      intro n hn
      rw [BitVec.toInt_eq_toNat_of_lt, BitVec.toNat_ofNat, Nat.mod_eq_of_lt (by omega)]
      rw [BitVec.toNat_ofNat]
      omega
    rw [Atom.span, hword _ (by omega), hword _ (by omega)]
    exact (if_pos (by omega)).trans (congrArg some (by omega))

private theorem Field.pbcType_ne_zero (h : f.type.payload 0 0 ≠ none) : f.pbcType ≠ 0 := by
  unfold Field.pbcType
  generalize f.type = type at h ⊢
  cases type with
  | group | other => exact absurd rfl h
  | _ => by_cases hmany : f.label = .repeated ∨ f.label = .packed <;> simp [hmany]

/-- The values that are reported for the numbers of a list, once they have been read. -/
private theorem packedValue_back {data : List Longlong} {vs : List PbcValue}
    (h : data.mapM (f.packedValue env) = some vs) :
    (f.type = .enum → (data.filterMap fun v => f.type.comesBack v.low v.hi).mapM
        (fun v => enumValue env f v.low) = some vs) ∧
      (f.type ≠ .enum →
        (data.filterMap fun v => f.type.comesBack v.low v.hi).map PbcValue.integer = vs) := by
  induction data generalizing vs with
  | nil =>
      cases h
      exact ⟨fun _ => rfl, fun _ => rfl⟩
  | cons v data ih =>
      rw [List.mapM_cons] at h
      obtain ⟨w, hw, h⟩ := Option.bind_eq_some_iff.mp h
      obtain ⟨ws, hws, h⟩ := Option.bind_eq_some_iff.mp h
      cases h
      obtain ⟨henum, hother⟩ := ih hws
      obtain ⟨l, hl, hw⟩ := Option.bind_eq_some_iff.mp hw
      rw [List.filterMap_cons, hl]
      constructor
      · intro htype
        rw [if_pos htype] at hw
        rw [List.mapM_cons, hw, henum htype]
        rfl
      · intro htype
        rw [if_neg htype] at hw
        cases hw
        rw [List.map_cons, hother htype]

/-- The numbers that are read from a packed field are reported. -/
private theorem callArray_eq {a : Atom} {buffer : List UInt8} {n size : ℤ}
    {vs : List PbcValue} (htype : f.pbcType ≠ 0) (hf : f.type = p.ptype) (hspan : a.span = some size)
    (hunpack : unpackPacked f.type (buffer.drop a.x.toNat) size = some (p.back, n)) (hn : 0 ≤ n)
    (hvs : p.data.mapM (f.packedValue env) = some vs) :
    callArray env f a buffer =
      some (vs.map fun v => ⟨f.pbcType, v, f.id, some f.name⟩, true) := by
  obtain ⟨henum, hother⟩ := packedValue_back hvs
  rw [hf] at henum hother
  rw [hf] at hunpack
  by_cases hty : p.ptype = .enum
  · have hvalues := henum hty
    rw [hty] at hunpack hvalues
    simp only [Packed.back, hty] at hunpack
    simp only [callArray, htype, if_false, hspan, hf, hty, if_true, hunpack, hvalues,
      Option.bind_eq_bind, Option.bind_some, Option.pure_def, hn, decide_true]
  · simp only [callArray, htype, if_false, hspan, hf, hty, hunpack, Packed.back, hother hty,
      Option.bind_eq_bind, Option.bind_some, Option.pure_def, hn, decide_true]

/-- The numbers of a writable packed field that are written at the end of a message
are reported, in their order, when the record is decoded. -/
theorem packPacked_decode {mem : ℕ → UInt8} {vs : List PbcValue} (hint : p.IsInteger) (hm : m.Fits)
    (hfit : m.bytes.length + 10 * p.data.length + 40 ≤ 2 ^ 30) (hw : p.Writable)
    (hid : f.id = p.id) (htype : f.type = p.ptype) (hlabel : f.label = .packed)
    (hnum : 0 < f.id ∧ f.id < 2 ^ 28) {type : Message} (hfiles : type.Files f)
    (hvs : p.data.mapM (f.packedValue env) = some vs)
    (rest : List UInt8) (hrest : rest.length < 2 ^ 30) :
    ∃ m' a, packPacked mem p m = some m' ∧
      wiretypeDecode ((m'.bytes ++ rest).drop m.bytes.length) m.bytes.length =
        .ok (a, m'.bytes.length - m.bytes.length) ∧
      decodeAtom env type (m'.bytes ++ rest) a =
        some (vs.map fun v => ⟨f.pbcType, v, f.id, some f.name⟩, true) := by
  have hp : p.Numbered := ⟨hid ▸ hnum.1, hid ▸ Int.lt_trans hnum.2 (by decide)⟩
  have hlens := p.body_length_le
  obtain ⟨m', hpack, hbytes⟩ := (packPacked_record_iff hint hp hm hfit).mpr hw mem
  have hlen : (p.record hp).encode.length ≤ 10 + p.body.length := by
    have htag : (Varint.encode (p.record hp).tag).length ≤ 5 :=
      Varint.encode_length_le (Nat.lt_trans (p.record hp).tag_lt (by decide))
    have hsize : (Varint.encode p.body.length).length ≤ 5 :=
      Varint.encode_length_le (by omega)
    change (Varint.encode _ ++ (Varint.encode p.body.length ++ p.body)).length ≤ _
    rw [List.length_append, List.length_append]
    omega
  have hwhole : m'.bytes ++ rest = m.bytes ++ ((p.record hp).encode ++ rest) := by
    rw [hbytes, List.append_assoc]
  obtain ⟨a, hrun, hatom, hdrop, hspan⟩ := wiretypeDecode_lend (r := p.record hp) rfl m.bytes rest (by
    simp only [List.length_append]
    omega)
  have haid : a.id = f.id := by
    have hnumber := hatom.id_eq (n := p.id.toNat) (by omega)
    rw [hnumber.mpr rfl, Int.toNat_of_nonneg (by omega), hid]
  refine ⟨m', a, hpack, ?_, ?_⟩
  · rw [hwhole, List.drop_left, hrun, hbytes, List.length_append, Nat.add_sub_cancel_left]
  · have hquery : type.queryId a.id = some f := haid ▸ hfiles
    have hunpack := unpackPacked_body hint rest
    rw [← hdrop, ← hwhole, ← htype] at hunpack
    simp only [decodeAtom, hquery, hlabel, if_true]
    exact callArray_eq (Field.pbcType_ne_zero (htype ▸ hint)) htype hspan hunpack
      (Int.natCast_nonneg _) hvs

end PackedFields

/-- A packed field of numbers. -/
def numbersField : Field := ⟨2, lit "numbers", .uint32, .packed, .integer ⟨0, 0⟩, .n []⟩

/-- A message type with no other field. -/
def numbersType : Message := { Message.new.addField numbersField with id := MapIp.new [(2, 0)] }

private theorem numbersType_files : numbersType.Files numbersField :=
  (by decide +kernel : numbersType.queryId 2 = some numbersField)

/-- Two numbers, of which the second takes two bytes, behind another record. -/
theorem packPacked_decode_two : ∃ m' a,
    packPacked (fun _ => 0) twoNumbers (oneRecord numbersType) = some m' ∧
    wiretypeDecode ((m'.bytes ++ [24, 1]).drop 2) 2 = .ok (a, m'.bytes.length - 2) ∧
    decodeAtom Env.empty numbersType (m'.bytes ++ [24, 1]) a =
      some ([PbcValue.integer ⟨3, 0⟩, PbcValue.integer ⟨270, 0⟩].map fun v =>
        ⟨numbersField.pbcType, v, 2, some (lit "numbers")⟩, true) :=
  packPacked_decode (f := numbersField) (p := twoNumbers) (m := oneRecord numbersType) (by decide)
    (fits_oneRecord numbersType) (by decide) (by rfl) rfl rfl rfl (by decide)
    numbersType_files rfl [24, 1] (by decide)

end Pbc
