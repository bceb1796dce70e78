-- SUMMARY: Reading serialized messages: the split into atoms, the message read against its type, and access to its fields.
import HdClient.Pbc.Proto
import Mathlib.Algebra.Group.Int.Defs

/-! # Reading messages

`context.c` splits a buffer into atoms, `rmessage.c` files them under the names
of their fields. -/

namespace Pbc

/-- What a function of the library comes to that returns a pointer, or fails. -/
inductive Res (α : Type) where
  | ok (a : α)
  /-- The null pointer. -/
  | null
  /-- The function did something that has no defined effect. -/
  | undefined

namespace Res

variable {α β : Type}

instance : Monad Res where
  pure := .ok
  bind
    | .ok a, f => f a
    | .null, _ => .null
    | .undefined, _ => .undefined

/-- What is undefined as an option is undefined as a result. -/
def ofOption : Option α → Res α
  | some a => .ok a
  | none => .undefined

@[simp] theorem pure_eq (a : α) : (pure a : Res α) = .ok a := rfl
@[simp] theorem ok_bind (a : α) (f : α → Res β) : (Res.ok a >>= f) = f a := rfl
@[simp] theorem null_bind (f : α → Res β) : (Res.null >>= f) = .null := rfl
@[simp] theorem undefined_bind (f : α → Res β) : (Res.undefined >>= f) = .undefined := rfl
@[simp] theorem ofOption_some (a : α) : ofOption (some a) = .ok a := rfl
@[simp] theorem ofOption_none : (ofOption none : Res α) = .undefined := rfl

theorem bind_eq_ok {x : Res α} {f : α → Res β} {b : β} :
    x >>= f = .ok b ↔ ∃ a, x = .ok a ∧ f a = .ok b := by
  cases x with
  | ok a => simp
  | null => simp
  | undefined => simp

end Res

/-! ## Atoms -/

/-- `struct atom`. The two words of the union are the number of a varint or of
a fixed-size field, low word first, or the bounds of a length-delimited one. -/
structure Atom where
  wire_id : BitVec 32
  x : BitVec 32
  y : BitVec 32
  deriving DecidableEq

/-- The number of the field, `wire_id >> 3`. -/
def Atom.id (a : Atom) : ℤ := (a.wire_id.sshiftRight 3).toInt

/-- One record at the head of what is left of the buffer, and its length. -/
def wiretypeDecode (buffer : List UInt8) (start : ℕ) : Res (Atom × ℕ) :=
  match decode buffer with
  | none => .null
  | some (r, len) =>
      if r.hi ≠ 0 then .null
      else
        let buffer := buffer.drop len
        let start := start + len
        let cap := buffer.length
        match (r.low &&& 7).toNat with
        | 0 => match decode buffer with
            | none => .null
            | some (v, vlen) => .ok (⟨r.low, v.low, v.hi⟩, len + vlen)
        | 1 =>
            if cap < 8 then .null
            else .ok (⟨r.low, Word.ofLe (buffer.take 4), Word.ofLe ((buffer.drop 4).take 4)⟩, len + 8)
        | 2 => match decode buffer with
            -- the length is then made of bytes behind the copy of the buffer
            | none => .undefined
            | some (v, vlen) =>
                if cap < (vlen + v.low.toNat) % 2 ^ 32 ∨ v.hi ≠ 0 then .null
                -- the sum wraps and lets a length through that leaves the buffer
                else if 2 ^ 32 ≤ vlen + v.low.toNat then .undefined
                else .ok (⟨r.low, BitVec.ofNat 32 (start + vlen),
                  BitVec.ofNat 32 (start + vlen + v.low.toNat)⟩, len + vlen + v.low.toNat)
        | 5 =>
            if cap < 4 then .null
            else .ok (⟨r.low, Word.ofLe (buffer.take 4), 0⟩, len + 4)
        | _ => .null

/-- `_pbcC_open`; a record takes at least one byte. -/
def openContext : ℕ → List UInt8 → ℕ → Res (List Atom)
  | _, [], _ => .ok []
  | 0, _ :: _, _ => .null
  | fuel + 1, b :: bs, start => do
      let (a, len) ← wiretypeDecode (b :: bs) start
      let as ← openContext fuel ((b :: bs).drop len) (start + len)
      pure (a :: as)

theorem openContext_succ {bs : List UInt8} (h : bs ≠ []) {fuel start : ℕ} :
    openContext (fuel + 1) bs start = (do
      let (a, len) ← wiretypeDecode bs start
      let as ← openContext fuel (bs.drop len) (start + len)
      pure (a :: as)) := by
  obtain ⟨b, bs, rfl⟩ := List.exists_cons_of_ne_nil h
  rfl

/-- The bytes between the bounds of an atom. -/
def Atom.slice (a : Atom) (buffer : List UInt8) : List UInt8 :=
  (buffer.drop a.x.toNat).take (a.y.toNat - a.x.toNat)

/-! ## Packed fields -/

/-- The loop of `_pbcP_unpack_packed` over varints: the numbers that are pushed,
and whether all of them end in the field. A varint may be read from behind the field. -/
def unpackVarints (takes : Longlong → Longlong) :
    ℕ → List UInt8 → ℕ → Option (List Longlong × Bool)
  | 0, _, _ => some ([], true)
  | fuel + 1, buffer, size =>
      if size = 0 then some ([], true)
      else do
        let (v, len) ← decode buffer
        if size < len then pure ([], false)
        else do
          let (vs, ok) ← unpackVarints takes fuel (buffer.drop len) (size - len)
          pure (takes v :: vs, ok)

/-- Numbers of four bytes. -/
def words32 : ℕ → List UInt8 → List Longlong
  | 0, _ => []
  | n + 1, bs => ⟨Word.ofLe (bs.take 4), 0⟩ :: words32 n (bs.drop 4)

/-- Numbers of eight bytes. -/
def words64 : ℕ → List UInt8 → List Longlong
  | 0, _ => []
  | n + 1, bs => ⟨Word.ofLe (bs.take 4), Word.ofLe ((bs.drop 4).take 4)⟩ :: words64 n (bs.drop 8)

/-- The loops of `_pbcP_unpack_packed` over numbers of `width` bytes. -/
def unpackWords (width : ℕ) (words : ℕ → List UInt8 → List Longlong) (buffer : List UInt8)
    (size : ℤ) : Option (List Longlong × ℤ) :=
  if size.tmod width ≠ 0 then some ([], -1)
  else if buffer.length < size.toNat then none
  else some (words (size.toNat / width) buffer, size.tdiv width)

/-- `_pbcP_unpack_packed`, with its return code; `buffer` is the memory from the
pointer on. -/
def unpackPacked (type : PType) (buffer : List UInt8) (size : ℤ) : Option (List Longlong × ℤ) :=
  let varints (takes : Longlong → Longlong) :=
    (unpackVarints takes size.toNat buffer size.toNat).map fun r =>
      (r.1, if r.2 then (r.1.length : ℤ) else -1)
  match type with
  | .double | .float => none
  | .fixed32 | .sfixed32 => unpackWords 4 words32 buffer size
  | .fixed64 | .sfixed64 => unpackWords 8 words64 buffer size
  | .int64 | .uint64 | .int32 | .uint32 | .enum | .bool => varints id
  | .sint32 => varints dezigzag32
  | .sint64 => varints dezigzag64
  | _ => some ([], -1)

/-- How long the slice of an atom is, as an `int`; undefined where the bounds, which
may be those of a record of another wire type, are too far apart. -/
def Atom.span (a : Atom) : Option ℤ :=
  let n := a.y.toInt - a.x.toInt
  if -2 ^ 31 ≤ n ∧ n < 2 ^ 31 then some n else none

/-! ## Messages -/

/-- An element of a repeated field. -/
inductive Item (ρ : Type) where
  | var (v : Var)
  | message (m : ρ)

/-- `union _var` -/
inductive Cell (ρ : Type) where
  | var (v : Var)
  | array (items : List (Item ρ))
  | message (m : ρ)

/-- `struct value` -/
structure Value (ρ : Type) where
  type : Field
  v : Cell ρ

/-- `struct pbc_rmessage`: its type and its values by the names of their fields. -/
inductive RMessage where
  | mk (msg : Option ℕ) (index : Option (ChainTable CStr (Value RMessage)))

namespace RMessage

def msg : RMessage → Option ℕ
  | .mk msg _ => msg

def index : RMessage → Option (MapSp (Value RMessage))
  | .mk _ index => index

/-- What is left of a message that could not be read. -/
def zeroed : RMessage := .mk none none

end RMessage

section Reading

-- Reads a nested message of the type that a pointer, which may be null, points to.
variable (sub : Option ℕ → List UInt8 → Res RMessage)

/-- `CHECK_LEND` -/
def Atom.isLend (a : Atom) : Bool := a.wire_id &&& 7 = 2

/-- The value of a field that is a number, if the field is one. -/
def scalar (f : Field) (a : Atom) : Option (Res Var) :=
  match f.type with
  | .double | .float => some (.ok .real)
  | .enum => match f.type_name with
      | .e (some _) => some (.ok (.enum a.x))
      | _ => some .undefined
  | .int64 | .uint64 | .int32 | .uint32 | .bool | .fixed32 | .sfixed32 | .fixed64 | .sfixed64 =>
      some (.ok (.integer ⟨a.x, a.y⟩))
  | .sint32 => some (.ok (.integer (dezigzag32 ⟨a.x, a.y⟩)))
  | .sint64 => some (.ok (.integer (dezigzag64 ⟨a.x, a.y⟩)))
  | _ => none

/-- `read_value`: the value of a field that is not repeated. -/
def readValue (f : Field) (a : Atom) (buffer : List UInt8) : Res (Cell RMessage) :=
  match scalar f a with
  | some r => do pure (.var (← r))
  | none => match f.type with
      | .string | .bytes =>
          if a.isLend then .ok (.var (.str (a.slice buffer))) else .null
      | .message =>
          if a.isLend then
            match f.type_name with
            | .m type => match sub type (a.slice buffer) with
                | .ok m => .ok (.message m)
                | .null => .ok (.message .zeroed)
                | .undefined => .undefined
            | _ => .undefined
          else .null
      | _ => .null

/-- `push_value_array`: the element that is added to a repeated field, if any. -/
def readItem (f : Field) (a : Atom) (buffer : List UInt8) : Res (Item RMessage) :=
  match scalar f a with
  | some r => do pure (.var (← r))
  | none => match f.type with
      | .string | .bytes =>
          if a.isLend then .ok (.var (.str (a.slice buffer))) else .null
      | .message =>
          if a.isLend then
            match f.type_name with
            | .m type => do
                let message ← sub type (a.slice buffer)
                if message.msg.isNone then .null
                else pure (.message message)
            | _ => .undefined
          else .null
      | _ => .null

/-- The elements of a repeated field read so far; undefined for a value that is no array. -/
def arrayItems : Option (Value RMessage) → Res (List (Item RMessage))
  | none => .ok []
  | some ⟨_, .array items⟩ => .ok items
  | some _ => .undefined

/-- The elements that `_pbcP_unpack_packed` pushes, with its return code. -/
def packedItems (type : PType) (buffer : List UInt8) (size : ℤ) :
    Option (List (Item RMessage) × ℤ) :=
  let reals : List Longlong × ℤ → List (Item RMessage) × ℤ := fun r =>
    (r.1.map fun _ => .var .real, r.2)
  match type with
  | .double => (unpackWords 8 words64 buffer size).map reals
  | .float => (unpackWords 4 words32 buffer size).map reals
  | _ => (unpackPacked type buffer size).map fun r => (r.1.map fun v => .var (.integer v), r.2)

/-- An element that is made one of an enum. -/
def Item.toEnum : Item RMessage → Item RMessage
  | .var (.integer v) => .var (.enum v.low)
  | item => item

/-- `push_value_packed`: the elements afterwards. The memory is that of the message,
from which a varint may go on into what is behind it. Of an enum, as many elements
are given names as were pushed, from the first one of the array on. -/
def pushValuePacked (f : Field) (items : List (Item RMessage)) (a : Atom) (buffer : List UInt8) :
    Res (List (Item RMessage)) := do
  let (pushed, n) ← .ofOption (packedItems f.type (buffer.drop a.x.toNat) (← .ofOption a.span))
  let items := items ++ pushed
  if arrayMax < items.length then .undefined
  else if n ≤ 0 ∨ f.type ≠ .enum then pure items
  else match f.type_name with
    | .e (some _) => pure ((items.take n.toNat).map Item.toEnum ++ items.drop n.toNat)
    | _ => .undefined

/-- The loop body of `_pbc_rmessage_new`: file one atom under the name of its field. -/
def storeAtom (m : Message) (index : MapSp (Value RMessage)) (a : Atom) (buffer : List UInt8) :
    Res (MapSp (Value RMessage)) :=
  match m.queryId a.id with
  | none => .ok index
  | some f => match f.label with
      | .packed => do
          let (index, i) := index.queryInsert f.name
          let items ← pushValuePacked f (← arrayItems (index.slot i).pointer) a buffer
          pure (index.setPointer i (if items = [] then none else some ⟨f, .array items⟩))
      | .repeated => do
          let (index, i) := index.queryInsert f.name
          let items ← arrayItems (index.slot i).pointer
          match readItem sub f a buffer with
          | .ok item => pure (index.setPointer i (some ⟨f, .array (items ++ [item])⟩))
          | .null => pure (index.setPointer i (if items = [] then none else some ⟨f, .array items⟩))
          | .undefined => .undefined
      | _ => match readValue sub f a buffer with
          | .ok v => .ok (index.insert f.name (some ⟨f, v⟩))
          | .null => .ok index
          | .undefined => .undefined

def storeAtoms (m : Message) (buffer : List UInt8) :
    MapSp (Value RMessage) → List Atom → Res (MapSp (Value RMessage))
  | index, [] => .ok index
  | index, a :: as => do
      let index ← storeAtom sub m index a buffer
      storeAtoms m buffer index as

end Reading

/-- The records of a message for whose slots `_pbcH_alloc` can be asked in an `int`. -/
def recordsMax : ℕ := 2 ^ 25

/-- `_pbc_rmessage_new`; nested messages are shorter than the one they are in. -/
def rmessageNewAux (env : Env) : ℕ → Option ℕ → List UInt8 → Res RMessage
  | 0, _, _ => .undefined
  | fuel + 1, type, buffer =>
      if buffer = [] then .ok (.mk type (some (MapSp.new 0)))
      else match type.bind fun i => env.messages[i]? with
        | none => .undefined
        | some m => do
            let as ← openContext buffer.length buffer 0
            if recordsMax < as.length then .undefined
            else do
              let index ← storeAtoms (rmessageNewAux env fuel) m buffer (MapSp.new as.length) as
              pure (.mk type (some index))

/-- Why `pbc_rmessage_new` failed, as `pbc_error` reports it. -/
inductive RmessageError where
  | protoNotFound
  | decodeContext
  deriving DecidableEq, Repr

def RmessageError.text : RmessageError → String
  | .protoNotFound => "Proto not found"
  | .decodeContext => "rmessage decode context error"

/-- The slice that `_pbcH_new` makes a heap for before the `int` overflows that it doubles. -/
def heapMax : ℕ := 2 ^ 30

/-- `pbc_rmessage_new`; the outer option is undefined behaviour. -/
def rmessageNew (env : Env) (typename : CStr) (slice : List UInt8) :
    Option (Except RmessageError RMessage) := do
  match ← getMessage env typename with
  | none => pure (.error .protoNotFound)
  | some i =>
      if heapMax < slice.length then none
      else match rmessageNewAux env (slice.length + 1) (some i) slice with
        | .ok m => pure (.ok m)
        | .null => pure (.error .decodeContext)
        | .undefined => none

/-! ## Access -/

namespace RMessage

/-- The value under a key, or null. -/
def query (m : RMessage) (key : CStr) : Option (Option (Value RMessage)) :=
  match m.index with
  | none => some none
  | some index => index.query key

/-- The type of a message, which a message that could not be read does not have. -/
def type (env : Env) (m : RMessage) : Option Message := m.msg.bind fun i => env.messages[i]?

/-- The variable of a field, with its type: an element of it, the value itself,
or the default. -/
def lookup (env : Env) (m : RMessage) (key : CStr) (index : ℕ) :
    Option (Option PType × Var) := do
  match ← m.query key with
  | none => messageDefault (← m.type env) key
  | some v =>
      if v.type.label = .repeated ∨ v.type.label = .packed then
        match v.v with
        | .array items => match items[index]? with
            | some (.var x) => pure (some v.type.type, x)
            | _ => none
        | _ => none
      else match v.v with
        | .var x => pure (some v.type.type, x)
        | _ => none

end RMessage

/-- `pbc_rmessage_integer`, without the high word. -/
def rmessageInteger (env : Env) (m : RMessage) (key : CStr) (index : ℕ) : Option (BitVec 32) := do
  let (type, v) ← m.lookup env key index
  if type = some .enum then
    match v with
    | .enum id => pure id
    -- an element of a packed field that was not given its name
    | .integer l => pure l.low
    | _ => none
  else match v with
    | .integer l => pure l.low
    | _ => none

/-- `pbc_rmessage_string`: the bytes it reports the size of. A key that the
message type lacks gives a null pointer; the names of enums are not modelled. -/
def rmessageString (env : Env) (m : RMessage) (key : CStr) (index : ℕ) :
    Option (List UInt8) := do
  let (type, v) ← m.lookup env key index
  if type = some .enum then none
  else match v with
    | .str bytes => pure bytes
    | _ => none

/-- `pbc_rmessage_message`; a sub-message that is absent is an empty one without an index. -/
def rmessageMessage (env : Env) (m : RMessage) (key : CStr) (index : ℕ) : Res RMessage := do
  match ← .ofOption (m.query key) with
  | none => do
      let type ← .ofOption (m.type env)
      match ← .ofOption (type.queryName key) with
      | none => .null
      | some f => match f.type_name with
          | .m (some i) => pure (.mk (some i) none)
          | _ => .undefined
  | some v =>
      if v.type.label = .repeated then
        match v.v with
        | .array items => match items[index]? with
            | some (.message sub) => pure sub
            | _ => .undefined
        | _ => .undefined
      else match v.v with
        | .message sub => pure sub
        | _ => .undefined

/-- `pbc_rmessage_size` -/
def rmessageSize (m : RMessage) (key : CStr) : Option ℕ := do
  match ← m.query key with
  | none => pure 0
  | some v =>
      if v.type.label = .repeated ∨ v.type.label = .packed then
        match v.v with
        | .array items => pure items.length
        | _ => none
      else pure 1

end Pbc
