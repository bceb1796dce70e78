-- SUMMARY: Message types, fields and enums of the protobuf library, the environment they are registered in, and how they are put there.
import HdClient.Pbc.Map
import HdClient.Pbc.Varint

/-! # Message types

A pointer to a message type or to an enum is the index of the object in the
environment's list of them; a pointer to a field is its index in the message
type it belongs to. -/

namespace Pbc

/-- The field types of `context.h`; any other number is `other`. -/
inductive PType where
  | double | float | int64 | uint64 | int32 | fixed64 | fixed32 | bool | string | group
  | message | bytes | uint32 | enum | sfixed32 | sfixed64 | sint32 | sint64 | other
  deriving DecidableEq, Repr

def PType.ofInt : ℤ → PType
  | 1 => .double | 2 => .float | 3 => .int64 | 4 => .uint64 | 5 => .int32 | 6 => .fixed64
  | 7 => .fixed32 | 8 => .bool | 9 => .string | 10 => .group | 11 => .message | 12 => .bytes
  | 13 => .uint32 | 14 => .enum | 15 => .sfixed32 | 16 => .sfixed64 | 17 => .sint32
  | 18 => .sint64 | _ => .other

inductive Label where
  | optional | required | repeated | packed | other
  deriving DecidableEq, Repr

def Label.ofInt : ℤ → Label
  | 0 => .optional | 1 => .required | 2 => .repeated | 3 => .packed | _ => .other

/-- `pbc_var`, by the member that was written last. No real number is ever
looked into, so its bits are left out. -/
inductive Var where
  | integer (v : Longlong)
  | real
  /-- The `len` bytes at `str`; a zero follows them unless they end in one. -/
  | str (bytes : List UInt8)
  | enum (id : BitVec 32)
  deriving DecidableEq

/-- A `pbc_array` holds this many elements before the `int` overflows that `_pbcA_push`
asks for its bytes with. -/
def arrayMax : ℕ := 2 ^ 26 - 1

/-- The union `type_name`: a name at first, and a pointer once it has been resolved. -/
inductive TypeName where
  | n (name : CStr)
  | m (msg : Option ℕ)
  | e (enum : Option ℕ)
  deriving DecidableEq

/-- `struct _field` -/
structure Field where
  id : ℤ
  name : CStr
  type : PType
  label : Label
  default_v : Var
  type_name : TypeName
  deriving DecidableEq

/-- `struct _message`. A pointer in `name` and `id` is an index in `fields`. -/
structure Message where
  fields : List Field
  name : MapSp ℕ
  id : Option (MapIp ℕ)
  name_wf : name.WF

/-- `struct _enum` -/
structure Enum where
  id : MapIp CStr
  name : MapSi
  default_v : Var

/-- Where the characters of a key are: in a string pool, which stays, or in the
message that is being read. -/
inductive KeyMemory where
  | pool | message
  deriving DecidableEq

/-- `struct pbc_env`. In `files`, the file of the library itself has a null
pointer and every other one its string pool. Some keys of `msgs` are not copied:
those in `borrowed` are in the message that is being read, those in `freed` were
in one that has been deleted. -/
structure Env where
  files : MapSp Unit
  enums : MapSp ℕ
  msgs : MapSp ℕ
  borrowed : List CStr
  freed : List CStr
  enumObjs : List Enum
  messages : List Message
  files_wf : files.WF
  enums_wf : enums.WF
  msgs_wf : msgs.WF

namespace Message

def new : Message := ⟨[], .new 0, none, MapSp.wf_new 0⟩

/-- The pointer to a new field `f`, under its name. -/
def addField (m : Message) (f : Field) : Message where
  fields := m.fields ++ [f]
  name := m.name.insert f.name (some m.fields.length)
  id := m.id
  name_wf := MapSp.wf_insert m.name_wf _ _

def setField (m : Message) (i : ℕ) (f : Field) : Message :=
  { m with fields := m.fields.set i f }

/-- The field with a name, or null. -/
def queryName (m : Message) (key : CStr) : Option (Option Field) :=
  (m.name.query key).map fun p => p.bind fun i => m.fields[i]?

/-- The field with a number, or null. -/
def queryId (m : Message) (id : ℤ) : Option Field :=
  m.id.bind fun map => (map.query id).bind fun i => m.fields[i]?

end Message

namespace Env

/-- The environment before anything is registered in it. -/
def empty : Env :=
  ⟨.new 0, .new 0, .new 0, [], [], [], [], MapSp.wf_new 0, MapSp.wf_new 0, MapSp.wf_new 0⟩

def addFile (p : Env) (name : CStr) (pool : Option Unit) : Env :=
  { p with files := p.files.insert name pool, files_wf := MapSp.wf_insert p.files_wf _ _ }

def addMessage (p : Env) (name : CStr) (mem : KeyMemory) (m : Message) : Env :=
  { p with
    msgs := p.msgs.insert name (some p.messages.length)
    borrowed := if mem = .message then name :: p.borrowed else p.borrowed
    messages := p.messages ++ [m]
    msgs_wf := MapSp.wf_insert p.msgs_wf _ _ }

def setMessage (p : Env) (i : ℕ) (m : Message) : Env := { p with messages := p.messages.set i m }

def addEnum (p : Env) (name : CStr) (e : Enum) : Env :=
  { p with
    enums := p.enums.insert name (some p.enumObjs.length)
    enumObjs := p.enumObjs ++ [e]
    enums_wf := MapSp.wf_insert p.enums_wf _ _ }

/-- The message that was read is deleted, and with it the keys that are in it. -/
def release (p : Env) : Env := { p with borrowed := [], freed := p.borrowed ++ p.freed }

end Env

/-! ## Registering types -/

/-- `_pbcP_get_message` -/
def getMessage (p : Env) (name : CStr) : Option (Option ℕ) := p.msgs.queryLive p.freed name

theorem query_of_getMessage {p : Env} {name : CStr} {r : Option ℕ} (h : getMessage p name = some r) :
    p.msgs.query name = some r :=
  MapSp.query_of_queryLive h

/-- A name that hashes like no key that has been freed is looked up as ever. -/
theorem getMessage_of_hash {p : Env} {name : CStr}
    (hfreed : ∀ k ∈ p.freed, calcHash k ≠ calcHash name) :
    getMessage p name = p.msgs.query name :=
  MapSp.queryLive_of_hash p.msgs_wf hfreed

/-- `_pbcP_push_enum`; an enum that is already there is left alone. -/
def pushEnum (p : Env) (name : CStr) (table : List (ℤ × CStr)) : Option Env := do
  match ← p.enums.query name with
  | some _ => pure p
  | none =>
      let (id, _) ← table.head?
      let ids ← MapIp.new table
      pure (p.addEnum name ⟨ids, .new table, .enum (BitVec.ofInt 32 id)⟩)

/-- A message type and a field of it whose type name is still to be resolved. -/
abbrev Queue := List (ℕ × ℕ)

/-- `_pbcP_push_message`; the name is not copied, and `mem` is where it is. -/
def pushMessage (p : Env) (name : CStr) (mem : KeyMemory) (f : Field) (queue : Queue) :
    Option (Env × Queue) := do
  let (p, i) ← match ← getMessage p name with
    | some i => pure (p, i)
    | none => pure (p.addMessage name mem .new, p.messages.length)
  let m ← p.messages[i]?
  let queue := if f.type = .message ∨ f.type = .enum then queue ++ [(i, m.fields.length)] else queue
  pure (p.setMessage i (m.addField f), queue)

/-- `_pbcP_init_message`: the table from numbers to the fields that `name` holds, in slot order. -/
def initMessage (p : Env) (name : CStr) (mem : KeyMemory) : Option Env := do
  match ← getMessage p name with
  | none => pure (p.addMessage name mem .new)
  | some i =>
      let m ← p.messages[i]?
      let table := m.name.pointers.filterMap fun j => m.fields[j]?.map fun f => (f.id, j)
      let id ← MapIp.new table
      pure (p.setMessage i { m with id := some id })

/-- `_pbcP_message_default`: the type and the default of a field. The type of a
key that no field has is minus one, and its default is two null pointers. -/
def messageDefault (m : Message) (name : CStr) : Option (Option PType × Var) := do
  match ← m.queryName name with
  | none => pure (none, .integer ⟨0, 0⟩)
  | some f => pure (some f.type, f.default_v)

/-! ## Registered types -/

/-- The environment has the message type `m` under a name. -/
def Registered (p : Env) (name : CStr) (m : Message) : Prop :=
  ∃ i, getMessage p name = some (some i) ∧ p.messages[i]? = some m

/-- A field of the message type, found by its name and by its number. -/
structure Message.Has (m : Message) (f : Field) : Prop where
  byName : m.queryName f.name = some (some f)
  byId : m.queryId f.id = some f

instance (m : Message) (f : Field) : Decidable (m.Has f) :=
  decidable_of_iff (m.queryName f.name = some (some f) ∧ m.queryId f.id = some f)
    ⟨fun h => ⟨h.1, h.2⟩, fun h => ⟨h.1, h.2⟩⟩

end Pbc
