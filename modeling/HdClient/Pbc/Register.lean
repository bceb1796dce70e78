-- SUMMARY: Registering the descriptor files of a serialized set, in passes over those whose dependencies are there.
import Mathlib.Algebra.Ring.Int.Defs
import HdClient.Pbc.Rmessage

/-! # Registering descriptors

`register.c` reads a set of files that describe message types, and registers
those of them whose dependencies are registered, again and again until none is
left. A name is a string with its size, which may hold zeros; where it is a key,
it ends at the first of them. -/

namespace Pbc

/-- What is used without a look at whether it is null. -/
def Res.deref {α : Type} : Res α → Option α
  | .ok a => some a
  | _ => none

/-- `_concat_name` -/
def concatName (scope name : List UInt8) : List UInt8 :=
  if scope = [] then name else scope ++ 46 :: name

/-- `_register_enum` -/
def registerEnum (p : Env) (enum_type : RMessage) (scope : List UInt8) : Option Env := do
  let field_count ← rmessageSize enum_type (lit "value")
  let table ← (List.range field_count).mapM fun i => do
    let value ← (rmessageMessage p enum_type (lit "value") i).deref
    let enum_name ← rmessageString p value (lit "name") 0
    let number ← rmessageInteger p value (lit "number") 0
    pure (number.toInt, cstr enum_name)
  let name ← rmessageString p enum_type (lit "name") 0
  pushEnum p (cstr (concatName scope name)) table

/-! ## Fields -/

def isSpace (b : UInt8) : Bool := b = 32 ∨ 9 ≤ b.toNat ∧ b.toNat ≤ 13

/-- The sign and the digits that `strtol` and its siblings read in base ten. -/
def signedDigits (s : CStr) : Bool × ℤ :=
  let s := s.dropWhile isSpace
  let (negative, s) := match s with
    | 45 :: s => (true, s)
    | 43 :: s => (false, s)
    | s => (false, s)
  let digits := s.takeWhile fun b => decide (48 ≤ b.toNat ∧ b.toNat ≤ 57)
  (negative, digits.foldl (fun (n : ℤ) b => n * 10 + (b.toNat - 48)) 0)

def longMin : ℤ := -2 ^ 63
def longMax : ℤ := 2 ^ 63 - 1

/-- `strtol` and `strtoll` -/
def strtol (s : CStr) : ℤ :=
  let (negative, n) := signedDigits s
  Max.max longMin (Min.min longMax (if negative then -n else n))

/-- `strtoul`, modulo its range; out of it is the largest number, whatever the sign. -/
def strtoul (s : CStr) : ℤ :=
  let (negative, n) := signedDigits s
  if 2 ^ 64 ≤ n then 2 ^ 64 - 1 else if negative then -n else n

/-- `_set_default`, for the bytes of a value that may be missing. -/
def setDefault (type : PType) (value : List UInt8) : Var :=
  if value = [] then
    match type with
    | .string | .bytes => .str []
    | _ => .integer ⟨0, 0⟩
  else match type with
    | .double | .float => .real
    | .string | .enum => .str value
    | .bool => .integer ⟨if cstr value = lit "true" then 1 else 0, 0⟩
    | .uint64 | .int64 | .sfixed64 | .sint64 =>
        let v := strtol (cstr value)
        .integer ⟨BitVec.ofInt 32 v, BitVec.ofInt 32 (v / 2 ^ 32)⟩
    -- the low word has no sign, so the high word is always zero
    | .int32 | .fixed32 | .sfixed32 | .sint32 =>
        .integer ⟨BitVec.ofInt 32 (strtol (cstr value)), 0⟩
    | .uint32 =>
        let v := strtoul (cstr value)
        .integer ⟨BitVec.ofInt 32 v, 0⟩
    | _ => .integer ⟨0, 0⟩

/-- `_register_field`, for a field under the name `name`. -/
def registerField (p : Env) (field : RMessage) (name : CStr) : Option Field := do
  let id ← rmessageInteger p field (lit "number") 0
  let type ← rmessageInteger p field (lit "type") 0
  let label ← rmessageInteger p field (lit "label") 0
  let options ← rmessageSize field (lit "options")
  let packed ← if 0 < options then do
      let options ← (rmessageMessage p field (lit "options") 0).deref
      let packed ← rmessageInteger p options (lit "packed") 0
      pure (decide (packed ≠ 0))
    else pure false
  let type := PType.ofInt type.toInt
  let type_name ← rmessageString p field (lit "type_name") 0
  -- of an empty name, what is behind its zero is used, where the type is
  if cstr type_name = [] ∧ (type = .message ∨ type = .enum) then none
  else do
    let default_value ← rmessageString p field (lit "default_value") 0
    pure ⟨id.toInt, name, type, if packed then .packed else Label.ofInt (label.toInt - 1),
      setDefault type default_value, .n ((cstr type_name).drop 1)⟩

/-- The loop of `_register_extension`, and the type that is extended last. The name
of a type that is extended before it is registered stays in the message. -/
def registerExtensions (msg : RMessage) (scope : List UInt8) :
    List ℕ → Option CStr → Env → Queue → Option (Env × Queue)
  | [], none, p, queue => some (p, queue)
  | [], some last, p, queue => do
      let p ← initMessage p (last.drop 1) .message
      pure (p, queue)
  | i :: is, last, p, queue => do
      let extension ← (rmessageMessage p msg (lit "extension") i).deref
      let field_name ← rmessageString p extension (lit "name") 0
      let f ← registerField p extension (cstr (concatName scope field_name))
      let extendee ← rmessageString p extension (lit "extendee") 0
      if cstr extendee = [] then none
      else do
        let (p, queue) ← pushMessage p ((cstr extendee).drop 1) .message f queue
        match last with
        | none => registerExtensions msg scope is (some (cstr extendee)) p queue
        | some last =>
            if cstr extendee ≠ last then do
              let p ← initMessage p (last.drop 1) .message
              registerExtensions msg scope is (some (cstr extendee)) p queue
            else registerExtensions msg scope is (some last) p queue

/-- `_register_extension` -/
def registerExtension (p : Env) (msg : RMessage) (scope : List UInt8) (queue : Queue) :
    Option (Env × Queue) := do
  let extension_count ← rmessageSize msg (lit "extension")
  registerExtensions msg scope (List.range extension_count) none p queue

/-! ## Messages -/

/-- The loop of `_register_message` over the fields of a type. -/
def registerFields (message_type : RMessage) (name : CStr) :
    List ℕ → Env → Queue → Option (Env × Queue)
  | [], p, queue => some (p, queue)
  | i :: is, p, queue => do
      let field ← (rmessageMessage p message_type (lit "field") i).deref
      let field_name ← rmessageString p field (lit "name") 0
      let f ← registerField p field (cstr field_name)
      let (p, queue) ← pushMessage p name .pool f queue
      registerFields message_type name is p queue

/-- The loop over the enums of a file or of a message type. -/
def registerEnums (msg : RMessage) (scope : List UInt8) : List ℕ → Env → Option Env
  | [], p => some p
  | i :: is, p => do
      let enum_type ← (rmessageMessage p msg (lit "enum_type") i).deref
      let p ← registerEnum p enum_type scope
      registerEnums msg scope is p

/-- The loop over the message types of a file or of a message type. -/
def registerTypes (register : Env → RMessage → Queue → Option (Env × Queue)) (msg : RMessage)
    (key : CStr) : List ℕ → Env → Queue → Option (Env × Queue)
  | [], p, queue => some (p, queue)
  | i :: is, p, queue => do
      let message_type ← (rmessageMessage p msg key i).deref
      let (p, queue) ← register p message_type queue
      registerTypes register msg key is p queue

/-- `_register_message`; types are not nested deeper than the bytes of a set. -/
def registerMessage : ℕ → List UInt8 → Env → RMessage → Queue → Option (Env × Queue)
  | 0, _, _, _, _ => none
  | fuel + 1, scope, p, message_type, queue => do
      let name ← rmessageString p message_type (lit "name") 0
      let temp := concatName scope name
      let field_count ← rmessageSize message_type (lit "field")
      let (p, queue) ← registerFields message_type (cstr temp) (List.range field_count) p queue
      let p ← initMessage p (cstr temp) .pool
      let (p, queue) ← registerExtension p message_type temp queue
      let enum_count ← rmessageSize message_type (lit "enum_type")
      let p ← registerEnums message_type temp (List.range enum_count) p
      let message_count ← rmessageSize message_type (lit "nested_type")
      registerTypes (registerMessage fuel temp) message_type (lit "nested_type")
        (List.range message_count) p queue

/-- `set_field_one`; an enum that is not there, or a default that is none of its
names, gives a field that no one should look at. -/
def setFieldOne (p : Env) (f : Field) : Option Field :=
  match f.type_name with
  | .n type_name =>
      if f.type = .message then do
        let m ← getMessage p type_name
        pure { f with type_name := .m m }
      else if f.type = .enum then do
        let e ← p.enums.query type_name
        let enum ← p.enumObjs[← e]?
        match f.default_v with
        | .str str =>
            if cstr str = [] then pure { f with type_name := .e e, default_v := enum.default_v }
            else do
              let id ← enum.name.query (cstr str)
              pure { f with type_name := .e e, default_v := .enum (BitVec.ofInt 32 (← id)) }
        | _ => pure { f with type_name := .e e, default_v := enum.default_v }
      else pure f
  | _ => none

/-- `_pbcB_register_fields` -/
def resolveFields : Queue → Env → Option Env
  | [], p => some p
  | (i, j) :: queue, p => do
      let m ← p.messages[i]?
      let f ← m.fields[j]?
      let f ← setFieldOne p f
      resolveFields queue (p.setMessage i (m.setField j f))

/-- `_register`; `depth` bounds the nesting of the types. -/
def registerFile (depth : ℕ) (p : Env) (file : RMessage) : Option Env := do
  let package ← rmessageString p file (lit "package") 0
  let enum_count ← rmessageSize file (lit "enum_type")
  let p ← registerEnums file package (List.range enum_count) p
  let message_count ← rmessageSize file (lit "message_type")
  let (p, queue) ← registerTypes (registerMessage depth package) file (lit "message_type")
    (List.range message_count) p []
  let (p, queue) ← registerExtension p file package queue
  resolveFields queue p

/-! ## Files -/

/-- What `_check_file_name` finds. -/
inductive CheckFile where
  | ok | exist | dependency
  deriving DecidableEq, Repr

/-- Whether all dependencies are registered; the first one that is not ends the loop. -/
def checkDependencies (p : Env) (file : RMessage) : List ℕ → Option Bool
  | [] => some true
  | i :: is => do
      let dname ← rmessageString p file (lit "dependency") i
      match ← p.files.query (cstr dname) with
      | none => pure false
      | some _ => checkDependencies p file is

/-- `_check_file_name` -/
def checkFileName (p : Env) (file : RMessage) : Option (CheckFile × CStr) := do
  let filename ← rmessageString p file (lit "name") 0
  match ← p.files.query (cstr filename) with
  | some _ => pure (.exist, cstr filename)
  | none => do
      let sz ← rmessageSize file (lit "dependency")
      if ← checkDependencies p file (List.range sz) then pure (.ok, cstr filename)
      else pure (.dependency, cstr filename)

/-- `_register_no_dependency`: one pass over the files that are left, and the
number of those whose dependencies are missing. -/
def registerNoDependency (depth : ℕ) :
    List (Option RMessage) → Env → Option (ℕ × List (Option RMessage) × Env)
  | [], p => some (0, [], p)
  | none :: files, p => do
      let (r, files, p) ← registerNoDependency depth files p
      pure (r, none :: files, p)
  | some file :: files, p => do
      let (err, filename) ← checkFileName p file
      match err with
      | .exist => do
          let (r, files, p) ← registerNoDependency depth files p
          pure (r, some file :: files, p)
      | .dependency => do
          let (r, files, p) ← registerNoDependency depth files p
          pure (r + 1, some file :: files, p)
      | .ok => do
          let p ← registerFile depth (p.addFile filename (some ())) file
          let (r, files, p) ← registerNoDependency depth files p
          pure (r, none :: files, p)

/-- Why `pbc_register` failed, as `pbc_error` reports it. -/
inductive RegisterError where
  | openSet | empty | openFile | dependency
  deriving DecidableEq, Repr

def RegisterError.text : RegisterError → String
  | .openSet => "register open google.protobuf.FileDescriptorSet fail"
  | .empty => "register empty"
  | .openFile => "register open fail"
  | .dependency => "register dependency error"

/-- The loop of `pbc_register`. A pass after which as many files wait for their
dependencies as before is the last one, so no more passes are made than there
are files. -/
def registerPasses (depth : ℕ) :
    ℕ → List (Option RMessage) → ℕ → Env → Option (Except RegisterError Unit × Env)
  | 0, _, _, _ => none
  | fuel + 1, files, r, p => do
      let (rr, files, p) ← registerNoDependency depth files p
      if rr = r then pure (.error .dependency, p)
      else if 0 < rr then registerPasses depth fuel files rr p
      else pure (.ok (), p)

/-- The files of a set; none where one of them is null. -/
def openFiles (p : Env) (message : RMessage) : List ℕ → Option (Option (List RMessage))
  | [] => some (some [])
  | i :: is => match rmessageMessage p message (lit "file") i with
      | .undefined => none
      | .null => some none
      | .ok file => do
          let files ← openFiles p message is
          pure (files.map (file :: ·))

/-- `pbc_register`: whether it failed, and what it left. The message that it reads
is deleted at its end, and with it the keys that were not copied. -/
def pbcRegister (p : Env) (slice : List UInt8) : Option (Except RegisterError Unit × Env) := do
  match ← rmessageNew p (lit "google.protobuf.FileDescriptorSet") slice with
  | .error _ => pure (.error .openSet, p)
  | .ok message => do
      let n ← rmessageSize message (lit "file")
      if n = 0 then pure (.error .empty, p.release)
      else match ← openFiles p message (List.range n) with
        | none => pure (.error .openFile, p.release)
        | some files => do
            let (r, p) ← registerPasses slice.length (n + 1) (files.map some) n p
            pure (r, p.release)

end Pbc
