-- SUMMARY: The message types of the .proto files that the calls of the client rely on, as conditions on an environment.
import HdClient.Pbc.Reading
import HdClient.Pbc.Wmessage

/-! # The message types of the protocol -/

namespace Pbc

/-- The type of an enum or of a sub-message has been found. -/
def Field.resolved (f : Field) : Bool :=
  match f.type, f.type_name with
  | .enum, .e (some _) => true
  | .enum, _ => false
  | .message, .m (some _) => true
  | .message, _ => false
  | _, _ => true

/-- The default of a number is a number, and that of an enum one of an enum. -/
def Field.defaultFits (f : Field) : Bool :=
  match f.type, f.default_v with
  | .enum, .enum _ => true
  | .enum, _ => false
  | .uint32, .integer _ => true
  | .uint32, _ => false
  | .int32, .integer _ => true
  | .int32, _ => false
  | .int64, .integer _ => true
  | .int64, _ => false
  | _, _ => true

/-- A field as a .proto file declares it. -/
structure Field.Is (f : Field) (name : CStr) (id : ℕ) (label : Label) (type : PType) : Prop where
  name_eq : f.name = name
  id_eq : f.id = id
  label_eq : f.label = label
  type_eq : f.type = type
  resolved : f.resolved = true
  defaultFits : f.defaultFits = true

instance (f : Field) (name : CStr) (id : ℕ) (label : Label) (type : PType) :
    Decidable (f.Is name id label type) :=
  decidable_of_iff
    (f.name = name ∧ f.id = id ∧ f.label = label ∧ f.type = type ∧ f.resolved = true ∧
      f.defaultFits = true)
    ⟨fun ⟨h1, h2, h3, h4, h5, h6⟩ => ⟨h1, h2, h3, h4, h5, h6⟩,
      fun h => ⟨h.name_eq, h.id_eq, h.label_eq, h.type_eq, h.resolved, h.defaultFits⟩⟩

/-- The message type has the field. -/
def Message.Declares (m : Message) (name : CStr) (id : ℕ) (label : Label) (type : PType) : Prop :=
  ∃ f, m.Has f ∧ f.Is name id label type

theorem Message.Declares.field {m : Message} {name : CStr} {id : ℕ} {label : Label} {type : PType}
    (h : m.Declares name id label type) :
    ∃ f, m.queryName name = some (some f) ∧ f.name = name ∧ f.id = id ∧ f.label = label ∧
      f.type = type := by
  obtain ⟨f, hhas, his⟩ := h
  exact ⟨f, his.name_eq ▸ hhas.byName, his.name_eq, his.id_eq, his.label_eq, his.type_eq⟩

/-- The field is looked up by its name. -/
def Message.declaresCheck (m : Message) (name : CStr) (id : ℕ) (label : Label) (type : PType) :
    Bool :=
  match m.queryName name with
  | some (some f) => m.queryId f.id = some f ∧ f.Is name id label type
  | _ => false

instance (m : Message) (name : CStr) (id : ℕ) (label : Label) (type : PType) :
    Decidable (m.Declares name id label type) := by
  refine decidable_of_iff (m.declaresCheck name id label type = true) ⟨fun h => ?_, ?_⟩
  · rw [Message.declaresCheck] at h
    split at h
    · rename_i f hf
      obtain ⟨hid, his⟩ := of_decide_eq_true h
      exact ⟨f, ⟨his.name_eq ▸ hf, hid⟩, his⟩
    · cases h
  · rintro ⟨f, hhas, his⟩
    have hf := hhas.byName
    rw [his.name_eq] at hf
    rw [Message.declaresCheck, hf]
    exact decide_eq_true ⟨hhas.byId, his⟩

/-- The message type has the field, for messages of a type with `P`. -/
def Message.Nests (env : Env) (m : Message) (name : CStr) (id : ℕ) (P : Message → Prop) : Prop :=
  ∃ f, m.Has f ∧ f.Is name id .optional .message ∧
    ∃ j inner, f.type_name = .m (some j) ∧ env.messages[j]? = some inner ∧ P inner

/-- The sub-message is looked up by its name. -/
private def nestsCheck (env : Env) (m : Message) (name : CStr) (id : ℕ) (P : Message → Prop)
    [DecidablePred P] : Bool :=
  match m.queryName name with
  | some (some f) => m.queryId f.id = some f ∧ f.Is name id .optional .message ∧
      (match f.type_name with
        | .m (some j) => (env.messages[j]?).any fun inner => decide (P inner)
        | _ => false) = true
  | _ => false

instance (env : Env) (m : Message) (name : CStr) (id : ℕ) (P : Message → Prop) [DecidablePred P] :
    Decidable (m.Nests env name id P) := by
  refine decidable_of_iff (nestsCheck env m name id P = true) ⟨fun h => ?_, ?_⟩
  · rw [nestsCheck] at h
    split at h
    · rename_i f hf
      obtain ⟨hid, his, hinner⟩ := of_decide_eq_true h
      refine ⟨f, ⟨his.name_eq ▸ hf, hid⟩, his, ?_⟩
      split at hinner
      · rename_i j hj
        cases hget : env.messages[j]? with
        | none => simp [hget] at hinner
        | some inner =>
            rw [hget] at hinner
            exact ⟨j, inner, hj, hget, of_decide_eq_true hinner⟩
      · cases hinner
    · cases h
  · rintro ⟨f, hhas, his, j, inner, hj, hget, hP⟩
    have hf := hhas.byName
    rw [his.name_eq] at hf
    rw [nestsCheck, hf]
    refine decide_eq_true ⟨hhas.byId, his, ?_⟩
    simp [hj, hget, hP]

/-- The message type has no fields but those with the given numbers. -/
def Message.OnlyIds (m : Message) (ids : List ℤ) : Prop :=
  ∀ i f, m.queryId i = some f → i ∈ ids

/-- The numbers that the message type can have a field for. -/
def Message.ids (m : Message) : List ℤ :=
  match m.id with
  | none => []
  | some map => map.keys

theorem Message.mem_ids {m : Message} {i : ℤ} {f : Field} (h : m.queryId i = some f) :
    i ∈ m.ids := by
  rw [Message.queryId] at h
  obtain ⟨map, hmap, hq⟩ := Option.bind_eq_some_iff.mp h
  obtain ⟨j, hj, -⟩ := Option.bind_eq_some_iff.mp hq
  rw [Message.ids, hmap]
  exact MapIp.mem_keys hj

instance (m : Message) (ids : List ℤ) : Decidable (m.OnlyIds ids) :=
  decidable_of_iff (∀ i ∈ m.ids, (m.queryId i).isSome = true → i ∈ ids)
    ⟨fun h i f hf => h i (Message.mem_ids hf) (by simp [hf]),
      fun h i _ hi => by
        obtain ⟨f, hf⟩ := Option.isSome_iff_exists.mp hi
        exact h i f hf⟩

/-! ### Types that are read -/

/-- A field as it is declared. -/
structure Declaration where
  name : CStr
  id : ℕ
  label : Label
  type : PType
  deriving DecidableEq

/-- The message type has the field of a declaration. -/
abbrev Message.DeclaresAs (m : Message) (d : Declaration) : Prop :=
  m.Declares d.name d.id d.label d.type

/-- The types whose values are numbers. -/
def PType.isNumber : PType → Bool
  | .uint32 | .int32 | .int64 | .enum => true
  | _ => false

theorem Message.Declares.byId {m : Message} {name : CStr} {id : ℕ} {label : Label} {type : PType}
    (h : m.Declares name id label type) :
    ∃ f, m.queryId id = some f ∧ m.queryName name = some (some f) ∧ f.Is name id label type := by
  obtain ⟨f, hhas, his⟩ := h
  exact ⟨f, his.id_eq ▸ hhas.byId, his.name_eq ▸ hhas.byName, his⟩

theorem Field.Is.takesNumber {f : Field} {name : CStr} {id : ℕ} {label : Label} {type : PType}
    (h : f.Is name id label type) (htype : type.isNumber = true) : f.takesNumber = true := by
  have hresolved := h.resolved
  have hft := h.type_eq
  rw [Field.resolved, hft] at hresolved
  rw [Field.takesNumber, hft]
  cases type <;> simp_all [PType.isNumber]
  split at hresolved <;> simp_all

theorem Field.Is.default_eq {f : Field} {name : CStr} {id : ℕ} {label : Label} {type : PType}
    (h : f.Is name id label type) (htype : type.isNumber = true) :
    ∃ low hi, f.default_v = f.numberVar low hi := by
  have hfits := h.defaultFits
  have hft := h.type_eq
  rw [Field.defaultFits, hft] at hfits
  simp only [Field.numberVar, hft]
  cases hd : f.default_v with
  | integer l =>
      refine ⟨l.low, l.hi, ?_⟩
      cases type <;> simp_all
  | enum id =>
      refine ⟨id, 0, ?_⟩
      cases type <;> simp_all [PType.isNumber]
  | real => cases type <;> simp_all [PType.isNumber]
  | str bytes => cases type <;> simp_all [PType.isNumber]

/-- A declared number is one that is read. -/
theorem Message.Declares.numberField {m : Message} {name : CStr} {id : ℕ} {label : Label}
    {type : PType} (h : m.Declares name id label type) (htype : type.isNumber = true)
    (hhash : calcHash name ≠ 0) : ∃ f d, m.NumberField id f d ∧ f.name = name := by
  obtain ⟨f, hf, hname, his⟩ := h.byId
  obtain ⟨d, hi, hd⟩ := his.default_eq htype
  exact ⟨f, d, ⟨hf, his.name_eq ▸ hname, his.takesNumber htype, ⟨hi, hd⟩, his.name_eq ▸ hhash⟩,
    his.name_eq⟩

/-- The name of the field that a record sets, by the declarations of a type. -/
def fileUnder (ds : List Declaration) (r : Wire.Record) : Option CStr :=
  (ds.find? fun d => d.id = r.number).map (·.name)

theorem fileUnder_eq_some {ds : List Declaration} (hnames : (ds.map (·.name)).Nodup)
    (hids : (ds.map (·.id)).Nodup) {d : Declaration} (hd : d ∈ ds) {r : Wire.Record} :
    fileUnder ds r = some d.name ↔ r.number = d.id := by
  rw [fileUnder, Option.map_eq_some_iff]
  constructor
  · rintro ⟨e, hfind, hname⟩
    obtain rfl := List.inj_on_of_nodup_map hnames (List.mem_of_find?_eq_some hfind) hd hname
    simpa [eq_comm] using List.find?_some hfind
  · intro hnumber
    cases hfind : ds.find? fun d => d.id = r.number with
    | none => exact absurd hnumber.symm (by simpa using List.find?_eq_none.mp hfind d hd)
    | some e =>
        have hid : e.id = d.id := by simpa [hnumber] using List.find?_some hfind
        obtain rfl := List.inj_on_of_nodup_map hids (List.mem_of_find?_eq_some hfind) hd hid
        exact ⟨e, rfl, rfl⟩

section Declared

variable {m : Message} {ds : List Declaration} (h : ∀ d ∈ ds, m.DeclaresAs d)
  (hids : m.OnlyIds (ds.map fun d => (d.id : ℤ)))

include h hids

/-- Every field is one of the declared ones. -/
private theorem declared_of_queryId {i : ℤ} {f : Field} (hf : m.queryId i = some f) :
    ∃ d ∈ ds, i = d.id ∧ f.Is d.name d.id d.label d.type := by
  obtain ⟨d, hd, rfl⟩ := List.mem_map.mp (hids i f hf)
  obtain ⟨g, hg, -, his⟩ := (h d hd).byId
  obtain rfl : f = g := Option.some.inj (hf.symm.trans hg)
  exact ⟨d, hd, rfl, his⟩

/-- Records are filed under the declared names. -/
theorem filing_of_declares : m.filing = fileUnder ds := by
  funext r
  rw [Message.filing, fileUnder]
  cases hfind : ds.find? fun d => d.id = r.number with
  | some d =>
      have hid : d.id = r.number := by simpa using List.find?_some hfind
      obtain ⟨f, hf, -, his⟩ := (h d (List.mem_of_find?_eq_some hfind)).byId
      rw [← hid, hf, Option.map_some, his.name_eq, Option.map_some]
  | none =>
      cases hf : m.queryId r.number with
      | none => rfl
      | some f =>
          obtain ⟨d, hd, hid, -⟩ := declared_of_queryId h hids hf
          have hne := List.find?_eq_none.mp hfind d hd
          simp only [decide_eq_true_eq] at hne
          omega

theorem small_of_declares (hsmall : ∀ d ∈ ds, d.id < 2 ^ 28) : m.Small := by
  intro i f hf
  obtain ⟨d, hd, rfl, -⟩ := declared_of_queryId h hids hf
  exact ⟨d.id, hsmall d hd, rfl⟩

/-- Declarations with different names make a type that can be read. -/
theorem simple_of_declares (hnames : (ds.map (·.name)).Nodup)
    (hlabels : ∀ d ∈ ds, d.label = .optional ∨ d.label = .required) : m.Simple where
  id_eq i f hf := by
    obtain ⟨d, -, rfl, his⟩ := declared_of_queryId h hids hf
    exact his.id_eq
  label i f hf := by
    obtain ⟨d, hd, rfl, his⟩ := declared_of_queryId h hids hf
    exact his.label_eq ▸ hlabels d hd
  name i j f g hf hg hname := by
    obtain ⟨d, hd, rfl, his⟩ := declared_of_queryId h hids hf
    obtain ⟨e, he, rfl, his'⟩ := declared_of_queryId h hids hg
    rw [his.name_eq, his'.name_eq] at hname
    rw [List.inj_on_of_nodup_map hnames hd he hname]

theorem flat_of_declares (hnames : (ds.map (·.name)).Nodup)
    (hlabels : ∀ d ∈ ds, d.label = .optional ∨ d.label = .required)
    (htypes : ∀ d ∈ ds, d.type.isNumber = true) : m.Flat where
  toSimple := simple_of_declares h hids hnames hlabels
  number i f hf := by
    obtain ⟨d, hd, rfl, his⟩ := declared_of_queryId h hids hf
    exact his.takesNumber (htypes d hd)

end Declared

/-- The message type under a name. -/
def Env.typeNamed (p : Env) (name : CStr) : Option Message :=
  match getMessage p name with
  | some (some i) => p.messages[i]?
  | _ => none

theorem registered_iff {p : Env} {name : CStr} {m : Message} :
    Registered p name m ↔ p.typeNamed name = some m := by
  constructor
  · rintro ⟨i, hget, hm⟩
    rw [Env.typeNamed, hget]
    exact hm
  · intro h
    rw [Env.typeNamed] at h
    split at h
    · rename_i i hget
      exact ⟨i, hget, h⟩
    · cases h

/-- What a check finds of the type under a name. -/
theorem exists_registered {p : Env} {name : CStr} {P : Message → Prop} [DecidablePred P]
    (h : (p.typeNamed name).any (fun m => decide (P m)) = true) :
    ∃ m, Registered p name m ∧ P m := by
  cases hm : p.typeNamed name with
  | none =>
      rw [hm] at h
      cases h
  | some m =>
      rw [hm] at h
      exact ⟨m, registered_iff.mpr hm, of_decide_eq_true h⟩

end Pbc

namespace HdClient

open Pbc

/-- `IpcConnectionContextProto` is registered. -/
structure ContextType (env : Env) : Prop where
  registered : ∃ m, Registered env (lit "hadoop.common.IpcConnectionContextProto") m ∧
    m.Declares (lit "protocol") 3 .optional .string

/-- `RpcPayloadHeaderProto` is registered. -/
structure RequestHeaderType (env : Env) : Prop where
  registered : ∃ m, Registered env (lit "hadoop.common.RpcPayloadHeaderProto") m ∧
    m.Declares (lit "rpcKind") 1 .optional .enum ∧ m.Declares (lit "rpcOp") 2 .optional .enum ∧
    m.Declares (lit "callId") 3 .required .uint32

/-- `RpcResponseHeaderProto` is registered, with three fields. -/
structure ResponseHeaderType (env : Env) : Prop where
  registered : ∃ m, Registered env (lit "hadoop.common.RpcResponseHeaderProto") m ∧
    m.Declares (lit "callId") 1 .required .uint32 ∧ m.Declares (lit "status") 2 .required .enum ∧
    m.Declares (lit "serverIpcVersionNum") 3 .optional .uint32 ∧ m.OnlyIds [1, 2, 3]

/-- The two required fields of that header have the default zero, which for the status is
the name `SUCCESS`. -/
structure ResponseHeaderDefaults (env : Env) : Prop where
  registered : ∃ m, Registered env (lit "hadoop.common.RpcResponseHeaderProto") m ∧
    (∀ f ∈ m.queryId 1, f.default_v = .integer ⟨0, 0⟩) ∧ ∀ f ∈ m.queryId 2, f.default_v = .enum 0

/-- `HadoopRpcRequestProto` and `GetNewApplicationRequestProto` are registered. -/
structure NewAppRequestType (env : Env) : Prop where
  registered : ∃ m, Registered env (lit "hadoop.common.HadoopRpcRequestProto") m ∧
    m.Declares (lit "methodName") 1 .required .string ∧
    m.Declares (lit "request") 2 .optional .bytes ∧
    m.Declares (lit "declaringClassProtocolName") 3 .required .string ∧
    m.Declares (lit "clientProtocolVersion") 4 .required .uint64
  newApp : ∃ m, Registered env (lit "GetNewApplicationRequestProto") m

/-- `HadoopRpcRequestProto` is registered. -/
structure HadoopRequestType (env : Env) : Prop where
  registered : ∃ m, Registered env (lit "hadoop.common.HadoopRpcRequestProto") m ∧
    m.Declares (lit "methodName") 1 .required .string ∧
    m.Declares (lit "request") 2 .optional .bytes ∧
    m.Declares (lit "declaringClassProtocolName") 3 .required .string ∧
    m.Declares (lit "clientProtocolVersion") 4 .required .uint64

theorem NewAppRequestType.hadoopRequestType {env : Env} (h : NewAppRequestType env) :
    HadoopRequestType env :=
  ⟨h.registered⟩

/-- `ApplicationIdProto`, whose numbers are zero unless they are set. -/
structure ApplicationIdType (m : Message) : Prop where
  id : m.Declares (lit "id") 1 .optional .int32
  id_default : ∀ f ∈ m.queryId 1, f.default_v = .integer ⟨0, 0⟩
  timestamp : m.Declares (lit "cluster_timestamp") 2 .optional .int64
  only : m.OnlyIds [1, 2]

/-- `ResourceProto` -/
structure ResourceType (m : Message) : Prop where
  memory : m.Declares (lit "memory") 1 .optional .int32
  cores : m.Declares (lit "virtual_cores") 2 .optional .int32
  only : m.OnlyIds [1, 2]

/-- `GetNewApplicationResponseProto` is registered, with three sub-messages. -/
structure NewAppResponseType (env : Env) : Prop where
  registered : ∃ m, Registered env (lit "GetNewApplicationResponseProto") m ∧
    m.Nests env (lit "application_id") 1 ApplicationIdType ∧
    m.Nests env (lit "minimumCapability") 2 ResourceType ∧
    m.Nests env (lit "maximumCapability") 3 ResourceType ∧ m.OnlyIds [1, 2, 3]

/-! ## An environment of these types -/

instance (m : Message) : Decidable (ApplicationIdType m) :=
  decidable_of_iff (m.Declares (lit "id") 1 .optional .int32 ∧
      (∀ f ∈ m.queryId 1, f.default_v = .integer ⟨0, 0⟩) ∧
      m.Declares (lit "cluster_timestamp") 2 .optional .int64 ∧ m.OnlyIds [1, 2])
    ⟨fun ⟨h1, h2, h3, h4⟩ => ⟨h1, h2, h3, h4⟩, fun h => ⟨h.id, h.id_default, h.timestamp, h.only⟩⟩

instance (m : Message) : Decidable (ResourceType m) :=
  decidable_of_iff (m.Declares (lit "memory") 1 .optional .int32 ∧
      m.Declares (lit "virtual_cores") 2 .optional .int32 ∧ m.OnlyIds [1, 2])
    ⟨fun ⟨h1, h2, h3⟩ => ⟨h1, h2, h3⟩, fun h => ⟨h.memory, h.cores, h.only⟩⟩

/-- A type with resolved fields, put in field by field. -/
def declareType (p : Env) (name : CStr) (fields : List Field) : Option Env := do
  let (p, _) ← fields.foldlM (fun (p, queue) f => pushMessage p name .pool f queue) (p, [])
  initMessage p name .pool

private def enumField (id : ℤ) (name : CStr) (label : Label) (e : ℕ) : Field :=
  ⟨id, name, .enum, label, .enum 0, .e (some e)⟩

private def messageField (id : ℤ) (name : CStr) (m : ℕ) : Field :=
  ⟨id, name, .message, .optional, .integer ⟨0, 0⟩, .m (some m)⟩

private def numberField (id : ℤ) (name : CStr) (label : Label) (type : PType) : Field :=
  ⟨id, name, type, label, .integer ⟨0, 0⟩, .n []⟩

private def textField (id : ℤ) (name : CStr) (label : Label) (type : PType) : Field :=
  ⟨id, name, type, label, .str [], .n []⟩

/-- The enums and message types of the protocol, as their .proto files declare them. -/
def protocolTypes : Option Env := do
  let p ← pushEnum .empty (lit "hadoop.common.RpcKindProto")
    [(0, lit "RPC_BUILTIN"), (1, lit "RPC_WRITABLE"), (2, lit "RPC_PROTOCOL_BUFFER")]
  let p ← pushEnum p (lit "hadoop.common.RpcPayloadOperationProto")
    [(0, lit "RPC_FINAL_PAYLOAD"), (1, lit "RPC_CONTINUATION_PAYLOAD"),
      (2, lit "RPC_CLOSE_CONNECTION")]
  let p ← pushEnum p (lit "hadoop.common.RpcStatusProto")
    [(0, lit "SUCCESS"), (1, lit "ERROR"), (2, lit "FATAL")]
  let p ← declareType p (lit "hadoop.common.UserInformationProto")
    [textField 1 (lit "effectiveUser") .optional .string,
      textField 2 (lit "realUser") .optional .string]
  let p ← declareType p (lit "hadoop.common.IpcConnectionContextProto")
    [messageField 2 (lit "userInfo") 0, textField 3 (lit "protocol") .optional .string]
  let p ← declareType p (lit "hadoop.common.RpcPayloadHeaderProto")
    [enumField 1 (lit "rpcKind") .optional 0, enumField 2 (lit "rpcOp") .optional 1,
      numberField 3 (lit "callId") .required .uint32]
  let p ← declareType p (lit "hadoop.common.RpcResponseHeaderProto")
    [numberField 1 (lit "callId") .required .uint32, enumField 2 (lit "status") .required 2,
      numberField 3 (lit "serverIpcVersionNum") .optional .uint32]
  let p ← declareType p (lit "hadoop.common.HadoopRpcRequestProto")
    [textField 1 (lit "methodName") .required .string, textField 2 (lit "request") .optional .bytes,
      textField 3 (lit "declaringClassProtocolName") .required .string,
      numberField 4 (lit "clientProtocolVersion") .required .uint64]
  let p ← declareType p (lit "ApplicationIdProto")
    [numberField 1 (lit "id") .optional .int32,
      numberField 2 (lit "cluster_timestamp") .optional .int64]
  let p ← declareType p (lit "ResourceProto")
    [numberField 1 (lit "memory") .optional .int32,
      numberField 2 (lit "virtual_cores") .optional .int32]
  let p ← declareType p (lit "GetNewApplicationRequestProto") []
  declareType p (lit "GetNewApplicationResponseProto")
    [messageField 1 (lit "application_id") 5, messageField 2 (lit "minimumCapability") 6,
      messageField 3 (lit "maximumCapability") 6]

def protocolEnv : Env := protocolTypes.getD .empty

theorem protocolEnv_contextType : ContextType protocolEnv :=
  ⟨exists_registered (by decide +kernel)⟩

theorem protocolEnv_requestHeaderType : RequestHeaderType protocolEnv :=
  ⟨exists_registered (by decide +kernel)⟩

theorem protocolEnv_responseHeaderType : ResponseHeaderType protocolEnv :=
  ⟨exists_registered (by decide +kernel)⟩

theorem protocolEnv_responseHeaderDefaults : ResponseHeaderDefaults protocolEnv :=
  ⟨exists_registered (by decide +kernel)⟩

theorem protocolEnv_newAppResponseType : NewAppResponseType protocolEnv :=
  ⟨exists_registered (by decide +kernel)⟩

theorem protocolEnv_newAppRequestType : NewAppRequestType protocolEnv := by
  have hnew : ∃ m, Registered protocolEnv (lit "GetNewApplicationRequestProto") m ∧ True :=
    exists_registered (by decide +kernel)
  obtain ⟨m, hm, -⟩ := hnew
  exact ⟨exists_registered (by decide +kernel), m, hm⟩

end HdClient
