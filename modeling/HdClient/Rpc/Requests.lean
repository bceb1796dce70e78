-- SUMMARY: What generate_hadoop_request makes of a request, for every length of it and whatever lies behind it.
import HdClient.Client.ClientRmProtocol
import HdClient.Rpc.Outbound

/-! # Generated requests

The buffer of a request doubles until an `int` cannot hold its capacity. The
argument is copied by its length, but a length of zero asks for its string
length. -/

namespace HdClient

open Pbc Conn

variable {env : Env} {l : Locals} {s : Conn} {method protocol : CString}

/-- The buffer can hold the strings of a request, and room for its version. -/
def RequestFits (method request protocol : List UInt8) : Prop :=
  (Wire.encode ((hadoopRequest method request protocol).take 3)).length + 20 ≤ 2 ^ 30

theorem lend_length {r : Wire.Record} {body : List UInt8} (hr : r.payload = .lend body)
    (hbody : body.length < 2 ^ 31) : r.encode.length ≤ 10 + body.length := by
  have htag : (Varint.encode r.tag).length ≤ 5 :=
    Varint.encode_length_le (Nat.lt_trans r.tag_lt (by decide))
  have hlen := vint_length hbody
  rw [Wire.Record.encode, hr, Wire.Payload.encode, List.length_append, List.length_append]
  omega

theorem requestFits_iff {method request protocol : List UInt8} :
    RequestFits method request protocol ↔
      (Wire.Record.encode ⟨1, .lend method, by decide, by decide⟩).length +
        (Wire.Record.encode ⟨2, .lend request, by decide, by decide⟩).length +
        (Wire.Record.encode ⟨3, .lend protocol, by decide, by decide⟩).length + 20 ≤ 2 ^ 30 := by
  simp only [RequestFits, hadoopRequest, List.take_succ_cons, List.take_zero, Wire.encode_cons,
    Wire.encode_nil, List.length_append, List.length_nil, Nat.add_zero, Nat.add_assoc]

/-- Short strings fit. -/
theorem requestFits_of_le {method request protocol : List UInt8} (hmethod : method.length ≤ 1024)
    (hrequest : request.length ≤ 1024) (hprotocol : protocol.length ≤ 1024) :
    RequestFits method request protocol := by
  have h₁ := lend_length (r := ⟨1, .lend method, by decide, by decide⟩) rfl (by omega)
  have h₂ := lend_length (r := ⟨2, .lend request, by decide, by decide⟩) rfl (by omega)
  have h₃ := lend_length (r := ⟨3, .lend protocol, by decide, by decide⟩) rfl (by omega)
  rw [requestFits_iff]
  omega

/-! ## What fits is generated -/

/-- A string is appended to a buffer that can grow as one record. -/
theorem appendString (env : Env) (bytes : List UInt8) (cap : ℕ) {m : Message} {name : CStr}
    {r : Wire.Record} {label : Label} {type : PType} {v body : List UInt8} {len : ℤ}
    (h : m.Declares name r.number label type) (hlabel : label ≠ .packed)
    (htype : type = .string ∨ type = .bytes) (hr : r.payload = .lend body)
    (hlen : stringLength v len = some (BitVec.ofNat 32 body.length)) (hv : body <+: v)
    (hcap : Wmessage.CapOk ⟨m, bytes, cap, none⟩) (hroom : bytes.length + 20 ≤ 2 ^ 30)
    (hfit : bytes.length + r.encode.length ≤ 2 ^ 30) :
    ∃ cap', wmessageString env ⟨m, bytes, cap, none⟩ name v len =
        some (0, ⟨m, bytes ++ r.encode, cap', none⟩) ∧
      Wmessage.CapOk ⟨m, bytes ++ r.encode, cap', none⟩ := by
  obtain ⟨f, hf, rfl, hid, rfl, rfl⟩ := h.field
  obtain ⟨cap', heq, hok, -⟩ := wmessageString_eq env (m := ⟨m, bytes, cap, none⟩) hf hlabel htype hid
    hr
    hlen hv hcap hroom hfit
  exact ⟨cap', heq, hok⟩

theorem stringLength_mem (p : CString) :
    stringLength p.mem 0 = some (BitVec.ofNat 32 p.bytes.length) := by
  rw [stringLength_zero (by simp [CString.mem]), p.cstr_mem]

/-- A request whose strings fit, around as much of the memory as the length stands for. -/
theorem generateHadoopRequest_run (h : HadoopRequestType env) (protocol method : CString)
    {mem request : List UInt8} {len : BitVec 32}
    (hlen : stringLength mem len.toInt = some (BitVec.ofNat 32 request.length))
    (hmem : request <+: mem) (hfits : RequestFits method.bytes request protocol.bytes) (s : Conn) :
    (generateHadoopRequest env mem len protocol method).run s =
      .ret (some (Wire.encode (hadoopRequest method.bytes request protocol.bytes))) s := by
  obtain ⟨m, hreg, hname, hbytes, hdecl, hversion⟩ := h.registered
  rw [requestFits_iff] at hfits
  obtain ⟨cap₁, heq₁, hok₁⟩ := appendString env [] wmessageSize
    (r := ⟨1, .lend method.bytes, by decide, by decide⟩) hname (by decide) (.inl rfl) rfl
    (stringLength_mem method) (List.prefix_append _ _) ⟨6, by decide, by decide, rfl⟩ (by simp)
    (by rw [List.length_nil]; omega)
  obtain ⟨cap₂, heq₂, hok₂⟩ := appendString env _ _
    (r := ⟨2, .lend request, by decide, by decide⟩) hbytes (by decide) (.inr rfl) rfl
    hlen hmem hok₁ (by rw [List.nil_append]; omega) (by rw [List.nil_append]; omega)
  obtain ⟨cap₃, heq₃, hok₃⟩ := appendString env _ _
    (r := ⟨3, .lend protocol.bytes, by decide, by decide⟩) hdecl (by decide) (.inl rfl) rfl
    (stringLength_mem protocol) (List.prefix_append _ _) hok₂
    (by rw [List.nil_append, List.length_append]; omega)
    (by rw [List.nil_append, List.length_append]; omega)
  obtain ⟨f, hf, hfname, hid, hlabel, htype⟩ := hversion.field
  obtain ⟨cap₄, heq₄⟩ := wmessageInteger64_eq 1 0 (m := ⟨m, _, cap₃, none⟩)
    (r := ⟨4, .varint 1, by decide, by decide⟩) (hfname ▸ hf) (by rw [hlabel]; decide) htype hid rfl
    hok₃ (by simp only [List.nil_append, List.length_append]; omega)
  rw [hfname] at heq₄
  simp only [generateHadoopRequest, wmessageNew_eq hreg, Prog.run_bind, Prog.ofOption_some,
    Prog.run_pure, Outcome.andThen_ret, heq₁, heq₂, heq₃, heq₄, Wmessage.new, Wmessage.buffer_mk]
  simp only [hadoopRequest, Wire.encode_cons, Wire.encode_nil, List.nil_append, List.append_nil,
    List.append_assoc]

/-! ## What is generated fits -/

/-- A string that was appended to a buffer. -/
private theorem appendedString {bytes : List UInt8} {cap : ℕ} {m : Message} {name : CStr}
    {number : ℕ} {label : Label} {type : PType} {v : List UInt8} {len : ℤ} {a : ℤ × Wmessage}
    (hpos : 0 < number) (hnumber : number < 2 ^ 29) (h : m.Declares name number label type)
    (hlabel : label ≠ .packed) (htype : type = .string ∨ type = .bytes)
    (hcap : Wmessage.CapOk ⟨m, bytes, cap, none⟩)
    (hrun : wmessageString env ⟨m, bytes, cap, none⟩ name v len = some a) :
    ∃ w cap', stringLength v len = some w ∧ w.toNat ≤ v.length ∧
      a.2 = ⟨m, bytes ++ Wire.Record.encode ⟨number, .lend (v.take w.toNat), hpos, hnumber⟩, cap',
        none⟩ ∧
      Wmessage.CapOk a.2 := by
  obtain ⟨f, hf, rfl, hid, rfl, rfl⟩ := h.field
  obtain ⟨w, cap', hlen, hle, rfl, hok, -⟩ := wmessageString_some env (m := ⟨m, bytes, cap, none⟩) hpos
    hnumber hf hlabel htype hid hcap hrun
  exact ⟨w, cap', hlen, hle, rfl, hok⟩

/-- The step of a program that is an optional value has returned it. -/
private theorem ofOption_bind_eq_ret {α β : Type} {o : Option α} {f : α → Prog Conn β} {b : β}
    {s t : Conn} (h : ((Prog.ofOption o) >>= f).run s = .ret b t) :
    ∃ a, o = some a ∧ (f a).run s = .ret b t := by
  cases o with
  | none => cases h
  | some a => exact ⟨a, rfl, h⟩

/-- A request that was generated is made of three strings that fit: of the method
and the protocol as much as 32 bits of their lengths say, and of the memory as
much as the length stands for. -/
theorem generateHadoopRequest_some (h : HadoopRequestType env) {mem bytes : List UInt8}
    {len : BitVec 32} {t : Conn}
    (hrun : (generateHadoopRequest env mem len protocol method).run s = .ret (some bytes) t) :
    ∃ w₁ w₂ w₃ : BitVec 32, stringLength mem len.toInt = some w₂ ∧ w₂.toNat ≤ mem.length ∧
      bytes = Wire.encode (hadoopRequest (method.mem.take w₁.toNat) (mem.take w₂.toNat)
        (protocol.mem.take w₃.toNat)) ∧
      RequestFits (method.mem.take w₁.toNat) (mem.take w₂.toNat) (protocol.mem.take w₃.toNat) := by
  obtain ⟨m, hreg, hname, hbytes, hdecl, hversion⟩ := h.registered
  unfold generateHadoopRequest at hrun
  rw [wmessageNew_eq hreg] at hrun
  simp only [Prog.run_bind, Prog.ofOption_some, Prog.run_pure, Outcome.andThen_ret] at hrun
  simp only [← Prog.run_bind] at hrun
  obtain ⟨a₁, heq₁, hrun⟩ := ofOption_bind_eq_ret hrun
  obtain ⟨w₁, cap₁, -, -, ha₁, hok₁⟩ := appendedString (by decide) (by decide) hname (by decide)
    (.inl rfl) ⟨6, by decide, by decide, rfl⟩ heq₁
  obtain ⟨a₂, heq₂, hrun⟩ := ofOption_bind_eq_ret hrun
  rw [ha₁] at heq₂ hok₁
  obtain ⟨w₂, cap₂, hlen, hle, ha₂, hok₂⟩ := appendedString (by decide) (by decide) hbytes
    (by decide) (.inr rfl) hok₁ heq₂
  obtain ⟨a₃, heq₃, hrun⟩ := ofOption_bind_eq_ret hrun
  rw [ha₂] at heq₃ hok₂
  obtain ⟨w₃, cap₃, -, -, ha₃, hok₃⟩ := appendedString (by decide) (by decide) hdecl (by decide)
    (.inl rfl) hok₂ heq₃
  obtain ⟨a₄, heq₄, hrun⟩ := ofOption_bind_eq_ret hrun
  rw [ha₃] at heq₄ hok₃
  obtain ⟨f, hf, hfname, hid, hlabel, htype⟩ := hversion.field
  rw [← hfname] at hf heq₄
  have hroom := wmessageInteger_room (m := ⟨m, _, cap₃, none⟩) hf (by rw [hlabel]; decide) hok₃ heq₄
  obtain ⟨cap₄, hversion'⟩ := wmessageInteger64_eq 1 0 (m := ⟨m, _, cap₃, none⟩)
    (r := ⟨4, .varint 1, by decide, by decide⟩) hf (by rw [hlabel]; decide) htype hid rfl hok₃ hroom
  rw [hversion', Option.some.injEq] at heq₄
  subst heq₄
  cases hrun
  refine ⟨w₁, w₂, w₃, hlen, hle, ?_, ?_⟩
  · simp only [hadoopRequest, Wire.encode_cons, Wire.encode_nil, List.nil_append,
      List.append_nil, List.append_assoc]
  · rw [requestFits_iff]
    simpa only [List.nil_append, List.length_append] using hroom

/-! ## The round trip -/

/-- The bytes are a message with the four fields of a request, each set once. -/
def DecodesRequest (method request protocol bytes : List UInt8) : Prop :=
  ∃ rs, Wire.Message rs bytes ∧ Wire.SetsOnce rs 1 (.lend method) ∧
    Wire.SetsOnce rs 2 (.lend request) ∧ Wire.SetsOnce rs 3 (.lend protocol) ∧
    Wire.SetsOnce rs 4 (.varint 1)

theorem decodesRequest_iff {method request protocol method' request' protocol' : List UInt8} :
    DecodesRequest method request protocol
        (Wire.encode (hadoopRequest method' request' protocol')) ↔
      method' = method ∧ request' = request ∧ protocol' = protocol := by
  constructor
  · rintro ⟨rs, hmsg, hmethod, hrequest, hprotocol, -⟩
    obtain rfl := Wire.message_functional hmsg (Wire.message_encode _)
    have heq : ∀ {p q : List UInt8}, [Wire.Payload.lend p] = [.lend q] → p = q := by simp
    exact ⟨heq hmethod, heq hrequest, heq hprotocol⟩
  · rintro ⟨rfl, rfl, rfl⟩
    exact ⟨_, Wire.message_encode _, rfl, rfl, rfl, rfl⟩

/-- A request is generated, and it decodes to what it was generated from, with
`beyond` in the memory behind it. -/
def RequestRoundTrips (env : Env) (s : Conn) (request beyond : List UInt8)
    (protocol method : CString) : Prop :=
  ∃ bytes,
    (generateHadoopRequest env (request ++ beyond) (sliceLen request) protocol method).run s =
      .ret (some bytes) s ∧
    DecodesRequest method.bytes request protocol.bytes bytes

/-- The same for the empty request for a new application. -/
def NewAppRoundTrips (env : Env) (l : Locals) (s : Conn) : Prop :=
  ∃ bytes, (generateNewAppRequest env l).run s = .ret (some bytes) s ∧
    DecodesRequest getNewApplicationMethodName.bytes [] clientRmProtocolName.bytes bytes

/-- The memory starts with a string that is empty, or whose length is a multiple
of two to the power of 32, of which an `int` keeps nothing. -/
def StartsWithZero (mem : List UInt8) : Prop := 0 ∈ mem ∧ 2 ^ 32 ∣ (cstr mem).length

theorem startsWithZero_iff {mem : List UInt8} (hlen : mem.length < 2 ^ 32) :
    StartsWithZero mem ↔ mem.head? = some 0 := by
  constructor
  · rintro ⟨hzero, hdvd⟩
    have hle : (cstr mem).length ≤ mem.length := (List.takeWhile_prefix _).length_le
    have hnil := List.length_eq_zero_iff.mp
      (Nat.eq_zero_of_dvd_of_lt hdvd (Nat.lt_of_le_of_lt hle hlen))
    cases mem with
    | nil => simp at hzero
    | cons b mem =>
        rw [cstr, List.takeWhile_cons] at hnil
        split at hnil
        · cases hnil
        · rename_i hb
          simpa using hb
  · intro hhead
    obtain ⟨rest, rfl⟩ := List.head?_eq_some_iff.mp hhead
    exact ⟨List.mem_cons_self, by simp [cstr]⟩

theorem stringLength_request {request : List UInt8} (hlen : request.length < 2 ^ 31)
    (hne : request ≠ []) (mem : List UInt8) :
    stringLength mem (sliceLen request).toInt = some (BitVec.ofNat 32 request.length) := by
  have hpos := List.length_pos_of_ne_nil hne
  rw [sliceLen_toInt hlen, stringLength_of_pos (by omega)]
  rfl

/-- The length zero stands for zero bytes of the memory exactly where it starts with a zero. -/
theorem stringLength_zero_iff {mem : List UInt8} :
    stringLength mem 0 = some 0 ↔ StartsWithZero mem := by
  constructor
  · intro h
    have hzero : 0 ∈ mem := by
      by_contra hnone
      rw [stringLength, if_pos (by decide), if_neg hnone] at h
      cases h
    rw [stringLength_zero hzero, Option.some.injEq, ← BitVec.toNat_inj, BitVec.toNat_ofNat] at h
    exact ⟨hzero, Nat.dvd_of_mod_eq_zero h⟩
  · rintro ⟨hzero, hdvd⟩
    rw [stringLength_zero hzero, Option.some.injEq, ← BitVec.toNat_inj, BitVec.toNat_ofNat]
    exact Nat.mod_eq_zero_of_dvd hdvd

theorem requestRoundTrips_of_fits (h : HadoopRequestType env) {request beyond : List UInt8}
    (hlen : request.length < 2 ^ 31) (hzero : request = [] → StartsWithZero beyond)
    (hfits : RequestFits method.bytes request protocol.bytes) :
    RequestRoundTrips env s request beyond protocol method := by
  have hlength : stringLength (request ++ beyond) (sliceLen request).toInt =
      some (BitVec.ofNat 32 request.length) := by
    by_cases hnil : request = []
    · subst hnil
      exact stringLength_zero_iff.mpr (hzero rfl)
    · exact stringLength_request hlen hnil _
  exact ⟨_, generateHadoopRequest_run h protocol method hlength (List.prefix_append _ _) hfits s,
    decodesRequest_iff.mpr ⟨rfl, rfl, rfl⟩⟩

theorem RequestRoundTrips.fits (h : HadoopRequestType env) {request beyond : List UInt8}
    (hround : RequestRoundTrips env s request beyond protocol method) :
    RequestFits method.bytes request protocol.bytes ∧ (request = [] → StartsWithZero beyond) := by
  obtain ⟨bytes, hrun, hdecodes⟩ := hround
  obtain ⟨w₁, w₂, w₃, hlength, hle, rfl, hfits⟩ := generateHadoopRequest_some h hrun
  obtain ⟨hmethod, hrequest, hprotocol⟩ := decodesRequest_iff.mp hdecodes
  rw [hmethod, hrequest, hprotocol] at hfits
  refine ⟨hfits, ?_⟩
  rintro rfl
  have hw₂ : w₂ = 0 := by
    rw [← BitVec.toNat_inj, ← List.length_take_of_le hle, hrequest]
    rfl
  exact stringLength_zero_iff.mp (hw₂ ▸ hlength)

/-- Nothing but the empty request is passed on for a new application. -/
theorem newAppRoundTrips_iff {m : Message}
    (hm : Registered env (lit "GetNewApplicationRequestProto") m) :
    NewAppRoundTrips env l s ↔ RequestRoundTrips env s [] l.request_mem clientRmProtocolName
      getNewApplicationMethodName := by
  have hrun : ∀ bytes, (generateNewAppRequest env l).run s = .ret (some bytes) s ↔
      (generateHadoopRequest env ([] ++ l.request_mem) (sliceLen []) clientRmProtocolName
        getNewApplicationMethodName).run s = .ret (some bytes) s := by
    intro bytes
    rw [generateNewAppRequest, wmessageNew_eq hm]
    simp only [Prog.run_bind, Prog.ofOption_some, Prog.run_pure, Outcome.andThen_ret,
      Wmessage.new, Wmessage.buffer_mk]
    cases (generateHadoopRequest env ([] ++ l.request_mem) (sliceLen []) clientRmProtocolName
      getNewApplicationMethodName).run s with
    | ret a t => cases a <;> simp
    | wait t => simp
    | undefined t => simp
  simp only [NewAppRoundTrips, RequestRoundTrips, hrun]

/-- A request round-trips exactly if its strings fit the buffer and, should it be
empty, the memory behind it starts with a zero. The request for a new application
does if the memory behind it starts with a zero. -/
theorem requestRoundTrips_iff (h : HadoopRequestType env) {request : List UInt8}
    (hlen : request.length < 2 ^ 31) (beyond : List UInt8) (protocol method : CString) (s : Conn) :
    (RequestRoundTrips env s request beyond protocol method ↔
      RequestFits method.bytes request protocol.bytes ∧
        (request = [] → StartsWithZero beyond)) ∧
    ((∃ m, Registered env (lit "GetNewApplicationRequestProto") m) →
      ∀ l, NewAppRoundTrips env l s ↔ l.request_mem.head? = some 0) := by
  refine ⟨⟨fun hround => hround.fits h, fun ⟨hfits, hzero⟩ =>
    requestRoundTrips_of_fits h hlen hzero hfits⟩, ?_⟩
  rintro ⟨m, hm⟩ l
  rw [newAppRoundTrips_iff hm,
    ← startsWithZero_iff (Nat.lt_of_le_of_lt l.request_mem_le (by decide))]
  constructor
  · intro hround
    exact (hround.fits h).2 rfl
  · intro hzero
    exact requestRoundTrips_of_fits h (by decide) (fun _ => hzero)
      (requestFits_of_le (by decide) (by decide) (by decide))

/-- A connection on which nothing happens. -/
def idleConn : Conn where
  proxy := ⟨0, .client, .rm, clientRmProtocolName, -1⟩
  incoming := []
  outgoing := []
  reads := []
  writes := []
  allocs := []
  printed := []

/-- Three bytes, one of them zero, in front of another. -/
theorem requestRoundTrips_three : RequestRoundTrips protocolEnv idleConn [1, 0, 2] [7]
    clientRmProtocolName getNewApplicationMethodName :=
  (requestRoundTrips_iff protocolEnv_newAppRequestType.hadoopRequestType (by decide) [7]
    clientRmProtocolName getNewApplicationMethodName idleConn).1.mpr
    ⟨requestFits_of_le (by decide) (by decide) (by decide), by simp⟩

/-- A byte behind an empty request is sent as its contents. -/
theorem empty_request_overread : ¬ ∀ (env : Env) (request beyond : List UInt8)
    (protocol method : CString) (s : Conn), HadoopRequestType env → request.length < 2 ^ 31 →
    RequestRoundTrips env s request beyond protocol method := by
  intro hclaim
  have hround := hclaim protocolEnv [] [5, 0] clientRmProtocolName getNewApplicationMethodName
    idleConn protocolEnv_newAppRequestType.hadoopRequestType (by decide)
  have hzero := (hround.fits protocolEnv_newAppRequestType.hadoopRequestType).2 rfl
  exact absurd ((startsWithZero_iff (by decide)).mp hzero) (by decide)

end HdClient
