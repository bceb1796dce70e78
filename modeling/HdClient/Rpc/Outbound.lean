-- SUMMARY: What the sending calls write, for every script of the socket: the connection header, and one frame a request.
import HdClient.Client.HadoopRpcUtils
import HdClient.Rpc.Frames
import HdClient.Rpc.Schema

/-! # Sending -/

namespace HdClient

open Pbc Conn

def Conn.reporting (s : Conn) (ds : List Diag) : Conn := { s with printed := s.printed ++ ds }

@[simp] theorem Conn.writes_sent (s : Conn) (bytes : List UInt8) (t : Transfer) :
    (s.sent bytes t).writes = t.left := rfl

/-! ## Chunks -/

/-- Write chunks one after the other; where one fails, print its line and fail too. -/
def sendChunks (next : Prog Conn ℤ) : List (List UInt8 × Diag) → Prog Conn ℤ
  | [] => next
  | (chunk, d) :: chunks => do
      let rc ← writeAll (some chunk) chunk.length
      orFail rc d (sendChunks next chunks)

/-- What sending `bytes` comes to, by how their transfer ended. -/
structure Sending (s : Conn) (next : Prog Conn ℤ) (bytes : List UInt8) (t : Transfer)
    (o : Outcome Conn ℤ) : Prop where
  done : t.ending = .done → o = next.run (s.sent bytes t)
  failed : t.ending = .failed → ∃ ds, o = .ret (-1) ((s.sent bytes t).reporting ds)
  waiting : t.ending = .waiting → o = .wait (s.sent bytes t)

/-- Bytes sent in full, and then more. -/
theorem Sending.after {s : Conn} {next : Prog Conn ℤ} {chunk bytes : List UInt8} {t u : Transfer}
    {o : Outcome Conn ℤ} (ht : t.carried = chunk.length)
    (h : Sending (s.sent chunk t) next bytes u o) :
    Sending s next (chunk ++ bytes) ⟨chunk.length + u.carried, u.ending, u.left⟩ o := by
  have hsent : (s.sent chunk t).sent bytes u =
      s.sent (chunk ++ bytes) ⟨chunk.length + u.carried, u.ending, u.left⟩ := by
    simp [Conn.sent, ht, List.take_append, List.append_assoc, List.take_of_length_le]
  exact ⟨hsent ▸ h.done, hsent ▸ h.failed, hsent ▸ h.waiting⟩

/-- The chunk that stopped the sending is the last one of which anything was sent. -/
theorem Sending.stopped {s : Conn} {next rest : Prog Conn ℤ} {chunk : List UInt8} {t : Transfer}
    {d : Diag} (bytes : List UInt8) (hcar : t.carried ≤ chunk.length) (hend : t.ending ≠ .done) :
    Sending s next (chunk ++ bytes) t ((wroteAll s chunk t).andThen fun rc => orFail rc d rest) := by
  have hsent : s.sent (chunk ++ bytes) t = s.sent chunk t := by
    simp [Conn.sent, List.take_append_of_le_length hcar]
  obtain ⟨carried, ending, left⟩ := t
  cases ending with
  | done => exact absurd rfl hend
  | failed =>
      refine ⟨by simp, fun _ => ⟨[.errorWriting, d], ?_⟩, by simp⟩
      simp [wroteAll, hsent, orFail, Conn.printing, Conn.reporting]
  | waiting => exact ⟨by simp, by simp, fun _ => by simp [wroteAll, hsent]⟩

theorem sendChunks_run (next : Prog Conn ℤ) (chunks : List (List UInt8 × Diag)) (s : Conn) :
    Sending s next (chunks.flatMap (·.1))
      (Transfer.carryAll s.writes (chunks.map (·.1.length))) ((sendChunks next chunks).run s) := by
  induction chunks generalizing s with
  | nil => exact ⟨fun _ => by simp [sendChunks, Conn.sent], nofun, nofun⟩
  | cons c cs ih =>
      obtain ⟨chunk, d⟩ := c
      have hrun : (writeAll (some chunk) chunk.length).run s =
          wroteAll s chunk (Transfer.carry s.writes chunk.length chunk.length) := by
        simpa using writeAll_run (by omega : 0 ≤ (chunk.length : ℤ))
          (show (chunk.length : ℤ).toNat ≤ chunk.length by simp) s
      simp only [sendChunks, Prog.run_bind, hrun, List.flatMap_cons, List.map_cons]
      by_cases hend : (Transfer.carry s.writes chunk.length chunk.length).ending = .done
      · rw [Transfer.carryAll_cons_of_done _ hend]
        refine Sending.after (Transfer.carried_of_done hend) ?_
        simpa [wroteAll, hend, orFail] using
          ih (s.sent chunk (Transfer.carry s.writes chunk.length chunk.length))
      · rw [Transfer.carryAll_cons_of_not_done _ hend]
        exact Sending.stopped _ (Transfer.carried_le_need _ _ _) hend

/-- What follows a first part is sent once that part has been. -/
theorem Sending.trans {s : Conn} {next next' : Prog Conn ℤ} {bytes bytes' : List UInt8}
    {ns ms : List ℕ} {o : Outcome Conn ℤ} (hlen : ns.sum = bytes.length)
    (h : Sending s next bytes (Transfer.carryAll s.writes ns) o)
    (h' : ∀ t : Conn, t.proxy = s.proxy →
      Sending t next' bytes' (Transfer.carryAll t.writes ms) (next.run t)) :
    Sending s next' (bytes ++ bytes') (Transfer.carryAll s.writes (ns ++ ms)) o := by
  by_cases hend : (Transfer.carryAll s.writes ns).ending = .done
  · rw [Transfer.carryAll_append_of_done ms hend, h.done hend, hlen]
    exact Sending.after ((Transfer.carryAll_of_done hend).trans hlen) (h' _ rfl)
  · have hlt := Transfer.carryAll_lt hend
    have hsent : s.sent (bytes ++ bytes') (Transfer.carryAll s.writes ns) =
        s.sent bytes (Transfer.carryAll s.writes ns) := by
      simp [Conn.sent, List.take_append_of_le_length (hlen ▸ Nat.le_of_lt hlt)]
    rw [Transfer.carryAll_append_of_not_done ms hend]
    exact ⟨fun hdone => absurd hdone hend, hsent ▸ h.failed, hsent ▸ h.waiting⟩

theorem sliceLen_toNat {slice : List UInt8} (h : slice.length < 2 ^ 31) :
    (sliceLen slice).toNat = slice.length := by
  rw [sliceLen, BitVec.toNat_ofNat]
  omega

theorem sliceLen_toInt {slice : List UInt8} (h : slice.length < 2 ^ 31) :
    (sliceLen slice).toInt = slice.length := by
  rw [BitVec.toInt_eq_toNat_of_lt (by rw [sliceLen_toNat h]; omega), sliceLen_toNat h]

theorem sliceLen_vint {slice : List UInt8} (h : slice.length < 2 ^ 31) :
    writeRawVarint32 maxVintSize (sliceLen slice) = some (Varint.encode slice.length) := by
  have hlt := sliceLen_toNat h
  rw [maxVintSize, writeRawVarint32_eq (by omega) (by omega), hlt]

theorem vint_length {n : ℕ} (h : n < 2 ^ 31) : (Varint.encode n).length ≤ 5 :=
  Varint.encode_length_le (Nat.lt_trans h (by decide))

/-! ## The connection header -/

/-- The first four writes of a connection. -/
def headerChunks : List (List UInt8 × Diag) :=
  [(lit "hrpc", .writeHrpcFailed), ([7], .writeVersionFailed), ([80], .writeAuthFailed),
    ([0], .writeSerializationFailed)]

def contextChunks (context : List UInt8) : List (List UInt8 × Diag) :=
  [(Word.be32 context.length, .writeContextLengthFailed), (context, .writeContextFailed)]

/-- The lengths of the writes of `write_connection_header`. -/
def handshakeParts (context : List UInt8) : List ℕ :=
  (headerChunks ++ contextChunks context).map (·.1.length)

/-- What `write_connection_header` writes. -/
def handshake (context : List UInt8) : List UInt8 :=
  connectionHeader ++ (Word.be32 context.length ++ context)

theorem handshakeParts_sum (context : List UInt8) :
    (handshakeParts context).sum = (handshake context).length := by
  have hlit : (lit "hrpc").length = 4 := by decide
  simp [handshakeParts, headerChunks, contextChunks, handshake, connectionHeader, hlit]
  omega

/-- The protocol name of a context is the string up to its terminating zero. -/
private theorem contextMessage_eq (env : Env) {m : Message}
    (h : m.Declares (lit "protocol") 3 .optional .string) (p : CString)
    (hfit : (Wire.encode (connectionContext p.bytes)).length ≤ 2 ^ 30) :
    ∃ cap, wmessageString env (.new m) (lit "protocol") p.mem 0 =
      some (0, ⟨m, Wire.encode (connectionContext p.bytes), cap, none⟩) := by
  obtain ⟨f, hf, hname, hid, hlabel, htype⟩ := h.field
  have hlen : stringLength p.mem 0 = some (BitVec.ofNat 32 p.bytes.length) := by
    rw [stringLength_zero (by simp [CString.mem]), p.cstr_mem]
  have hrecord : Wire.encode (connectionContext p.bytes) =
      Wire.Record.encode ⟨3, .lend p.bytes, by decide, by decide⟩ := by
    simp [connectionContext]
  rw [hrecord] at hfit ⊢
  obtain ⟨cap, heq, -, -⟩ := wmessageString_eq env (m := .new m) (f := f)
    (r := ⟨3, .lend p.bytes, by decide, by decide⟩) (hname ▸ hf) (by rw [hlabel]; decide)
    (.inl htype) hid rfl hlen (List.prefix_append _ _) ⟨6, by decide, by decide, rfl⟩
    (by simp) (by simpa using hfit)
  exact ⟨cap, by rw [← hname, heq]; rfl⟩

/-- A context that was made takes a part of the name at least: as many bytes as the
32 bits of its length say. -/
private theorem contextMessage_some (env : Env) {m : Message}
    (h : m.Declares (lit "protocol") 3 .optional .string) (p : CString) {r : ℤ × Wmessage}
    (hrun : wmessageString env (.new m) (lit "protocol") p.mem 0 = some r) :
    ∃ q cap, q <+: p.bytes ∧ (Wire.encode (connectionContext q)).length ≤ 2 ^ 30 ∧
      r = (0, ⟨m, Wire.encode (connectionContext q), cap, none⟩) := by
  obtain ⟨f, hf, hname, hid, hlabel, htype⟩ := h.field
  have hlen : stringLength p.mem 0 = some (BitVec.ofNat 32 p.bytes.length) := by
    rw [stringLength_zero (by simp [CString.mem]), p.cstr_mem]
  rw [← hname] at hrun
  obtain ⟨w, cap, hw, -, rfl, hok, hroom⟩ := wmessageString_some env (m := .new m)
    (by decide : 0 < 3) (by decide) (hname ▸ hf) (by rw [hlabel]; decide) (.inl htype) hid
    ⟨6, by decide, by decide, rfl⟩ hrun
  have hle : w.toNat ≤ p.bytes.length := by
    rw [Option.some.inj (hw.symm.trans hlen), BitVec.toNat_ofNat]
    exact Nat.mod_le _ _
  have htake : p.mem.take w.toNat = p.bytes.take w.toNat := by
    rw [CString.mem, List.take_append_of_le_length hle]
  have hrecord : Wire.Record.encode ⟨3, .lend (p.mem.take w.toNat), by decide, by decide⟩ =
      Wire.encode (connectionContext (p.bytes.take w.toNat)) := by
    rw [htake]
    simp [connectionContext]
  rw [Wmessage.bytes_new, List.length_nil, Nat.zero_add, hrecord] at hroom
  refine ⟨p.bytes.take w.toNat, cap, List.take_prefix _ _, Nat.le_trans hroom hok.cap_le, ?_⟩
  rw [Wmessage.bytes_new, List.nil_append, hrecord]
  rfl

/-- The end of `write_connection_header`, once the fixed bytes are out. -/
def writeContext (env : Env) : Prog Conn ℤ := do
  match ← .ofOption (wmessageNew env (lit "hadoop.common.IpcConnectionContextProto")) with
  | none => do
      print .noContextProto
      pure (-1)
  | some ipc_proto => do
      let s ← .get
      let (_, ipc_proto) ← .ofOption
        (wmessageString env ipc_proto (lit "protocol") s.proxy.protocol_name.mem 0)
      let slice ← .ofOption (wmessageBuffer ipc_proto)
      let rc ← writeAll (some (Word.le (intEndianSwap (sliceLen slice)))) 4
      orFail rc .writeContextLengthFailed <| do
      let rc ← writeAll (some slice) (sliceLen slice).toInt
      orFail rc .writeContextFailed (pure 0)

private theorem writeConnectionHeader_eq (env : Env) :
    writeConnectionHeader env = sendChunks (writeContext env) headerChunks := by
  have hlit : (lit "hrpc").length = 4 := by decide
  simp only [headerChunks, sendChunks, hlit]
  rfl

/-- The protocol name of the proxy, in a message that takes the bytes `context`. -/
def ContextBytes (env : Env) (s : Conn) (context : List UInt8) : Prop :=
  ∃ m cap, Registered env (lit "hadoop.common.IpcConnectionContextProto") m ∧
    wmessageString env (.new m) (lit "protocol") s.proxy.protocol_name.mem 0 =
      some (0, ⟨m, context, cap, none⟩)

/-- A name that fits is the field of the context. -/
theorem contextBytes_of_fits {env : Env} (h : ContextType env) {s : Conn}
    (hfit : (Wire.encode (connectionContext s.proxy.protocol_name.bytes)).length ≤ 2 ^ 30) :
    ContextBytes env s (Wire.encode (connectionContext s.proxy.protocol_name.bytes)) := by
  obtain ⟨m, hreg, hprotocol⟩ := h.registered
  obtain ⟨cap, hcontext⟩ := contextMessage_eq env hprotocol s.proxy.protocol_name hfit
  exact ⟨m, cap, hreg, hcontext⟩

private theorem writeContext_run {env : Env} {s : Conn} {context : List UInt8}
    (h : ContextBytes env s context) (hlt : context.length < 2 ^ 31) :
    (writeContext env).run s = (sendChunks (pure 0) (contextChunks context)).run s := by
  obtain ⟨m, cap, hreg, hcontext⟩ := h
  rw [writeContext, wmessageNew_eq hreg]
  simp only [Prog.run_bind, Prog.ofOption_some, Prog.run_pure, Prog.run_get, Outcome.andThen_ret,
    hcontext, Wmessage.buffer_mk]
  simp only [le_intEndianSwap, sliceLen_toNat hlt, sliceLen_toInt hlt]
  simp only [contextChunks, sendChunks, Prog.run_bind, Word.be32_length, Int.cast_ofNat_Int]

/-- `write_connection_header` sends the header and the context with the
protocol name of the proxy. -/
theorem writeConnectionHeader_run {env : Env} {s : Conn} {context : List UInt8}
    (h : ContextBytes env s context) (hlt : context.length < 2 ^ 31) :
    Sending s (pure 0) (handshake context) (Transfer.carryAll s.writes (handshakeParts context))
      ((writeConnectionHeader env).run s) := by
  have hheader : headerChunks.flatMap (·.1) = connectionHeader := by decide
  have hfirst := sendChunks_run (writeContext env) headerChunks s
  rw [hheader] at hfirst
  rw [writeConnectionHeader_eq, handshakeParts, List.map_append]
  refine Sending.trans (by decide) hfirst fun t ht => ?_
  have ht' : ContextBytes env t context := by
    unfold ContextBytes
    rw [ht]
    exact h
  rw [writeContext_run ht' hlt]
  have hsecond := sendChunks_run (pure 0) (contextChunks context) t
  simpa [contextChunks] using hsecond

/-- A header that was written has a context, around a part of the name at least. -/
theorem contextBytes_of_ret {env : Env} (h : ContextType env) {s t : Conn}
    (hret : (writeConnectionHeader env).run s = .ret 0 t) :
    ∃ q, q <+: s.proxy.protocol_name.bytes ∧ (Wire.encode (connectionContext q)).length ≤ 2 ^ 30 ∧
      ContextBytes env s (Wire.encode (connectionContext q)) := by
  obtain ⟨m, hreg, hprotocol⟩ := h.registered
  have hsends := sendChunks_run (writeContext env) headerChunks s
  rw [← writeConnectionHeader_eq] at hsends
  cases hend : (Transfer.carryAll s.writes (headerChunks.map (·.1.length))).ending with
  | failed =>
      obtain ⟨ds, hfail⟩ := hsends.failed hend
      rw [hfail, Outcome.ret.injEq] at hret
      exact absurd hret.1 (by decide)
  | waiting =>
      rw [hsends.waiting hend] at hret
      cases hret
  | done =>
      rw [hsends.done hend, writeContext, wmessageNew_eq hreg, Prog.run_bind, Prog.ofOption_some,
        Prog.run_pure, Outcome.andThen_ret] at hret
      dsimp only at hret
      rw [Prog.run_bind, Prog.run_get, Outcome.andThen_ret] at hret
      obtain ⟨r, u, hstring, -⟩ := Prog.bind_eq_ret.mp hret
      obtain ⟨hstring, -⟩ := Prog.ofOption_eq_ret.mp hstring
      obtain ⟨q, cap, hq, hfit, rfl⟩ := contextMessage_some env hprotocol _ hstring
      exact ⟨q, hq, hfit, m, cap, hreg, hstring⟩

/-- Without the type of the context the header ends with its fixed bytes, and fails. -/
theorem writeConnectionHeader_missing {env : Env}
    (h : wmessageNew env (lit "hadoop.common.IpcConnectionContextProto") = some none) (s : Conn) :
    Sending s (print .noContextProto >>= fun _ => pure (-1)) connectionHeader
      (Transfer.carryAll s.writes (headerChunks.map (·.1.length)))
      ((writeConnectionHeader env).run s) := by
  have hheader : headerChunks.flatMap (·.1) = connectionHeader := by decide
  have hcontext : writeContext env = (print .noContextProto >>= fun _ => pure (-1)) := by
    rw [writeContext, h]
    rfl
  rw [writeConnectionHeader_eq, ← hheader, ← hcontext]
  exact sendChunks_run (writeContext env) headerChunks s

/-! ## Requests -/

/-- What `write_request` writes, and the lines for where it fails. -/
def requestChunks (header request : List UInt8) : List (List UInt8 × Diag) :=
  [(Word.be32 ((Varint.encode header.length ++ header) ++
      (Varint.encode request.length ++ request)).length, .writeTotalFailed),
    (Varint.encode header.length, .writeHeaderVintFailed), (header, .writeHeaderFailed),
    (Varint.encode request.length, .writeRequestVintFailed), (request, .writeRequestFailed)]

/-- The length that is sent is that of the rest, as far as it fits 32 bits. -/
theorem writeRequest_run {header request : List UInt8} (hheader : header.length < 2 ^ 31)
    (hrequest : request.length < 2 ^ 31) (s : Conn) :
    (writeRequest (some header) (sliceLen header) (some request) (sliceLen request)).run s =
      (sendChunks (pure 0) (requestChunks header request)).run s := by
  have hvint := Nat.lt_of_le_of_lt (vint_length hheader) (by omega : 5 < 2 ^ 31)
  have hvint' := Nat.lt_of_le_of_lt (vint_length hrequest) (by omega : 5 < 2 ^ 31)
  have htotal : (sliceLen (Varint.encode header.length) + sliceLen header +
      sliceLen (Varint.encode request.length) + sliceLen request).toNat =
        ((Varint.encode header.length ++ header) ++
          (Varint.encode request.length ++ request)).length % 2 ^ 32 := by
    simp only [BitVec.toNat_add, sliceLen_toNat hheader, sliceLen_toNat hrequest,
      sliceLen_toNat hvint,
      sliceLen_toNat hvint', List.length_append]
    omega
  rw [writeRequest, sliceLen_vint hheader, sliceLen_vint hrequest]
  simp only [Prog.run_bind, Prog.ofOption_some, Prog.run_pure, Outcome.andThen_ret]
  simp only [le_intEndianSwap, htotal, Word.be32_mod, sliceLen_toInt hheader,
    sliceLen_toInt hrequest, sliceLen_toInt hvint, sliceLen_toInt hvint']
  simp only [requestChunks, sendChunks, Prog.run_bind, Word.be32_length, Int.cast_ofNat_Int]

/-- A length in front of what it counts, which is read as an `int`. -/
theorem lengthWord_iff (body : List UInt8) :
    (intEndianSwap (Word.ofLe (Word.be32 body.length))).toInt = body.length ↔
      body.length < 2 ^ 31 := by
  rw [intEndianSwap_ofLe]
  constructor
  · intro h
    have hsigned := (BitVec.ofNat 32 body.length).toInt_lt
    rw [h] at hsigned
    omega
  · exact sliceLen_toInt

/-- A number or an enum is appended to a buffer with room for it as one record. -/
private theorem appendNumber {m : Message} {name : CStr} {r : Wire.Record} {label : Label}
    {type : PType} (low : BitVec 32) (bytes : List UInt8) (h : m.Declares name r.number label type)
    (hlabel : label ≠ .packed) (htype : type = .uint32 ∨ type = .enum)
    (hr : r.payload = .varint (low.setWidth 64)) (hroom : bytes.length + 20 ≤ wmessageSize) :
    wmessageInteger ⟨m, bytes, wmessageSize, none⟩ name low 0 =
      some (0, ⟨m, bytes ++ r.encode, wmessageSize, none⟩) := by
  obtain ⟨f, hf, rfl, hid, rfl, rfl⟩ := h.field
  exact wmessageInteger_eq (m := ⟨m, bytes, wmessageSize, none⟩) hf hlabel htype hid hr hroom 0

theorem generateRequestHeader_run {env : Env} (h : RequestHeaderType env) (caller_id : BitVec 32)
    (s : Conn) : (generateRequestHeader env caller_id).run s =
      .ret (some (Wire.encode (requestHeader caller_id))) s := by
  obtain ⟨m, hreg, hkind, hop, hcall⟩ := h.registered
  have hkind' := appendNumber (r := ⟨1, .varint 2, by decide, by decide⟩) 2 [] hkind (by decide)
    (.inr rfl) rfl (by decide)
  have hop' := appendNumber (r := ⟨2, .varint 0, by decide, by decide⟩) 0
    ([] ++ Wire.Record.encode ⟨1, .varint 2, by decide, by decide⟩)
    hop (by decide) (.inr rfl) rfl (by decide)
  have hcall' := appendNumber (r := ⟨3, .varint (caller_id.setWidth 64), by decide, by decide⟩)
    caller_id ([] ++ Wire.Record.encode ⟨1, .varint 2, by decide, by decide⟩ ++
      Wire.Record.encode ⟨2, .varint 0, by decide, by decide⟩)
    hcall (by decide) (.inl rfl) rfl (by decide)
  simp only [generateRequestHeader, wmessageNew_eq hreg, Wmessage.new, Prog.run_bind,
    Prog.ofOption_some, Prog.run_pure, Outcome.andThen_ret, hkind', hop', hcall', Wmessage.buffer_mk]
  simp [requestHeader]

/-! ## Sending a request -/

/-- What `send_rpc_request` writes. -/
def frameChunks (caller_id : BitVec 32) (payload : List UInt8) : List (List UInt8 × Diag) :=
  requestChunks (Wire.encode (requestHeader caller_id)) payload

/-- The lengths of the writes that make up a frame. -/
def frameParts (caller_id : BitVec 32) (payload : List UInt8) : List ℕ :=
  (frameChunks caller_id payload).map (·.1.length)

theorem frameChunks_flatMap (caller_id : BitVec 32) (payload : List UInt8) :
    (frameChunks caller_id payload).flatMap (·.1) = frame caller_id payload := by
  simp [frameChunks, requestChunks, frame, frameBody]

theorem frameParts_sum (caller_id : BitVec 32) (payload : List UInt8) :
    (frameParts caller_id payload).sum = (frame caller_id payload).length := by
  rw [← frameChunks_flatMap, List.length_flatMap, frameParts]

/-- What comes before the payload takes sixteen bytes at most. -/
theorem frameBody_length {payload : List UInt8} (h : payload.length < 2 ^ 31)
    (caller_id : BitVec 32) :
    (frameBody caller_id payload).length ≤ payload.length + 16 := by
  have hheader := requestHeader_length caller_id
  have hvint : (Varint.encode (Wire.encode (requestHeader caller_id)).length).length = 1 := by
    rw [Varint.encode_of_lt (by omega)]
    rfl
  have hvint' := vint_length h
  simp only [frameBody, List.length_append]
  omega

theorem payload_lt {caller_id : BitVec 32} {payload : List UInt8}
    (h : (frameBody caller_id payload).length < 2 ^ 31) : payload.length < 2 ^ 31 := by
  simp only [frameBody, List.length_append] at h
  omega

/-- What is left to do once the frame is out. -/
def countCall : Prog Conn ℤ := do
  .modify fun s => { s with proxy := { s.proxy with caller_id := s.proxy.caller_id + 1 } }
  pure 0

/-- `send_rpc_request` sends one frame, under the next call id, and counts it
once it is out. -/
theorem sendRpcRequest_run {env : Env} (h : RequestHeaderType env) (l : Locals) (s : Conn)
    {payload : List UInt8} (hpayload : payload.length < 2 ^ 31) :
    Sending s countCall (frame s.proxy.caller_id payload)
      (Transfer.carryAll s.writes (frameParts s.proxy.caller_id payload))
      ((sendRpcRequest env l (some payload) (sliceLen payload)).run s) := by
  have hsend := sendChunks_run (pure 0) (frameChunks s.proxy.caller_id payload) s
  rw [frameChunks_flatMap] at hsend
  have hheader := requestHeader_length s.proxy.caller_id
  have hwrite : (writeRequest (some (Wire.encode (requestHeader s.proxy.caller_id)))
      (sliceLen (Wire.encode (requestHeader s.proxy.caller_id))) (some payload)
      (sliceLen payload)).run s =
        (sendChunks (pure 0) (frameChunks s.proxy.caller_id payload)).run s :=
    writeRequest_run (by omega) hpayload s
  have hrun : (sendRpcRequest env l (some payload) (sliceLen payload)).run s =
      ((sendChunks (pure 0) (frameChunks s.proxy.caller_id payload)).run s).andThen
        fun rc => orFail rc .writePayloadFailed countCall := by
    simp only [sendRpcRequest, Prog.run_bind, Prog.run_get, Outcome.andThen_ret,
      generateRequestHeader_run h, Prog.run_pure, hwrite]
    rfl
  rw [hrun, frameParts]
  constructor
  · intro hend
    rw [hsend.done hend]
    simp [orFail]
  · intro hend
    obtain ⟨ds, hret⟩ := hsend.failed hend
    exact ⟨ds ++ [.writePayloadFailed], by simp [hret, orFail, Conn.reporting]⟩
  · intro hend
    rw [hsend.waiting hend]
    rfl

end HdClient
