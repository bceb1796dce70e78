-- SUMMARY: One call of get_new_app over a connection that does not fail: the frame it sends and the response it reads.
import HdClient.Rpc.Applications
import HdClient.Rpc.Requests
import HdClient.Rpc.Responses

/-! # Exchanges -/

namespace HdClient

open Pbc Conn

variable {env : Env} {l : Locals} {s t u : Conn}

/-! ## The request -/

/-- The body of a request for a new application, around what its memory holds. -/
def newAppBody (mem : Locals) : List UInt8 :=
  Wire.encode (hadoopRequest getNewApplicationMethodName.bytes (cstr mem.request_mem)
    clientRmProtocolName.bytes)

theorem newAppBody_requestFits (l : Locals) : RequestFits getNewApplicationMethodName.bytes
    (cstr l.request_mem) clientRmProtocolName.bytes := by
  have hcstr : (cstr l.request_mem).length ≤ l.request_mem.length :=
    (List.takeWhile_prefix _).length_le
  exact requestFits_of_le (by decide) (Nat.le_trans hcstr l.request_mem_le) (by decide)

/-- The request is generated unless its memory holds no string. -/
theorem generateNewAppRequest_run (h : NewAppRequestType env) (l : Locals) (s : Conn) :
    (generateNewAppRequest env l).run s =
      if 0 ∈ l.request_mem then .ret (some (newAppBody l)) s else .undefined s := by
  obtain ⟨m, hm⟩ := h.newApp
  have hlen : (sliceLen []).toInt = 0 := by decide
  rw [generateNewAppRequest, wmessageNew_eq hm]
  simp only [Prog.run_bind, Prog.ofOption_some, Prog.run_pure, Outcome.andThen_ret, Wmessage.new,
    Wmessage.buffer_mk, List.nil_append]
  split
  · rename_i hzero
    rw [generateHadoopRequest_run h.hadoopRequestType clientRmProtocolName
      getNewApplicationMethodName (hlen ▸ stringLength_zero hzero) (List.takeWhile_prefix _)
      (newAppBody_requestFits l)]
    rfl
  · rename_i hzero
    obtain ⟨m', hreg, hname, hbytes, -⟩ := h.registered
    obtain ⟨cap, heq, -⟩ := appendString env [] wmessageSize
      (r := ⟨1, .lend getNewApplicationMethodName.bytes, by decide, by decide⟩) hname (by decide)
      (.inl rfl) rfl (stringLength_mem getNewApplicationMethodName) (List.prefix_append _ _)
      ⟨6, by decide, by decide, rfl⟩ (by simp) (by decide)
    obtain ⟨f, hf, -⟩ := hbytes.field
    have hnone : stringLength l.request_mem 0 = none := by
      rw [stringLength, if_pos (by decide), if_neg hzero]
    simp only [generateHadoopRequest, wmessageNew_eq hreg, Prog.run_bind, Prog.ofOption_some,
      Prog.run_pure, Outcome.andThen_ret, Wmessage.new, heq, hlen]
    simp [wmessageString, hf, hnone]

/-- The request for a new application is short. -/
theorem newAppBody_lt (l : Locals) : (newAppBody l).length < 2 ^ 31 := by
  have hfits := newAppBody_requestFits l
  have hversion : (Wire.Record.encode ⟨4, .varint 1, by decide, by decide⟩).length = 2 := by decide
  rw [requestFits_iff] at hfits
  simp only [newAppBody, hadoopRequest, Wire.encode_cons, Wire.encode_nil, List.length_append,
    List.length_nil, hversion]
  omega

/-! ## The response -/

/-- What a server sends for one request. -/
structure Response where
  callId : BitVec 32
  status : BitVec 32
  header : List Wire.Record
  reply : Reply
  header_fields : HeaderFields header callId status
  header_length : (Wire.encode header).length < 2 ^ 31
  reply_status : reply.HasStatus status
  reply_fits : reply.Fits

/-- The library takes the header of the response in, and looks its payload up, in a defined way. -/
structure Response.Harmless (env : Env) (r : Response) : Prop where
  header : Readable r.header (Wire.encode r.header)
  payload : ∀ payload, r.reply = .success payload → payload ≠ [] → LooksUp env payload

/-- The response as it is sent: the length of the header, the header, and the reply. -/
def Response.bytes (r : Response) : List UInt8 :=
  Varint.encode (Wire.encode r.header).length ++
    (Wire.encode r.header ++ (r.reply.head ++ r.reply.tail))

/-- `u` is `s` with all read but `rest`. -/
structure ReadUpTo (s : Conn) (rest : List UInt8) (u : Conn) : Prop where
  incoming : u.incoming = rest
  proxy : u.proxy = s.proxy
  outgoing : u.outgoing = s.outgoing
  writes : u.writes = s.writes
  reads : u.reads <:+ s.reads
  reads_long : rest.length ≤ u.reads.length
  allocs : u.allocs <:+ s.allocs

/-- The exception behind a response of status error is read to its end. -/
theorem readException_whole {class_ stack rest : List UInt8} (hclass : class_.length < 2 ^ 31)
    (hstack : stack.length < 2 ^ 31) (hin : s.incoming = exceptionBody class_ stack ++ rest)
    (hlive : Transfer.Live s.reads) (hlong : s.incoming.length ≤ s.reads.length)
    (hmem : ∀ a ∈ s.allocs, a = true) :
    ∃ u, readException.run s = .ret (some (class_ ++ [0], stack ++ [0])) u ∧ ReadUpTo s rest u := by
  have htail : s.allocs.tail <:+ s.allocs := List.tail_suffix _
  have hgives := gives_readException hclass hstack hin (hasMemory_of_all hmem)
    (hasMemory_of_all (s := s.tookMemory) fun a ha => hmem a (htail.subset ha))
  rw [hin, List.length_append] at hlong
  obtain ⟨left, hsuffix, hcost, hrun⟩ := hgives s.reads hlive (by omega)
  rw [Conn.withReads_self] at hrun
  refine ⟨_, hrun, ?_, rfl, rfl, rfl, hsuffix, ?_, (List.tail_suffix _).trans htail⟩
  · have hclass' := Conn.incoming_afterClass (s := s) (by rw [hin, exceptionBody, List.append_assoc])
    exact Conn.incoming_afterClass hclass'
  · rw [Conn.reads_withReads]
    omega

theorem ReadUpTo.printing {rest : List UInt8} (h : ReadUpTo s rest u) (d : Diag) :
    ReadUpTo s rest (u.printing d) :=
  ⟨h.incoming, h.proxy, h.outgoing, h.writes, h.reads, h.reads_long, h.allocs⟩

theorem ReadUpTo.trans {rest mid : List UInt8} (h : ReadUpTo s mid t) (h' : ReadUpTo t rest u) :
    ReadUpTo s rest u :=
  ⟨h'.incoming, h'.proxy.trans h.proxy, h'.outgoing.trans h.outgoing, h'.writes.trans h.writes,
    h'.reads.trans h.reads, h'.reads_long, h'.allocs.trans h.allocs⟩

/-- The response is read to its end, and only a payload is decoded. -/
theorem receiveAppId_whole (henv : ResponseHeaderType env) (l : Locals) {r : Response}
    {rest : List UInt8} (hreadable : Readable r.header (Wire.encode r.header))
    (hid : r.callId = s.proxy.caller_id - 1) (hin : s.incoming = r.bytes ++ rest)
    (hwhole : WholeReads s.incoming.length s.reads) (hlong : s.incoming.length ≤ s.reads.length)
    (hmem : ∀ a ∈ s.allocs, a = true) :
    ∃ u, ReadUpTo s rest u ∧ ((receiveAppId env l).run s = .ret (-1) u ∨
      ∃ payload, r.reply = .success payload ∧ payload ≠ [] ∧
        (receiveAppId env l).run s = (storeAppId env payload).run u) := by
  obtain ⟨callId, status, header, reply, hfields, hlen, hstatus, hfits⟩ := r
  obtain ⟨version, hsaid⟩ := says_encode henv hfields hreadable
  have hin' : s.incoming = Varint.encode (Wire.encode header).length ++
      (Wire.encode header ++ (reply.head ++ (reply.tail ++ rest))) := by
    simpa [Response.bytes] using hin
  have hlw := hfields.lengthWord hlen
  obtain ⟨left, ds, allocs, hleft, hlonger, hallocs, hrun⟩ := recvRpcResponse_whole (l := l) hsaid
    hid hstatus hfits hlw hin' hwhole hlong hmem
  have hlive : Transfer.Live s.reads := hwhole.live (by
    have hpos := Varint.encode_length_pos (Wire.encode header).length
    rw [hin', List.length_append]
    omega)
  generalize hv : ({ s with
    incoming := reply.tail ++ rest, reads := left, allocs := allocs,
    printed := s.printed ++ ds } : Conn) = v at hrun
  have hread : ReadUpTo s (reply.tail ++ rest) v := by
    rw [← hv]
    exact ⟨rfl, rfl, rfl, rfl, hleft, hlonger, hallocs⟩
  cases reply with
  | success payload =>
      by_cases hnil : payload = []
      · subst hnil
        rw [if_pos rfl] at hrun
        refine ⟨_, hread.printing .otherError, .inl ?_⟩
        rw [receiveAppId, Prog.run_bind, hrun]
        rfl
      · rw [if_neg (by simpa using hnil)] at hrun
        refine ⟨_, hread, .inr ⟨payload, rfl, hnil, ?_⟩⟩
        rw [receiveAppId, Prog.run_bind, hrun]
        rfl
  | fatal =>
      rw [if_neg (by simp)] at hrun
      refine ⟨_, hread.printing .otherError, .inl ?_⟩
      rw [receiveAppId, Prog.run_bind, hrun]
      rfl
  | error exception_class exception_stack =>
      rw [if_neg (by simp)] at hrun
      obtain ⟨hclass, hstack⟩ := hfits
      obtain ⟨u, hexception, hu⟩ := readException_whole (by omega) (by omega) hread.incoming
        (hlive.suffix hread.reads) (hread.incoming ▸ hread.reads_long)
        fun a ha => hmem a (hread.allocs.subset ha)
      refine ⟨_, (hread.trans hu).printing (.responseError (cstr (exception_class ++ [0]))
        (cstr (exception_stack ++ [0]))), .inl ?_⟩
      rw [receiveAppId, Prog.run_bind, hrun, Outcome.andThen_ret]
      simp only [Reply.response, processBadRpcResponse, if_true, Prog.run_bind, hexception]
      rfl

/-! ## The call -/

/-- What one call has done to `t` when it has sent its frame and has read the
response in front of `rest`. -/
structure Exchanged (l : Locals) (t : Conn) (rest : List UInt8) (u : Conn) : Prop where
  incoming : u.incoming = rest
  outgoing : u.outgoing = t.outgoing ++ frame t.proxy.caller_id (newAppBody l)
  caller_id : u.proxy.caller_id = t.proxy.caller_id + 1
  writes : u.writes <:+ t.writes
  reads : u.reads <:+ t.reads
  reads_long : rest.length ≤ u.reads.length
  allocs : u.allocs <:+ t.allocs

/-- The connection after a request for a new application has been sent. -/
def Conn.asked (t : Conn) (l : Locals) (writes : List Ans) : Conn :=
  { t with
    proxy := { t.proxy with caller_id := t.proxy.caller_id + 1 }
    outgoing := t.outgoing ++ frame t.proxy.caller_id (newAppBody l)
    writes := writes }

theorem ReadUpTo.exchanged {rest : List UInt8} {writes : List Ans}
    (h : ReadUpTo (t.asked l writes) rest u) (hwrites : writes <:+ t.writes) :
    Exchanged l t rest u where
  incoming := h.incoming
  outgoing := h.outgoing
  caller_id := congrArg Proxy.caller_id h.proxy
  writes := by rwa [h.writes]
  reads := h.reads
  reads_long := h.reads_long
  allocs := h.allocs

/-- Neither a printed line nor a stored id undoes an exchange. -/
theorem Exchanged.of_same {rest : List UInt8} {v : Conn} (h : Exchanged l t rest u)
    (hin : v.incoming = u.incoming) (hout : v.outgoing = u.outgoing)
    (hid : v.proxy.caller_id = u.proxy.caller_id) (hwrites : v.writes = u.writes)
    (hreads : v.reads = u.reads) (hallocs : v.allocs = u.allocs) : Exchanged l t rest v where
  incoming := hin.trans h.incoming
  outgoing := hout.trans h.outgoing
  caller_id := hid.trans h.caller_id
  writes := by rw [hwrites]; exact h.writes
  reads := by rw [hreads]; exact h.reads
  reads_long := by rw [hreads]; exact h.reads_long
  allocs := by rw [hallocs]; exact h.allocs

/-- What a call that is answered with `r` may come to. -/
inductive Exchange (env : Env) (l : Locals) (t : Conn) (r : Response) (rest : List UInt8) :
    Outcome Conn ℤ → Prop where
  /-- The memory of the request holds no string, so there is no frame. -/
  | noString : 0 ∉ l.request_mem → Exchange env l t r rest (.undefined t)
  /-- The socket stops accepting bytes. -/
  | stuck {u : Conn} :
      ¬ (Transfer.Live t.writes ∧
        (frame t.proxy.caller_id (newAppBody l)).length ≤ t.writes.length) →
      Exchange env l t r rest (.wait u)
  /-- The payload cannot be decoded in a defined way. -/
  | undecodable {u : Conn} : Exchanged l t rest u → ¬ r.Harmless env →
      Exchange env l t r rest (.undefined u)
  | failed {u : Conn} : Exchanged l t rest u → u.proxy.app_id = -1 →
      Exchange env l t r rest (.ret (-1) u)
  | stored {u : Conn} {payload : List UInt8} : Exchanged l t rest u → r.reply = .success payload →
      DecodesId env payload u.proxy.app_id → Exchange env l t r rest (.ret 0 u)

/-- A call on a proxy without an application sends one frame and reads one response. -/
theorem getNewApp_exchange (hheader : RequestHeaderType env) (hrequest : NewAppRequestType env)
    (hresponse : ResponseHeaderType env) (l : Locals) {r : Response} {rest : List UInt8}
    (hreadable : Readable r.header (Wire.encode r.header)) (happ : t.proxy.app_id = -1)
    (hid : r.callId = t.proxy.caller_id)
    (hin : t.incoming = r.bytes ++ rest) (hwhole : WholeReads t.incoming.length t.reads)
    (hlong : t.incoming.length ≤ t.reads.length) (hwrites : Transfer.Sound t.writes)
    (hmem : ∀ a ∈ t.allocs, a = true) :
    Exchange env l t r rest ((getNewApp env l).run t) := by
  have hgen := generateNewAppRequest_run hrequest l t
  by_cases hzero : 0 ∈ l.request_mem
  · rw [if_pos hzero] at hgen
    rw [getNewApp_of_generated happ hgen]
    have hsend := sendRpcRequest_run hheader l t (newAppBody_lt l)
    generalize hparts : frameParts t.proxy.caller_id (newAppBody l) = parts at hsend
    have hsum : parts.sum = (frame t.proxy.caller_id (newAppBody l)).length := by
      rw [← hparts, frameParts_sum]
    cases hend : (Transfer.carryAll t.writes parts).ending with
    | failed => exact absurd hend (hwrites.carryAll_not_failed parts)
    | waiting =>
        rw [hsend.waiting hend]
        refine .stuck fun ⟨hlive, hlen⟩ => ?_
        have hdone := (hlive.carryAll_done (hsum ▸ hlen)).1
        rw [hend] at hdone
        exact absurd hdone (by decide)
    | done =>
        rw [hsend.done hend]
        have hcar := (Transfer.carryAll_of_done hend).trans hsum
        have hreceive : ((countCall.run (t.sent (frame t.proxy.caller_id (newAppBody l))
            (Transfer.carryAll t.writes parts))).andThen fun rc =>
              orFail rc .sendNewAppFailed (receiveAppId env l)) =
            (receiveAppId env l).run (t.asked l (Transfer.carryAll t.writes parts).left) := by
          simp [countCall, orFail, Conn.asked, Conn.sent, hcar]
        rw [hreceive]
        have hid' : r.callId = t.proxy.caller_id + 1 - 1 :=
          hid.trans (BitVec.add_sub_cancel _ _).symm
        obtain ⟨u, hu, hret⟩ := receiveAppId_whole hresponse l
          (s := t.asked l (Transfer.carryAll t.writes parts).left) hreadable hid' hin hwhole hlong hmem
        have hexchanged := hu.exchanged (Transfer.carryAll_left_isSuffix t.writes parts)
        have happ' : u.proxy.app_id = -1 := by
          rw [hu.proxy]
          exact happ
        rcases hret with hret | ⟨payload, hreply, hne, hret⟩
        · rw [hret]
          exact .failed hexchanged happ'
        · rw [hret]
          rcases storeAppId_cases env payload u with ⟨hbad, hstore⟩ | ⟨d, hstore⟩ |
            ⟨id, hdecodes, hstore⟩
          · rw [hstore]
            exact .undecodable hexchanged fun h => hbad (h.payload payload hreply hne)
          · rw [hstore]
            exact .failed (hexchanged.of_same rfl rfl rfl rfl rfl rfl) happ'
          · rw [hstore]
            exact .stored (hexchanged.of_same rfl rfl rfl rfl rfl rfl) hreply hdecodes
  · rw [if_neg hzero] at hgen
    rw [getNewApp, Prog.run_bind, Prog.run_get, Outcome.andThen_ret, if_neg (not_not.mpr happ),
      Prog.run_bind, hgen]
    exact .noString hzero

end HdClient
