-- SUMMARY: Call ids over whole runs: what id a completed frame carries, and which responses are taken for its answer.
import HdClient.Base.Runs
import HdClient.Client.Effects
import HdClient.Rpc.Outbound
import HdClient.Rpc.Responses

/-! # Call ids -/

namespace HdClient

open Pbc Conn

/-! ## The proxy while a request is written -/

private def SameProxy (s t : Conn) : Prop := t.proxy = s.proxy

private theorem sameProxy_frame : ConnFrame SameProxy :=
  connFrame_of ⟨fun _ => rfl, fun h h' => Eq.trans h' h⟩ (fun _ _ _ => rfl) (fun _ _ _ => rfl)
    (fun _ _ => rfl) fun _ _ _ => rfl

theorem orFail_eq_zero {rc : ℤ} {d : Diag} {next : Prog Conn ℤ} {s t : Conn}
    (h : (orFail rc d next).run s = .ret 0 t) : rc = 0 ∧ next.run s = .ret 0 t := by
  rw [orFail, Prog.run_ite] at h
  split at h
  · simp at h
  · rename_i hrc
    exact ⟨not_not.mp hrc, h⟩

/-- A write that succeeded has written all there was. -/
theorem writeAll_eq_zero {buffer : Option (List UInt8)} {size : ℤ} {s t : Conn}
    (h : (writeAll buffer size).run s = .ret 0 t) :
    t.outgoing = s.outgoing ++ (buffer.getD []).take size.toNat := by
  by_cases hsize : size < 0
  · simp [writeAll, hsize] at h
  cases buffer with
  | none =>
      simp only [writeAll, hsize, if_false, Prog.run_bind, Conn.run_print, Outcome.andThen_ret,
        Prog.run_pure, Outcome.ret.injEq, true_and] at h
      simp [← h]
  | some l =>
      by_cases hmem : l.length < size.toNat
      · simp [writeAll, hsize, hmem] at h
      rw [writeAll_run (by omega) (by omega), wroteAll] at h
      split at h
      · rename_i hend
        have hcar := Transfer.carried_of_done hend
        simp only [Outcome.ret.injEq, true_and] at h
        rw [← h]
        simp [Conn.sent, hcar, List.take_take]
      · simp at h
      · simp at h

/-- The header of the frame, behind its four bytes of length, carries the call id. -/
def CarriesCallId (bytes : List UInt8) (callId : BitVec 32) : Prop :=
  ∃ total header delimited tail, bytes = Word.be32 total ++ (delimited ++ tail) ∧
    Format.framed Varint.Encodes Wire.Message header delimited ∧
    Wire.SetsOnce header 3 (.varint (callId.setWidth 64))

/-- One write of several that all succeeded. -/
theorem writeStep_eq_zero {buffer : Option (List UInt8)} {size : ℤ} {d : Diag}
    {next : Prog Conn ℤ} {s t : Conn}
    (h : (writeAll buffer size >>= fun rc => orFail rc d next).run s = .ret 0 t) :
    ∃ u, u.outgoing = s.outgoing ++ (buffer.getD []).take size.toNat ∧ next.run u = .ret 0 t := by
  obtain ⟨rc, u, hwrite, hrest⟩ := Prog.bind_eq_ret.mp h
  obtain ⟨rfl, hnext⟩ := orFail_eq_zero hrest
  exact ⟨u, writeAll_eq_zero hwrite, hnext⟩

/-- A request that was written without an error: its header is in the frame. -/
theorem writeRequest_eq_zero {header : List UInt8} (hheader : header.length < 2 ^ 31)
    {request : Option (List UInt8)} {request_len : BitVec 32} {s t : Conn}
    (h : (writeRequest (some header) (sliceLen header) request request_len).run s = .ret 0 t) :
    ∃ total tail, t.outgoing = s.outgoing ++
      (Word.be32 total ++ ((Varint.encode header.length ++ header) ++ tail)) := by
  have hvint := Nat.lt_of_le_of_lt (vint_length hheader) (by omega : 5 < 2 ^ 31)
  rw [writeRequest, sliceLen_vint hheader] at h
  simp only [Prog.run_bind, Prog.ofOption_some, Prog.run_pure, Outcome.andThen_ret] at h
  obtain ⟨request_vint, v, hvint_eq, hwrites⟩ := Prog.bind_eq_ret.mp h
  obtain ⟨-, rfl⟩ := Prog.ofOption_eq_ret.mp hvint_eq
  obtain ⟨u₁, h₁, hrest₁⟩ := writeStep_eq_zero hwrites
  obtain ⟨u₂, h₂, hrest₂⟩ := writeStep_eq_zero hrest₁
  obtain ⟨u₃, h₃, hrest₃⟩ := writeStep_eq_zero hrest₂
  obtain ⟨u₄, h₄, hrest₄⟩ := writeStep_eq_zero hrest₃
  obtain ⟨u₅, h₅, hrest₅⟩ := writeStep_eq_zero hrest₄
  obtain rfl : u₅ = t := by simpa using hrest₅
  rw [sliceLen_toInt hvint] at h₂
  rw [sliceLen_toInt hheader] at h₃
  rw [le_intEndianSwap] at h₁
  refine ⟨(sliceLen (Varint.encode header.length) + sliceLen header + sliceLen request_vint +
      request_len).toNat,
    request_vint.take (sliceLen request_vint).toInt.toNat ++
      (request.getD []).take request_len.toInt.toNat, ?_⟩
  have hfour : (Word.be32 (sliceLen (Varint.encode header.length) + sliceLen header +
      sliceLen request_vint + request_len).toNat).take (4 : ℤ).toNat =
      Word.be32 (sliceLen (Varint.encode header.length) + sliceLen header +
      sliceLen request_vint + request_len).toNat := rfl
  rw [h₅, h₄, h₃, h₂, h₁]
  simp only [Option.getD_some, Int.toNat_natCast, List.take_length, List.append_assoc, hfour]

/-! ## Requests -/

/-- Any pointer and any length, and what the locals of the call hold. -/
structure AnyCall where
  request : Option (List UInt8)
  request_len : BitVec 32
  mem : Locals

/-- `send_rpc_request` with any pointer and any length. -/
def sendAny (env : Env) (c : AnyCall) : Prog Conn ℤ :=
  sendRpcRequest env c.mem c.request c.request_len

variable {env : Env} {l : Locals} {c : AnyCall}

private theorem sendAny_run (h : RequestHeaderType env) (s : Conn) :
    (sendAny env c).run s =
      (writeRequest (some (Wire.encode (requestHeader s.proxy.caller_id)))
        (sliceLen (Wire.encode (requestHeader s.proxy.caller_id))) c.request c.request_len >>=
          fun rc => orFail rc .writePayloadFailed countCall).run s := by
  simp only [sendAny, sendRpcRequest, Prog.run_bind, Prog.run_get, Outcome.andThen_ret,
    generateRequestHeader_run h, Prog.run_pure]
  rfl

/-- A call that returned zero sent a frame under the id of the proxy, and counted it. -/
theorem sendAny_eq_zero (h : RequestHeaderType env) {s t : Conn}
    (hret : (sendAny env c).run s = .ret 0 t) :
    t.proxy.caller_id = s.proxy.caller_id + 1 ∧
      ∃ bytes, t.outgoing = s.outgoing ++ bytes ∧ CarriesCallId bytes s.proxy.caller_id := by
  rw [sendAny_run h] at hret
  obtain ⟨rc, u, hwrite, hrest⟩ := Prog.bind_eq_ret.mp hret
  obtain ⟨rfl, hcount⟩ := orFail_eq_zero hrest
  obtain rfl : { u with proxy := { u.proxy with caller_id := u.proxy.caller_id + 1 } } = t := by
    simpa [countCall] using hcount
  have hproxy : u.proxy = s.proxy := (sameProxy_frame.writeRequest _ _ _ _).of_ret hwrite
  have hshort : (Wire.encode (requestHeader s.proxy.caller_id)).length < 2 ^ 31 :=
    Nat.lt_of_le_of_lt (requestHeader_length _) (by decide)
  obtain ⟨total, tail, hout⟩ := writeRequest_eq_zero hshort hwrite
  refine ⟨congrArg (fun p : Proxy => p.caller_id + 1) hproxy, _, hout, total, _, _, tail, rfl, ?_,
    requestHeader_callId s.proxy.caller_id⟩
  exact Format.framed_intro (Varint.encodes_encode _) (Wire.message_encode _)

/-- A call that returned anything else counted nothing. -/
theorem sendAny_ne_zero (h : RequestHeaderType env) {s t : Conn} {a : ℤ} (ha : a ≠ 0)
    (hret : (sendAny env c).run s = .ret a t) :
    t.proxy.caller_id = s.proxy.caller_id := by
  rw [sendAny_run h] at hret
  obtain ⟨rc, u, hwrite, hrest⟩ := Prog.bind_eq_ret.mp hret
  have hproxy : u.proxy = s.proxy := (sameProxy_frame.writeRequest _ _ _ _).of_ret hwrite
  rw [orFail, Prog.run_ite] at hrest
  split at hrest
  · obtain ⟨-, rfl⟩ : _ ∧ { u with printed := _ } = t := by simpa using hrest
    exact congrArg Proxy.caller_id hproxy
  · obtain ⟨rfl, -⟩ : 0 = a ∧ _ := by simpa [countCall] using hrest
    exact absurd rfl ha

/-- The number of requests that were sent in full. -/
def sends (log : List (AnyCall × ℤ)) : ℕ :=
  (log.filter (·.2 = 0)).length

/-- The counter of a proxy counts the requests that were sent in full, modulo its width. -/
theorem caller_id_eq_sends (h : RequestHeaderType env) {s t : Conn} {k : ℕ}
    {log : List (AnyCall × ℤ)}
    (hid : s.proxy.caller_id = BitVec.ofNat 32 k)
    (hruns : Prog.AnyRuns (sendAny env) s log t) :
    t.proxy.caller_id = BitVec.ofNat 32 (k + sends log) := by
  refine hruns.invariant (I := fun log t => t.proxy.caller_id = BitVec.ofNat 32 (k + sends log))
    (by simpa [sends] using hid) ?_
  intro log t r a u hstep _ hret
  by_cases ha : a = 0
  · subst ha
    rw [(sendAny_eq_zero h hret).1, hstep]
    simp [sends, BitVec.ofNat_add, ← Nat.add_assoc]
  · rw [sendAny_ne_zero h ha hret, hstep]
    simp [sends, ha]

/-! ## Responses -/

/-- `recv_rpc_response` takes the exit for a call id that does not match. -/
def RejectsCallId (env : Env) (l : Locals) (s : Conn) : Prop :=
  ∃ t got expected, (recvRpcResponse env l).run s = .ret .other t ∧
    t.printed = s.printed ++ [.callerIdNotMatch got expected]

/-- Nothing is printed about call ids. -/
private def NoMismatch (s t : Conn) : Prop :=
  ∃ ds, t.printed = s.printed ++ ds ∧ ∀ d ∈ ds, d.isMismatch = false

private theorem noMismatch_frame : ConnFrame NoMismatch := by
  have hsame : ∀ s t : Conn, t.printed = s.printed → NoMismatch s t :=
    fun s t h => ⟨[], by simp [h], by simp⟩
  refine connFrame_of ⟨fun s => hsame s s rfl, ?_⟩ (fun s _ _ => hsame _ _ rfl)
    (fun s _ _ => hsame _ _ rfl) (fun s _ => hsame _ _ rfl)
    fun s d hd => ⟨[d], rfl, by simpa using hd⟩
  rintro s t u ⟨ds, ht, hds⟩ ⟨es, hu, hes⟩
  refine ⟨ds ++ es, by rw [hu, ht, List.append_assoc], fun d hd => ?_⟩
  exact (List.mem_append.mp hd).elim (hds d) (hes d)

private theorem NoMismatch.absurd {s t : Conn} {got expected : BitVec 32} (h : NoMismatch s t)
    (hprint : t.printed = s.printed ++ [.callerIdNotMatch got expected]) : False := by
  obtain ⟨ds, hds, hall⟩ := h
  obtain rfl := List.append_cancel_left (hds.symm.trans hprint)
  exact Bool.noConfusion (hall _ List.mem_cons_self)

/-- A response is taken for an answer to a request other than the last one if and
only if its call id is not that of the proxy's last one. -/
theorem rejectsCallId_iff {s : Conn} {header rest : List UInt8} {left : List Ans}
    {callId status version : BitVec 32} (h : HeaderArrives s header rest left)
    (hsaid : Says env header callId status version) :
    RejectsCallId env l s ↔ callId ≠ s.proxy.caller_id - 1 := by
  have hrun := recvRpcResponse_said (l := l) h hsaid
  constructor
  · rintro ⟨t, got, expected, hret, hprint⟩ heq
    rw [hrun, if_neg (not_not.mpr heq)] at hret
    split at hret
    · exact ((noMismatch_frame.recvPayload l).of_ret hret).absurd hprint
    · split at hret
      · cases hret
      · cases hret
  · intro hne
    rw [if_pos hne] at hrun
    exact ⟨_, _, _, hrun, rfl⟩

/-- After any calls, the last one of which to succeed sent its frame under some id,
the response that is taken for the answer is the one under this id, and the ids of
the frames count up from zero, modulo the width of the counter. Only a header that
is too large for the library to decode is not told apart. -/
theorem callIds_match (hrequest : RequestHeaderType env) (hresponse : ResponseHeaderType env)
    {s t u v : Conn} {log log' : List (AnyCall × ℤ)}
    (hid : s.proxy.caller_id = 0) (hruns : Prog.AnyRuns (sendAny env) s log t)
    (hlast : (sendAny env c).run t = .ret 0 u)
    (hfails : Prog.AnyRuns (sendAny env) u log' v) (hnone : sends log' = 0) :
    ∃ bytes, u.outgoing = t.outgoing ++ bytes ∧
      CarriesCallId bytes (BitVec.ofNat 32 (sends log)) ∧
      ∀ (l : Locals) (w : Conn) (rs : List Wire.Record) (rest : List UInt8) (left : List Ans)
        (callId : BitVec 32), w.proxy = v.proxy →
        Wire.SetsOnce rs 1 (.varint (callId.setWidth 64)) →
        HeaderArrives w (Wire.encode rs) rest left →
        (Readable rs (Wire.encode rs) →
          (RejectsCallId env l w ↔ callId ≠ BitVec.ofNat 32 (sends log))) ∧
        (RejectsCallId env l w → Readable rs (Wire.encode rs)) := by
  have hbefore := caller_id_eq_sends hrequest (k := 0) hid hruns
  rw [Nat.zero_add] at hbefore
  obtain ⟨hcount, bytes, hout, hcarries⟩ := sendAny_eq_zero hrequest hlast
  refine ⟨bytes, hout, hbefore ▸ hcarries, ?_⟩
  intro l w rs rest left callId hproxy hexplicit harrives
  have hafter := caller_id_eq_sends hrequest (k := sends log + 1)
    (by rw [hcount, hbefore, BitVec.ofNat_add]; rfl) hfails
  have hexpected : w.proxy.caller_id - 1 = BitVec.ofNat 32 (sends log) := by
    rw [hproxy, hafter, hnone, Nat.add_zero, BitVec.ofNat_add]
    exact BitVec.add_sub_cancel _ 1
  by_cases hreadable : Readable rs (Wire.encode rs)
  · obtain ⟨status, version, hsaid⟩ := says_callId hresponse hexplicit hreadable
    refine ⟨fun _ => ?_, fun _ => hreadable⟩
    rw [rejectsCallId_iff harrives hsaid, hexpected]
  · obtain ⟨_, _, _, hws, -⟩ := harrives.arrives
    have hlt := hws.lt
    obtain ⟨x, hrun⟩ := recvRpcResponse_unreadable (l := l) hresponse
      (Wire.shortMessage_encode rs (by omega)) hreadable harrives
    refine ⟨fun h => absurd h hreadable, ?_⟩
    rintro ⟨y, got, expected, hret, -⟩
    rw [hrun] at hret
    cases hret

/-- A proxy before its first request, over a socket that takes ten bytes at a time. -/
def silentConn : Conn where
  proxy := ⟨0, .client, .rm, clientRmProtocolName, -1⟩
  incoming := []
  outgoing := []
  reads := []
  writes := List.replicate 10 (.upTo 10)
  allocs := []
  printed := []

/-- After the first request, the answer under the id one is rejected. -/
theorem callIds_match_first : ∃ w : Conn, w.proxy.caller_id = 1 ∧
    w.incoming = [4, 8, 1, 16, 0] ∧ RejectsCallId protocolEnv zeroLocals w := by
  obtain ⟨u, hsend, hid, hmem⟩ : ∃ u,
      (sendAny protocolEnv ⟨some [], sliceLen [], zeroLocals⟩).run silentConn = .ret 0 u ∧
        u.proxy.caller_id = 1 ∧ u.HasMemory :=
    ⟨_, (sendRpcRequest_run protocolEnv_requestHeaderType zeroLocals silentConn
      (show ([] : List UInt8).length < 2 ^ 31 by decide)).done (by decide),
      rfl, nofun⟩
  have harrives := (headerArrives_live (s := u.setIncoming [4, 8, 1, 16, 0]
    (List.replicate 9 (.upTo 40))) ((responseHeader_fields 1 0).lengthWord (by decide))
    (show _ = _ ++ (_ ++ []) from rfl) (fun a ha => ⟨40, by decide, List.eq_of_mem_replicate ha⟩)
    (show _ ≤ (List.replicate 9 (Ans.upTo 40)).length by decide) hmem).1
  obtain ⟨bytes, -, -, hmatch⟩ := callIds_match protocolEnv_requestHeaderType
    protocolEnv_responseHeaderType (s := silentConn) rfl .nil hsend .nil rfl
  have hrejects := ((hmatch zeroLocals
    (u.setIncoming [4, 8, 1, 16, 0] (List.replicate 9 (.upTo 40))) _ _ _ 1
    rfl (responseHeader_fields 1 0).callId_once harrives).1 (by decide)).mpr (by decide)
  exact ⟨u.setIncoming [4, 8, 1, 16, 0] _, hid, rfl, hrejects⟩

end HdClient
