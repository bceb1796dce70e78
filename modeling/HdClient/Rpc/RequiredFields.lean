-- SUMMARY: Response headers that lack a field they are required to hold, and which of them recv_rpc_response takes for a success.
import HdClient.Rpc.Responses

/-! # Required fields

A response header has to hold the id of the call and a status. The library
reads a field that is missing as its default, and a field of another wire type
as the number that its first bytes make. -/

namespace HdClient

open Pbc Conn

variable {env : Env} {l : Locals} {s u : Conn} {ps : List Wire.Piece} {header rest : List UInt8}
  {caller_id v : BitVec 32} {r : RpcResponse}

/-! ## Numbers in records -/

/-- Some record sets the field to `v`. -/
def SetTo (rs : List Wire.Record) (n : ℕ) (v : BitVec 32) : Prop :=
  ∃ w : BitVec 64, .varint w ∈ Wire.payloads n rs ∧ w.setWidth 32 = v

/-- The header sets the field `n` as a number: the record that the library keeps for it is
the varint of one, or else another record is a varint of `v`. -/
def TellsNumber (ps : List Wire.Piece) (name : CStr) (n : ℕ) (v : BitVec 32) : Prop :=
  (∃ s, found (fileUnder responseHeaderFields) name (Wire.spots 0 ps) = some s ∧
      IsNumber s.record.payload) ∨
    ∃ s ∈ Wire.spots 0 ps, found (fileUnder responseHeaderFields) name (Wire.spots 0 ps) ≠ some s ∧
      s.record.number = n ∧ ∃ w : BitVec 64, s.record.payload = .varint w ∧ w.setWidth 32 = v

theorem setTo_of_spot {n : ℕ} {w : BitVec 64} {s : Wire.Spot} (hs : s ∈ Wire.spots 0 ps)
    (hn : s.record.number = n) (hw : s.record.payload = .varint w) :
    SetTo (Wire.records ps) n (w.setWidth 32) :=
  ⟨w, Wire.mem_payloads.mpr ⟨_, Wire.mem_spots hs, hn, hw⟩, rfl⟩

/-- A number that is read for a field is one that the field is set to exactly if the field
is set as a number. -/
theorem tellsNumber_iff_setTo {d : Declaration} (hd : d ∈ responseHeaderFields)
    (hv : headerWord d.name 0 ps = v) :
    TellsNumber ps d.name d.id v ↔ SetTo (Wire.records ps) d.id v := by
  have hname := fun r : Wire.Record => fileUnder_eq_some (r := r) (by decide) (by decide) hd
  rw [headerWord] at hv
  constructor
  · rintro (⟨s, hfound, w, hw, hsign⟩ | ⟨s, hs, -, hn, w, hw, rfl⟩)
    · obtain ⟨hs, hfiled⟩ := found_eq_some hfound
      rw [hfound, Option.map_some, Option.getD_some, word_varint hw] at hv
      rw [← hv, (lowWord_eq_iff w).mpr hsign]
      exact setTo_of_spot hs ((hname _).mp hfiled) hw
    · exact setTo_of_spot hs hn hw
  · rintro ⟨w, hmem, hval⟩
    obtain ⟨r, hr, hn, hw⟩ := Wire.mem_payloads.mp hmem
    rw [← Wire.map_record_spots 0 ps] at hr
    obtain ⟨s, hs, rfl⟩ := List.mem_map.mp hr
    by_cases hfound : found (fileUnder responseHeaderFields) d.name (Wire.spots 0 ps) = some s
    · -- what is kept reads as its own low word
      rw [hfound, Option.map_some, Option.getD_some, word_varint hw] at hv
      exact .inl ⟨s, hfound, w, hw, (lowWord_eq_iff w).mp (hv.trans hval.symm)⟩
    · exact .inr ⟨s, hs, hfound, hn, w, hw, hval⟩

/-! ## Successes -/

/-- A header has been sent, in front of `rest`, and each byte of its length comes at one
read: whether all of the header comes, and whether there is memory for it, is left open. -/
def HeaderSent (s : Conn) (header rest : List UInt8) : Prop :=
  ∃ ws as₁ as₂, Varint.Encodes header.length ws ∧ ws.length ≤ 5 ∧ header.length < 2 ^ 31 ∧
    s.incoming = ws ++ (header ++ rest) ∧ s.reads = as₁ ++ as₂ ∧ Transfer.Live as₁ ∧
    as₁.length = ws.length

/-- Whichever call of the proxy it answers, and however it arrives: a header is
part of a success only if it sets the id to that of the last call, and the
status to zero. -/
def SucceedsOnlyIfSet (env : Env) (ps : List Wire.Piece) (caller_id : BitVec 32) : Prop :=
  ∀ (l : Locals) (s : Conn) (rest : List UInt8),
    s.proxy.caller_id = caller_id → HeaderSent s (Wire.written ps) rest →
    ∀ r u, (recvRpcResponse env l).run s = .ret r u → r.response_type = .succeed →
      SetTo (Wire.records ps) 1 (caller_id - 1) ∧ SetTo (Wire.records ps) 2 0

/-- The library takes no fields from the header: it is empty, too large, or has a group. -/
def Refused (ps : List Wire.Piece) : Prop :=
  ps = [] ∨ heapMax < (Wire.written ps).length ∨ Wire.HasGroup ps ∨
    recordsMax < (Wire.spots 0 ps).length

/-- What is part of a success has arrived. -/
theorem arrives_of_succeed (hsent : HeaderSent s header rest)
    (hrun : (recvRpcResponse env l).run s = .ret r u) (hr : r.response_type = .succeed) :
    ∃ left, HeaderArrives s header rest left := by
  obtain ⟨ws, as₁, as₂, henc, hfive, hlt, hin, hreads, hlive, hlen⟩ := hsent
  have hread := readRawVarint32_run henc hfive hin hreads hlive hlen l.tmp l.slice_len
  by_cases hpos : 0 < header.length
  · have hws : LengthWord header.length ws := ⟨henc, hfive, hpos, hlt⟩
    by_cases hmem : s.HasMemory
    · rw [recvRpcResponse_length hws hin hreads hlive hlen hmem,
        Transfer.carry_of_le (by simp)] at hrun
      by_cases hdone : (Transfer.carry as₂ header.length header.length).ending = .done
      · exact ⟨_, hmem, ws, as₁, as₂, hws, hin, hreads, hlive, hlen, hdone, rfl⟩
      · cases hend : (Transfer.carry as₂ header.length header.length).ending with
        | done => exact absurd hend hdone
        | failed =>
            rw [haveRead, hend] at hrun
            cases hrun
            cases hr
        | waiting =>
            rw [haveRead, hend] at hrun
            cases hrun
    · -- there is no memory for the header
      have hmalloc := malloc_run_null (s := s.setIncoming (header ++ rest) as₂) hmem
      rw [recvRpcResponse, Prog.run_bind, hread, Outcome.andThen_ret] at hrun
      dsimp only at hrun
      rw [hws.toInt, if_neg (by omega)] at hrun
      change ((malloc.run (s.setIncoming (header ++ rest) as₂)).andThen _) = _ at hrun
      rw [hmalloc] at hrun
      cases hrun
      cases hr
  · -- a header of no bytes is not read
    obtain hzero : header.length = 0 := by omega
    rw [recvRpcResponse, Prog.run_bind, hread, Outcome.andThen_ret, hzero] at hrun
    cases hrun
    cases hr

/-- Only what is read as accepted leads to a success. -/
theorem accepted_of_succeed {callId status version : BitVec 32}
    (hsaid : Says env header callId status version) (hsent : HeaderSent s header rest)
    (hrun : (recvRpcResponse env l).run s = .ret r u) (hr : r.response_type = .succeed) :
    callId = s.proxy.caller_id - 1 ∧ status = 0 := by
  obtain ⟨left, harrives⟩ := arrives_of_succeed hsent hrun hr
  rw [recvRpcResponse_said harrives hsaid] at hrun
  split at hrun
  · cases hrun
    cases hr
  · rename_i hid
    split at hrun
    · rename_i hzero
      exact ⟨not_not.mp hid, hzero⟩
    · split at hrun <;> cases hrun <;> cases hr

/-- No header that the library refuses is part of a success. -/
theorem not_refused_of_succeed (henv : ResponseHeaderType env)
    (hsent : HeaderSent s (Wire.written ps) rest)
    (hrun : (recvRpcResponse env l).run s = .ret r u) (hr : r.response_type = .succeed) :
    ¬ Refused ps := by
  obtain ⟨left, harrives⟩ := arrives_of_succeed hsent hrun hr
  obtain ⟨ws, as₁, as₂, hws, -⟩ := harrives.arrives
  have hlt := hws.lt
  have hfit : (Wire.written ps).length < 2 ^ 32 := by omega
  obtain ⟨hheap, hgroup, hmany⟩ := header_unread henv hfit
  rw [recvRpcResponse_header harrives] at hrun
  have hread : rmessageNew env (lit "hadoop.common.RpcResponseHeaderProto") (Wire.written ps) ≠
      none := by
    intro hnone
    rw [dispatchResponse_unread hnone] at hrun
    cases hrun
  have hle : (Wire.written ps).length ≤ heapMax := Nat.le_of_not_lt fun hlarge => hread (hheap hlarge)
  rintro (rfl | hlarge | hhas | hrecords)
  · exact absurd hws.pos (by simp)
  · omega
  · rw [dispatchResponse, hgroup hle hhas] at hrun
    cases hrun
    cases hr
  · by_cases hhas : Wire.HasGroup ps
    · rw [dispatchResponse, hgroup hle hhas] at hrun
      cases hrun
      cases hr
    · exact hread (hmany hhas hrecords)

/-- The library reads a header that it does not refuse, a missing field as zero. -/
theorem says_accepted (henv : ResponseHeaderType env) (hdefaults : ResponseHeaderDefaults env)
    (hps : ¬ Refused ps) :
    ∃ version, Says env (Wire.written ps) (headerWord (lit "callId") 0 ps)
      (headerWord (lit "status") 0 ps) version := by
  obtain ⟨m, f₁, f₂, d₁, d₂, hreg, -, -, hf₁, -, hf₂, -, hsays⟩ := says_found henv
  obtain ⟨m', hreg', hzero₁, hzero₂⟩ := hdefaults.registered
  obtain rfl : m = m' := Option.some.inj
    ((registered_iff.mp hreg).symm.trans (registered_iff.mp hreg'))
  have hd₁ : d₁ = 0 := by
    obtain ⟨hi, hd⟩ := hf₁.default_eq
    rw [hzero₁ f₁ hf₁.byId, Field.numberVar] at hd
    split at hd
    · cases hd
    · rw [Var.integer.injEq, Longlong.mk.injEq] at hd
      exact hd.1.symm
  have hd₂ : d₂ = 0 := by
    obtain ⟨hi, hd⟩ := hf₂.default_eq
    rw [hzero₂ f₂ hf₂.byId, Field.numberVar] at hd
    split at hd
    · exact (Var.enum.inj hd).symm
    · cases hd
  subst hd₁ hd₂
  simp only [Refused, not_or, Nat.not_lt] at hps
  exact hsays hps.2.2.1 hps.2.1 hps.2.2.2

/-- A proxy that is sent a header with a payload of one byte. -/
def headerConn (caller_id : BitVec 32) (header : List UInt8) : Conn where
  proxy := ⟨caller_id, .client, .rm, clientRmProtocolName, -1⟩
  incoming := Varint.encode header.length ++ (header ++ lengthPrefixed [42])
  outgoing := []
  reads := List.replicate (header.length + 10) (.upTo (header.length + 10))
  writes := []
  allocs := []
  printed := []

theorem headerSent_headerConn (caller_id : BitVec 32) (hlt : header.length < 2 ^ 31) :
    HeaderSent (headerConn caller_id header) header (lengthPrefixed [42]) := by
  have hfive : (Varint.encode header.length).length ≤ 5 :=
    Varint.encode_length_le (Nat.lt_trans hlt (by decide))
  refine ⟨_, (headerConn caller_id header).reads.take (Varint.encode header.length).length, _,
    Varint.encodes_encode _, hfive, hlt, rfl, (List.take_append_drop _ _).symm,
    fun a ha => ⟨header.length + 10, by omega, List.eq_of_mem_replicate (List.mem_of_mem_take ha)⟩,
    ?_⟩
  rw [List.length_take_of_le]
  simp only [headerConn, List.length_replicate]
  omega

/-- Every header that is read as accepted is part of a success. -/
theorem succeeds_of_says (hpos : 0 < header.length) (hlt : header.length < 2 ^ 31)
    {version : BitVec 32} (hsaid : Says env header (caller_id - 1) 0 version) :
    ∃ r u, (recvRpcResponse env zeroLocals).run (headerConn caller_id header) = .ret r u ∧
      r.response_type = .succeed := by
  have hword := lengthWord_encode hpos hlt
  have hshort := hword.short
  have hlen : (headerConn caller_id header).incoming.length ≤ header.length + 10 := by
    simp only [headerConn, List.length_append, lengthPrefixed_length, List.length_singleton]
    omega
  have hwhole : WholeReads (header.length + 10) (headerConn caller_id header).reads :=
    fun a ha => ⟨_, Nat.le_refl _, List.eq_of_mem_replicate ha⟩
  have hreads : (headerConn caller_id header).reads.length = header.length + 10 :=
    List.length_replicate
  have hstatus : (Reply.success [42]).HasStatus 0 := rfl
  have hfits : (Reply.success [42]).Fits := by
    rw [Reply.Fits]
    decide
  have hin : (headerConn caller_id header).incoming = Varint.encode header.length ++
      (header ++ ((Reply.success [42]).head ++ [])) := by
    rw [List.append_nil]
    rfl
  obtain ⟨left, ds, allocs, -, -, -, hrun⟩ := recvRpcResponse_whole (l := zeroLocals)
    (s := headerConn caller_id header) hsaid rfl hstatus hfits hword hin
    (fun a ha => (hwhole a ha).imp fun k hk => ⟨by omega, hk.2⟩) (by omega) (by simp [headerConn])
  exact ⟨_, _, hrun, rfl⟩

/-- Only a header that sets both fields is part of a success, exactly if the library refuses
it, or the number that it keeps for a field is not the accepted one, or both are told. -/
theorem succeedsOnlyIfSet_iff (henv : ResponseHeaderType env)
    (hdefaults : ResponseHeaderDefaults env) (ps : List Wire.Piece) (caller_id : BitVec 32) :
    SucceedsOnlyIfSet env ps caller_id ↔
      Refused ps ∨ headerWord (lit "callId") 0 ps ≠ caller_id - 1 ∨
        headerWord (lit "status") 0 ps ≠ 0 ∨
        (TellsNumber ps (lit "callId") 1 (caller_id - 1) ∧ TellsNumber ps (lit "status") 2 0) := by
  have hcallId : ⟨lit "callId", 1, .required, .uint32⟩ ∈ responseHeaderFields := by decide
  have hstatus : ⟨lit "status", 2, .required, .enum⟩ ∈ responseHeaderFields := by decide
  constructor
  · intro h
    by_contra hcond
    simp only [not_or, not_not] at hcond
    obtain ⟨hps, hid, hzero, htells⟩ := hcond
    obtain ⟨version, hsaid⟩ := says_accepted henv hdefaults hps
    rw [hid, hzero] at hsaid
    simp only [Refused, not_or, Nat.not_lt] at hps
    have hheap : heapMax < 2 ^ 31 := by decide
    have hlt : (Wire.written ps).length < 2 ^ 31 := Nat.lt_of_le_of_lt hps.2.1 hheap
    have hpos := List.length_pos_of_ne_nil (mt Wire.written_eq_nil.mp hps.1)
    obtain ⟨r, u, hrun, hr⟩ := succeeds_of_says hpos hlt hsaid
    obtain ⟨hset₁, hset₂⟩ := h _ _ _ rfl (headerSent_headerConn caller_id hlt) r u hrun hr
    exact htells ⟨(tellsNumber_iff_setTo hcallId hid).mpr hset₁,
      (tellsNumber_iff_setTo hstatus hzero).mpr hset₂⟩
  · rintro h l s rest rfl hsent r u hrun hr
    have hps := not_refused_of_succeed henv hsent hrun hr
    obtain ⟨version, hsaid⟩ := says_accepted henv hdefaults hps
    obtain ⟨hid, hzero⟩ := accepted_of_succeed hsaid hsent hrun hr
    obtain ⟨htells₁, htells₂⟩ := ((h.resolve_left hps).resolve_left (not_not.mpr hid)).resolve_left
      (not_not.mpr hzero)
    exact ⟨(tellsNumber_iff_setTo hcallId hid).mp htells₁,
      (tellsNumber_iff_setTo hstatus hzero).mp htells₂⟩

/-- The bytes `08 00 10 00`. -/
def bothFields : List Wire.Piece := Wire.pieces (responseHeader 0 0)

/-- A header that sets both fields. -/
theorem succeedsOnlyIfSet_both : SucceedsOnlyIfSet protocolEnv bothFields 1 :=
  (succeedsOnlyIfSet_iff protocolEnv_responseHeaderType protocolEnv_responseHeaderDefaults
    bothFields 1).mpr (.inr (.inr (.inr
      ⟨.inl ⟨⟨⟨1, .varint 0, by decide, by decide⟩, 2⟩, rfl, 0, rfl, by decide⟩,
        .inl ⟨⟨⟨2, .varint 0, by decide, by decide⟩, 4⟩, rfl, 0, rfl, by decide⟩⟩)))

/-- The bytes `10 00`. -/
def statusOnly : List Wire.Piece := Wire.pieces (Wire.fields [(2, .varint 0)])

/-- A header without an id is part of a success for the first call. -/
theorem no_callId_accepted : ¬ ∀ (env : Env) (ps : List Wire.Piece) (caller_id : BitVec 32),
    ResponseHeaderType env → ResponseHeaderDefaults env → SucceedsOnlyIfSet env ps caller_id := by
  intro hclaim
  have hsent : HeaderSent (headerConn 1 [16, 0]) (Wire.written statusOnly) (lengthPrefixed [42]) :=
    headerSent_headerConn 1 (by decide)
  have hvalue : ((recvRpcResponse protocolEnv zeroLocals).run
      (headerConn 1 [16, 0])).value? = some ⟨.succeed, some ([42], 1)⟩ := by
    decide +kernel
  obtain ⟨u, hrun⟩ := Outcome.value?_eq_some.mp hvalue
  obtain ⟨⟨w, hw, -⟩, -⟩ := hclaim protocolEnv statusOnly 1 protocolEnv_responseHeaderType
    protocolEnv_responseHeaderDefaults zeroLocals _ _ rfl hsent _ u hrun rfl
  have hnone : Wire.payloads 1 (Wire.records statusOnly) = [] := by decide
  rw [hnone] at hw
  cases hw

end HdClient
