-- SUMMARY: Whether send_rpc_request sends a whole frame or nothing, also where no header could be generated for it.
import HdClient.Client.Effects
import HdClient.Client.RawVarint
import HdClient.Rpc.Outbound

/-! # Whole frames

A request whose header cannot be generated is written all the same, behind a
header that is null and of whatever length happens to be in `header_len`. -/

namespace HdClient

open Pbc Conn

variable {env : Env} {l : Locals} {s : Conn} {payload : List UInt8}

/-- A frame as a server reads it, to which the length in front of it is an `int`. -/
structure WholeFrame (caller_id : BitVec 32) (payload bytes : List UInt8) : Prop where
  length : (intEndianSwap (Word.ofLe (bytes.take 4))).toInt = (bytes.drop 4).length
  fields : ∃ rs, FrameFormat (rs, payload) bytes ∧ Wire.SetsOnce rs 1 (.varint 2) ∧
    Wire.SetsOnce rs 2 (.varint 0) ∧ Wire.SetsOnce rs 3 (.varint (caller_id.setWidth 64))

theorem wholeFrame_frame_iff {caller_id : BitVec 32} (hpayload : payload.length < 2 ^ 31) :
    WholeFrame caller_id payload (frame caller_id payload) ↔
      (frameBody caller_id payload).length < 2 ^ 31 := by
  have hlt : (frameBody caller_id payload).length < 2 ^ 32 :=
    Nat.lt_of_le_of_lt (frameBody_length hpayload caller_id) (by omega)
  have htake : (frame caller_id payload).take 4 =
      Word.be32 (frameBody caller_id payload).length := by
    rw [frame, List.take_append_of_le_length (by simp), List.take_of_length_le (by simp)]
  have hdrop : (frame caller_id payload).drop 4 = frameBody caller_id payload := by
    rw [frame, List.drop_append_of_le_length (by simp)]
    rfl
  rw [← lengthWord_iff]
  constructor
  · intro h
    simpa only [htake, hdrop] using h.length
  · intro h
    exact ⟨by rw [htake, hdrop, h], _, frame_format hlt, requestHeader_rpcKind _,
      requestHeader_rpcOp _, requestHeader_callId _⟩

/-- No header can be generated: `RpcPayloadHeaderProto` is not registered. -/
def NoHeaderType (env : Env) : Prop :=
  wmessageNew env (lit "hadoop.common.RpcPayloadHeaderProto") = some none

/-- A request is sent in full or, when its header cannot be generated, not at all. -/
def AllOrNothing (env : Env) (l : Locals) (s : Conn) (payload : List UInt8) : Prop :=
  ∃ rc t, (sendRpcRequest env l (some payload) (sliceLen payload)).run s = .ret rc t ∧
    ((∃ u, (generateRequestHeader env s.proxy.caller_id).run s = .ret none u) →
      rc ≠ 0 ∧ t.proxy.caller_id = s.proxy.caller_id ∧ t.outgoing = s.outgoing) ∧
    (rc = 0 → t.proxy.caller_id = s.proxy.caller_id + 1 ∧
      ∃ bytes, t.outgoing = s.outgoing ++ bytes ∧ WholeFrame s.proxy.caller_id payload bytes)

/-! ## With a header -/

/-- How `write` answers the request, whose header could be generated. -/
def frameTransfer (s : Conn) (payload : List UInt8) : Transfer :=
  Transfer.carryAll s.writes (frameParts s.proxy.caller_id payload)

theorem allOrNothing_generated (henv : RequestHeaderType env) (hpayload : payload.length < 2 ^ 31)
    (hmoving : Transfer.Moving s.writes)
    (hlong : (frame s.proxy.caller_id payload).length ≤ s.writes.length) :
    AllOrNothing env l s payload ↔
      (frameBody s.proxy.caller_id payload).length < 2 ^ 31 ∨
        (frameTransfer s payload).ending = .failed := by
  have hsend := sendRpcRequest_run henv l s hpayload
  have hheader : ¬ ∃ u, (generateRequestHeader env s.proxy.caller_id).run s = .ret none u := by
    rw [generateRequestHeader_run henv]
    simp
  rw [← frameParts_sum] at hlong
  unfold AllOrNothing frameTransfer
  cases hend : (Transfer.carryAll s.writes (frameParts s.proxy.caller_id payload)).ending with
  | waiting => exact absurd hend (hmoving.carryAll_ends hlong)
  | failed =>
      obtain ⟨ds, hret⟩ := hsend.failed hend
      exact iff_of_true ⟨_, _, hret, fun h => absurd h hheader, by simp⟩ (.inr rfl)
  | done =>
      have hcar := Transfer.carryAll_of_done hend
      rw [frameParts_sum] at hcar
      have hret : (sendRpcRequest env l (some payload) (sliceLen payload)).run s = .ret 0 _ :=
        hsend.done hend
      rw [← wholeFrame_frame_iff hpayload]
      constructor
      · rintro ⟨rc, t, hrun, -, hwhole⟩
        rw [hret] at hrun
        cases hrun
        obtain ⟨-, bytes, hout, hbytes⟩ := hwhole rfl
        have heq : frame s.proxy.caller_id payload = bytes := by
          simpa [Conn.sent, hcar] using hout
        exact .inl (heq ▸ hbytes)
      · rintro (hbytes | hfail)
        · refine ⟨0, _, hret, fun h => absurd h hheader, fun _ => ⟨rfl, _, ?_, hbytes⟩⟩
          simp [Conn.sent, hcar]
        · cases hfail

/-! ## Without a header -/

/-- What is sent is not taken back. -/
private def Grows (s t : Conn) : Prop := s.outgoing.length ≤ t.outgoing.length

private theorem grows_frame : ConnFrame Grows where
  refl _ := Nat.le_refl _
  trans h h' := Nat.le_trans h h'
  read n s := by
    obtain ⟨proxy, incoming, outgoing, reads, writes, allocs, printed⟩ := s
    rcases reads with _ | ⟨_ | k, as⟩ <;> exact Nat.le_refl _
  write bytes s := by
    obtain ⟨proxy, incoming, outgoing, reads, writes, allocs, printed⟩ := s
    rcases writes with _ | ⟨_ | k, as⟩
    · exact Nat.le_refl _
    · exact Nat.le_refl _
    · exact (List.prefix_append _ _).length_le
  malloc s := by
    obtain ⟨proxy, incoming, outgoing, reads, writes, allocs, printed⟩ := s
    rcases allocs with _ | ⟨a, as⟩ <;> exact Nat.le_refl _
  print _ _ _ := Nat.le_refl _

/-- The connection once it is known that there is no header. -/
private def headless (s : Conn) : Conn :=
  (s.printing .noPayloadHeaderProto).printing .generateHeaderFailed

private theorem sendRpcRequest_headless (henv : NoHeaderType env) :
    (sendRpcRequest env l (some payload) (sliceLen payload)).run s =
      ((writeRequest none l.header_len (some payload) (sliceLen payload)).run (headless s)).andThen
        fun rc => orFail rc .writePayloadFailed countCall := by
  have hgen : (generateRequestHeader env s.proxy.caller_id).run s =
      .ret none (s.printing .noPayloadHeaderProto) := by
    rw [generateRequestHeader, henv]
    rfl
  unfold sendRpcRequest
  simp only [Prog.run_bind, Prog.run_get, Outcome.andThen_ret, hgen]
  rfl

/-- After its first write, a request only sends more. -/
private theorem writeRequest_first {header_len : BitVec 32} (hlen : 0 ≤ header_len.toInt)
    (hpayload : payload.length < 2 ^ 31) :
    ∃ (word : BitVec 32) (rest : Prog Conn ℤ), Prog.Keeps Grows rest ∧
      writeRequest none header_len (some payload) (sliceLen payload) =
        writeAll (some (Word.le word)) 4 >>= fun rc => orFail rc .writeTotalFailed rest := by
  unfold writeRequest
  rw [(writeRawVarint32_nonneg hlen).1, sliceLen_vint hpayload]
  refine ⟨_, _, ?_, rfl⟩
  refine grows_frame.keeps_bind (grows_frame.writeAll _ _) fun _ => grows_frame.orFail rfl ?_
  refine grows_frame.keeps_bind (grows_frame.writeAll _ _) fun _ => grows_frame.orFail rfl ?_
  refine grows_frame.keeps_bind (grows_frame.writeAll _ _) fun _ => grows_frame.orFail rfl ?_
  refine grows_frame.keeps_bind (grows_frame.writeAll _ _) fun _ => grows_frame.orFail rfl ?_
  exact grows_frame.keeps_pure _

private theorem writeAll_word (word : BitVec 32) (s : Conn) :
    (writeAll (some (Word.le word)) 4).run s =
      wroteAll s (Word.le word) (Transfer.carry s.writes 4 4) :=
  writeAll_run (by decide : (0 : ℤ) ≤ 4) (by simp : (4 : ℤ).toNat ≤ (Word.le word).length) s

/-- A first write that fails at once leaves the connection as it was. -/
private theorem sendRpcRequest_stopped (henv : NoHeaderType env) (hlen : 0 ≤ l.header_len.toInt)
    (hpayload : payload.length < 2 ^ 31) (hfail : s.writes.head? = some .fail) :
    ∃ t, (sendRpcRequest env l (some payload) (sliceLen payload)).run s = .ret (-1) t ∧
      t.proxy = s.proxy ∧ t.outgoing = s.outgoing := by
  obtain ⟨word, rest, -, heq⟩ := writeRequest_first hlen hpayload
  obtain ⟨as, hwrites⟩ := List.head?_eq_some_iff.mp hfail
  have hwrites' : (headless s).writes = .fail :: as := hwrites
  rw [sendRpcRequest_headless henv, heq, Prog.run_bind, writeAll_word, hwrites',
    Transfer.carry_fail (by decide)]
  exact ⟨_, rfl, rfl, List.append_nil _⟩

/-- Otherwise something has been sent by the time the call returns. -/
private theorem sendRpcRequest_sent (henv : NoHeaderType env) (hlen : 0 ≤ l.header_len.toInt)
    (hpayload : payload.length < 2 ^ 31) (hmoving : Transfer.Moving s.writes)
    (hfirst : s.writes.head? ≠ some .fail) (hne : s.writes ≠ []) :
    ((sendRpcRequest env l (some payload) (sliceLen payload)).run s).wp
      (fun _ t => s.outgoing.length < t.outgoing.length) fun _ => True := by
  obtain ⟨word, rest, hrest, heq⟩ := writeRequest_first hlen hpayload
  have hpos := Transfer.Moving.carried_pos hmoving (by decide : 0 < 4) hfirst hne
  have hwrites : (headless s).writes = s.writes := rfl
  rw [sendRpcRequest_headless henv, heq, Outcome.wp_andThen, Prog.wp_bind, writeAll_word, hwrites]
  generalize Transfer.carry s.writes 4 4 = carried at hpos
  have hsent : s.outgoing.length < ((headless s).sent (Word.le word) carried).outgoing.length := by
    simp only [Conn.sent, headless, Conn.printing, List.length_append, List.length_take,
      Word.le_length]
    omega
  have hlast : ∀ rc, Prog.Keeps Grows (orFail rc .writePayloadFailed countCall) := fun rc =>
    grows_frame.orFail rfl
      (grows_frame.keeps_bind (fun _ => Nat.le_refl _) fun _ => grows_frame.keeps_pure _)
  have hmore : ∀ (rc : ℤ) (u : Conn), s.outgoing.length < u.outgoing.length →
      ((orFail rc .writeTotalFailed rest).run u).wp
        (fun rc t => ((orFail rc .writePayloadFailed countCall).run t).wp
          (fun _ t => s.outgoing.length < t.outgoing.length) fun _ => True) fun _ => True := by
    intro rc u hu
    refine ((grows_frame.orFail rfl hrest).wp u).mono ?_ fun _ _ => trivial
    rintro rc' v ⟨-, hv⟩
    refine ((hlast rc').wp v).mono ?_ fun _ _ => trivial
    rintro rc'' w ⟨-, hw⟩
    exact Nat.lt_of_lt_of_le hu (Nat.le_trans hv hw)
  unfold wroteAll
  split
  · exact hmore 0 _ hsent
  · exact hmore (-1) _ hsent
  · trivial

theorem allOrNothing_headless (henv : NoHeaderType env) (hpayload : payload.length < 2 ^ 31)
    (hmoving : Transfer.Moving s.writes) (hne : s.writes ≠ []) :
    AllOrNothing env l s payload ↔
      0 ≤ l.header_len.toInt ∧ s.writes.head? = some .fail := by
  have hheader : ∃ u, (generateRequestHeader env s.proxy.caller_id).run s = .ret none u := by
    rw [generateRequestHeader, henv]
    exact ⟨_, rfl⟩
  constructor
  · rintro ⟨rc, t, hrun, hnothing, -⟩
    obtain ⟨-, -, hout⟩ := hnothing hheader
    have hlen : 0 ≤ l.header_len.toInt := by
      by_contra hneg
      rw [sendRpcRequest_headless henv, writeRequest,
        writeRawVarint32_negative _ (by omega)] at hrun
      cases hrun
    refine ⟨hlen, ?_⟩
    by_contra hfirst
    have hmore := (sendRpcRequest_sent henv hlen hpayload hmoving hfirst hne).of_ret hrun
    exact absurd (congrArg List.length hout) (Nat.ne_of_gt hmore)
  · rintro ⟨hlen, hfail⟩
    obtain ⟨t, hrun, hproxy, hout⟩ := sendRpcRequest_stopped henv hlen hpayload hfail
    exact ⟨-1, t, hrun, fun _ => ⟨by decide, by rw [hproxy], hout⟩, by simp⟩

/-! ## Both -/

theorem NoHeaderType.not_requestHeaderType (h : NoHeaderType env) : ¬ RequestHeaderType env := by
  intro henv
  obtain ⟨m, hreg, -⟩ := henv.registered
  rw [NoHeaderType, wmessageNew_eq hreg] at h
  cases h

/-- `send_rpc_request` sends all or nothing exactly if a header can be generated,
and the frame has a length that is an `int` or is not sent in full; or if none can
be generated, `header_len` does not happen to be negative, and the first `write`
fails. -/
theorem allOrNothing_iff (henv : RequestHeaderType env ∨ NoHeaderType env)
    (hpayload : payload.length < 2 ^ 31) (hmoving : Transfer.Moving s.writes)
    (hlong : (frame s.proxy.caller_id payload).length ≤ s.writes.length) :
    AllOrNothing env l s payload ↔
      RequestHeaderType env ∧ ((frameBody s.proxy.caller_id payload).length < 2 ^ 31 ∨
          (frameTransfer s payload).ending = .failed) ∨
        NoHeaderType env ∧ 0 ≤ l.header_len.toInt ∧ s.writes.head? = some .fail := by
  rcases henv with hheader | hnone
  · have hnot : ¬ NoHeaderType env := fun hnone => hnone.not_requestHeaderType hheader
    rw [allOrNothing_generated hheader hpayload hmoving hlong]
    simp [hheader, hnot]
  · have hne : s.writes ≠ [] := by
      intro hnil
      rw [hnil, frame, List.length_append, Word.be32_length] at hlong
      exact absurd hlong (by simp)
    rw [allOrNothing_headless hnone hpayload hmoving hne]
    simp [hnone, hnone.not_requestHeaderType]

/-- A connection whose first `write` is answered by `first`, and the others in full. -/
def answeringConn (first : Ans) : Conn where
  proxy := ⟨0, .client, .rm, clientRmProtocolName, -1⟩
  incoming := []
  outgoing := []
  reads := []
  writes := first :: List.replicate 20 (.upTo 40)
  allocs := []
  printed := []

private theorem empty_noHeaderType : NoHeaderType .empty := rfl

/-- Without a header, nothing is sent if the first `write` fails. -/
theorem allOrNothing_failing : AllOrNothing .empty zeroLocals (answeringConn .fail) [] :=
  (allOrNothing_iff (.inr empty_noHeaderType) (by decide) (by unfold Transfer.Moving; decide)
    (by decide)).mpr (.inr ⟨empty_noHeaderType, by decide, rfl⟩)

/-- Without a header, a request is sent behind the length zero. -/
theorem headless_request_sent : ¬ ∀ (env : Env) (l : Locals) (s : Conn) (payload : List UInt8),
    RequestHeaderType env ∨ NoHeaderType env → payload.length < 2 ^ 31 →
    Transfer.Moving s.writes →
    (frame s.proxy.caller_id payload).length ≤ s.writes.length →
    AllOrNothing env l s payload := by
  intro hclaim
  have hall := hclaim .empty zeroLocals (answeringConn (.upTo 40)) [] (.inr empty_noHeaderType)
    (by decide) (by unfold Transfer.Moving; decide) (by decide)
  obtain ⟨rc, t, hrun, hnothing, -⟩ := hall
  have hret : (sendRpcRequest .empty zeroLocals (some []) (sliceLen [])).run
      (answeringConn (.upTo 40)) = .ret 0 _ := rfl
  rw [hret] at hrun
  cases hrun
  exact (hnothing ⟨_, rfl⟩).1 rfl

end HdClient
