-- SUMMARY: Responses that are rejected for their id, and how much of them is left on the stream.
import HdClient.Rpc.Responses

/-! # Rejected responses

A response to another call than the last one is rejected once its header has
been read. Nobody reads what follows the header. -/

namespace HdClient

open Pbc Conn

variable {env : Env} {l : Locals} {s u : Conn} {rs : List Wire.Record}
  {header ws rest : List UInt8} {reply : Reply} {callId status : BitVec 32} {n : ℕ}

/-- The part of `get_new_app` after the sending fails, and has read all but `rest`. -/
def FailsBefore (env : Env) (l : Locals) (s : Conn) (rest : List UInt8) : Prop :=
  ∃ u, (receiveAppId env l).run s = .ret (-1) u ∧ u.incoming = rest

/-- A response that is neither a success nor an exception is no more than reported. -/
theorem gives_receiveAppId_other (h : Gives n (recvRpcResponse env l) s .other u) :
    Gives n (receiveAppId env l) s (-1) (u.printing .otherError) := by
  refine h.bind (n := 0) ?_
  exact (gives_print .otherError u).bind (n := 0) (gives_pure _ _)

theorem failsBefore_of_gives (h : Gives n (receiveAppId env l) s (-1) u)
    (hlive : Transfer.Live s.reads) (hlen : n ≤ s.reads.length) :
    FailsBefore env l s u.incoming := by
  obtain ⟨left, -, -, hrun⟩ := h s.reads hlive hlen
  rw [Conn.withReads_self] at hrun
  exact ⟨_, hrun, rfl⟩

/-- There is one place only where the reading stops. -/
theorem FailsBefore.unique {rest' : List UInt8} (h : FailsBefore env l s rest)
    (h' : FailsBefore env l s rest') : rest = rest' := by
  obtain ⟨u, hrun, rfl⟩ := h
  obtain ⟨v, hrun', rfl⟩ := h'
  rw [hrun, Outcome.ret.injEq] at hrun'
  rw [hrun'.2]

/-- Something follows the header of a response that is not fatal. -/
theorem Reply.body_length (h : reply ≠ .fatal) : 4 ≤ (reply.head ++ reply.tail).length := by
  cases reply with
  | fatal => exact absurd rfl h
  | success payload => simp [Reply.head, Reply.tail, lengthPrefixed_length]
  | error class_ stack =>
      simp only [Reply.head, Reply.tail, exceptionBody, List.nil_append, List.length_append,
        lengthPrefixed_length]
      omega

/-- A response to another call is not skipped. The reading stops behind its
header, in front of its body, or behind the length of the header when there is no
memory for it; a header that is too large for the library is read without end. -/
theorem mismatch_not_skipped (henv : ResponseHeaderType env) (hrs : HeaderFields rs callId status)
    (hmsg : Wire.ShortMessage rs header) (hws : LengthWord header.length ws)
    (hreply : reply ≠ .fatal) (hid : callId ≠ s.proxy.caller_id - 1)
    (hin : s.incoming = ws ++ (header ++ (reply.head ++ reply.tail ++ rest)))
    (hlive : Transfer.Live s.reads) (hlong : s.incoming.length ≤ s.reads.length) :
    ¬ FailsBefore env l s rest ∧
      (Readable rs header ∨ ¬ s.HasMemory →
        FailsBefore env l s (if s.HasMemory then reply.head ++ reply.tail ++ rest
          else header ++ (reply.head ++ reply.tail ++ rest))) := by
  have hbody := Reply.body_length hreply
  have hlen : s.incoming.length =
      ws.length + (header.length + ((reply.head ++ reply.tail).length + rest.length)) := by
    simp only [hin, List.length_append]
  have hstops : Readable rs header ∨ ¬ s.HasMemory →
      FailsBefore env l s (if s.HasMemory then reply.head ++ reply.tail ++ rest
        else header ++ (reply.head ++ reply.tail ++ rest)) := by
    intro hcase
    split
    · rename_i hmem
      obtain ⟨version, hsaid⟩ := says_fields henv hrs hmsg (hcase.resolve_right (not_not.mpr hmem))
      have hdispatch := gives_dispatchResponse_mismatch (l := l)
        (s := s.atBody (reply.head ++ reply.tail ++ rest)) hsaid hid
      exact failsBefore_of_gives
        (gives_receiveAppId_other (gives_recvRpcResponse hws hin hmem hdispatch)) hlive (by omega)
    · rename_i hmem
      have hrefused : Gives ws.length (recvRpcResponse env l) s .other _ :=
        gives_recvRpcResponse_noMemory hws hin hmem
      have hnone := failsBefore_of_gives (gives_receiveAppId_other hrefused) hlive (by omega)
      simpa [hin] using hnone
  refine ⟨fun hskips => ?_, hstops⟩
  by_cases hcase : Readable rs header ∨ ¬ s.HasMemory
  · have hrest := congrArg List.length (hskips.unique (hstops hcase))
    split at hrest <;> simp only [List.length_append] at hrest hbody <;> omega
  · obtain ⟨hlarge, hmem⟩ := not_or.mp hcase
    obtain ⟨harrives, -⟩ := headerArrives_live hws hin hlive (by omega) (not_not.mp hmem)
    obtain ⟨t, hrun⟩ := recvRpcResponse_unreadable (l := l) henv hmsg hlarge harrives
    obtain ⟨u, hret, -⟩ := hskips
    rw [receiveAppId, Prog.run_bind, hrun] at hret
    cases hret

private theorem late_hin : (awaitingConn [4, 8, 5, 16, 0, 0, 0, 0, 1, 42, 43]).incoming =
    [4] ++ ([8, 5, 16, 0] ++ ((Reply.success [42]).head ++ (Reply.success [42]).tail ++ [43])) := by
  decide

private theorem late_lengthWord : LengthWord [8, 5, 16, 0].length [4] :=
  lengthWord_encode (by decide) (by decide)

private theorem late_message : Wire.ShortMessage (responseHeader 5 0) [8, 5, 16, 0] :=
  Wire.shortMessage_encode (responseHeader 5 0) (by decide)

private theorem awaitingConn_live (incoming : List UInt8) :
    Transfer.Live (awaitingConn incoming).reads :=
  fun _ ha => ⟨40, by decide, List.eq_of_mem_replicate ha⟩

/-- The answer to another call, with a payload of one byte, in front of one more byte. -/
theorem mismatch_not_skipped_late :
    ¬ FailsBefore protocolEnv zeroLocals (awaitingConn [4, 8, 5, 16, 0, 0, 0, 0, 1, 42, 43]) [43] ∧
      FailsBefore protocolEnv zeroLocals (awaitingConn [4, 8, 5, 16, 0, 0, 0, 0, 1, 42, 43])
        [0, 0, 0, 1, 42, 43] :=
  let h := mismatch_not_skipped protocolEnv_responseHeaderType (responseHeader_fields 5 0)
    late_message late_lengthWord (by decide : Reply.success [42] ≠ .fatal) (by decide) late_hin
    (awaitingConn_live _) (by decide)
  ⟨h.1, h.2 (.inl (by decide))⟩

/-- A response to another call is not skipped. -/
theorem late_response_left : ¬ ∀ (env : Env) (l : Locals) (s : Conn) (rs : List Wire.Record)
    (header ws rest : List UInt8) (reply : Reply) (callId status : BitVec 32),
    ResponseHeaderType env → HeaderFields rs callId status → Wire.ShortMessage rs header →
    LengthWord header.length ws → reply ≠ .fatal → reply.HasStatus status → reply.Fits →
    Readable rs header → callId ≠ s.proxy.caller_id - 1 →
    s.incoming = ws ++ (header ++ (reply.head ++ reply.tail ++ rest)) →
    Transfer.Live s.reads → s.incoming.length ≤ s.reads.length →
    FailsBefore env l s rest := by
  intro hclaim
  have hskips := hclaim protocolEnv zeroLocals _ _ _ _ [43] (.success [42]) 5 0
    protocolEnv_responseHeaderType (responseHeader_fields 5 0) late_message late_lengthWord
    (by decide) rfl (by rw [Reply.Fits]; decide) (by decide) (by decide) late_hin
    (awaitingConn_live _) (by decide)
  have hvalue : ((receiveAppId protocolEnv zeroLocals).run
      (awaitingConn [4, 8, 5, 16, 0, 0, 0, 0, 1, 42, 43])).state.incoming =
        [0, 0, 0, 1, 42, 43] := by decide +kernel
  obtain ⟨u, hrun, hleft⟩ := hskips
  rw [hrun, Outcome.state_ret, hleft] at hvalue
  exact absurd hvalue (by decide)

end HdClient
