-- SUMMARY: When the result of receiving a response does not depend on the reads that the bytes arrive in.
import HdClient.Rpc.Responses

/-! # Segmentation -/

namespace HdClient

open Pbc Conn

/-- `recv_rpc_response`, and `read_exception` when it returns `RESPONSE_ERROR`. -/
def receive (env : Env) (l : Locals) :
    Prog Conn (RpcResponse × Option (Option (List UInt8 × List UInt8))) := do
  let response ← recvRpcResponse env l
  if response.response_type = .error then do
    let exception ← readException
    pure (response, some exception)
  else pure (response, none)

/-- Two runs returned the same, and left the same bytes unread. -/
def SameResult {α : Type} (o₁ o₂ : Outcome Conn α) : Prop :=
  ∃ a t₁ t₂, o₁ = .ret a t₁ ∧ o₂ = .ret a t₂ ∧ t₁.incoming = t₂.incoming

theorem Gives.sameResult {α : Type} {cost : ℕ} {x : Prog Conn α} {s u : Conn} {a : α}
    (h : Gives cost x s a u) {as₁ as₂ : List Ans} (h₁ : Transfer.Live as₁)
    (h₂ : Transfer.Live as₂) (hlen₁ : cost ≤ as₁.length) (hlen₂ : cost ≤ as₂.length) :
    SameResult (x.run (s.withReads as₁)) (x.run (s.withReads as₂)) := by
  obtain ⟨left₁, -, -, hrun₁⟩ := h as₁ h₁ hlen₁
  obtain ⟨left₂, -, -, hrun₂⟩ := h as₂ h₂ hlen₂
  exact ⟨a, _, _, hrun₁, hrun₂, rfl⟩

variable {env : Env} {l : Locals} {s u : Conn} {header ws rest : List UInt8}
  {callId status version : BitVec 32}

theorem gives_receive_none {cost : ℕ} {r : RpcResponse}
    (h : Gives cost (recvRpcResponse env l) s r u) (hr : r.response_type ≠ .error) :
    Gives cost (receive env l) s (r, none) u := by
  refine h.bind (n := 0) ?_
  rw [if_neg hr]
  exact gives_pure _ _

/-- A response other than a success gives the same however it arrives. -/
theorem gives_receive (hsaid : Says env header callId status version) {reply : Reply}
    (hstatus : reply.HasStatus status) (hfits : reply.Fits) (hws : LengthWord header.length ws)
    (hin : s.incoming = ws ++ (header ++ (reply.head ++ (reply.tail ++ rest))))
    (h : ¬ s.HasMemory ∨ callId ≠ s.proxy.caller_id - 1 ∨ status ≠ 0) :
    ∃ cost a u, cost ≤ s.incoming.length ∧ Gives cost (receive env l) s a u := by
  have hcount : s.incoming.length =
      ws.length + (header.length + (reply.head.length + (reply.tail.length + rest.length))) := by
    simp only [hin, List.length_append]
  by_cases hmem : s.HasMemory
  · by_cases hid : callId = s.proxy.caller_id - 1
    · have hne := (h.resolve_left (not_not.mpr hmem)).resolve_left (not_not.mpr hid)
      cases reply with
      | success payload => exact absurd hstatus hne
      | fatal =>
          exact ⟨_, _, _, by omega, gives_receive_none (gives_recvRpcResponse hws hin hmem
            (gives_dispatchResponse_fatal hsaid hid hstatus)) (by decide)⟩
      | error exception_class exception_stack =>
          have hrecv := gives_recvRpcResponse (l := l) hws hin hmem
            (gives_dispatchResponse_error hsaid hid hstatus)
          obtain ⟨hclass, hstack⟩ := hfits
          have hbody : (s.atBody (exceptionBody exception_class exception_stack ++ rest)).incoming =
              exceptionBody exception_class exception_stack ++ rest := rfl
          have hexception : ∃ e u, Gives (exceptionBody exception_class exception_stack).length
              readException (s.atBody (exceptionBody exception_class exception_stack ++ rest)) e u := by
            by_cases hmem' : s.tookMemory.HasMemory ∧ s.tookMemory.tookMemory.HasMemory
            · exact ⟨_, _, gives_readException (by omega) (by omega) hbody hmem'.1 hmem'.2⟩
            · obtain ⟨u, hu, -⟩ := gives_readException_null (by omega) hbody hmem'
              exact ⟨_, u, hu⟩
          obtain ⟨e, u, hu⟩ := hexception
          refine ⟨_, (⟨.error, none⟩, some e), u, ?_, hrecv.bind
            (n := (exceptionBody exception_class exception_stack).length) ?_⟩
          · simp only [Reply.head, Reply.tail, List.length_nil] at hcount
            omega
          · rw [if_pos rfl]
            exact hu.bind (n := 0) (gives_pure _ _)
    · exact ⟨_, _, _, by omega, gives_receive_none (gives_recvRpcResponse hws hin hmem
        (gives_dispatchResponse_mismatch hsaid hid)) (by decide)⟩
  · exact ⟨_, _, _, by omega, gives_receive_none
      (gives_recvRpcResponse_noMemory hws hin hmem) (by decide)⟩

/-- Both reads bring the same bytes of the length of a payload, and what these
make is refused or leaves no more to read than there is. -/
def SameWord (l : Locals) (s : Conn) (m₁ m₂ : ℕ) : Prop :=
  m₁ = m₂ ∧ (RefusesPayload l s (s.incoming.take m₁) ∨
    m₁ + (payloadSize l (s.incoming.take m₁)).toInt ≤ s.incoming.length)

/-- Two reads for the length of a payload lead to the same if and only if they
bring the same bytes of it. -/
theorem Received.sameResult_iff {m₁ m₂ : ℕ} {o₁ o₂ : Outcome Conn RpcResponse}
    (h₁ : Received l s m₁ o₁) (h₂ : Received l s m₂ o₂) (hle₁ : m₁ ≤ s.incoming.length)
    (hle₂ : m₂ ≤ s.incoming.length) : SameResult o₁ o₂ ↔ SameWord l s m₁ m₂ := by
  have hdrop : ∀ {i j : ℕ}, i ≤ s.incoming.length → j ≤ s.incoming.length →
      s.incoming.drop i = s.incoming.drop j → i = j := by
    intro i j hi hj heq
    have hlen := congrArg List.length heq
    simp only [List.length_drop] at hlen
    omega
  constructor
  · rintro ⟨a, t₁, t₂, ho₁, ho₂, hrest⟩
    cases h₁ with
    | waiting => nomatch ho₁
    | refused hrefuses hrest₁ =>
        cases ho₁
        cases h₂ with
        | waiting => nomatch ho₂
        | delivered => nomatch ho₂
        | refused _ hrest₂ =>
            cases ho₂
            exact ⟨hdrop hle₁ hle₂ (hrest₁.symm.trans (hrest.trans hrest₂)), .inl hrefuses⟩
    | @delivered _ size₁ _ hsize₁ hfull₁ hrest₁ =>
        cases ho₁
        cases h₂ with
        | waiting => nomatch ho₂
        | refused => nomatch ho₂
        | @delivered _ size₂ _ hsize₂ hfull₂ hrest₂ =>
            simp only [Outcome.ret.injEq, RpcResponse.mk.injEq, Option.some.injEq, Prod.mk.injEq,
              true_and] at ho₂
            obtain ⟨⟨-, hwords⟩, rfl⟩ := ho₂
            rw [hwords, hsize₁, Int.ofNat_inj] at hsize₂
            subst hsize₂
            have hsum := hdrop hfull₁ hfull₂ (hrest₁.symm.trans (hrest.trans hrest₂))
            exact ⟨by omega, .inr (by rw [hsize₁]; omega)⟩
  · rintro ⟨rfl, hcond⟩
    cases h₁ with
    | refused hrefuses hrest₁ =>
        cases h₂ with
        | refused _ hrest₂ => exact ⟨_, _, _, rfl, rfl, hrest₁.trans hrest₂.symm⟩
        | delivered htakes => exact absurd hrefuses htakes
        | waiting htakes => exact absurd hrefuses htakes
    | waiting htakes hsize hshort =>
        rw [hsize] at hcond
        exact absurd (hcond.resolve_left htakes) (by omega)
    | @delivered _ size₁ htakes hsize₁ hfull₁ hrest₁ =>
        cases h₂ with
        | refused hrefuses => exact absurd hrefuses htakes
        | @waiting _ size₂ _ hsize₂ hshort =>
            rw [hsize₁, Int.ofNat_inj] at hsize₂
            omega
        | @delivered _ size₂ _ hsize₂ _ hrest₂ =>
            rw [hsize₁, Int.ofNat_inj] at hsize₂
            subst hsize₂
            exact ⟨_, _, _, rfl, rfl, hrest₁.trans hrest₂.symm⟩

/-- The result of receiving a response of no error, without an exception. -/
theorem sameResult_receive_iff {o₁ o₂ : Outcome Conn RpcResponse} {s₁ s₂ : Conn}
    (ho₁ : (recvRpcResponse env l).run s₁ = o₁) (ho₂ : (recvRpcResponse env l).run s₂ = o₂)
    (h₁ : ∀ r t, o₁ = .ret r t → r.response_type ≠ .error)
    (h₂ : ∀ r t, o₂ = .ret r t → r.response_type ≠ .error) :
    SameResult ((receive env l).run s₁) ((receive env l).run s₂) ↔ SameResult o₁ o₂ := by
  have hreceive : ∀ {s : Conn} {o : Outcome Conn RpcResponse},
      (recvRpcResponse env l).run s = o → (∀ r t, o = .ret r t → r.response_type ≠ .error) →
      (receive env l).run s = o.andThen fun r => pure (r, none) := by
    intro s o ho h
    rw [receive, Prog.run_bind, ho]
    cases o with
    | ret r t =>
        rw [Outcome.andThen_ret, if_neg (h r t rfl)]
        rfl
    | wait t => rfl
    | undefined t => rfl
  rw [hreceive ho₁ h₁, hreceive ho₂ h₂]
  constructor
  · rintro ⟨⟨r, e⟩, t₁, t₂, hret₁, hret₂, hrest⟩
    cases o₁ <;> cases o₂ <;> simp_all [SameResult]
  · rintro ⟨r, t₁, t₂, rfl, rfl, hrest⟩
    exact ⟨_, _, _, rfl, rfl, hrest⟩

/-- Two ways in which a complete response arrives lead to the same result if and
only if it is not read as a success with a payload, or the reads for the
length of the payload bring the same bytes of it. -/
theorem receive_sameResult_iff (hsaid : Says env header callId status version) {reply : Reply}
    (hstatus : reply.HasStatus status) (hfits : reply.Fits) (hws : LengthWord header.length ws)
    (hin : s.incoming = ws ++ (header ++ (reply.head ++ (reply.tail ++ rest))))
    {as₁ as₂ : List Ans} (h₁ : Transfer.Live as₁) (h₂ : Transfer.Live as₂)
    (hlen₁ : s.incoming.length < as₁.length) (hlen₂ : s.incoming.length < as₂.length) :
    SameResult ((receive env l).run (s.withReads as₁)) ((receive env l).run (s.withReads as₂)) ↔
      ¬ s.HasMemory ∨ callId ≠ s.proxy.caller_id - 1 ∨ status ≠ 0 ∨
        SameWord l (s.atBody (reply.head ++ (reply.tail ++ rest)))
          (wordBytes as₁ ws header (reply.head ++ (reply.tail ++ rest)).length)
          (wordBytes as₂ ws header (reply.head ++ (reply.tail ++ rest)).length) := by
  by_cases hother : ¬ s.HasMemory ∨ callId ≠ s.proxy.caller_id - 1 ∨ status ≠ 0
  · obtain ⟨cost, a, u, hcost, hgives⟩ := gives_receive (l := l) hsaid hstatus hfits hws hin hother
    refine iff_of_true (hgives.sameResult h₁ h₂ (by omega) (by omega)) ?_
    rcases hother with h | h | h
    · exact .inl h
    · exact .inr (.inl h)
    · exact .inr (.inr (.inl h))
  · simp only [not_or, not_not] at hother
    obtain ⟨hmem, hid, hzero⟩ := hother
    have hword₁ := received_of_success (l := l) hsaid hid hzero hws hin hmem h₁ hlen₁
    have hword₂ := received_of_success (l := l) hsaid hid hzero hws hin hmem h₂ hlen₂
    rw [sameResult_receive_iff rfl rfl hword₁.not_error hword₂.not_error,
      hword₁.sameResult_iff hword₂ (wordBytes_le _ _ _ _) (wordBytes_le _ _ _ _)]
    simp [hmem, hid, hzero]

/-- A success with a payload of one byte. -/
private def byteResponse : List UInt8 := [4, 8, 0, 16, 0, 0, 0, 0, 1, 42]

/-- One read for everything but the header gives what one read a call gives. -/
theorem receive_sameResult_byte : SameResult
    ((receive protocolEnv zeroLocals).run
      ((awaitingConn byteResponse).withReads (List.replicate 11 (.upTo 40))))
    ((receive protocolEnv zeroLocals).run
      ((awaitingConn byteResponse).withReads
        (List.replicate 5 (.upTo 1) ++ List.replicate 6 (.upTo 40)))) := by
  obtain ⟨version, hsaid⟩ := says_encode protocolEnv_responseHeaderType (responseHeader_fields 0 0)
    (by decide)
  have hin : (awaitingConn byteResponse).incoming =
      Varint.encode (Wire.encode (responseHeader 0 0)).length ++
        (Wire.encode (responseHeader 0 0) ++ ((Reply.success [42]).head ++
          ((Reply.success [42]).tail ++ []))) := by decide
  refine (receive_sameResult_iff hsaid (show Reply.HasStatus 0 (.success [42]) from rfl)
    (by rw [Reply.Fits]; decide)
    ((responseHeader_fields 0 0).lengthWord (by decide)) hin ?_ ?_ (by decide) (by decide)).mpr
    (.inr (.inr (.inr ⟨by decide, .inr (by decide)⟩)))
  · intro a ha
    exact ⟨40, by decide, List.eq_of_mem_replicate ha⟩
  · intro a ha
    rcases List.mem_append.mp ha with ha | ha
    · exact ⟨1, by decide, List.eq_of_mem_replicate ha⟩
    · exact ⟨40, by decide, List.eq_of_mem_replicate ha⟩

theorem SameResult.value? {α : Type} {o₁ o₂ : Outcome Conn α} (h : SameResult o₁ o₂) :
    o₁.value? = o₂.value? := by
  obtain ⟨a, t₁, t₂, rfl, rfl, -⟩ := h
  rfl

/-- The same payload is refused when its length arrives byte by byte. -/
theorem split_length_refused : ¬ ∀ (env : Env) (l : Locals) (s : Conn)
    (header ws rest : List UInt8) (callId status version : BitVec 32) (reply : Reply)
    (as₁ as₂ : List Ans), Says env header callId status version → reply.HasStatus status →
    reply.Fits → LengthWord header.length ws →
    s.incoming = ws ++ (header ++ (reply.head ++ (reply.tail ++ rest))) →
    Transfer.Live as₁ → Transfer.Live as₂ → s.incoming.length < as₁.length →
    s.incoming.length < as₂.length →
    SameResult ((receive env l).run (s.withReads as₁))
      ((receive env l).run (s.withReads as₂)) := by
  intro hclaim
  obtain ⟨version, hsaid⟩ := says_encode protocolEnv_responseHeaderType (responseHeader_fields 0 0)
    (by decide)
  have hsame := hclaim protocolEnv zeroLocals (awaitingConn byteResponse) _ _ [] 0 0 version
    (.success [42]) (List.replicate 11 (.upTo 40)) (List.replicate 11 (.upTo 1)) hsaid rfl
    (by rw [Reply.Fits]; decide) ((responseHeader_fields 0 0).lengthWord (by decide)) (by decide)
    (fun a ha => ⟨40, by decide, List.eq_of_mem_replicate ha⟩)
    (fun a ha => ⟨1, by decide, List.eq_of_mem_replicate ha⟩) (by decide) (by decide)
  have hvalues : ((receive protocolEnv zeroLocals).run
      ((awaitingConn byteResponse).withReads (List.replicate 11 (.upTo 40)))).value? ≠
    ((receive protocolEnv zeroLocals).run
      ((awaitingConn byteResponse).withReads (List.replicate 11 (.upTo 1)))).value? := by
    decide +kernel
  exact hvalues hsame.value?

end HdClient
