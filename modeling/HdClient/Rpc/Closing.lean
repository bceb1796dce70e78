-- SUMMARY: What receiving makes of a response that is cut short by the end of the stream.
import HdClient.Rpc.Applications
import HdClient.Rpc.Responses

/-! # The end of the stream

A peer that has closed its end lets every `read` return zero bytes. -/

namespace HdClient

open Pbc Conn

variable {env : Env} {l : Locals} {s u : Conn} {header ws rest : List UInt8}

/-! ## The length of the header -/

/-- What is taken for the length of a header whose varint was cut short. -/
def staleLength (l : Locals) (incoming : List UInt8) : BitVec 32 :=
  if incoming = [] ∧ charNonneg l.tmp = true then charToInt l.tmp else l.slice_len

private theorem not_charNonneg_of_cut {m : ℕ} {ws cut : List UInt8} (h : Varint.Encodes m ws)
    (hcut : Format.Cut cut ws) : ∀ b ∈ cut, charNonneg b = false := by
  induction h generalizing cut with
  | last _ =>
      have hlen := hcut.length_lt
      obtain rfl : cut = [] := List.length_eq_zero_iff.mp (by simpa using hlen)
      simp
  | @more b n bs hb _ ih =>
      cases cut with
      | nil => simp
      | cons c cs =>
          obtain ⟨rfl, hle⟩ := List.cons_prefix_cons.mp hcut.isPrefix
          have hcs : Format.Cut cs bs := ⟨hle, fun heq => hcut.ne (by rw [heq])⟩
          intro x hx
          rcases List.mem_cons.mp hx with rfl | hx
          · simpa [charNonneg] using hb
          · exact ih hcs x hx

/-- At the end of the stream something is left in place of a length. -/
theorem gives_readRawVarint32_cut {n : ℕ} (hws : LengthWord n ws)
    (hcut : Format.Cut s.incoming ws) :
    ∃ k u, Gives 10 (readRawVarint32 l.tmp l.slice_len) s
        ⟨0, k, staleLength l s.incoming⟩ u ∧ u.incoming = [] ∧ (u.HasMemory ↔ s.HasMemory) := by
  have hmore := not_charNonneg_of_cut hws.encodes hcut
  by_cases hfirst : s.incoming = [] ∧ charNonneg l.tmp = true
  · obtain ⟨hnil, htmp⟩ := hfirst
    have hnext : nextChar l.tmp s = l.tmp := by simp [nextChar, hnil]
    refine ⟨1, s.dropping 1, Gives.mono (m := 1) ?_ (by decide), by simp [hnil], Iff.rfl⟩
    rw [staleLength, if_pos ⟨hnil, htmp⟩]
    refine (gives_readChar l.tmp s).bind (n := 0) ?_
    rw [hnext, if_pos htmp]
    exact gives_pure _ _
  · have hunending : Unending l.tmp s := by
      refine ⟨?_, hmore⟩
      cases hin : s.incoming with
      | nil => simpa [nextChar, hin] using hfirst
      | cons b bs => simpa [nextChar, hin] using hmore b (by rw [hin]; exact List.mem_cons_self)
    refine ⟨10, s.dropping 10, ?_, ?_, Iff.rfl⟩
    · rw [staleLength, if_neg hfirst]
      exact gives_readRawVarint32_unending l.slice_len (hunending.for 10)
    · have hlen := hcut.length_lt
      have hshort := hws.short
      exact List.drop_eq_nil_of_le (by omega)

/-! ## Failing cleanly -/

/-- Whatever a live peer does before it closes its end, the receiving calls
return, none of them with a response or an exception, and the proxy is left without an
application, as it was. -/
def FailsCleanly (env : Env) (l : Locals) (s : Conn) : Prop :=
  ∃ n, ∀ as, Transfer.Live as → n ≤ as.length →
    (∃ r t, (recvRpcResponse env l).run (s.withReads as) = .ret r t ∧
      r.response_type ≠ .succeed ∧
      (r.response_type = .error → ∃ u, readException.run t = .ret none u)) ∧
    (∃ u, (receiveAppId env l).run (s.withReads as) = .ret (-1) u ∧
      u.proxy.app_id = s.proxy.app_id) ∧
    ∀ before, before.proxy.app_id = -1 → Asks env l before (s.withReads as) →
      ∃ u, (getNewApp env l).run before = .ret (-1) u ∧ u.proxy.app_id = -1

/-- The receiving calls decide. -/
theorem failsCleanly_of {n : ℕ} (h : ∀ as, Transfer.Live as → n ≤ as.length →
    ∃ r t, (recvRpcResponse env l).run (s.withReads as) = .ret r t ∧
      r.response_type ≠ .succeed ∧
      (r.response_type = .error → ∃ u, readException.run t = .ret none u)) :
    FailsCleanly env l s := by
  refine ⟨n, fun as hlive hlen => ?_⟩
  obtain ⟨r, t, hrecv, hr, herror⟩ := h as hlive hlen
  obtain ⟨u, hu, happ⟩ := receiveAppId_of_bad hrecv hr fun hkind =>
    (herror hkind).elim fun u hread => ⟨none, u, hread⟩
  refine ⟨⟨r, t, hrecv, hr, herror⟩, ⟨u, hu, happ⟩, fun before hbefore hasks => ?_⟩
  refine ⟨u, (getNewApp_of_asks hbefore hasks).trans hu, ?_⟩
  exact happ.trans (hasks.app_id.trans hbefore)

theorem failsCleanly_of_gives {cost : ℕ} {r : RpcResponse}
    (h : Gives cost (recvRpcResponse env l) s r u) (hr : r.response_type ≠ .succeed)
    (hr' : r.response_type ≠ .error) : FailsCleanly env l s := by
  refine failsCleanly_of (n := cost) fun as hlive hlen => ?_
  obtain ⟨left, -, -, hrun⟩ := h as hlive hlen
  exact ⟨r, _, hrun, hr, fun hkind => absurd hkind hr'⟩

theorem not_failsCleanly_of_hangs {cost : ℕ} (h : Hangs cost (recvRpcResponse env l) s) :
    ¬ FailsCleanly env l s := by
  rintro ⟨n, hclean⟩
  have hlive := Transfer.live_replicate (k := 1) (by decide) (n + cost)
  obtain ⟨⟨r, t, hret, -⟩, -⟩ := hclean _ hlive (by simp)
  obtain ⟨u, hwait⟩ := h _ hlive (by simp)
  rw [hwait] at hret
  cases hret

/-- A response that announces an exception, of which not everything comes. -/
theorem failsCleanly_error_iff {cost : ℕ}
    (h : Gives cost (recvRpcResponse env l) s ⟨.error, none⟩ u) {p : Prop}
    (hyes : p → ∃ n v, Gives n readException u none v ∧ v.proxy = u.proxy)
    (hno : ¬ p → ∃ n, Hangs n readException u) : FailsCleanly env l s ↔ p := by
  constructor
  · rintro ⟨n, hclean⟩
    by_contra hp
    obtain ⟨m, hhangs⟩ := hno hp
    have hlive := Transfer.live_replicate (k := 1) (by decide) (n + cost + m)
    obtain ⟨⟨r, t, hret, -, herror⟩, -⟩ := hclean _ hlive (by rw [List.length_replicate]; omega)
    obtain ⟨left, hsuffix, hcost, hrun⟩ := h _ hlive (by rw [List.length_replicate]; omega)
    rw [hrun, Outcome.ret.injEq] at hret
    obtain ⟨rfl, rfl⟩ := hret
    obtain ⟨v, hread⟩ := herror rfl
    obtain ⟨w, hwait⟩ := hhangs left (hlive.suffix hsuffix) (by simp at hcost; omega)
    rw [hwait] at hread
    cases hread
  · intro hp
    obtain ⟨m, v, hread, -⟩ := hyes hp
    refine failsCleanly_of (n := cost + m) fun as hlive hlen => ?_
    obtain ⟨left, hsuffix, hcost, hrun⟩ := h as hlive (by omega)
    obtain ⟨left', -, -, hrun'⟩ := hread left (hlive.suffix hsuffix) (by omega)
    exact ⟨_, _, hrun, nofun, fun _ => ⟨_, hrun'⟩⟩

/-- A read of four bytes may bring `m` of the `avail` bytes that are there. -/
def Brings (avail m : ℕ) : Prop := ∃ k, 0 < k ∧ m = min k (min 4 avail)

/-- A success of which not everything comes. -/
theorem failsCleanly_success_iff {callId status version : BitVec 32}
    (hsaid : Says env header callId status version) (hid : callId = s.proxy.caller_id - 1)
    (hstatus : status = 0) (hws : LengthWord header.length ws)
    (hin : s.incoming = ws ++ (header ++ rest)) (hmem : s.HasMemory) :
    FailsCleanly env l s ↔
      ∀ m, Brings rest.length m → RefusesPayload l (s.atBody rest) (rest.take m) := by
  have hcount : s.incoming.length = ws.length + (header.length + rest.length) := by
    simp only [hin, List.length_append]
  constructor
  · rintro ⟨n, hclean⟩ m ⟨k, hk, rfl⟩
    have hlive := Transfer.live_replicate hk (n + s.incoming.length + 1)
    obtain ⟨⟨r, t, hret, hr, -⟩, -⟩ := hclean _ hlive (by rw [List.length_replicate]; omega)
    have hreceived := received_of_success (l := l) hsaid hid hstatus hws hin hmem hlive
      (by rw [List.length_replicate]; omega)
    obtain ⟨j, -, hj, hword⟩ := wordBytes_eq ws header hlive (by rw [List.length_replicate]; omega)
      rest.length
    obtain rfl : j = k := by simpa using List.eq_of_mem_replicate hj
    rw [hword] at hreceived
    exact hreceived.fails_iff.mp ⟨r, t, hret, hr⟩
  · intro hrefuses
    refine failsCleanly_of (n := s.incoming.length + 1) fun as hlive hlen => ?_
    have hreceived := received_of_success (l := l) hsaid hid hstatus hws hin hmem hlive hlen
    obtain ⟨k, hk, -, hword⟩ := wordBytes_eq ws header hlive (by omega) rest.length
    obtain ⟨r, t, hret, hr⟩ := hreceived.fails_iff.mpr (hrefuses _ ⟨k, hk, hword⟩)
    exact ⟨r, t, hret, hr, fun hkind => absurd hkind (hreceived.not_error r t hret)⟩

/-- What keeps a response that is cut short from doing harm. Without memory for
the header it does none. Otherwise, in the length of the header, what stands in its place must be
no length; the header itself must not be cut; and behind it, the call id must
not match, or what comes of the payload's length must never be taken for one,
or memory must run out for a string of the exception. -/
def HarmlessCut (l : Locals) (s : Conn) (ws header : List UInt8) (callId : BitVec 32)
    (reply : Reply) : Prop :=
  let rest := s.incoming.drop (ws.length + header.length)
  ¬ s.HasMemory ∨
    if s.incoming.length < ws.length then (staleLength l s.incoming).toInt ≤ 0
    else ws.length + header.length ≤ s.incoming.length ∧ (callId ≠ s.proxy.caller_id - 1 ∨
      match reply with
      | .success _ => ∀ m, Brings rest.length m → RefusesPayload l (s.atBody rest) (rest.take m)
      | .error exception_class _ => NoMemoryFor (s.atBody rest) exception_class
      | .fatal => False)

/-- A cut in the length of the header. -/
private theorem failsCleanly_length_iff {n : ℕ} (hws : LengthWord n ws)
    (hcut : Format.Cut s.incoming ws) :
    FailsCleanly env l s ↔ ¬ s.HasMemory ∨ (staleLength l s.incoming).toInt ≤ 0 := by
  obtain ⟨k, u, hread, hnil, hmem⟩ := gives_readRawVarint32_cut (l := l) hws hcut
  by_cases hsize : (staleLength l s.incoming).toInt ≤ 0
  · exact iff_of_true (failsCleanly_of_gives (gives_recvRpcResponse_nonpositive hread hsize)
      nofun nofun) (.inr hsize)
  · have hpos : 0 < (staleLength l s.incoming).toInt := by omega
    by_cases hnull : s.HasMemory
    · refine iff_of_false (not_failsCleanly_of_hangs (hangs_recvRpcResponse hread hpos
        (hmem.mpr hnull) (by rw [hnil, List.length_nil]; omega))) ?_
      rintro (h | h)
      · exact h hnull
      · exact hsize h
    · exact iff_of_true (failsCleanly_of_gives
        (gives_recvRpcResponse_null hread hpos (mt hmem.mp hnull)) nofun nofun) (.inl hnull)

/-- A response that is cut short anywhere, by a peer that then closes its end,
makes the receiving calls fail cleanly in exactly the harmless cases. -/
theorem failsCleanly_iff {callId status version : BitVec 32}
    (hsaid : Says env header callId status version) {reply : Reply}
    (hstatus : reply.HasStatus status) (hfits : reply.Fits) (hws : LengthWord header.length ws)
    (hcut : Format.Cut s.incoming (ws ++ (header ++ (reply.head ++ reply.tail)))) :
    FailsCleanly env l s ↔ HarmlessCut l s ws header callId reply := by
  unfold HarmlessCut
  dsimp only
  rcases hcut.append with hlength | ⟨cut, hin, hcut'⟩
  · rw [if_pos hlength.length_lt]
    exact failsCleanly_length_iff hws hlength
  have hcount : s.incoming.length = ws.length + cut.length := by rw [hin, List.length_append]
  rw [if_neg (by omega)]
  by_cases hmem : s.HasMemory
  · rw [or_iff_right (not_not.mpr hmem)]
    rcases hcut'.append with hheader | ⟨rest, rfl, hbody⟩
    · have hlt := hheader.length_lt
      have hpos := hws.pos
      refine iff_of_false (not_failsCleanly_of_hangs (hangs_recvRpcResponse
        (gives_readRawVarint32 hws.encodes hws.short hin l.tmp l.slice_len)
        (by rw [hws.toInt]; omega) hmem ?_)) ?_
      · rw [hws.toInt, Conn.incoming_dropping, hin, List.drop_left]
        omega
      · rintro ⟨hle, -⟩
        omega
    · rw [List.length_append] at hcount
      have hdrop : s.incoming.drop (ws.length + header.length) = rest := by
        rw [hin, ← List.drop_drop, List.drop_left, List.drop_left]
      rw [hdrop, and_iff_right (by omega)]
      by_cases hid : callId = s.proxy.caller_id - 1
      · rw [or_iff_right (not_not.mpr hid)]
        cases reply with
        | success payload => exact failsCleanly_success_iff hsaid hid hstatus hws hin hmem
        | error exception_class exception_stack =>
            obtain ⟨hclass, hstack⟩ := hfits
            obtain ⟨hyes, hno⟩ := readException_cut (s := s.atBody rest) (by omega) (by omega) hbody
            exact failsCleanly_error_iff (gives_recvRpcResponse hws hin hmem
              (gives_dispatchResponse_error hsaid hid hstatus)) hyes hno
        | fatal => exact absurd hbody Format.not_cut_nil
      · exact iff_of_true (failsCleanly_of_gives (gives_recvRpcResponse hws hin hmem
          (gives_dispatchResponse_mismatch hsaid hid)) nofun nofun) (.inl hid)
  · exact iff_of_true (failsCleanly_of_gives (gives_recvRpcResponse_noMemory hws hin hmem)
      nofun nofun) (.inl hmem)

/-- A success that is cut in front of the length of its payload, which reads as zero. -/
theorem failsCleanly_no_length :
    FailsCleanly protocolEnv zeroLocals (awaitingConn [4, 8, 0, 16, 0]) := by
  obtain ⟨version, hsaid⟩ := says_encode protocolEnv_responseHeaderType (responseHeader_fields 0 0)
    (by decide)
  have hcut : Format.Cut (awaitingConn [4, 8, 0, 16, 0]).incoming
      (Varint.encode (Wire.encode (responseHeader 0 0)).length ++
        (Wire.encode (responseHeader 0 0) ++
          ((Reply.success [42]).head ++ (Reply.success [42]).tail))) := ⟨by decide, by decide⟩
  refine (failsCleanly_iff hsaid (show Reply.HasStatus 0 (.success [42]) from rfl)
    (by rw [Reply.Fits]; decide)
    ((responseHeader_fields 0 0).lengthWord (by decide)) hcut).mpr (.inr ⟨by decide, .inr ?_⟩)
  intro m _
  have hrest : (awaitingConn [4, 8, 0, 16, 0]).incoming.drop
      ((Varint.encode (Wire.encode (responseHeader 0 0)).length).length +
        (Wire.encode (responseHeader 0 0)).length) = [] := by decide
  rw [hrest, List.take_nil]
  exact .inl (by decide)

/-- A header that is cut short is waited for without end. -/
theorem short_header_hangs : ¬ ∀ (env : Env) (l : Locals) (s : Conn) (header ws : List UInt8)
    (callId status version : BitVec 32) (reply : Reply), Says env header callId status version →
    reply.HasStatus status → reply.Fits → LengthWord header.length ws →
    Format.Cut s.incoming (ws ++ (header ++ (reply.head ++ reply.tail))) →
    FailsCleanly env l s := by
  intro hclaim
  obtain ⟨version, hsaid⟩ := says_encode protocolEnv_responseHeaderType (responseHeader_fields 0 0)
    (by decide)
  have hws := (responseHeader_fields 0 0).lengthWord (by decide)
  have hclean := hclaim protocolEnv zeroLocals (awaitingConn [4, 8, 0]) _ _ 0 0 version
    (.success [42]) hsaid rfl (by rw [Reply.Fits]; decide) hws ⟨by decide, by decide⟩
  have hread := gives_readRawVarint32 (s := awaitingConn [4, 8, 0]) hws.encodes hws.short
    (show _ = _ ++ [8, 0] by decide) 0 0
  exact not_failsCleanly_of_hangs (l := zeroLocals)
    (hangs_recvRpcResponse hread (by decide) (by decide) (by decide)) hclean

end HdClient
