-- SUMMARY: Responses as a server sends them, and what recv_rpc_response makes of one that arrives in full.
import HdClient.Client.ClientRmProtocol
import HdClient.Client.RawVarint
import HdClient.Rpc.Frames
import HdClient.Rpc.Inbound

/-! # Responses -/

namespace HdClient

open Pbc Conn

/-- What a server answers: a payload, the two strings of an exception, or nothing more. -/
inductive Reply where
  | success (payload : List UInt8)
  | error (exception_class exception_stack : List UInt8)
  | fatal
  deriving DecidableEq

namespace Reply

/-- The status in the header of a response. -/
def HasStatus (status : BitVec 32) : Reply → Prop
  | success _ => status = 0
  | error _ _ => status = 1
  | fatal => status ≠ 0 ∧ status ≠ 1

/-- What follows the header, up to where `recv_rpc_response` is to stop. -/
def head : Reply → List UInt8
  | success payload => lengthPrefixed payload
  | error _ _ => []
  | fatal => []

/-- What `recv_rpc_response` leaves for `read_exception`. -/
def tail : Reply → List UInt8
  | success _ => []
  | error exception_class exception_stack => exceptionBody exception_class exception_stack
  | fatal => []

/-- The lengths are those of C strings and buffers. -/
def Fits : Reply → Prop
  | success payload => payload.length < 2 ^ 31
  | error exception_class exception_stack =>
      exception_class.length < 2 ^ 31 - 1 ∧ exception_stack.length < 2 ^ 31 - 1
  | fatal => True

/-- What `recv_rpc_response` is to report. -/
def response : Reply → RpcResponse
  | success payload => ⟨.succeed, some (payload, BitVec.ofNat 32 payload.length)⟩
  | error _ _ => ⟨.error, none⟩
  | fatal => ⟨.fatal, none⟩

end Reply

/-! ## The header, however it arrives -/

private theorem toInt_ofNat {n : ℕ} (h : n < 2 ^ 31) : (BitVec.ofNat 32 n).toInt = n := by
  rw [BitVec.toInt_eq_toNat_of_lt] <;> rw [BitVec.toNat_ofNat] <;> omega

variable {env : Env} {l : Locals} {s u : Conn} {header rest ws : List UInt8} {n : ℕ}

/-- The answers that are left once a header has been read. -/
def leftAfter (as : List Ans) (ws header : List UInt8) : List Ans :=
  (Transfer.carry (as.drop ws.length) header.length header.length).left

theorem leftAfter_isSuffix (as : List Ans) (ws header : List UInt8) :
    leftAfter as ws header <:+ as :=
  (Transfer.left_isSuffix _ _ _).trans (List.drop_suffix _ _)

theorem leftAfter_length {as : List Ans} (ws header : List UInt8) (hlive : Transfer.Live as)
    (hlen : ws.length + header.length ≤ as.length) :
    (Transfer.carry (as.drop ws.length) header.length header.length).ending = .done ∧
      as.length ≤ (leftAfter as ws header).length + (ws.length + header.length) := by
  have hlive' : Transfer.Live (as.drop ws.length) := hlive.suffix (List.drop_suffix _ _)
  obtain ⟨hdone, hleft⟩ := hlive'.carry_done (Nat.le_refl header.length)
    (by rw [List.length_drop]; omega)
  rw [List.length_drop] at hleft
  refine ⟨hdone, ?_⟩
  rw [leftAfter]
  omega

/-- A header that is there arrives in any live script that is long enough. -/
theorem headerArrives_live (hws : LengthWord header.length ws)
    (hin : s.incoming = ws ++ (header ++ rest)) (hlive : Transfer.Live s.reads)
    (hlen : ws.length + header.length ≤ s.reads.length) (hmem : s.HasMemory) :
    HeaderArrives s header rest (leftAfter s.reads ws header) ∧
      s.reads.length ≤ (leftAfter s.reads ws header).length + (ws.length + header.length) := by
  obtain ⟨hdone, hleft⟩ := leftAfter_length ws header hlive hlen
  exact ⟨⟨hmem, ws, s.reads.take ws.length, s.reads.drop ws.length, hws, hin,
    (List.take_append_drop _ _).symm, fun a ha => hlive a (List.mem_of_mem_take ha),
    List.length_take_of_le (by omega), hdone, rfl⟩, hleft⟩

/-- The connection behind a header, in front of what follows it. -/
def Conn.atBody (s : Conn) (body : List UInt8) : Conn := (s.setIncoming body s.reads).tookMemory

@[simp] theorem Conn.incoming_atBody (s : Conn) (body : List UInt8) :
    (s.atBody body).incoming = body := rfl
@[simp] theorem Conn.proxy_atBody (s : Conn) (body : List UInt8) :
    (s.atBody body).proxy = s.proxy := rfl

/-- A header that is there is looked into. -/
theorem recvRpcResponse_arrived (env : Env) (l : Locals) (hws : LengthWord header.length ws)
    (hin : s.incoming = ws ++ (header ++ rest)) (hmem : s.HasMemory) {as : List Ans}
    (hlive : Transfer.Live as) (hlen : ws.length + header.length ≤ as.length) :
    (recvRpcResponse env l).run (s.withReads as) =
        (dispatchResponse env l header).run ((s.atBody rest).withReads (leftAfter as ws header)) ∧
      as.length ≤ (leftAfter as ws header).length + (ws.length + header.length) := by
  obtain ⟨harrives, hleft⟩ := headerArrives_live (s := s.withReads as) hws hin hlive hlen hmem
  exact ⟨recvRpcResponse_header harrives, hleft⟩

theorem gives_recvRpcResponse (hws : LengthWord header.length ws)
    (hin : s.incoming = ws ++ (header ++ rest)) (hmem : s.HasMemory) {r : RpcResponse}
    (h : Gives 0 (dispatchResponse env l header) (s.atBody rest) r u) :
    Gives (ws.length + header.length) (recvRpcResponse env l) s r u := by
  intro as hlive hlen
  obtain ⟨hrun, hcost⟩ := recvRpcResponse_arrived env l hws hin hmem hlive hlen
  have hsuffix := leftAfter_isSuffix as ws header
  obtain ⟨left, hleft, hcost', hrun'⟩ := h _ (hlive.suffix hsuffix) (Nat.zero_le _)
  exact ⟨left, hleft.trans hsuffix, by omega, by rw [hrun, hrun']⟩

section Dispatch

variable {callId status version : BitVec 32} (hsaid : Says env header callId status version)

include hsaid

theorem gives_dispatchResponse_mismatch (hid : callId ≠ s.proxy.caller_id - 1) :
    Gives 0 (dispatchResponse env l header) s .other
      (s.printing (.callerIdNotMatch callId (s.proxy.caller_id - 1))) := by
  intro as _ _
  refine ⟨as, List.suffix_refl as, Nat.le_refl _, ?_⟩
  rw [dispatchResponse_run hsaid, Conn.proxy_withReads, if_pos hid]
  rfl

theorem gives_dispatchResponse_error (hid : callId = s.proxy.caller_id - 1) (hstatus : status = 1) :
    Gives 0 (dispatchResponse env l header) s ⟨.error, none⟩ s := by
  intro as _ _
  refine ⟨as, List.suffix_refl as, Nat.le_refl _, ?_⟩
  rw [dispatchResponse_run hsaid, Conn.proxy_withReads, if_neg (not_not.mpr hid), hstatus,
    if_neg (by decide), if_pos rfl]

theorem gives_dispatchResponse_fatal (hid : callId = s.proxy.caller_id - 1)
    (hstatus : status ≠ 0 ∧ status ≠ 1) :
    Gives 0 (dispatchResponse env l header) s ⟨.fatal, none⟩ (s.printing (.fatal version)) := by
  intro as _ _
  refine ⟨as, List.suffix_refl as, Nat.le_refl _, ?_⟩
  rw [dispatchResponse_run hsaid, Conn.proxy_withReads, if_neg (not_not.mpr hid),
    if_neg hstatus.1, if_neg hstatus.2]
  rfl

theorem dispatchResponse_success (hid : callId = s.proxy.caller_id - 1) (hstatus : status = 0) :
    (dispatchResponse env l header).run s = (recvPayload l).run s := by
  rw [dispatchResponse_run hsaid, if_neg (not_not.mpr hid), if_pos hstatus]

end Dispatch

section Length

variable {cost k : ℕ} {w : BitVec 32}
  (hread : Gives cost (readRawVarint32 l.tmp l.slice_len) s ⟨0, k, w⟩ u)

include hread

/-- A header has at least one byte. -/
theorem gives_recvRpcResponse_nonpositive (hw : w.toInt ≤ 0) :
    Gives cost (recvRpcResponse env l) s .other (u.printing .readHeaderLengthFailed) := by
  refine hread.bind (n := 0) ?_
  dsimp only
  rw [if_pos (.inr hw)]
  exact (gives_print _ u).bind (n := 0) (gives_pure _ _)

/-- There is no memory for a header. -/
theorem gives_recvRpcResponse_null (hw : 0 < w.toInt) (hmem : ¬ u.HasMemory) :
    Gives cost (recvRpcResponse env l) s .other (u.tookMemory.printing .outOfMemory) := by
  refine hread.bind (n := 0) ?_
  dsimp only
  rw [if_neg (by omega)]
  refine (gives_malloc_null hmem).bind (n := 0) ?_
  exact (gives_print _ u.tookMemory).bind (n := 0) (gives_pure _ _)

/-- A header that is shorter than its length says is waited for. -/
theorem hangs_recvRpcResponse (hw : 0 < w.toInt) (hmem : u.HasMemory)
    (hshort : u.incoming.length < w.toInt.toNat) : Hangs cost (recvRpcResponse env l) s := by
  refine hread.bind_hangs (n := 0) ?_
  dsimp only
  rw [if_neg (by omega)]
  refine (gives_malloc hmem).bind_hangs (n := 0) ?_
  rw [if_neg (by decide), ← Int.toNat_of_nonneg (Int.le_of_lt hw)]
  exact (hangs_readAll (s := u.tookMemory) hshort).bind

end Length

theorem gives_recvRpcResponse_noMemory (hws : LengthWord n ws) (hin : s.incoming = ws ++ rest)
    (hmem : ¬ s.HasMemory) :
    Gives ws.length (recvRpcResponse env l) s .other
      ((s.dropping ws.length).tookMemory.printing .outOfMemory) := by
  have hpos := hws.pos
  exact gives_recvRpcResponse_null (gives_readRawVarint32 hws.encodes hws.short hin l.tmp l.slice_len)
    (by rw [hws.toInt]; omega) hmem

/-! ## The payload -/

/-- The length of a payload when the read for it brings some bytes of it. -/
def payloadSize (l : Locals) (bytes : List UInt8) : BitVec 32 :=
  intEndianSwap (Word.overwrite l.response_size bytes)

/-- A whole word is the length of the payload. -/
theorem payloadSize_be32 (l : Locals) (n : ℕ) :
    payloadSize l (Word.be32 n) = BitVec.ofNat 32 n := by
  rw [payloadSize, Word.overwrite_of_length (Word.be32_length n), intEndianSwap_ofLe]

/-- The end of `recv_rpc_response`, once there is memory for a payload of `size` bytes. -/
def fetchPayload (size : BitVec 32) : Prog Conn RpcResponse := do
  let (rc, response) ← readAll true size.toInt
  if rc ≠ 0 then do
    print .readPayloadFailed
    pure .other
  else pure ⟨.succeed, some (response, size)⟩

section Payload

variable {bytes : List UInt8} (hread : (Conn.read 4).run s = .ret (some bytes) u)

include hread

theorem recvPayload_nonpositive (hsize : (payloadSize l bytes).toInt ≤ 0) :
    (recvPayload l).run s = .ret .other (u.printing .badPayloadLength) := by
  rw [payloadSize] at hsize
  rw [recvPayload, Prog.run_bind, hread, Outcome.andThen_ret]
  dsimp only
  rw [Option.getD_some, if_pos hsize]
  rfl

private theorem recvPayload_positive (hsize : 0 < (payloadSize l bytes).toInt) :
    (recvPayload l).run s = (malloc.run u).andThen fun ok =>
      if !ok then do
        print .outOfMemoryResponse
        pure RpcResponse.other
      else fetchPayload (payloadSize l bytes) := by
  rw [payloadSize] at hsize ⊢
  rw [recvPayload, Prog.run_bind, hread, Outcome.andThen_ret]
  dsimp only
  rw [Option.getD_some, if_neg (by omega), Prog.run_bind]
  rfl

theorem recvPayload_null (hsize : 0 < (payloadSize l bytes).toInt) (hmem : ¬ u.HasMemory) :
    (recvPayload l).run s = .ret .other (u.tookMemory.printing .outOfMemoryResponse) := by
  have hmalloc : malloc.run u = .ret false u.tookMemory := malloc_run_null hmem
  rw [recvPayload_positive hread hsize, hmalloc, Outcome.andThen_ret]
  rfl

private theorem recvPayload_alloc (hsize : 0 < (payloadSize l bytes).toInt)
    (hmem : u.HasMemory) :
    (recvPayload l).run s = (fetchPayload (payloadSize l bytes)).run u.tookMemory := by
  rw [recvPayload_positive hread hsize, malloc_run hmem, Outcome.andThen_ret, if_neg (by decide)]

/-- A payload that is shorter than its length says is waited for. -/
theorem recvPayload_short (hsize : 0 < (payloadSize l bytes).toInt) (hmem : u.HasMemory)
    (hlive : Transfer.Live u.reads)
    (hshort : u.incoming.length < (payloadSize l bytes).toInt.toNat) :
    ∃ v, (recvPayload l).run s = .wait v := by
  have hwait := hlive.sound.waiting_of_short hshort
  rw [recvPayload_alloc hread hsize hmem, fetchPayload, Prog.run_bind, readAll_run (by omega),
    Conn.reads_tookMemory, Conn.incoming_tookMemory, haveRead, hwait]
  exact ⟨_, rfl⟩

/-- A payload that is there is read. -/
theorem recvPayload_full (hsize : 0 < (payloadSize l bytes).toInt) (hmem : u.HasMemory)
    (hlive : Transfer.Live u.reads)
    (hfull : (payloadSize l bytes).toInt.toNat ≤ u.incoming.length)
    (hlen : (payloadSize l bytes).toInt.toNat ≤ u.reads.length) :
    ∃ left, left <:+ u.reads ∧
      u.reads.length ≤ left.length + (payloadSize l bytes).toInt.toNat ∧
      (recvPayload l).run s =
        .ret ⟨.succeed, some (u.incoming.take (payloadSize l bytes).toInt.toNat,
            payloadSize l bytes)⟩
          (u.tookMemory.setIncoming (u.incoming.drop (payloadSize l bytes).toInt.toNat) left) := by
  obtain ⟨hdone, hleft⟩ := hlive.carry_done hfull hlen
  refine ⟨_, Transfer.left_isSuffix _ _ _, hleft, ?_⟩
  rw [recvPayload_alloc hread hsize hmem, fetchPayload, Prog.run_bind, readAll_run (by omega),
    Conn.reads_tookMemory, Conn.incoming_tookMemory, haveRead, hdone]
  simp [Conn.received, Conn.setIncoming, Transfer.carried_of_done hdone]

end Payload

/-- `recv_rpc_response` takes the length that these bytes make for no length, or has no memory. -/
def RefusesPayload (l : Locals) (s : Conn) (bytes : List UInt8) : Prop :=
  (payloadSize l bytes).toInt ≤ 0 ∨ ¬ s.HasMemory

/-- What becomes of a payload when the read for its length brings `m` bytes. -/
inductive Received (l : Locals) (s : Conn) (m : ℕ) : Outcome Conn RpcResponse → Prop where
  | refused {t : Conn} : RefusesPayload l s (s.incoming.take m) →
      t.incoming = s.incoming.drop m → Received l s m (.ret .other t)
  | delivered {t : Conn} {size : ℕ} : ¬ RefusesPayload l s (s.incoming.take m) →
      (payloadSize l (s.incoming.take m)).toInt = size → m + size ≤ s.incoming.length →
      t.incoming = s.incoming.drop (m + size) →
      Received l s m (.ret ⟨.succeed, some ((s.incoming.drop m).take size,
        payloadSize l (s.incoming.take m))⟩ t)
  | waiting {t : Conn} {size : ℕ} : ¬ RefusesPayload l s (s.incoming.take m) →
      (payloadSize l (s.incoming.take m)).toInt = size → s.incoming.length < m + size →
      Received l s m (.wait t)

/-- The answers of `read` show only in the number of bytes that they bring. -/
theorem Received.of_withReads {m : ℕ} {as : List Ans} {o : Outcome Conn RpcResponse}
    (h : Received l (s.withReads as) m o) : Received l s m o := by
  cases h with
  | refused hrefuses hrest => exact .refused hrefuses hrest
  | delivered htakes hsize hfull hrest => exact .delivered htakes hsize hfull hrest
  | waiting htakes hsize hshort => exact .waiting htakes hsize hshort

/-- Only a refused payload makes the call fail. -/
theorem Received.fails_iff {m : ℕ} {o : Outcome Conn RpcResponse} (h : Received l s m o) :
    (∃ r t, o = .ret r t ∧ r.response_type ≠ .succeed) ↔
      RefusesPayload l s (s.incoming.take m) := by
  cases h with
  | @refused t hrefuses => exact iff_of_true ⟨.other, t, rfl, nofun⟩ hrefuses
  | delivered htakes =>
      refine iff_of_false ?_ htakes
      rintro ⟨r, t, hret, hr⟩
      cases hret
      exact hr rfl
  | waiting htakes =>
      refine iff_of_false ?_ htakes
      rintro ⟨r, t, hret, -⟩
      cases hret

theorem Received.not_error {m : ℕ} {o : Outcome Conn RpcResponse} (h : Received l s m o)
    (r : RpcResponse) (t : Conn) (ho : o = .ret r t) : r.response_type ≠ .error := by
  cases h with
  | refused =>
      cases ho
      nofun
  | delivered =>
      cases ho
      nofun
  | waiting => nomatch ho

/-- Every live script that is long enough leads to one of the three. -/
theorem recvPayload_received {k : ℕ} {as : List Ans} (hreads : s.reads = .upTo k :: as)
    (hlive : Transfer.Live s.reads) (hlen : s.incoming.length ≤ as.length) :
    Received l s (min k (min 4 s.incoming.length)) ((recvPayload l).run s) := by
  obtain ⟨-, hlive'⟩ := Transfer.live_cons.mp (hreads ▸ hlive)
  have hread := read_run hreads 4
  generalize hm : min k (min 4 s.incoming.length) = m at hread
  have hle : m ≤ s.incoming.length := by omega
  by_cases hrefuses : RefusesPayload l s (s.incoming.take m)
  · by_cases hsize : (payloadSize l (s.incoming.take m)).toInt ≤ 0
    · rw [recvPayload_nonpositive hread hsize]
      exact .refused hrefuses rfl
    · rw [recvPayload_null hread (by omega) (hrefuses.resolve_left hsize)]
      exact .refused hrefuses rfl
  · obtain ⟨hsize, hmem⟩ := not_or.mp hrefuses
    have hpos : 0 < (payloadSize l (s.incoming.take m)).toInt := by omega
    obtain ⟨size, hnat⟩ := Int.eq_ofNat_of_zero_le (Int.le_of_lt hpos)
    by_cases hshort : s.incoming.length < m + size
    · obtain ⟨v, hwait⟩ := recvPayload_short hread hpos (not_not.mp hmem) hlive'
        (by simp [hnat]; omega)
      rw [hwait]
      exact .waiting hrefuses hnat hshort
    · obtain ⟨left, -, -, hret⟩ := recvPayload_full hread hpos (not_not.mp hmem) hlive'
        (by simp [hnat]; omega) (by simp [hnat]; omega)
      rw [hret, hnat]
      refine .delivered hrefuses hnat (by omega) ?_
      simp [List.drop_drop]

/-- The number of bytes that the first read for the length of a payload brings,
when `avail` are there. -/
def wordBytes (as : List Ans) (ws header : List UInt8) (avail : ℕ) : ℕ :=
  match leftAfter as ws header with
  | .upTo k :: _ => min k (min 4 avail)
  | _ => 0

/-- What becomes of a success, by what its first read for the length of the payload brings. -/
theorem received_of_success {callId status version : BitVec 32}
    (hsaid : Says env header callId status version)
    (hid : callId = s.proxy.caller_id - 1) (hstatus : status = 0)
    (hws : LengthWord header.length ws) (hin : s.incoming = ws ++ (header ++ rest))
    (hmem : s.HasMemory) {as : List Ans} (hlive : Transfer.Live as)
    (hlen : s.incoming.length < as.length) :
    Received l (s.atBody rest) (wordBytes as ws header rest.length)
      ((recvRpcResponse env l).run (s.withReads as)) := by
  have hcount : s.incoming.length = ws.length + (header.length + rest.length) := by
    simp only [hin, List.length_append]
  obtain ⟨hrun, hcost⟩ := recvRpcResponse_arrived env l hws hin hmem hlive
    (by omega)
  have hlive' := hlive.suffix (leftAfter_isSuffix as ws header)
  obtain ⟨a, left, hcons⟩ := List.exists_cons_of_ne_nil
    (List.ne_nil_of_length_pos (l := leftAfter as ws header) (by omega))
  obtain ⟨⟨k, -, rfl⟩, -⟩ := Transfer.live_cons.mp (hcons ▸ hlive')
  rw [hcons, List.length_cons] at hcost
  rw [hrun, dispatchResponse_success (s := (s.atBody rest).withReads _) hsaid hid hstatus, wordBytes,
    hcons]
  exact (recvPayload_received (s := (s.atBody rest).withReads (.upTo k :: left)) rfl
    (hcons ▸ hlive') (by simp; omega)).of_withReads

/-- The first answer after the header says how many bytes come. -/
theorem wordBytes_eq {as : List Ans} (ws header : List UInt8) (hlive : Transfer.Live as)
    (hlen : ws.length + header.length < as.length) (avail : ℕ) :
    ∃ k, 0 < k ∧ .upTo k ∈ as ∧ wordBytes as ws header avail = min k (min 4 avail) := by
  obtain ⟨-, hleft⟩ := leftAfter_length ws header hlive (by omega)
  have hsuffix := leftAfter_isSuffix as ws header
  obtain ⟨a, left, hcons⟩ := List.exists_cons_of_ne_nil
    (List.ne_nil_of_length_pos (l := leftAfter as ws header) (by omega))
  have ha : a ∈ as := hsuffix.subset (by rw [hcons]; exact List.mem_cons_self)
  obtain ⟨k, hk, rfl⟩ := hlive a ha
  exact ⟨k, hk, ha, by rw [wordBytes, hcons]⟩

theorem wordBytes_le (as : List Ans) (ws header : List UInt8) (avail : ℕ) :
    wordBytes as ws header avail ≤ avail := by
  rw [wordBytes]
  split <;> omega

/-! ## Whole reads -/

/-- Every read brings all of `n` bytes. -/
def WholeReads (n : ℕ) (as : List Ans) : Prop := ∀ a ∈ as, ∃ k, n ≤ k ∧ a = .upTo k

theorem WholeReads.live (h : WholeReads n as) (hn : 0 < n) : Transfer.Live as := by
  intro a ha
  obtain ⟨k, hk, rfl⟩ := h a ha
  exact ⟨k, by omega, rfl⟩

theorem WholeReads.suffix {left : List Ans} (h : WholeReads n as) (hle : left <:+ as) :
    WholeReads n left :=
  fun a ha => h a (hle.subset ha)

/-- The length of a payload is read at once. -/
theorem WholeReads.read_word {m : ℕ} (h : WholeReads n s.reads) (hn : s.incoming.length ≤ n)
    (hin : s.incoming = Word.be32 m ++ rest) (hne : s.reads ≠ []) :
    (Conn.read 4).run s = .ret (some (Word.be32 m)) (s.setIncoming rest s.reads.tail) := by
  obtain ⟨a, as, hcons⟩ := List.exists_cons_of_ne_nil hne
  obtain ⟨k, hk, rfl⟩ := h a (by rw [hcons]; exact List.mem_cons_self)
  have hlen : s.incoming.length = 4 + rest.length := by
    rw [hin, List.length_append, Word.be32_length]
  have hmin : min k (min 4 s.incoming.length) = 4 := by omega
  rw [read_run hcons, hmin, hin, hcons]
  rfl

/-- A response that arrives in whole reads, as `recv_rpc_response` takes it: it
reads what it is to read, and reports it unless the payload is empty. -/
theorem recvRpcResponse_whole {reply : Reply} {callId status version : BitVec 32}
    (hsaid : Says env header callId status version) (hid : callId = s.proxy.caller_id - 1)
    (hstatus : reply.HasStatus status) (hfits : reply.Fits) (hws : LengthWord header.length ws)
    (hin : s.incoming = ws ++ (header ++ (reply.head ++ rest)))
    (hwhole : WholeReads s.incoming.length s.reads) (hlen : s.incoming.length ≤ s.reads.length)
    (hmem : ∀ a ∈ s.allocs, a = true) :
    ∃ left ds allocs, left <:+ s.reads ∧ rest.length ≤ left.length ∧ allocs <:+ s.allocs ∧
      (recvRpcResponse env l).run s =
        .ret (if reply = .success [] then .other else reply.response)
          { s with incoming := rest, reads := left, allocs := allocs, printed := s.printed ++ ds } := by
  have hpos := hws.pos
  have hcount : s.incoming.length =
      ws.length + (header.length + (reply.head.length + rest.length)) := by
    simp only [hin, List.length_append]
  have hlive : Transfer.Live s.reads := hwhole.live (by omega)
  obtain ⟨harrives, hleft⟩ := headerArrives_live hws hin hlive (by omega) (hasMemory_of_all hmem)
  have hsuffix := leftAfter_isSuffix s.reads ws header
  have hrun := recvRpcResponse_said (l := l) harrives hsaid
  rw [if_neg (not_not.mpr hid)] at hrun
  have htail : s.allocs.tail <:+ s.allocs := List.tail_suffix _
  cases reply with
  | fatal =>
      rw [if_neg hstatus.1, if_neg hstatus.2] at hrun
      refine ⟨_, [.fatal version], _, hsuffix, ?_, htail, hrun⟩
      simp only [Reply.head, List.length_nil] at hcount
      omega
  | error exception_class exception_stack =>
      obtain rfl : status = 1 := hstatus
      rw [if_neg (by decide), if_pos rfl] at hrun
      refine ⟨_, [], _, hsuffix, ?_, htail, ?_⟩
      · simp only [Reply.head, List.length_nil] at hcount
        omega
      · rw [hrun, List.append_nil]
        rfl
  | success payload =>
      obtain rfl : status = 0 := hstatus
      rw [if_pos rfl] at hrun
      rw [Reply.head, lengthPrefixed_length] at hcount
      have hbody : ((s.setIncoming ((Reply.success payload).head ++ rest)
          (leftAfter s.reads ws header)).tookMemory).incoming =
          Word.be32 payload.length ++ (payload ++ rest) := by
        simp [Reply.head, lengthPrefixed]
      have hword := (hwhole.suffix hsuffix).read_word (by rw [hbody]; simp; omega) hbody
        (List.ne_nil_of_length_pos (by simp; omega))
      have hsize := payloadSize_be32 l payload.length
      have hint := toInt_ofNat hfits
      have hmem' := hasMemory_of_all (s := (s.setIncoming (payload ++ rest)
        (leftAfter s.reads ws header).tail).tookMemory) fun a ha => hmem a (htail.subset ha)
      have hsuffix' := (List.tail_suffix (leftAfter s.reads ws header)).trans hsuffix
      have htaillen := List.length_tail (l := leftAfter s.reads ws header)
      by_cases hnil : payload = []
      · subst hnil
        refine ⟨_, [.badPayloadLength], _, hsuffix', by omega, htail, ?_⟩
        rw [hrun, recvPayload_nonpositive hword (by rw [hsize, hint]; simp)]
        simp [Conn.printing, Conn.tookMemory, Conn.setIncoming]
      · have hpayload := List.length_pos_of_ne_nil hnil
        obtain ⟨left, hsuf, hcost, hret⟩ := recvPayload_full hword
          (by rw [hsize, hint]; omega) hmem' (hlive.suffix hsuffix')
          (by rw [hsize, hint]; simp) (by rw [hsize, hint]; simp; omega)
        rw [hsize, hint, Int.toNat_natCast] at hret hcost
        refine ⟨left, [], _, hsuf.trans hsuffix', ?_, (List.tail_suffix _).trans htail, ?_⟩
        · simp at hcost
          omega
        · rw [hrun, hret, if_neg (by simpa using hnil)]
          simp [Reply.response, Conn.setIncoming, Conn.tookMemory]

theorem responseHeader_fields (callId status : BitVec 32) :
    HeaderFields (responseHeader callId status) callId status := ⟨rfl, rfl⟩

theorem HeaderFields.lengthWord {rs : List Wire.Record} {callId status : BitVec 32}
    (h : HeaderFields rs callId status) (hlen : (Wire.encode rs).length < 2 ^ 31) :
    LengthWord (Wire.encode rs).length (Varint.encode (Wire.encode rs).length) := by
  refine lengthWord_encode (List.length_pos_of_ne_nil fun hnil => ?_) hlen
  obtain rfl := Wire.encode_eq_nil.mp hnil
  nomatch h.callId_once

/-- A header that the library cannot take in has no defined end. -/
theorem recvRpcResponse_unreadable (henv : ResponseHeaderType env) {rs : List Wire.Record}
    (hrs : Wire.ShortMessage rs header) (hlarge : ¬ Readable rs header) {left : List Ans}
    (harrives : HeaderArrives s header rest left) :
    ∃ t, (recvRpcResponse env l).run s = .undefined t := by
  have hlt : header.length < 2 ^ 31 := by
    obtain ⟨ws, -, -, hws, -⟩ := harrives.arrives
    exact hws.lt
  rw [recvRpcResponse_header harrives,
    dispatchResponse_unread (says_unreadable henv hrs (by omega) hlarge)]
  exact ⟨_, rfl⟩

/-- What the server sent is what `recv_rpc_response` reports, and no byte more is
read, unless the server sent an empty payload or a header too large for the library. -/
theorem response_decoded_iff (henv : ResponseHeaderType env) {rs : List Wire.Record}
    {reply : Reply} {callId status : BitVec 32} (hid : s.proxy.caller_id = callId + 1)
    (hrs : HeaderFields rs callId status) (hstatus : reply.HasStatus status) (hfits : reply.Fits)
    (hlen : (Wire.encode rs).length < 2 ^ 31)
    (hin : s.incoming = Varint.encode (Wire.encode rs).length ++
      (Wire.encode rs ++ (reply.head ++ rest)))
    (hwhole : WholeReads s.incoming.length s.reads) (hlong : s.incoming.length ≤ s.reads.length)
    (hmem : ∀ a ∈ s.allocs, a = true) :
    (∃ t, (recvRpcResponse env l).run s = .ret reply.response t ∧ t.incoming = rest) ↔
      reply ≠ .success [] ∧ Readable rs (Wire.encode rs) := by
  have hword := hrs.lengthWord hlen
  by_cases hreadable : Readable rs (Wire.encode rs)
  swap
  · have hcount : s.incoming.length ≥
        (Varint.encode (Wire.encode rs).length).length + (Wire.encode rs).length := by
      simp only [hin, List.length_append]
      omega
    have hpos := hword.pos
    obtain ⟨harrives, -⟩ := headerArrives_live hword hin (hwhole.live (by omega)) (by omega)
      (hasMemory_of_all hmem)
    obtain ⟨t, hrun⟩ := recvRpcResponse_unreadable (l := l) henv
      (Wire.shortMessage_encode rs (by omega)) hreadable harrives
    refine iff_of_false ?_ fun h => hreadable h.2
    rintro ⟨u, hret, -⟩
    rw [hrun] at hret
    cases hret
  obtain ⟨version, hsaid⟩ := says_encode henv hrs hreadable
  have hid' : callId = s.proxy.caller_id - 1 := by
    rw [hid]
    exact (BitVec.add_sub_cancel callId 1).symm
  obtain ⟨left, ds, allocs, -, -, -, hrun⟩ := recvRpcResponse_whole (l := l) hsaid hid' hstatus
    hfits hword hin hwhole hlong hmem
  rw [hrun]
  constructor
  · rintro ⟨t, hret, -⟩
    refine ⟨?_, hreadable⟩
    rintro rfl
    rw [if_pos rfl] at hret
    cases hret
  · rintro ⟨hne, -⟩
    exact ⟨_, by rw [if_neg hne], rfl⟩

/-- A proxy that waits for the answer to its first request. -/
def awaitingConn (incoming : List UInt8) : Conn where
  proxy := ⟨1, .client, .rm, clientRmProtocolName, -1⟩
  incoming := incoming
  outgoing := []
  reads := List.replicate 40 (.upTo 40)
  writes := []
  allocs := []
  printed := []

theorem response_decoded_byte : ∃ t, (recvRpcResponse protocolEnv zeroLocals).run
    (awaitingConn [4, 8, 0, 16, 0, 0, 0, 0, 1, 42, 43]) = .ret ⟨.succeed, some ([42], 1)⟩ t ∧
      t.incoming = [43] :=
  (@response_decoded_iff _ _ (awaitingConn [4, 8, 0, 16, 0, 0, 0, 0, 1, 42, 43]) [43]
    protocolEnv_responseHeaderType _ (.success [42]) 0 0 rfl (responseHeader_fields 0 0) rfl
    (by rw [Reply.Fits]; decide) (by decide) (by decide)
    (fun a ha => ⟨40, by decide, List.eq_of_mem_replicate ha⟩) (by decide)
    (by decide)).mpr ⟨by decide, by decide⟩

/-- A payload without bytes is taken for a failure. -/
theorem empty_payload_refused : ¬ ∀ (env : Env) (l : Locals) (s : Conn) (rs : List Wire.Record)
    (reply : Reply) (callId status : BitVec 32) (rest : List UInt8), ResponseHeaderType env →
    s.proxy.caller_id = callId + 1 → HeaderFields rs callId status → reply.HasStatus status →
    reply.Fits → (Wire.encode rs).length < 2 ^ 31 → Readable rs (Wire.encode rs) →
    s.incoming = Varint.encode (Wire.encode rs).length ++
      (Wire.encode rs ++ (reply.head ++ rest)) →
    WholeReads s.incoming.length s.reads → s.incoming.length ≤ s.reads.length →
    (∀ a ∈ s.allocs, a = true) →
    ∃ t, (recvRpcResponse env l).run s = .ret reply.response t ∧ t.incoming = rest := by
  intro hclaim
  obtain ⟨t, hret, -⟩ := hclaim protocolEnv zeroLocals
    (awaitingConn [4, 8, 0, 16, 0, 0, 0, 0, 0]) (responseHeader 0 0) (.success []) 0 0 []
    protocolEnv_responseHeaderType rfl (responseHeader_fields 0 0) rfl
    (by rw [Reply.Fits]; decide) (by decide) (by decide) (by decide)
    (fun a ha => ⟨40, by decide, List.eq_of_mem_replicate ha⟩) (by decide) (by decide)
  have hvalue : ((recvRpcResponse protocolEnv zeroLocals).run
      (awaitingConn [4, 8, 0, 16, 0, 0, 0, 0, 0])).value? = some .other := by decide +kernel
  rw [hret] at hvalue
  cases hvalue

end HdClient
