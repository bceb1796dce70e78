-- SUMMARY: Whole runs of a sending client: the stream a server parses, and what failing writes leave of it.
import HdClient.Base.Runs
import HdClient.Client.ClientRmProtocol
import HdClient.Rpc.Outbound

/-! # Sending sessions -/

namespace HdClient

open Pbc Conn

/-- One call of `send_rpc_request`, with a buffer of exactly the payload. -/
structure SendCall where
  payload : List UInt8
  mem : Locals

def sendRequest (env : Env) (c : SendCall) : Prog Conn ℤ :=
  sendRpcRequest env c.mem (some c.payload) (sliceLen c.payload)

/-- The frames of payloads that are sent one after the other. -/
def frames (caller_id : BitVec 32) : List (List UInt8) → List UInt8
  | [] => []
  | payload :: payloads => frame caller_id payload ++ frames (caller_id + 1) payloads

/-- What the server reads from these frames. -/
def requests (caller_id : BitVec 32) : List (List UInt8) → List (List Wire.Record × List UInt8)
  | [] => []
  | payload :: payloads => (requestHeader caller_id, payload) :: requests (caller_id + 1) payloads

/-- Every frame is shorter than an `int` can say. -/
def Fit (caller_id : BitVec 32) : List (List UInt8) → Prop
  | [] => True
  | payload :: payloads =>
      (frameBody caller_id payload).length < 2 ^ 31 ∧ Fit (caller_id + 1) payloads

theorem next_id (c : BitVec 32) (n : ℕ) :
    c + 1 + BitVec.ofNat 32 n = c + BitVec.ofNat 32 (n + 1) := by
  rw [BitVec.add_assoc, Nat.add_comm, BitVec.ofNat_add]
  rfl

@[simp] theorem requests_length (c : BitVec 32) (ps : List (List UInt8)) :
    (requests c ps).length = ps.length := by
  induction ps generalizing c with
  | nil => rfl
  | cons p ps ih => simp [requests, ih]

theorem requests_getElem? (c : BitVec 32) (ps : List (List UInt8)) (i : ℕ) :
    (requests c ps)[i]? = ps[i]?.map fun p => (requestHeader (c + BitVec.ofNat 32 i), p) := by
  induction ps generalizing c i with
  | nil => rfl
  | cons p ps ih =>
      cases i with
      | zero => simp [requests]
      | succ i => simp only [requests, List.getElem?_cons_succ, ih, next_id]

theorem fit_iff {c : BitVec 32} {ps : List (List UInt8)} :
    Fit c ps ↔ ∀ i p, ps[i]? = some p → (frameBody (c + BitVec.ofNat 32 i) p).length < 2 ^ 31 := by
  induction ps generalizing c with
  | nil => simp [Fit]
  | cons p ps ih =>
      rw [Fit, ih]
      constructor
      · rintro ⟨hp, hps⟩ i q hq
        cases i with
        | zero =>
            obtain rfl : p = q := by simpa using hq
            simpa using hp
        | succ i => exact next_id c i ▸ hps i q (by simpa using hq)
      · intro h
        exact ⟨by simpa using h 0 p rfl, fun i q hq => next_id c i ▸ h (i + 1) q (by simpa using hq)⟩

/-- A server reads the frames as the requests that were sent. -/
theorem frames_format {c : BitVec 32} {ps : List (List UInt8)} (h : Fit c ps) :
    Format.Star FrameFormat (requests c ps) (frames c ps) := by
  induction ps generalizing c with
  | nil => exact .nil
  | cons p ps ih => exact .cons (frame_format (Nat.lt_trans h.1 (by decide))) (ih h.2)

theorem frames_append (c : BitVec 32) (ps qs : List (List UInt8)) :
    frames c (ps ++ qs) = frames c ps ++ frames (c + BitVec.ofNat 32 ps.length) qs := by
  induction ps generalizing c with
  | nil => simp [frames]
  | cons p ps ih => simp only [List.cons_append, frames, ih, List.length_cons, next_id,
      List.append_assoc]

/-! ## Writes that always make progress -/

variable {env : Env}

/-- One request over a live socket. -/
theorem sendRequest_live (h : RequestHeaderType env) {s : Conn} {c : SendCall}
    (hfit : (frameBody s.proxy.caller_id c.payload).length < 2 ^ 31)
    (hlive : Transfer.Live s.writes)
    (hlong : (frame s.proxy.caller_id c.payload).length ≤ s.writes.length) :
    ∃ t, (sendRequest env c).run s = .ret 0 t ∧
      t.proxy.caller_id = s.proxy.caller_id + 1 ∧
      t.outgoing = s.outgoing ++ frame s.proxy.caller_id c.payload ∧ Transfer.Live t.writes ∧
      s.writes.length ≤ t.writes.length + (frame s.proxy.caller_id c.payload).length := by
  have hsend := sendRpcRequest_run h c.mem s (payload_lt hfit)
  rw [← frameParts_sum] at hlong ⊢
  obtain ⟨hdone, hleft⟩ := hlive.carryAll_done hlong
  refine ⟨_, hsend.done hdone, rfl, ?_, hlive.carryAll_left _, hleft⟩
  have hcar := Transfer.carryAll_of_done hdone
  rw [frameParts_sum] at hcar
  simp [Conn.sent, hcar]

/-- Requests over a live socket, one after the other. -/
theorem sendRequests_live (h : RequestHeaderType env) {s : Conn} {calls : List SendCall}
    (hfit : Fit s.proxy.caller_id (calls.map SendCall.payload)) (hlive : Transfer.Live s.writes)
    (hlong : (frames s.proxy.caller_id (calls.map SendCall.payload)).length ≤ s.writes.length) :
    ∃ t, Prog.AnyRuns (sendRequest env) s (calls.map fun c => (c, 0)) t ∧
      t.proxy.caller_id = s.proxy.caller_id + BitVec.ofNat 32 calls.length ∧
      t.outgoing = s.outgoing ++ frames s.proxy.caller_id (calls.map SendCall.payload) := by
  induction calls generalizing s with
  | nil => exact ⟨s, .nil, by simp, by simp [frames]⟩
  | cons c calls ih =>
      rw [List.map_cons, frames, List.length_append] at hlong
      obtain ⟨u, hret, hid, hout, hlive', hleft⟩ :=
        sendRequest_live (c := c) h hfit.1 hlive (by omega)
      obtain ⟨t, hruns, hid', hout'⟩ := ih (hid ▸ hfit.2) hlive' (by rw [hid]; omega)
      refine ⟨t, Prog.Runs.append (Prog.Runs.single trivial hret) hruns, ?_, ?_⟩
      · rw [hid', hid, next_id, List.length_cons]
      · rw [hout', hout, hid, List.map_cons, frames, List.append_assoc]

/-- A run of calls that returned zero is the run of these calls. -/
private theorem runs_unique {s t u : Conn} {log : List (SendCall × ℤ)}
    (h : Prog.AnyRuns (sendRequest env) s log t) (h' : Prog.AnyRuns (sendRequest env) s log u) :
    t = u := by
  induction h generalizing u with
  | nil => exact h'.of_nil.symm
  | snoc _ _ hret ih =>
      obtain ⟨v, hlog, -, hret'⟩ := h'.of_snoc
      cases ih hlog
      rw [hret] at hret'
      cases hret'
      rfl

/-- The connection header over a live socket. -/
theorem writeConnectionHeader_live {s : Conn} {context : List UInt8}
    (hcontext : ContextBytes env s context) (hfit : context.length ≤ 2 ^ 30)
    (hlive : Transfer.Live s.writes) (hlong : (handshake context).length ≤ s.writes.length) :
    ∃ t, (writeConnectionHeader env).run s = .ret 0 t ∧ t.proxy = s.proxy ∧
      t.outgoing = s.outgoing ++ handshake context ∧ Transfer.Live t.writes ∧
      s.writes.length ≤ t.writes.length + (handshake context).length := by
  have hsend := writeConnectionHeader_run hcontext (by omega)
  rw [← handshakeParts_sum] at hlong ⊢
  obtain ⟨hdone, hleft⟩ := hlive.carryAll_done hlong
  refine ⟨_, hsend.done hdone, rfl, ?_, hlive.carryAll_left _, hleft⟩
  have hcar := Transfer.carryAll_of_done hdone
  rw [handshakeParts_sum] at hcar
  simp [Conn.sent, hcar]

/-- What a server reads from a connection header and frames, and all it can read from them. -/
theorem stream_unique {p : List UInt8} {ps : List (List UInt8)}
    (hcontext : (Wire.encode (connectionContext p)).length ≤ 2 ^ 30) (hfit : Fit 0 ps) :
    ∀ v, StreamFormat v (handshake (Wire.encode (connectionContext p)) ++ frames 0 ps) ↔
      v = ((), connectionContext p, requests 0 ps) := by
  have hparse : StreamFormat ((), connectionContext p, requests 0 ps)
      (handshake (Wire.encode (connectionContext p)) ++ frames 0 ps) := by
    rw [handshake, List.append_assoc]
    refine Format.seq_intro rfl (Format.seq_intro ?_ (frames_format hfit))
    exact Format.framed_intro ⟨by omega, rfl⟩ (Wire.message_encode _)
  intro v
  constructor
  · intro hv
    exact streamFormat_functional hv hparse
  · rintro rfl
    exact hparse

/-- A client greets and sends its requests, every call succeeds, and a server reads
back, in one way only, the context with the protocol name and the requests under the
ids from zero on. -/
def RoundTrips (env : Env) (s : Conn) (calls : List SendCall) : Prop :=
  ∃ s₁ t, (writeConnectionHeader env).run s = .ret 0 s₁ ∧
    Prog.AnyRuns (sendRequest env) s₁ (calls.map fun c => (c, 0)) t ∧
    t.proxy.caller_id.toInt = calls.length ∧
    ∃ context requests, (∀ v, StreamFormat v t.outgoing ↔ v = ((), context, requests)) ∧
      Wire.SetsOnce context 3 (.lend s.proxy.protocol_name.bytes) ∧
      requests.length = calls.length ∧
      ∀ i c, calls[i]? = some c → ∃ header, requests[i]? = some (header, c.payload) ∧
        Wire.SetsOnce header 1 (.varint 2) ∧ Wire.SetsOnce header 2 (.varint 0) ∧
        Wire.SetsOnce header 3 (.varint (BitVec.ofNat 64 i))

/-- A proxy before the first byte, with requests whose frames fit an `int`, over a
socket that accepts something at every write. -/
structure Greets (s : Conn) (calls : List SendCall) : Prop where
  caller_id : s.proxy.caller_id = 0
  outgoing : s.outgoing = []
  count : calls.length < 2 ^ 31
  fit : ∀ i c, calls[i]? = some c → (frameBody (BitVec.ofNat 32 i) c.payload).length < 2 ^ 31
  live : Transfer.Live s.writes
  long : (handshake (Wire.encode (connectionContext s.proxy.protocol_name.bytes)) ++
    frames 0 (calls.map SendCall.payload)).length ≤ s.writes.length

theorem Greets.fits {s : Conn} {calls : List SendCall} (h : Greets s calls) :
    Fit 0 (calls.map SendCall.payload) := by
  rw [fit_iff]
  intro i p hp
  rw [List.getElem?_map, Option.map_eq_some_iff] at hp
  obtain ⟨c, hc, rfl⟩ := hp
  simpa using h.fit i c hc

/-- The stream of a client that greets with the context of `q`. -/
private theorem Greets.stream (hheader : RequestHeaderType env) {s : Conn} {calls : List SendCall}
    (h : Greets s calls) {q : List UInt8} (hq : q <+: s.proxy.protocol_name.bytes)
    (hfit : (Wire.encode (connectionContext q)).length ≤ 2 ^ 30)
    (hcontext : ContextBytes env s (Wire.encode (connectionContext q))) :
    ∃ s₁ t, (writeConnectionHeader env).run s = .ret 0 s₁ ∧
      Prog.AnyRuns (sendRequest env) s₁ (calls.map fun c => (c, 0)) t ∧
      t.proxy.caller_id = BitVec.ofNat 32 calls.length ∧
      ∀ v, StreamFormat v t.outgoing ↔
        v = ((), connectionContext q, requests 0 (calls.map SendCall.payload)) := by
  have hshort : (handshake (Wire.encode (connectionContext q))).length ≤
      (handshake (Wire.encode (connectionContext s.proxy.protocol_name.bytes))).length := by
    have hlen := encode_connectionContext_mono hq.length_le
    simp only [handshake, List.length_append, Word.be32_length]
    omega
  have hlong := h.long
  rw [List.length_append] at hlong
  obtain ⟨s₁, hret, hproxy, hout₁, hlive₁, hleft⟩ :=
    writeConnectionHeader_live hcontext hfit h.live (by omega)
  have hid₁ : s₁.proxy.caller_id = 0 := by rw [hproxy, h.caller_id]
  obtain ⟨t, hruns, hidt, houtt⟩ := sendRequests_live hheader (hid₁ ▸ h.fits) hlive₁
    (by rw [hid₁]; omega)
  refine ⟨s₁, t, hret, hruns, ?_, ?_⟩
  · rw [hidt, hid₁]
    exact BitVec.zero_add _
  · rw [houtt, hout₁, h.outgoing, hid₁]
    exact stream_unique hfit h.fits

/-- A name that is read back has been written whole, and so did fit the message. -/
private theorem Greets.name_fits (henv : ContextType env) (hheader : RequestHeaderType env)
    {s : Conn} {calls : List SendCall} (h : Greets s calls) (htrips : RoundTrips env s calls) :
    (Wire.encode (connectionContext s.proxy.protocol_name.bytes)).length ≤ 2 ^ 30 := by
  obtain ⟨s₁, t, hret, hruns, -, context, requests, hstream, hname, -⟩ := htrips
  obtain ⟨q, hq, hfit, hcontext⟩ := contextBytes_of_ret henv hret
  obtain ⟨s₁', t', hret', hruns', -, hstream'⟩ := h.stream hheader hq hfit hcontext
  rw [hret] at hret'
  cases hret'
  cases runs_unique hruns hruns'
  obtain ⟨-, rfl, -⟩ : (() = ()) ∧ connectionContext q = context ∧ _ = requests := by
    simpa using (hstream _).mp ((hstream' _).mpr rfl)
  have hsame : q = s.proxy.protocol_name.bytes := by
    simpa using (connectionContext_protocol q).symm.trans hname
  exact hsame ▸ hfit

/-- The round trip succeeds exactly if the context with the protocol name fits the
largest buffer that a message can grow to. -/
theorem session_roundtrip (henv : ContextType env) (hheader : RequestHeaderType env) {s : Conn}
    {calls : List SendCall} (h : Greets s calls) : RoundTrips env s calls ↔
      (Wire.encode (connectionContext s.proxy.protocol_name.bytes)).length ≤ 2 ^ 30 := by
  refine ⟨h.name_fits henv hheader, fun hfit => ?_⟩
  obtain ⟨s₁, t, hret, hruns, hid, hstream⟩ :=
    h.stream hheader (List.prefix_refl _) hfit (contextBytes_of_fits henv hfit)
  have hn := h.count
  refine ⟨s₁, t, hret, hruns, ?_, _, _, hstream, connectionContext_protocol _, by simp, ?_⟩
  · rw [hid, BitVec.toInt_eq_toNat_of_lt] <;> simp <;> omega
  · intro i c hc
    have hi : i < calls.length := List.getElem?_eq_some_iff.mp hc |>.1
    refine ⟨requestHeader (BitVec.ofNat 32 i), ?_, rfl, rfl, ?_⟩
    · rw [requests_getElem?, List.getElem?_map, hc]
      simp
    · have hwide : (BitVec.ofNat 32 i).setWidth 64 = BitVec.ofNat 64 i := by
        apply BitVec.eq_of_toNat_eq
        simp only [BitVec.toNat_setWidth, BitVec.toNat_ofNat]
        omega
      exact hwide ▸ requestHeader_callId _

/-- A proxy before the first byte, over a socket that takes three bytes at a time. -/
def freshConn : Conn where
  proxy := ⟨0, .client, .rm, clientRmProtocolName, -1⟩
  incoming := []
  outgoing := []
  reads := []
  writes := List.replicate 100 (.upTo 3)
  allocs := []
  printed := []

private theorem live_freshConn : Transfer.Live freshConn.writes := by
  intro a ha
  exact ⟨3, by decide, List.eq_of_mem_replicate ha⟩

private theorem two_calls {P : ℕ → SendCall → Prop} {c d : SendCall} (hc : P 0 c)
    (hd : P 1 d) : ∀ i e, [c, d][i]? = some e → P i e
  | 0, e, h => by
      obtain rfl : c = e := by simpa using h
      exact hc
  | 1, e, h => by
      obtain rfl : d = e := by simpa using h
      exact hd
  | _ + 2, _, h => by simp at h

/-- Two requests, one of them empty. -/
theorem session_roundtrip_two :
    RoundTrips protocolEnv freshConn [⟨[1, 2, 3], zeroLocals⟩, ⟨[], zeroLocals⟩] :=
  (session_roundtrip protocolEnv_contextType protocolEnv_requestHeaderType
    ⟨rfl, rfl, by decide, two_calls (by decide) (by decide), live_freshConn, by decide⟩).mpr
    (by decide)

private theorem exists_name (n : ℕ) : ∃ p : CString, p.bytes.length = n :=
  ⟨⟨List.replicate n 1, fun h => absurd (List.eq_of_mem_replicate h) (by decide)⟩,
    List.length_replicate⟩

/-- A protocol name of 2^30 bytes is never written. -/
theorem long_name_never_written : ¬ ∀ (env : Env) (s : Conn) (calls : List SendCall),
    ContextType env → RequestHeaderType env → Greets s calls → RoundTrips env s calls := by
  intro hclaim
  obtain ⟨p, hp⟩ := exists_name (2 ^ 30)
  let s : Conn := { freshConn with
    proxy := { freshConn.proxy with protocol_name := p }
    writes := List.replicate
      (handshake (Wire.encode (connectionContext p.bytes)) ++ frames 0 []).length (.upTo 1) }
  have hgreets : Greets s [] := by
    refine ⟨rfl, rfl, by decide, by simp, fun a ha => ?_, ?_⟩
    · exact ⟨1, by decide, List.eq_of_mem_replicate ha⟩
    · exact Nat.le_of_eq List.length_replicate.symm
  have hfit := hgreets.name_fits protocolEnv_contextType protocolEnv_requestHeaderType
    (hclaim _ s [] protocolEnv_contextType protocolEnv_requestHeaderType hgreets)
  have hlong := lt_encode_connectionContext p.bytes
  rw [hp] at hlong
  exact absurd hfit (Nat.not_le.mpr hlong)

/-! ## Writes that fail -/

/-- The payloads of the calls that returned zero. -/
def completed (log : List (SendCall × ℤ)) : List (List UInt8) :=
  (log.filter (·.2 = 0)).map (·.1.payload)

/-- What the socket has accepted since `base` are the completed requests, under
the ids from zero on, and at most a part of one more frame at the very end. -/
def StreamIntact (base : List UInt8) (done : List (List UInt8)) (out : List UInt8) : Prop :=
  ∃ sent part request whole, out = base ++ (sent ++ part) ∧
    Format.Star FrameFormat (requests 0 done) sent ∧ FrameFormat request whole ∧
    part <+: whole ∧ part ≠ whole

/-- The frame of a call is one whose length an `int` holds. -/
def FitsFrame (c : SendCall) (s : Conn) : Prop :=
  (frameBody s.proxy.caller_id c.payload).length < 2 ^ 31

/-- A call whose writes fail, if they do, before a byte of its frame is accepted. -/
def CleanCall (c : SendCall) (s : Conn) : Prop :=
  FitsFrame c s ∧
    let t := Transfer.carryAll s.writes (frameParts s.proxy.caller_id c.payload)
    t.ending = .failed → t.carried = 0

/-- What `send_rpc_request` makes of the outbound stream. -/
theorem sendRequest_stream (h : RequestHeaderType env) {s : Conn} {c : SendCall}
    (hfit : FitsFrame c s) :
    let t := Transfer.carryAll s.writes (frameParts s.proxy.caller_id c.payload)
    let o := (sendRequest env c).run s
    o.state.outgoing = s.outgoing ++ (frame s.proxy.caller_id c.payload).take t.carried ∧
      (∀ a u, o = .ret a u → a = 0 ∧ t.ending = .done ∧
          u.proxy.caller_id = s.proxy.caller_id + 1 ∨
        a = -1 ∧ t.ending = .failed ∧ u.proxy.caller_id = s.proxy.caller_id) := by
  have hsend := sendRpcRequest_run h c.mem s (payload_lt hfit)
  dsimp only
  rw [sendRequest]
  cases hend : (Transfer.carryAll s.writes (frameParts s.proxy.caller_id c.payload)).ending with
  | done =>
      rw [hsend.done hend]
      refine ⟨rfl, fun a u ho => .inl ?_⟩
      cases ho
      exact ⟨rfl, rfl, rfl⟩
  | failed =>
      obtain ⟨ds, hret⟩ := hsend.failed hend
      rw [hret]
      refine ⟨rfl, fun a u ho => .inr ?_⟩
      cases ho
      exact ⟨rfl, rfl, rfl⟩
  | waiting =>
      rw [hsend.waiting hend]
      exact ⟨rfl, nofun⟩

theorem completed_snoc (log : List (SendCall × ℤ)) (c : SendCall) (a : ℤ) :
    completed (log ++ [(c, a)]) = completed log ++ if a = 0 then [c.payload] else [] := by
  by_cases h : a = 0 <;> simp [completed, h]

theorem fit_append {c : BitVec 32} {ps qs : List (List UInt8)} :
    Fit c (ps ++ qs) ↔ Fit c ps ∧ Fit (c + BitVec.ofNat 32 ps.length) qs := by
  induction ps generalizing c with
  | nil => simp [Fit]
  | cons p ps ih => simp only [List.cons_append, Fit, ih, List.length_cons, next_id, and_assoc]

/-- The stream and the counter after frames that were sent in full. -/
structure InStep (base : List UInt8) (done : List (List UInt8)) (t : Conn) : Prop where
  outgoing : t.outgoing = base ++ frames 0 done
  fit : Fit 0 done
  caller_id : t.proxy.caller_id = BitVec.ofNat 32 done.length

/-- A call that was carried in full keeps in step, and so does one that sent nothing. -/
theorem InStep.call (h : RequestHeaderType env) {base : List UInt8} {c : SendCall}
    {done : List (List UInt8)} {t u : Conn} {a : ℤ} (hstep : InStep base done t)
    (hclean : CleanCall c t) (hret : (sendRequest env c).run t = .ret a u) :
    InStep base (done ++ if a = 0 then [c.payload] else []) u := by
  obtain ⟨hfit, hclean⟩ := hclean
  obtain ⟨hout, hcases⟩ := sendRequest_stream h hfit
  rw [hret] at hout hcases
  rcases hcases a u rfl with ⟨rfl, hend, hid⟩ | ⟨rfl, hend, hid⟩
  · have hcar := Transfer.carryAll_of_done hend
    rw [frameParts_sum] at hcar
    rw [hcar, List.take_length, hstep.outgoing, hstep.caller_id] at hout
    refine ⟨?_, ?_, ?_⟩
    · simpa [frames_append, frames] using hout
    · have hzero : (0 : BitVec 32) + BitVec.ofNat 32 done.length = t.proxy.caller_id :=
        (BitVec.zero_add _).trans hstep.caller_id.symm
      rw [if_pos rfl, fit_append, hzero]
      exact ⟨hstep.fit, hfit, trivial⟩
    · simp [hid, hstep.caller_id, BitVec.ofNat_add]
  · rw [hclean hend, List.take_zero, List.append_nil] at hout
    simpa using (⟨hout.trans hstep.outgoing, hstep.fit, hid.trans hstep.caller_id⟩ :
      InStep base done u)

theorem cleanRuns_inStep (h : RequestHeaderType env) {s t : Conn} {log : List (SendCall × ℤ)}
    (hid : s.proxy.caller_id = 0) (hruns : Prog.Runs CleanCall (sendRequest env) s log t) :
    InStep s.outgoing (completed log) t := by
  refine hruns.invariant (I := fun log t => InStep s.outgoing (completed log) t)
    ⟨by simp [completed, frames], trivial, by simpa [completed] using hid⟩ ?_
  intro log t c a u hstep hclean hret
  rw [completed_snoc]
  exact hstep.call h hclean hret

/-- A stream in step, and what one more call has sent of its frame. -/
theorem InStep.intact {base : List UInt8} {c : SendCall} {done : List (List UInt8)} {t : Conn}
    (hstep : InStep base done t) (hfit : FitsFrame c t) {k : ℕ}
    (hk : k < (frame t.proxy.caller_id c.payload).length) :
    StreamIntact base done (t.outgoing ++ (frame t.proxy.caller_id c.payload).take k) := by
  refine ⟨_, _, _, _, ?_, frames_format hstep.fit, frame_format (Nat.lt_trans hfit (by decide)),
    List.take_prefix k _, ?_⟩
  · rw [hstep.outgoing, List.append_assoc]
  · intro heq
    have hlen := congrArg List.length heq
    rw [List.length_take] at hlen
    omega

theorem InStep.intact_nil {base : List UInt8} {done : List (List UInt8)} {t : Conn}
    (hstep : InStep base done t) : StreamIntact base done t.outgoing := by
  refine ⟨_, [], _, _, ?_, frames_format hstep.fit,
    frame_format (show (frameBody 0 []).length < 2 ^ 32 by decide), List.nil_prefix, by decide⟩
  rw [hstep.outgoing, List.append_nil]

theorem frame_length_pos (c : BitVec 32) (payload : List UInt8) :
    0 < (frame c payload).length := by
  rw [frame, List.length_append, Word.be32_length]
  omega

/-- A call that did not send its whole frame. -/
theorem not_done_of_run (h : RequestHeaderType env) {t : Conn} {c : SendCall}
    (hfit : FitsFrame c t)
    (hret : ∀ u, (sendRequest env c).run t ≠ .ret 0 u) :
    (Transfer.carryAll t.writes (frameParts t.proxy.caller_id c.payload)).carried <
      (frame t.proxy.caller_id c.payload).length := by
  rw [← frameParts_sum]
  refine Transfer.carryAll_lt fun hend => ?_
  exact hret _ ((sendRpcRequest_run h c.mem t (payload_lt hfit)).done hend)

/-- One call after frames that were sent in full, whatever becomes of it. -/
theorem InStep.broken (h : RequestHeaderType env) {base : List UInt8} {c : SendCall}
    {done : List (List UInt8)} {t u : Conn} {a : ℤ} (hstep : InStep base done t)
    (hfit : FitsFrame c t) (hret : (sendRequest env c).run t = .ret a u) :
    StreamIntact base (done ++ if a = 0 then [c.payload] else []) u.outgoing := by
  obtain ⟨hout, hcases⟩ := sendRequest_stream h hfit
  rw [hret] at hout hcases
  rcases hcases a u rfl with ⟨rfl, hend, -⟩ | ⟨rfl, -, -⟩
  · refine (hstep.call h ⟨hfit, fun hfail => ?_⟩ hret).intact_nil
    rw [hend] at hfail
    cases hfail
  · have hlt := not_done_of_run h hfit (by rw [hret]; nofun)
    rw [Outcome.state_ret] at hout
    rw [hout, if_neg (by decide), List.append_nil]
    exact hstep.intact hfit hlt

/-- A frame is not shorter than its length says. -/
private theorem not_frame_of_zeros {v : List Wire.Record × List UInt8} {xs rest tail : List UInt8}
    (h : FrameFormat v xs) : xs ++ rest ≠ Word.be32 0 ++ tail := by
  intro heq
  obtain ⟨ys, zs, rfl, ⟨hlt, rfl⟩, hbody⟩ := h
  rw [List.append_assoc] at heq
  have hzero := Word.be32_injective hlt (by decide) (List.append_inj heq rfl).1
  obtain rfl : zs = [] := List.length_eq_zero_iff.mp hzero
  obtain ⟨as, bs, hnil, hhead, -⟩ := hbody
  obtain ⟨rfl, -⟩ := List.append_eq_nil_iff.mp hnil.symm
  exact Format.framed_ne_nil Varint.not_encodes_nil hhead rfl

/-- A socket that accepts one byte, fails, and then accepts everything. -/
def flakyConn : Conn :=
  { freshConn with writes := [.upTo 1, .fail] ++ List.replicate 5 (.upTo 100) }

private theorem flaky_runs : ∃ t, Prog.Runs FitsFrame
    (sendRequest protocolEnv) flakyConn ([(⟨[], zeroLocals⟩, -1)] ++ [(⟨[], zeroLocals⟩, 0)]) t ∧
    t.outgoing = (frame 0 []).take 1 ++ frame 0 [] := by
  have hfits : ∀ s : Conn, s.proxy.caller_id = 0 → FitsFrame ⟨[], zeroLocals⟩ s := by
    intro s hs
    rw [FitsFrame, hs]
    decide
  have hrun : ∀ s : Conn, (hs : s.proxy.caller_id = 0) → _ := fun s hs =>
    sendRpcRequest_run protocolEnv_requestHeaderType zeroLocals s (payload_lt (hfits s hs))
  obtain ⟨ds, hfirst⟩ := (hrun flakyConn rfl).failed (by decide)
  have hdone : (Transfer.carryAll (Transfer.carryAll flakyConn.writes (frameParts 0 [])).left
      (frameParts 0 [])).ending = .done := by decide
  have hsecond := (hrun ((flakyConn.sent (frame 0 [])
    (Transfer.carryAll flakyConn.writes (frameParts 0 []))).reporting ds) rfl).done hdone
  refine ⟨_, Prog.Runs.append (Prog.Runs.single (hfits flakyConn rfl) hfirst)
    (Prog.Runs.single (hfits _ rfl) hsecond), ?_⟩
  have hcar : (Transfer.carryAll flakyConn.writes (frameParts 0 [])).carried = 1 := by decide
  have hcar' : (Transfer.carryAll (Transfer.carryAll flakyConn.writes (frameParts 0 [])).left
      (frameParts 0 [])).carried = (frame 0 []).length :=
    (Transfer.carryAll_of_done hdone).trans (frameParts_sum 0 [])
  show ([] ++ (frame 0 []).take (Transfer.carryAll flakyConn.writes (frameParts 0 [])).carried) ++
    (frame 0 []).take (Transfer.carryAll
      (Transfer.carryAll flakyConn.writes (frameParts 0 [])).left (frameParts 0 [])).carried = _
  rw [hcar, hcar', List.take_length, List.nil_append]

/-- A frame of which one byte was accepted is followed by the next frame. -/
theorem abandoned_frame_corrupts : ¬ ∀ (env : Env) (s t : Conn)
    (log : List (SendCall × ℤ)), RequestHeaderType env → s.proxy.caller_id = 0 →
    Prog.Runs FitsFrame (sendRequest env) s log t →
    StreamIntact s.outgoing (completed log) t.outgoing := by
  intro hclaim
  obtain ⟨t, hruns, hbytes⟩ := flaky_runs
  obtain ⟨sent, part, -, -, hout, hstar, -⟩ :=
    hclaim _ _ _ _ protocolEnv_requestHeaderType rfl hruns
  have hzeros : (frame 0 []).take 1 ++ frame 0 [] = Word.be32 0 ++ (frame 0 []).drop 3 := by
    decide
  have hbase : flakyConn.outgoing = [] := rfl
  rw [hbase, hbytes, List.nil_append] at hout
  cases hstar with
  | cons hframe hnil =>
      rw [List.append_assoc] at hout
      exact not_frame_of_zeros hframe (hout.symm.trans hzeros)

/-- A call of whose frame the socket accepts nothing. -/
def SilentCall (c : SendCall) (s : Conn) : Prop :=
  FitsFrame c s ∧
    (Transfer.carryAll s.writes (frameParts s.proxy.caller_id c.payload)).carried = 0

theorem SilentCall.stream (h : RequestHeaderType env) {s : Conn} {c : SendCall}
    (hsilent : SilentCall c s) :
    ((sendRequest env c).run s).state.outgoing = s.outgoing := by
  obtain ⟨hout, -⟩ := sendRequest_stream h hsilent.1
  rw [hout, hsilent.2, List.take_zero, List.append_nil]

/-- Nothing is accepted, and no call succeeds. -/
theorem silentRuns_stream (h : RequestHeaderType env) {s t : Conn} {log : List (SendCall × ℤ)}
    (hruns : Prog.Runs SilentCall (sendRequest env) s log t) :
    t.outgoing = s.outgoing ∧ completed log = [] := by
  refine hruns.invariant (I := fun log t => t.outgoing = s.outgoing ∧ completed log = [])
    ⟨rfl, rfl⟩ ?_
  rintro log t c a u ⟨hout, hlog⟩ hsilent hret
  have hstream := hsilent.stream h
  rw [hret, Outcome.state_ret] at hstream
  refine ⟨hstream.trans hout, ?_⟩
  obtain ⟨-, hcases⟩ := sendRequest_stream h hsilent.1
  rw [completed_snoc, hlog]
  rcases hcases a u hret with ⟨-, hend, -⟩ | ⟨rfl, -, -⟩
  · have hcar := Transfer.carryAll_of_done hend
    have hpos := frame_length_pos t.proxy.caller_id c.payload
    rw [hsilent.2, frameParts_sum] at hcar
    omega
  · simp

/-- The moments of a run in which at most one call fails with a part of its
frame accepted, and nothing is accepted after it. -/
inductive TidyMoment (env : Env) (s : Conn) :
    List (SendCall × ℤ) → Conn → Prop where
  | returned {log : List (SendCall × ℤ)} {t : Conn} :
      Prog.Runs CleanCall (sendRequest env) s log t → TidyMoment env s log t
  | underway {log : List (SendCall × ℤ)} {t u : Conn} {c : SendCall} :
      Prog.Runs CleanCall (sendRequest env) s log t → FitsFrame c t →
      (sendRequest env c).run t = .wait u → TidyMoment env s log u
  | broken {log log' : List (SendCall × ℤ)} {t u v : Conn} {c : SendCall} {a : ℤ} :
      Prog.Runs CleanCall (sendRequest env) s log t → FitsFrame c t →
      (sendRequest env c).run t = .ret a u →
      Prog.Runs SilentCall (sendRequest env) u log' v →
      TidyMoment env s (log ++ [(c, a)] ++ log') v
  | brokenUnderway {log log' : List (SendCall × ℤ)} {t u v w : Conn} {c d : SendCall} {a : ℤ} :
      Prog.Runs CleanCall (sendRequest env) s log t → FitsFrame c t →
      (sendRequest env c).run t = .ret a u →
      Prog.Runs SilentCall (sendRequest env) u log' v → SilentCall d v →
      (sendRequest env d).run v = .wait w →
      TidyMoment env s (log ++ [(c, a)] ++ log') w

theorem completed_append (log log' : List (SendCall × ℤ)) :
    completed (log ++ log') = completed log ++ completed log' := by
  simp [completed]

/-- While no byte is accepted after a call that failed half-way, the stream is
made of whole frames and at most a part of one at the end. -/
theorem tidyMoment_intact (h : RequestHeaderType env) {s t : Conn} {log : List (SendCall × ℤ)}
    (hid : s.proxy.caller_id = 0) (hmoment : TidyMoment env s log t) :
    StreamIntact s.outgoing (completed log) t.outgoing := by
  have hbroken : ∀ {log log' : List (SendCall × ℤ)} {t u v : Conn} {c : SendCall} {a : ℤ},
      Prog.Runs CleanCall (sendRequest env) s log t → FitsFrame c t →
      (sendRequest env c).run t = .ret a u →
      Prog.Runs SilentCall (sendRequest env) u log' v →
      StreamIntact s.outgoing (completed (log ++ [(c, a)] ++ log')) v.outgoing := by
    intro log log' t u v c a hruns hfit hret hsilent
    obtain ⟨hout, hnone⟩ := silentRuns_stream h hsilent
    rw [completed_append, completed_snoc, hnone, List.append_nil, hout]
    exact (cleanRuns_inStep h hid hruns).broken h hfit hret
  cases hmoment with
  | returned hruns => exact (cleanRuns_inStep h hid hruns).intact_nil
  | @underway _ t _ c hruns hfit hwait =>
      have hstep := cleanRuns_inStep h hid hruns
      obtain ⟨hout, -⟩ := sendRequest_stream h hfit
      rw [hwait, Outcome.state_wait] at hout
      rw [hout]
      exact hstep.intact hfit (not_done_of_run h hfit (by rw [hwait]; nofun))
  | broken hruns hfit hret hsilent => exact hbroken hruns hfit hret hsilent
  | brokenUnderway hruns hfit hret hsilent hcall hwait =>
      have hstream := hcall.stream h
      rw [hwait, Outcome.state_wait] at hstream
      rw [hstream]
      exact hbroken hruns hfit hret hsilent

theorem tidyMoment_intact_flaky : ∃ t,
    (sendRequest protocolEnv ⟨[], zeroLocals⟩).run flakyConn = .ret (-1) t ∧
      StreamIntact [] [] t.outgoing := by
  have hfit : FitsFrame ⟨[], zeroLocals⟩ flakyConn := by
    rw [FitsFrame]
    decide
  obtain ⟨ds, hret⟩ := (sendRpcRequest_run protocolEnv_requestHeaderType zeroLocals
    flakyConn (payload_lt hfit)).failed (by decide)
  exact ⟨_, hret, tidyMoment_intact protocolEnv_requestHeaderType (s := flakyConn) rfl
    (.broken .nil hfit hret .nil)⟩

end HdClient
