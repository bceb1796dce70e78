-- SUMMARY: Runs of the whole client: what is sent on each of its connections, in whatever order it is used.
import HdClient.Client.Proxies
import HdClient.Rpc.Exchange
import HdClient.Rpc.Sessions

/-! # Clients

The calls of a program on its environment and its proxies may come in any order.
What holds of each connection then is stated here for all of them together. -/

namespace HdClient

open Pbc Conn

/-! ## Calls -/

/-- A call of the client. -/
inductive ClientCall where
  | initPbEnv (c : InitCall)
  | newHadoopRpcProxy (host : Option CString) (client_type : ClientType) (server_type : ServerType)
      (e : Endpoint)
  | app (i : ℕ) (l : Locals) (c : AppCall)
  | destoryHadoopRpcProxy (i : ℕ)
  | destoryPbEnv

/-- What a call returns. -/
inductive ClientAnswer where
  | code (rc : ℤ)
  | proxy (i : Option ℕ)
  | nothing

def ClientCall.prog : ClientCall → Prog Client ClientAnswer
  | .initPbEnv c => do
      let rc ← .onPart Client.globals (fun s globals => { s with globals }) (HdClient.initPbEnv c)
      pure (.code rc)
  | .newHadoopRpcProxy host client_type server_type e => do
      let i ← Client.newHadoopRpcProxy host client_type server_type e
      pure (.proxy i)
  | .app i l c => do
      let s ← .get
      let env ← .ofOption s.globals.env
      let rc ← .onPart Client.proxies (fun s proxies => { s with proxies })
        (.component i (c.prog env l))
      pure (.code rc)
  -- both are empty
  | .destoryHadoopRpcProxy _ => pure .nothing
  | .destoryPbEnv => pure .nothing

/-! ## What is sent -/

/-- `Sent id bytes`: behind the connection header are the frames of `id` requests for
an application, in the order of their call ids, and parts of such frames. -/
inductive Sent : BitVec 32 → List UInt8 → Prop where
  | nil : Sent 0 []
  | whole {id : BitVec 32} {bytes : List UInt8} (l : Locals) :
      Sent id bytes → Sent (id + 1) (bytes ++ frame id (newAppBody l))
  | part {id : BitVec 32} {bytes : List UInt8} (l : Locals) {k : ℕ} :
      Sent id bytes → k < (frame id (newAppBody l)).length →
      Sent id (bytes ++ (frame id (newAppBody l)).take k)

/-- The context of a connection. -/
def Conn.context (s : Conn) : List UInt8 :=
  Wire.encode (connectionContext s.proxy.protocol_name.bytes)

/-- A connection on which the header has been sent for the protocol of the proxy, and
requests behind it. -/
structure Greeted (s : Conn) : Prop where
  protocol_name : s.proxy.protocol_name = Client.protocolName s.proxy.client_type s.proxy.server_type
  stream : ∃ bytes, s.outgoing = handshake s.context ++ bytes ∧ Sent s.proxy.caller_id bytes

/-- A part of the header has been sent and nothing else. -/
def HalfGreeted (c : Conn) : Prop :=
  ∃ k < (handshake c.context).length, c.outgoing = (handshake c.context).take k

/-- Nothing was sent or counted; the id of the application may have changed. -/
def SameStream (s t : Conn) : Prop :=
  t.outgoing = s.outgoing ∧ t.writes = s.writes ∧
    { t.proxy with app_id := 0 } = { s.proxy with app_id := 0 }

private theorem sameStream_frame : ReadFrame SameStream where
  refl _ := ⟨rfl, rfl, rfl⟩
  trans h h' := ⟨h'.1.trans h.1, h'.2.1.trans h.2.1, h'.2.2.trans h.2.2⟩
  read n s := by
    obtain ⟨proxy, incoming, outgoing, reads, writes, allocs, printed⟩ := s
    rcases reads with _ | ⟨_ | k, as⟩ <;> exact ⟨rfl, rfl, rfl⟩
  malloc s := by
    obtain ⟨proxy, incoming, outgoing, reads, writes, allocs, printed⟩ := s
    cases allocs <;> exact ⟨rfl, rfl, rfl⟩
  print _ _ _ := ⟨rfl, rfl, rfl⟩

theorem SameStream.proxy {s t : Conn} (h : SameStream s t) :
    t.proxy.caller_id = s.proxy.caller_id ∧ t.proxy.client_type = s.proxy.client_type ∧
      t.proxy.server_type = s.proxy.server_type ∧ t.proxy.protocol_name = s.proxy.protocol_name := by
  obtain ⟨hid, hclient, hserver, hname, -⟩ := Proxy.mk.inj h.2.2
  exact ⟨hid, hclient, hserver, hname⟩

theorem SameStream.context {s t : Conn} (h : SameStream s t) : t.context = s.context := by
  rw [Conn.context, Conn.context, h.proxy.2.2.2]

theorem Greeted.of_same {s t : Conn} (hs : Greeted s) (h : SameStream s t) : Greeted t := by
  obtain ⟨hid, hclient, hserver, hname⟩ := h.proxy
  obtain ⟨hprotocol, bytes, hbytes, hsent⟩ := hs
  exact ⟨by rw [hname, hclient, hserver, hprotocol], bytes, by rw [h.1, hbytes, h.context],
    hid ▸ hsent⟩

/-! ## Environments -/

/-- The types that the client speaks in. -/
structure ProtocolTypes (env : Env) : Prop where
  context : ContextType env
  header : RequestHeaderType env
  request : NewAppRequestType env

/-- The environment of a client that is initialised: it has the types, unless a
second call of `init_pb_env` has left a new one. -/
def Speaks (env : Env) : Prop := pbcNew = some env ∨ ProtocolTypes env

/-- Whether a new environment knows the two types that a connection begins with. -/
private def bareKnows : Option (Option Wmessage × Option Wmessage) := do
  let p ← pbcNew
  let context ← wmessageNew p (lit "hadoop.common.IpcConnectionContextProto")
  let request ← wmessageNew p (lit "GetNewApplicationRequestProto")
  pure (context, request)

private theorem bareKnows_eq : (bareKnows.map fun r => (r.1.isSome, r.2.isSome)) =
    some (false, false) := by
  decide +kernel

private theorem bare_knows_nothing {p : Env} (h : pbcNew = some p) :
    wmessageNew p (lit "hadoop.common.IpcConnectionContextProto") = some none ∧
      wmessageNew p (lit "GetNewApplicationRequestProto") = some none := by
  have hknows := bareKnows_eq
  unfold bareKnows at hknows
  rw [h] at hknows
  simp only [Option.bind_eq_bind, Option.bind_some, Option.map_eq_some_iff,
    Option.bind_eq_some_iff, Prod.mk.injEq] at hknows
  obtain ⟨r, ⟨context, hcontext, request, hrequest, hpure⟩, hnone, hnone'⟩ := hknows
  obtain rfl := Option.some.inj hpure
  rw [Option.isSome_eq_false_iff, Option.isNone_iff_eq_none] at hnone hnone'
  exact ⟨hnone ▸ hcontext, hnone' ▸ hrequest⟩

/-! ## One call on a connection -/

variable {env : Env} {l : Locals}

/-- The sending of a request for a new application. -/
def sendNewApp (env : Env) (l : Locals) : Prog Conn ℤ :=
  sendRpcRequest env l (some (newAppBody l)) (sliceLen (newAppBody l))

private theorem receiveAppId_same (env : Env) (l : Locals) :
    Prog.Keeps SameStream (receiveAppId env l) := by
  refine sameStream_frame.keeps_bind
    (sameStream_frame.recvRpcResponse (fun _ _ _ => ⟨rfl, rfl, rfl⟩) env l) fun r => ?_
  have hbad : ∀ type, Prog.Keeps SameStream
      (processBadRpcResponse type >>= fun _ => (pure (-1) : Prog Conn ℤ)) := fun type =>
    sameStream_frame.keeps_bind (sameStream_frame.processBadRpcResponse type) fun _ =>
      sameStream_frame.keeps_pure _
  obtain ⟨type, payload⟩ := r
  dsimp only
  split
  · rename_i slice n
    intro s
    rcases storeAppId_cases env slice s with ⟨-, hrun⟩ | ⟨d, hrun⟩ | ⟨id, -, hrun⟩ <;> rw [hrun] <;>
      exact ⟨rfl, rfl, rfl⟩
  · exact hbad _

private theorem orFail_same {next : Prog Conn ℤ} (h : Prog.Keeps SameStream next) (d : Diag) (rc : ℤ) :
    Prog.Keeps SameStream (orFail rc d next) :=
  .ite (sameStream_frame.keeps_bind (fun _ => ⟨rfl, rfl, rfl⟩) fun _ => sameStream_frame.keeps_pure _) h

/-- A call that asks for an application sends a request first, or nothing. -/
private theorem getNewApp_cases (h : Speaks env) (l : Locals) (s : Conn) :
    SameStream s ((getNewApp env l).run s).state ∨
      ProtocolTypes env ∧ (getNewApp env l).run s = ((sendNewApp env l).run s).andThen fun rc =>
        orFail rc .sendNewAppFailed (receiveAppId env l) := by
  by_cases happ : s.proxy.app_id = -1
  · -- without the type, or without a string in its memory, there is no request
    have hundefined : (generateNewAppRequest env l).run s = .undefined s →
        SameStream s ((getNewApp env l).run s).state := by
      intro hgen
      rw [getNewApp, Prog.run_bind, Prog.run_get, Outcome.andThen_ret, if_neg (not_not.mpr happ),
        Prog.run_bind, hgen]
      exact sameStream_frame.refl s
    rcases h with h | h
    · refine .inl (hundefined ?_)
      rw [generateNewAppRequest, (bare_knows_nothing h).2]
      rfl
    · have hgen := generateNewAppRequest_run h.request l s
      split at hgen
      · exact .inr ⟨h, getNewApp_of_generated happ hgen⟩
      · exact .inl (hundefined hgen)
  · obtain ⟨ds, hrun⟩ := AppCall.getNewApp.prog_refused env l happ
    rw [AppCall.prog] at hrun
    rw [hrun]
    exact .inl ⟨rfl, rfl, rfl⟩

/-- What a call does to a connection: it sends a request first, or nothing. -/
private theorem AppCall.prog_cases (h : Speaks env) (l : Locals) (s : Conn) (c : AppCall) :
    SameStream s ((c.prog env l).run s).state ∨
      ProtocolTypes env ∧ ∃ tail : ℤ → Prog Conn ℤ, (∀ rc, Prog.Keeps SameStream (tail rc)) ∧
        (c.prog env l).run s = ((sendNewApp env l).run s).andThen tail := by
  cases c with
  | getNewApp =>
      exact (getNewApp_cases h l s).imp id fun ⟨htypes, hrun⟩ =>
        ⟨htypes, _, orFail_same (receiveAppId_same env l) _, hrun⟩
  | submitApplication =>
      have hend : ∀ rc, Prog.Keeps SameStream (orFail rc .getNewAppFailed (pure 0)) :=
        orFail_same (sameStream_frame.keeps_pure _) _
      rcases getNewApp_cases h l s with hsame | ⟨htypes, hrun⟩
      · exact .inl (sameStream_frame.bind_state hsame hend)
      · refine .inr ⟨htypes, _, fun rc => sameStream_frame.keeps_bind
          (orFail_same (receiveAppId_same env l) .sendNewAppFailed rc) hend, ?_⟩
        rw [AppCall.prog, HdClient.submitApplication, Prog.run_bind, hrun, Outcome.andThen_assoc]

/-- A sending that is not done sent what was carried, and does not return zero. -/
private theorem sending_stops {s : Conn} {next : Prog Conn ℤ} {bytes : List UInt8} {t : Transfer}
    {o : Outcome Conn ℤ} (h : Sending s next bytes t o) (hend : t.ending ≠ .done) :
    o.wp (fun rc u => rc ≠ 0 ∧ u.proxy = s.proxy ∧ u.outgoing = s.outgoing ++ bytes.take t.carried)
      (fun u => u.proxy = s.proxy ∧ u.outgoing = s.outgoing ++ bytes.take t.carried) := by
  cases hcase : t.ending with
  | done => exact absurd hcase hend
  | failed =>
      obtain ⟨ds, hrun⟩ := h.failed hcase
      rw [hrun]
      exact ⟨by decide, rfl, rfl⟩
  | waiting =>
      rw [h.waiting hcase]
      exact ⟨rfl, rfl⟩

private theorem sendNewApp_greeted (h : ProtocolTypes env) (l : Locals) {s : Conn}
    (hs : Greeted s) : Greeted ((sendNewApp env l).run s).state := by
  obtain ⟨hprotocol, bytes, hbytes, hsent⟩ := hs
  have hsend := sendRpcRequest_run h.header l s (newAppBody_lt l)
  by_cases hend : (Transfer.carryAll s.writes
      (frameParts s.proxy.caller_id (newAppBody l))).ending = .done
  · rw [sendNewApp, hsend.done hend]
    have hcar := Transfer.carryAll_of_done hend
    rw [frameParts_sum] at hcar
    refine ⟨hprotocol, _, ?_, hsent.whole l⟩
    change s.outgoing ++ _ = _
    rw [hcar, List.take_length, hbytes, List.append_assoc]
    rfl
  · have hlt := Transfer.carryAll_lt hend
    rw [frameParts_sum] at hlt
    have hpart : ∀ u : Conn, u.proxy = s.proxy → u.outgoing = s.outgoing ++
        (frame s.proxy.caller_id (newAppBody l)).take
          (Transfer.carryAll s.writes (frameParts s.proxy.caller_id (newAppBody l))).carried →
        Greeted u := by
      intro u hproxy hout
      refine ⟨by rw [hproxy, hprotocol], _, ?_, hproxy ▸ hsent.part l hlt⟩
      rw [hout, hbytes, List.append_assoc, Conn.context, Conn.context, hproxy]
    exact ((sending_stops hsend hend).mono (fun _ u hu => hpart u hu.2.1 hu.2.2)
      fun u hu => hpart u hu.1 hu.2).state

theorem AppCall.prog_greeted (h : Speaks env) (l : Locals) (c : AppCall) :
    Prog.Keeps (fun s t => Greeted s → Greeted t) (c.prog env l) := by
  intro s hs
  rcases c.prog_cases h l s with hsame | ⟨htypes, tail, htail, hrun⟩
  · exact hs.of_same hsame
  · have hsent := sendNewApp_greeted htypes l hs
    rw [hrun]
    cases hsend : (sendNewApp env l).run s with
    | ret rc t =>
        rw [hsend] at hsent
        exact hsent.of_same (htail rc t)
    | wait t =>
        rw [hsend] at hsent
        exact hsent
    | undefined t =>
        rw [hsend] at hsent
        exact hsent

/-! ## A new connection -/

private theorem protocolName_fits (client_type : ClientType) (server_type : ServerType) :
    (Wire.encode (connectionContext
      (Client.protocolName client_type server_type).bytes)).length ≤ 2 ^ 30 := by
  cases client_type <;> cases server_type <;> decide

/-- What becomes of the connection while the header is written: zero is returned when
all of it is out. -/
def WritesHeader (o : Outcome Conn ℤ) : Prop :=
  o.wp (fun rc c => rc = 0 ∧ Greeted c ∨ rc ≠ 0 ∧ HalfGreeted c) HalfGreeted

section NewConnection

variable {s : Conn} (hid : s.proxy.caller_id = 0) (hout : s.outgoing = [])
  (hname : s.proxy.protocol_name = Client.protocolName s.proxy.client_type s.proxy.server_type)

include hout in
/-- A sending of the first bytes of the header that stopped. -/
private theorem greets_of_stops {next : Prog Conn ℤ} {bytes : List UInt8} {t : Transfer}
    {o : Outcome Conn ℤ} (h : Sending s next bytes t o) (hend : t.ending ≠ .done)
    (hbytes : bytes <+: handshake s.context) (hlt : t.carried < bytes.length) : WritesHeader o := by
  have hhalf : ∀ u : Conn, u.proxy = s.proxy → u.outgoing = s.outgoing ++ bytes.take t.carried →
      HalfGreeted u := by
    intro u hproxy hu
    have hcontext : u.context = s.context := by rw [Conn.context, Conn.context, hproxy]
    refine ⟨t.carried, hcontext ▸ Nat.lt_of_lt_of_le hlt hbytes.length_le, ?_⟩
    obtain ⟨rest, hrest⟩ := hbytes
    rw [hu, hout, hcontext, ← hrest, List.take_append_of_le_length (Nat.le_of_lt hlt),
      List.nil_append]
  exact (sending_stops h hend).mono (fun _ u hu => .inr ⟨hu.1, hhalf u hu.2.1 hu.2.2⟩)
    fun u hu => hhalf u hu.1 hu.2

include hid hout hname in
private theorem writeConnectionHeader_writes (h : ContextType env) :
    WritesHeader ((writeConnectionHeader env).run s) := by
  have hfits : s.context.length ≤ 2 ^ 30 := by
    rw [Conn.context, hname]
    exact protocolName_fits _ _
  have hsend := writeConnectionHeader_run (contextBytes_of_fits h hfits)
    (Nat.lt_of_le_of_lt hfits (by decide))
  change Sending s _ (handshake s.context) (Transfer.carryAll s.writes (handshakeParts s.context)) _
    at hsend
  by_cases hend : (Transfer.carryAll s.writes (handshakeParts s.context)).ending = .done
  · rw [hsend.done hend]
    have hcar := Transfer.carryAll_of_done hend
    rw [handshakeParts_sum] at hcar
    refine .inl ⟨rfl, hname, [], ?_, ?_⟩
    · change s.outgoing ++ _ = handshake s.context ++ []
      rw [hcar, hout, List.take_length, List.nil_append, List.append_nil]
    · change Sent s.proxy.caller_id []
      rw [hid]
      exact .nil
  · have hlt := Transfer.carryAll_lt hend
    rw [handshakeParts_sum] at hlt
    exact greets_of_stops hout hsend hend (List.prefix_refl _) hlt

include hout in
private theorem writeConnectionHeader_bare (h : pbcNew = some env) :
    WritesHeader ((writeConnectionHeader env).run s) := by
  have hsend := writeConnectionHeader_missing (bare_knows_nothing h).1 s
  have hheader : (headerChunks.map (·.1.length)).sum = connectionHeader.length := by decide
  by_cases hend : (Transfer.carryAll s.writes (headerChunks.map (·.1.length))).ending = .done
  · rw [hsend.done hend]
    have hcar := Transfer.carryAll_of_done hend
    refine .inr ⟨by decide, connectionHeader.length, ?_, ?_⟩
    · rw [handshake, List.length_append, List.length_append, Word.be32_length]
      omega
    · change s.outgoing ++ _ = _
      rw [hcar, hheader, hout, List.take_length, handshake, List.nil_append, List.take_left]
  · have hlt := Transfer.carryAll_lt hend
    rw [hheader] at hlt
    exact greets_of_stops hout hsend hend (List.prefix_append _ _) hlt

end NewConnection

theorem newConn_writesHeader (h : Speaks env) (client_type : ClientType) (server_type : ServerType)
    (e : Endpoint) :
    WritesHeader ((writeConnectionHeader env).run (Client.newConn client_type server_type e)) := by
  rcases h with h | h
  · exact writeConnectionHeader_bare rfl h
  · exact writeConnectionHeader_writes rfl rfl rfl h.context

/-! ## Runs of a client -/

/-- What holds of a client between its calls. -/
structure Client.Sound (s : Client) : Prop where
  speaks : s.globals.is_env_initialize = true → ∀ p ∈ s.globals.env, Speaks p
  none : s.globals.is_env_initialize = false → s.proxies = []
  proxies : ∀ c ∈ s.proxies, Greeted c
  sockets : ∀ c ∈ s.sockets, HalfGreeted c

/-- A client that has made no connection. Once it is initialised it has the types. -/
structure Client.Starts (s : Client) : Prop where
  types : s.globals.is_env_initialize = true → ∀ p ∈ s.globals.env, ProtocolTypes p
  proxies : s.proxies = []
  sockets : s.sockets = []

/-- The call of `init_pb_env` that initialises the client loads the types. -/
def LoadsTypes (call : ClientCall) (s : Client) : Prop :=
  ∀ c t, call = .initPbEnv c → s.globals.is_env_initialize = false →
    (HdClient.initPbEnv c).run s.globals = .ret 0 t → ∀ p ∈ t.env, ProtocolTypes p

theorem Client.Starts.sound {s : Client} (h : s.Starts) : s.Sound where
  speaks hflag p hp := .inr (h.types hflag p hp)
  none _ := h.proxies
  proxies c hc := by simp [h.proxies] at hc
  sockets c hc := by simp [h.sockets] at hc

variable {s t : Client} {log : List (ClientCall × ClientAnswer)}

private theorem initPbEnv_sound {c : InitCall} (hs : s.Sound) (hok : LoadsTypes (.initPbEnv c) s) :
    ((ClientCall.initPbEnv c).prog.run s).state.Sound := by
  rw [ClientCall.prog, Prog.state_bind_pure, Prog.run_onPart, Outcome.state_mapState]
  -- the call stopped before it had changed what there was
  have hstopped : ∀ g : Globals, g.is_env_initialize = s.globals.is_env_initialize ∧
      (s.globals.is_env_initialize = true → g.env = s.globals.env) →
      Client.Sound { s with globals := g } := by
    rintro g ⟨hflag, henv⟩
    refine ⟨fun h p hp => ?_, fun h => hs.none (hflag ▸ h), hs.proxies, hs.sockets⟩
    have hset := hflag ▸ h
    exact hs.speaks hset p ((henv hset).symm.trans hp)
  cases hrun : (initPbEnv c).run s.globals with
  | wait g => exact hstopped g (initPbEnv_stopped (by rw [hrun]; rfl) (by simp [hrun]))
  | undefined g => exact hstopped g (initPbEnv_stopped (by rw [hrun]; rfl) (by simp [hrun]))
  | ret a g =>
      rcases initPbEnv_cases hrun with ⟨-, -, hset, henv⟩ | ⟨hflag, rfl, hset⟩ | ⟨hflag, -, hset⟩
      · exact ⟨fun _ p hp => .inl (henv.symm.trans hp), fun h => absurd (hset.symm.trans h) (by decide),
          hs.proxies, hs.sockets⟩
      · exact ⟨fun _ p hp => .inr (hok c g rfl hflag hrun p hp),
          fun h => absurd (hset.symm.trans h) (by decide), hs.proxies, hs.sockets⟩
      · exact ⟨fun h => absurd (hset.symm.trans h) (by decide), fun _ => hs.none hflag, hs.proxies,
          hs.sockets⟩

private theorem newHadoopRpcProxy_sound (hs : s.Sound) (host : Option CString)
    (client_type : ClientType) (server_type : ServerType) (e : Endpoint) :
    ((Client.newHadoopRpcProxy host client_type server_type e).run s).state.Sound := by
  have hnone : ∀ t, Client.NotMade client_type server_type e s t → t.Sound := by
    intro t ht
    refine ⟨ht.globals ▸ hs.speaks, ?_, ht.proxies ▸ hs.proxies, fun c hc => ?_⟩
    · rw [ht.globals, ht.proxies]
      exact hs.none
    · rcases ht.sockets c hc with hc | ⟨hflag, p, hp, rfl, hnot⟩
      · exact hs.sockets c hc
      · have hgreets := newConn_writesHeader (hs.speaks hflag p hp) client_type server_type e
        rw [WritesHeader] at hgreets
        cases hrun : (writeConnectionHeader p).run (Client.newConn client_type server_type e) with
        | ret rc d =>
            rw [hrun] at hgreets
            rcases hgreets with ⟨rfl, -⟩ | ⟨-, hhalf⟩
            · exact absurd hrun (hnot d)
            · exact hhalf
        | wait d =>
            rw [hrun] at hgreets
            exact hgreets
        | undefined d =>
            rw [hrun] at hgreets
            exact hgreets
  refine ((Client.newHadoopRpcProxy_wp host client_type server_type e s).mono ?_ hnone).state
  rintro i t (⟨-, ht⟩ | ⟨-, ht⟩)
  · exact hnone t ht
  · obtain ⟨p, c, hp, hrun, hproxies⟩ := ht.proxies
    have hgreets := newConn_writesHeader (hs.speaks ht.initialized p hp) client_type server_type e
    rw [WritesHeader, hrun] at hgreets
    rcases hgreets with ⟨-, hgreeted⟩ | ⟨hne, -⟩
    · refine ⟨ht.globals ▸ hs.speaks, fun h => ?_, fun d hd => ?_, ht.sockets ▸ hs.sockets⟩
      · rw [ht.globals, ht.initialized] at h
        cases h
      · rw [hproxies] at hd
        rcases List.mem_append.mp hd with hd | hd
        · exact hs.proxies d hd
        · obtain rfl := List.mem_singleton.mp hd
          exact hgreeted.of_same ⟨rfl, rfl, rfl⟩
    · exact absurd rfl hne

private theorem app_run {p : Env} (henv : s.globals.env = some p) (i : ℕ) (l : Locals)
    (c : AppCall) : (ClientCall.app i l c).prog.run s =
      (Prog.onPart Client.proxies (fun s proxies => { s with proxies })
        (.component i (c.prog p l)) >>= fun rc => pure (.code rc)).run s := by
  rw [ClientCall.prog, Prog.run_bind, Prog.run_get, Outcome.andThen_ret, henv]
  rfl

private theorem app_run_none (henv : s.globals.env = none) (i : ℕ) (l : Locals) (c : AppCall) :
    (ClientCall.app i l c).prog.run s = .undefined s := by
  rw [ClientCall.prog, Prog.run_bind, Prog.run_get, Outcome.andThen_ret, henv]
  rfl

private theorem app_sound (hs : s.Sound) (i : ℕ) (l : Locals) (c : AppCall) :
    ((ClientCall.app i l c).prog.run s).state.Sound := by
  cases henv : s.globals.env with
  | none =>
      rw [app_run_none henv]
      exact hs
  | some p =>
      rw [app_run henv, Prog.state_bind_pure, Prog.run_onPart, Outcome.state_mapState]
      cases hflag : s.globals.is_env_initialize with
      | false =>
          rw [hs.none hflag]
          refine ⟨hs.speaks, fun _ => rfl, fun c hc => ?_, hs.sockets⟩
          cases hc
      | true =>
          refine ⟨hs.speaks, fun h => ?_, ?_, hs.sockets⟩
          · rw [hflag] at h
            cases h
          · exact (c.prog_greeted (hs.speaks hflag p henv) l).component_all i s.proxies hs.proxies

/-- No call, wherever it stops, leaves anything else on a connection than a part of the
header, or the header of its protocol and requests under the ids that are next. -/
theorem ClientCall.prog_sound (hs : s.Sound) (call : ClientCall) (hok : LoadsTypes call s) :
    (call.prog.run s).state.Sound := by
  cases call with
  | initPbEnv c => exact initPbEnv_sound hs hok
  | newHadoopRpcProxy host client_type server_type e =>
      rw [ClientCall.prog, Prog.state_bind_pure]
      exact newHadoopRpcProxy_sound hs host client_type server_type e
  | app i l c => exact app_sound hs i l c
  | destoryHadoopRpcProxy i => exact hs
  | destoryPbEnv => exact hs

/-- A client that was initialised with the types of the protocol. -/
def readyClient : Client where
  globals := ⟨some protocolEnv, true, none, []⟩
  proxies := []
  sockets := []
  printed := []

/-- A resource manager that answers nothing. -/
def quietEndpoint : Endpoint where
  resolves := true
  connects := true
  incoming := []
  reads := []
  writes := List.replicate 100 (.upTo 100)
  allocs := []
  app_id := 0

/-- A proxy for the resource manager. -/
def quietProxy : ClientCall := .newHadoopRpcProxy (some (.lit "localhost")) .client .rm quietEndpoint

private theorem readyClient_starts : readyClient.Starts where
  types _ p hp := by
    obtain rfl : protocolEnv = p := Option.some.inj hp
    exact ⟨protocolEnv_contextType, protocolEnv_requestHeaderType, protocolEnv_newAppRequestType⟩
  proxies := rfl
  sockets := rfl

private theorem quietProxy_made : ∃ c t, quietProxy.prog.run readyClient = .ret (.proxy (some 0)) t ∧
    t.globals = readyClient.globals ∧ t.proxies = [c] ∧ c.proxy.app_id = -1 := by
  have hsend := writeConnectionHeader_run (s := Client.newConn .client .rm quietEndpoint)
    (contextBytes_of_fits protocolEnv_contextType (protocolName_fits .client .rm)) (by decide)
  have hmade := Client.newHadoopRpcProxy_made (.lit "localhost") (s := readyClient) rfl rfl
    (by decide) rfl rfl (hsend.done (by decide))
  rw [quietProxy, ClientCall.prog]
  exact ⟨_, _, Prog.bind_eq_ret.mpr ⟨_, _, hmade, rfl⟩, rfl, rfl, rfl⟩

private theorem quietProxy_loadsTypes : LoadsTypes quietProxy readyClient := by
  intro c t heq
  cases heq

/-- What a call for an application that returned has done to the client. -/
theorem app_eq_ret {i : ℕ} {c : AppCall} {a : ClientAnswer} :
    (ClientCall.app i l c).prog.run s = .ret a t ↔
      ∃ p x y rc, s.globals.env = some p ∧ s.proxies[i]? = some x ∧
        (c.prog p l).run x = .ret rc y ∧ t = { s with proxies := s.proxies.set i y } ∧
        a = .code rc := by
  constructor
  · intro h
    cases henv : s.globals.env with
    | none =>
        rw [app_run_none henv] at h
        cases h
    | some p =>
        rw [app_run henv] at h
        obtain ⟨rc, u, hpart, hpure⟩ := Prog.bind_eq_ret.mp h
        cases hpure
        rw [Prog.run_onPart] at hpart
        obtain ⟨ys, hys, rfl⟩ := Outcome.mapState_eq_ret.mp hpart
        cases hx : s.proxies[i]? with
        | none =>
            rw [Prog.run_component_none hx] at hys
            cases hys
        | some x =>
            rw [Prog.run_component hx] at hys
            obtain ⟨y, hrun, rfl⟩ := Outcome.mapState_eq_ret.mp hys
            exact ⟨p, x, y, rc, rfl, rfl, hrun, rfl, rfl⟩
  · rintro ⟨p, x, y, rc, henv, hx, hrun, rfl, rfl⟩
    rw [app_run henv, Prog.run_bind, Prog.run_onPart, Prog.run_component hx, hrun]
    rfl

/-- A call that made a proxy or failed to. -/
theorem newHadoopRpcProxy_returned {host : Option CString} {client_type : ClientType}
    {server_type : ServerType} {e : Endpoint} {a : ClientAnswer}
    (h : (ClientCall.newHadoopRpcProxy host client_type server_type e).prog.run s = .ret a t) :
    Client.NotMade client_type server_type e s t ∨ Client.Made client_type server_type e s t := by
  rw [ClientCall.prog] at h
  obtain ⟨i, u, hrun, hpure⟩ := Prog.bind_eq_ret.mp h
  cases hpure
  exact ((Client.newHadoopRpcProxy_wp host client_type server_type e s).of_ret hrun).imp And.right
    And.right

/-- All that is on the connection is its header and the frames of the requests that
were counted. -/
structure Whole (c : Conn) : Prop where
  protocol_name : c.proxy.protocol_name = Client.protocolName c.proxy.client_type c.proxy.server_type
  sound : Transfer.Sound c.writes
  stream : ∃ ls : List Locals, c.proxy.caller_id = BitVec.ofNat 32 ls.length ∧
    c.outgoing = handshake c.context ++ frames 0 (ls.map newAppBody)

theorem Whole.of_same {c d : Conn} (hc : Whole c) (h : SameStream c d) : Whole d := by
  obtain ⟨hid, hclient, hserver, hname⟩ := h.proxy
  obtain ⟨hprotocol, hsound, ls, hcaller, hout⟩ := hc
  exact ⟨by rw [hname, hclient, hserver, hprotocol], h.2.1 ▸ hsound, ls, hid.trans hcaller,
    by rw [h.1, hout, h.context]⟩

/-- On a socket that does not fail a sending that returns is done. -/
private theorem sending_returned {c d : Conn} {next : Prog Conn ℤ} {bytes : List UInt8}
    {ns : List ℕ} {o : Outcome Conn ℤ} {rc : ℤ} (hsound : Transfer.Sound c.writes)
    (h : Sending c next bytes (Transfer.carryAll c.writes ns) o) (hret : o = .ret rc d) :
    (Transfer.carryAll c.writes ns).ending = .done := by
  cases hend : (Transfer.carryAll c.writes ns).ending with
  | done => rfl
  | failed => exact absurd hend (hsound.carryAll_not_failed ns)
  | waiting =>
      rw [h.waiting hend] at hret
      cases hret

private theorem sendNewApp_whole (h : ProtocolTypes env) {c d : Conn} {rc : ℤ} (hc : Whole c)
    (hret : (sendNewApp env l).run c = .ret rc d) : Whole d := by
  obtain ⟨hprotocol, hsound, ls, hcaller, hout⟩ := hc
  have hsend := sendRpcRequest_run h.header l c (newAppBody_lt l)
  have hend := sending_returned hsound hsend hret
  rw [sendNewApp, hsend.done hend] at hret
  have hcar := Transfer.carryAll_of_done hend
  rw [frameParts_sum] at hcar
  cases hret
  refine ⟨hprotocol, hsound.suffix (Transfer.carryAll_left_isSuffix _ _), ls ++ [l], ?_, ?_⟩
  · change c.proxy.caller_id + 1 = _
    rw [hcaller, List.length_append, BitVec.ofNat_add]
    rfl
  · change c.outgoing ++ _ = handshake c.context ++ _
    rw [hcar, List.take_length, hout, hcaller, List.map_append, frames_append, List.length_map,
      List.append_assoc]
    simp [frames]

private theorem AppCall.prog_whole (h : Speaks env) {c : AppCall} {x y : Conn} {rc : ℤ}
    (hx : Whole x) (hret : (c.prog env l).run x = .ret rc y) : Whole y := by
  rcases c.prog_cases h l x with hsame | ⟨htypes, tail, htail, hrun⟩
  · rw [hret] at hsame
    exact hx.of_same hsame
  · rw [hrun] at hret
    obtain ⟨rc', z, hsend, hend⟩ := Prog.bind_eq_ret.mp hret
    exact (sendNewApp_whole htypes hx hsend).of_same ((htail rc').of_ret hend)

/-- The header of a connection over a socket that does not fail. -/
private theorem newConn_whole (h : Speaks env) {client_type : ClientType}
    {server_type : ServerType} {e : Endpoint} {c : Conn} (hsound : Transfer.Sound e.writes)
    (hret : (writeConnectionHeader env).run (Client.newConn client_type server_type e) =
      .ret 0 c) : Whole c := by
  rcases h with h | h
  · have hgreets := newConn_writesHeader (.inl h) client_type server_type e
    have hsend := writeConnectionHeader_missing (bare_knows_nothing h).1
      (Client.newConn client_type server_type e)
    rw [hsend.done (sending_returned hsound hsend hret)] at hret
    cases hret
  · have hfits := protocolName_fits client_type server_type
    have hsend := writeConnectionHeader_run (s := Client.newConn client_type server_type e)
      (contextBytes_of_fits h.context hfits) (Nat.lt_of_le_of_lt hfits (by decide))
    have hend := sending_returned hsound hsend hret
    rw [hsend.done hend] at hret
    have hcar := Transfer.carryAll_of_done hend
    rw [handshakeParts_sum] at hcar
    cases hret
    refine ⟨rfl, hsound.suffix (Transfer.carryAll_left_isSuffix _ _), [], rfl, ?_⟩
    change [] ++ List.take _ _ = _ ++ []
    rw [hcar, List.take_length, List.nil_append, List.append_nil]
    rfl

/-- A run in which no socket fails to write. -/
def Steady (call : ClientCall) (s : Client) : Prop :=
  LoadsTypes call s ∧ ∀ host client_type server_type e,
    call = .newHadoopRpcProxy host client_type server_type e → Transfer.Sound e.writes

private theorem ClientCall.prog_whole {call : ClientCall} {a : ClientAnswer} (hs : s.Sound)
    (hwhole : ∀ c ∈ s.proxies, Whole c) (hok : Steady call s) (hret : call.prog.run s = .ret a t) :
    ∀ c ∈ t.proxies, Whole c := by
  cases call with
  | initPbEnv c =>
      rw [ClientCall.prog] at hret
      obtain ⟨rc, u, hpart, hpure⟩ := Prog.bind_eq_ret.mp hret
      cases hpure
      rw [Prog.run_onPart] at hpart
      obtain ⟨g, -, rfl⟩ := Outcome.mapState_eq_ret.mp hpart
      exact hwhole
  | newHadoopRpcProxy host client_type server_type e =>
      rcases newHadoopRpcProxy_returned hret with ht | ht
      · exact ht.proxies ▸ hwhole
      · obtain ⟨p, c, hp, hrun, hproxies⟩ := ht.proxies
        have hnew := newConn_whole (hs.speaks ht.initialized p hp) (hok.2 _ _ _ e rfl) hrun
        rw [hproxies]
        intro d hd
        rcases List.mem_append.mp hd with hd | hd
        · exact hwhole d hd
        · obtain rfl := List.mem_singleton.mp hd
          exact hnew.of_same ⟨rfl, rfl, rfl⟩
  | app i l c =>
      obtain ⟨p, x, y, rc, hp, hx, hrun, rfl, -⟩ := app_eq_ret.mp hret
      have hmem := List.mem_of_getElem? hx
      have hflag : s.globals.is_env_initialize = true := by
        by_contra hflag
        rw [hs.none (Bool.not_eq_true _ ▸ hflag)] at hmem
        cases hmem
      intro d hd
      rcases List.mem_or_eq_of_mem_set hd with hd | rfl
      · exact hwhole d hd
      · exact AppCall.prog_whole (hs.speaks hflag p hp) (hwhole x hmem) hrun
  | destoryHadoopRpcProxy i =>
      cases hret
      exact hwhole
  | destoryPbEnv =>
      cases hret
      exact hwhole

private theorem newAppBody_length_le (l : Locals) : (newAppBody l).length ≤ 2 ^ 30 := by
  have hfits := newAppBody_requestFits l
  have hversion : (Wire.Record.encode ⟨4, .varint 1, by decide, by decide⟩).length = 2 := by decide
  rw [requestFits_iff] at hfits
  simp only [newAppBody, hadoopRequest, Wire.encode_cons, Wire.encode_nil, List.length_append,
    List.length_nil, hversion]
  omega

private theorem newAppBodies_fit (c : BitVec 32) (ls : List Locals) : Fit c (ls.map newAppBody) := by
  induction ls generalizing c with
  | nil => trivial
  | cons l ls ih =>
      have hbody := frameBody_length (newAppBody_lt l) c
      have hle := newAppBody_length_le l
      exact ⟨by omega, ih _⟩

/-- On sockets that do not fail, after any calls in any order, what each proxy has sent
is read by a server in one way only: the context with the protocol of the proxy, and
one request for each call that was counted, under the ids from zero on. -/
theorem streams_of_runs (hs : s.Starts) (h : Prog.Runs Steady ClientCall.prog s log t) :
    ∀ c ∈ t.proxies, ∃ ls : List Locals, c.proxy.caller_id = BitVec.ofNat 32 ls.length ∧
      ∀ v, StreamFormat v c.outgoing ↔ v = ((), connectionContext
        (Client.protocolName c.proxy.client_type c.proxy.server_type).bytes,
        requests 0 (ls.map newAppBody)) := by
  have hinv : t.Sound ∧ ∀ c ∈ t.proxies, Whole c := by
    refine h.invariant (I := fun _ t => t.Sound ∧ ∀ c ∈ t.proxies, Whole c)
      ⟨hs.sound, fun c hc => by simp [hs.proxies] at hc⟩ ?_
    rintro log t call a u ⟨ht, hwhole⟩ hok hret
    have hsound := call.prog_sound ht hok.1
    rw [hret] at hsound
    exact ⟨hsound, call.prog_whole ht hwhole hok hret⟩
  intro c hc
  obtain ⟨hprotocol, -, ls, hcaller, hout⟩ := hinv.2 c hc
  refine ⟨ls, hcaller, ?_⟩
  rw [hout, Conn.context, hprotocol]
  exact stream_unique (protocolName_fits _ _) (newAppBodies_fit 0 ls)

theorem streams_of_runs_quiet : ∃ c : Conn, c.proxy.app_id = -1 ∧
    ∃ ls : List Locals, c.proxy.caller_id = BitVec.ofNat 32 ls.length ∧
      ∀ v, StreamFormat v c.outgoing ↔ v = ((), connectionContext
        (Client.protocolName c.proxy.client_type c.proxy.server_type).bytes,
        requests 0 (ls.map newAppBody)) := by
  obtain ⟨c, t, hret, -, hproxies, happ⟩ := quietProxy_made
  have hsteady : Steady quietProxy readyClient := by
    refine ⟨quietProxy_loadsTypes, fun host client_type server_type e heq => ?_⟩
    cases heq
    exact (Transfer.live_replicate (by decide) 100).sound
  exact ⟨c, happ, streams_of_runs readyClient_starts (Prog.Runs.single hsteady hret) c
    (hproxies ▸ List.mem_singleton_self c)⟩

/-! ## Proxies with an application -/

/-- A proxy with an application keeps it, and nothing is sent or read. -/
def Settled (s t : Conn) : Prop :=
  s.proxy.app_id ≠ -1 → t.proxy = s.proxy ∧ t.outgoing = s.outgoing ∧ t.incoming = s.incoming

private theorem settled_frame : Prog.Frame Settled where
  refl _ _ := ⟨rfl, rfl, rfl⟩
  trans h h' happ := by
    obtain ⟨hproxy, hout, hin⟩ := h happ
    obtain ⟨hproxy', hout', hin'⟩ := h' (hproxy ▸ happ)
    exact ⟨hproxy'.trans hproxy, hout'.trans hout, hin'.trans hin⟩

private theorem AppCall.prog_settled (env : Env) (l : Locals) (c : AppCall) :
    Prog.Keeps Settled (c.prog env l) := by
  intro s happ
  obtain ⟨ds, hrun⟩ := c.prog_refused env l happ
  rw [hrun]
  exact ⟨rfl, rfl, rfl⟩

private theorem ClientCall.prog_settled (call : ClientCall) (s : Client) :
    Prog.Evolves Settled s.proxies (call.prog.run s).state.proxies := by
  have hsame := settled_frame.evolves.refl s.proxies
  cases call with
  | initPbEnv c =>
      rw [ClientCall.prog, Prog.state_bind_pure, Prog.run_onPart, Outcome.state_mapState]
      exact hsame
  | newHadoopRpcProxy host client_type server_type e =>
      rw [ClientCall.prog, Prog.state_bind_pure]
      have hnone : ∀ t, Client.NotMade client_type server_type e s t →
          Prog.Evolves Settled s.proxies t.proxies := fun t ht => ht.proxies ▸ hsame
      refine ((Client.newHadoopRpcProxy_wp host client_type server_type e s).mono ?_ hnone).state
      rintro i t (⟨-, ht⟩ | ⟨-, ht⟩)
      · exact hnone t ht
      · obtain ⟨p, c, -, -, hproxies⟩ := ht.proxies
        exact hproxies ▸ settled_frame.evolves_append _ _
  | app i l c =>
      cases henv : s.globals.env with
      | none =>
          rw [app_run_none henv]
          exact hsame
      | some p =>
          rw [app_run henv, Prog.state_bind_pure, Prog.run_onPart, Outcome.state_mapState]
          exact Prog.Keeps.component settled_frame (c.prog_settled p l) i s.proxies
  | destoryHadoopRpcProxy i => exact hsame
  | destoryPbEnv => exact hsame

/-- A proxy with the application of number seven. -/
def settledConn : Conn := { idleConn with proxy := ⟨0, .client, .rm, clientRmProtocolName, 7⟩ }

end HdClient
