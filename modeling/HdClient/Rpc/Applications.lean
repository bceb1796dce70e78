-- SUMMARY: One application per proxy: what the calls that ask for an application make of a proxy, over whole runs.
import HdClient.Base.Runs
import HdClient.Client.Effects
import HdClient.Rpc.Outbound

/-! # One application per proxy -/

namespace HdClient

open Pbc Conn

variable {env : Env} {l : Locals}

/-! ## The parts of a call -/

/-- `get_new_app` has generated its request and has sent it. -/
def Asks (env : Env) (l : Locals) (s u : Conn) : Prop :=
  ∃ request t, (generateNewAppRequest env l).run s = .ret (some request) t ∧
    (sendRpcRequest env l (some request) (sliceLen request)).run t = .ret 0 u

/-- A call that is made in `s` is answered with a payload. -/
def Delivers (env : Env) (l : Locals) (s : Conn) (slice : List UInt8) : Prop :=
  ∃ u v n, Asks env l s u ∧
    (recvRpcResponse env l).run u = .ret ⟨.succeed, some (slice, n)⟩ v

/-- The id that is decoded from a payload. -/
def DecodesId (env : Env) (slice : List UInt8) (id : BitVec 32) : Prop :=
  ∃ rmsg application_id,
    rmessageNew env (lit "GetNewApplicationResponseProto") slice = some (.ok rmsg) ∧
    rmessageMessage env rmsg (lit "application_id") 0 = .ok application_id ∧
    rmessageInteger env application_id (lit "id") 0 = some id

/-- The library looks the id of a payload up in a defined way, to whatever end. -/
structure LooksUp (env : Env) (slice : List UInt8) : Prop where
  payload : rmessageNew env (lit "GetNewApplicationResponseProto") slice ≠ none
  message : ∀ rmsg, rmessageNew env (lit "GetNewApplicationResponseProto") slice = some (.ok rmsg) →
    rmessageMessage env rmsg (lit "application_id") 0 ≠ .undefined
  id : ∀ rmsg application_id,
    rmessageNew env (lit "GetNewApplicationResponseProto") slice = some (.ok rmsg) →
    rmessageMessage env rmsg (lit "application_id") 0 = .ok application_id →
    rmessageInteger env application_id (lit "id") 0 ≠ none

theorem DecodesId.looksUp {slice : List UInt8} {id : BitVec 32} (h : DecodesId env slice id) :
    LooksUp env slice := by
  obtain ⟨rmsg, application_id, hnew, hmessage, hint⟩ := h
  refine ⟨by simp [hnew], fun rmsg' hnew' => ?_, fun rmsg' app hnew' hmessage' => ?_⟩
  · obtain rfl : rmsg = rmsg' := by simpa [hnew] using hnew'
    simp [hmessage]
  · obtain rfl : rmsg = rmsg' := by simpa [hnew] using hnew'
    obtain rfl : application_id = app := by simpa [hmessage] using hmessage'
    simp [hint]

private def SameApp (s t : Conn) : Prop := t.proxy.app_id = s.proxy.app_id

private theorem sameApp_frame : ConnFrame SameApp :=
  connFrame_of ⟨fun _ => rfl, fun h h' => Eq.trans h' h⟩ (fun _ _ _ => rfl) (fun _ _ _ => rfl)
    (fun _ _ => rfl) fun _ _ _ => rfl

private theorem sameApp_print (d : Diag) : Prog.Keeps SameApp (print d) := fun _ => rfl

private theorem sameApp_sendRpcRequest (request : Option (List UInt8)) (len : BitVec 32) :
    Prog.Keeps SameApp (sendRpcRequest env l request len) := by
  refine sameApp_frame.keeps_bind sameApp_frame.keeps_get fun s => ?_
  refine sameApp_frame.keeps_bind (sameApp_frame.generateRequestHeader _ _) fun header => ?_
  have hwrite : ∀ header header_len, Prog.Keeps SameApp
      (writeRequest header header_len request len >>= fun rc =>
        orFail rc .writePayloadFailed countCall) := fun _ _ =>
    sameApp_frame.keeps_bind (sameApp_frame.writeRequest _ _ _ _) fun _ =>
      sameApp_frame.orFail rfl (sameApp_frame.keeps_bind (fun _ => rfl) fun _ =>
        sameApp_frame.keeps_pure _)
  cases header with
  | none => exact sameApp_frame.keeps_bind (sameApp_print _) fun _ => hwrite _ _
  | some header => exact hwrite _ _

/-- A call whose request has been generated sends it. -/
theorem getNewApp_of_generated {s t : Conn} {request : List UInt8} (hs : s.proxy.app_id = -1)
    (hgen : (generateNewAppRequest env l).run s = .ret (some request) t) :
    (getNewApp env l).run s =
      ((sendRpcRequest env l (some request) (sliceLen request)).run t).andThen fun rc =>
        orFail rc .sendNewAppFailed (receiveAppId env l) := by
  rw [getNewApp, Prog.run_bind, Prog.run_get, Outcome.andThen_ret, if_neg (not_not.mpr hs),
    Prog.run_bind, hgen, Outcome.andThen_ret]
  rfl

theorem getNewApp_of_asks {s u : Conn} (hs : s.proxy.app_id = -1) (h : Asks env l s u) :
    (getNewApp env l).run s = (receiveAppId env l).run u := by
  obtain ⟨request, t, hgen, hsend⟩ := h
  rw [getNewApp_of_generated hs hgen, hsend]
  rfl

theorem Asks.app_id {s u : Conn} (h : Asks env l s u) : u.proxy.app_id = s.proxy.app_id := by
  obtain ⟨request, t, hgen, hsend⟩ := h
  have ht : t.proxy.app_id = s.proxy.app_id :=
    (sameApp_frame.generateNewAppRequest env l).of_ret hgen
  exact Eq.trans ((sameApp_sendRpcRequest _ _).of_ret hsend) ht

/-- A response without a payload leaves the proxy without an application. -/
theorem receiveAppId_of_bad {s t : Conn} {r : RpcResponse}
    (hrecv : (recvRpcResponse env l).run s = .ret r t) (hr : r.response_type ≠ .succeed)
    (herror : r.response_type = .error → ∃ e u, readException.run t = .ret e u) :
    ∃ u, (receiveAppId env l).run s = .ret (-1) u ∧ u.proxy.app_id = s.proxy.app_id := by
  have ht : t.proxy.app_id = s.proxy.app_id :=
    (sameApp_frame.recvRpcResponse (fun _ _ => sameApp_print _) env l).of_ret hrecv
  have hbad : ∃ u, (processBadRpcResponse r.response_type).run t = .ret () u := by
    by_cases hkind : r.response_type = .error
    · obtain ⟨e, u, hread⟩ := herror hkind
      rw [processBadRpcResponse, if_pos hkind, Prog.run_bind, hread, Outcome.andThen_ret]
      cases e <;> exact ⟨_, rfl⟩
    · rw [processBadRpcResponse, if_neg hkind]
      exact ⟨_, rfl⟩
  obtain ⟨u, hu⟩ := hbad
  have happ : u.proxy.app_id = t.proxy.app_id :=
    (sameApp_frame.processBadRpcResponse r.response_type).of_ret hu
  refine ⟨u, ?_, happ.trans ht⟩
  obtain ⟨type, payload⟩ := r
  rw [receiveAppId, Prog.run_bind, hrecv, Outcome.andThen_ret]
  cases type with
  | succeed => exact absurd rfl hr
  | error => rw [Prog.run_bind, hu]; rfl
  | fatal => rw [Prog.run_bind, hu]; rfl
  | otherError => rw [Prog.run_bind, hu]; rfl

/-- The connection of a proxy that has an application. -/
def Conn.withApp (s : Conn) (id : BitVec 32) : Conn :=
  { s with proxy := { s.proxy with app_id := id } }

/-- A payload is undecodable, it has no id, or its id is stored. -/
theorem storeAppId_cases (env : Env) (slice : List UInt8) (s : Conn) :
    (¬ LooksUp env slice ∧ (storeAppId env slice).run s = .undefined s) ∨
      (∃ d, (storeAppId env slice).run s = .ret (-1) (s.printing d)) ∨
      ∃ id, DecodesId env slice id ∧ (storeAppId env slice).run s = .ret 0 (s.withApp id) := by
  rw [storeAppId, Prog.run_bind]
  cases hnew : rmessageNew env (lit "GetNewApplicationResponseProto") slice with
  | none => exact .inl ⟨fun h => h.payload hnew, rfl⟩
  | some r =>
      cases r with
      | error e => exact .inr (.inl ⟨_, rfl⟩)
      | ok rmsg =>
          rw [Prog.ofOption_some, Prog.run_pure, Outcome.andThen_ret]
          dsimp only
          cases hmessage : rmessageMessage env rmsg (lit "application_id") 0 with
          | undefined => exact .inl ⟨fun h => h.message _ hnew hmessage, rfl⟩
          | null => exact .inr (.inl ⟨_, rfl⟩)
          | ok application_id =>
              dsimp only
              rw [Prog.run_bind]
              cases hint : rmessageInteger env application_id (lit "id") 0 with
              | none => exact .inl ⟨fun h => h.id _ _ hnew hmessage hint, rfl⟩
              | some id =>
                  exact .inr (.inr ⟨id, ⟨rmsg, application_id, hnew, hmessage, hint⟩, rfl⟩)

/-- A look-up that comes to an end was defined. -/
theorem looksUp_of_ret {slice : List UInt8} {s t : Conn} {a : ℤ}
    (h : (storeAppId env slice).run s = .ret a t) : LooksUp env slice := by
  rw [storeAppId, Prog.run_bind] at h
  refine ⟨fun hnew => ?_, fun rmsg hnew hmessage => ?_, fun rmsg id hnew hmessage hint => ?_⟩
  · simp [hnew] at h
  · simp [hnew, hmessage] at h
  · simp [hnew, hmessage, hint] at h

/-! ## One call -/

/-- What a call on a proxy without an application may leave: still none, or the
one whose id it decoded. -/
def Asked (env : Env) (l : Locals) (s : Conn) (a : ℤ) (t : Conn) : Prop :=
  a = -1 ∧ t.proxy.app_id = -1 ∨
    a = 0 ∧ ∃ slice, Delivers env l s slice ∧ DecodesId env slice t.proxy.app_id

private theorem storeAppId_wp {s u : Conn} {slice : List UInt8} (hu : u.proxy.app_id = -1)
    (hslice : Delivers env l s slice) :
    ((storeAppId env slice).run u).wp (Asked env l s) (·.proxy.app_id = -1) := by
  rcases storeAppId_cases env slice u with ⟨-, hrun⟩ | ⟨d, hrun⟩ | ⟨id, hid, hrun⟩
  · rw [hrun]
    exact hu
  · rw [hrun]
    exact .inl ⟨rfl, hu⟩
  · rw [hrun]
    exact .inr ⟨rfl, slice, hslice, hid⟩

private theorem receiveAppId_wp {s u : Conn} (hu : u.proxy.app_id = -1)
    (hasks : Asks env l s u) :
    ((receiveAppId env l).run u).wp (Asked env l s) (·.proxy.app_id = -1) := by
  have hbad : ∀ (type : ResponseType) (v : Conn), v.proxy.app_id = -1 →
      ((processBadRpcResponse type >>= fun _ => pure (-1) : Prog Conn ℤ).run v).wp
        (Asked env l s) (·.proxy.app_id = -1) := by
    intro type v hv
    rw [Prog.wp_bind]
    refine ((sameApp_frame.processBadRpcResponse type).wp v).mono ?_ fun w hw => Eq.trans hw hv
    exact fun _ w hw => .inl ⟨rfl, Eq.trans hw.2 hv⟩
  rw [receiveAppId, Prog.wp_bind]
  refine ((sameApp_frame.recvRpcResponse (fun _ _ => sameApp_print _) env l).wp u).mono ?_
    fun w hw => Eq.trans hw hu
  rintro ⟨type, payload⟩ v ⟨hret, hv⟩
  have happ : v.proxy.app_id = -1 := Eq.trans hv hu
  dsimp only
  split
  · exact storeAppId_wp happ ⟨u, v, _, hasks, hret⟩
  · exact hbad _ v happ

theorem getNewApp_wp {s : Conn} (hs : s.proxy.app_id = -1) :
    ((getNewApp env l).run s).wp (Asked env l s) (·.proxy.app_id = -1) := by
  rw [getNewApp, Prog.wp_bind, Prog.run_get, Outcome.wp_ret, if_neg (not_not.mpr hs), Prog.wp_bind]
  refine ((sameApp_frame.generateNewAppRequest env l).wp s).mono ?_ fun w hw => Eq.trans hw hs
  rintro (_ | request) t ⟨hgen, ht⟩
  · exact .inl ⟨rfl, Eq.trans ht hs⟩
  · have happ : t.proxy.app_id = -1 := Eq.trans ht hs
    dsimp only
    rw [Prog.wp_bind]
    refine ((sameApp_sendRpcRequest _ _).wp t).mono ?_ fun w hw => Eq.trans hw happ
    rintro rc u ⟨hsend, hu⟩
    rw [orFail]
    split
    · exact .inl ⟨rfl, Eq.trans hu happ⟩
    · rename_i hrc
      obtain rfl : rc = 0 := not_not.mp hrc
      exact receiveAppId_wp (Eq.trans hu happ) ⟨request, t, hgen, hsend⟩

/-- The calls that ask for an application. -/
inductive AppCall where
  | getNewApp
  | submitApplication
  deriving DecidableEq, Repr

def AppCall.prog (env : Env) (l : Locals) : AppCall → Prog Conn ℤ
  | .getNewApp => HdClient.getNewApp env l
  | .submitApplication => HdClient.submitApplication env l

/-- One of these calls, with what its locals hold. -/
structure AppAsk where
  call : AppCall
  mem : Locals

def AppAsk.prog (env : Env) (c : AppAsk) : Prog Conn ℤ := c.call.prog env c.mem

theorem AppCall.prog_wp (env : Env) (l : Locals) {s : Conn} (hs : s.proxy.app_id = -1)
    (c : AppCall) :
    ((c.prog env l).run s).wp (Asked env l s) (·.proxy.app_id = -1) := by
  cases c with
  | getNewApp => exact getNewApp_wp hs
  | submitApplication =>
      rw [prog, HdClient.submitApplication, Prog.wp_bind]
      refine (getNewApp_wp hs).mono ?_ fun _ h => h
      rintro a t (⟨rfl, happ⟩ | ⟨rfl, happ⟩)
      · exact .inl ⟨rfl, happ⟩
      · exact .inr ⟨rfl, happ⟩

/-- A call on a proxy with an application prints that it has one, and fails. -/
theorem AppCall.prog_refused (env : Env) (l : Locals) {s : Conn} (hs : s.proxy.app_id ≠ -1)
    (c : AppCall) :
    ∃ ds, (c.prog env l).run s = .ret (-1) { s with printed := s.printed ++ ds } := by
  have hrun : (HdClient.getNewApp env l).run s =
      .ret (-1) { s with printed := s.printed ++ [.alreadyApp s.proxy.app_id] } := by
    rw [HdClient.getNewApp, Prog.run_bind, Prog.run_get, Outcome.andThen_ret, if_pos hs]
    rfl
  cases c with
  | getNewApp => exact ⟨_, hrun⟩
  | submitApplication =>
      refine ⟨[.alreadyApp s.proxy.app_id, .getNewAppFailed], ?_⟩
      rw [prog, HdClient.submitApplication, Prog.run_bind, hrun, Outcome.andThen_ret]
      simp [orFail]

/-! ## Runs of calls -/

/-- Every call returned minus one. -/
def AllFail (log : List (AppAsk × ℤ)) : Prop := ∀ e ∈ log, e.2 = -1

theorem allFail_nil : AllFail [] := by simp [AllFail]

theorem AllFail.snoc {log : List (AppAsk × ℤ)} (h : AllFail log) (c : AppAsk) :
    AllFail (log ++ [(c, -1)]) :=
  List.forall_mem_append.mpr ⟨h, by simp⟩

/-- No call of those so far returned zero and the proxy has no application, or one
of them did: the run had come to `u` without an application, the call stored the
id that it decoded, and in the rest of the run the proxy and what was sent stay
as the call left them. -/
inductive OneApp (env : Env) (s : Conn) : List (AppAsk × ℤ) → Conn → Prop where
  | none {log : List (AppAsk × ℤ)} {t : Conn} : AllFail log → t.proxy.app_id = -1 →
      OneApp env s log t
  | one {log log' : List (AppAsk × ℤ)} {c : AppAsk} {u v t : Conn} {slice : List UInt8} :
      Prog.AnyRuns (AppAsk.prog env) s log u → AllFail log → u.proxy.app_id = -1 →
      (c.prog env).run u = .ret 0 v → Delivers env c.mem u slice →
      DecodesId env slice v.proxy.app_id → Prog.AnyRuns (AppAsk.prog env) v log' t →
      AllFail log' → t.proxy = v.proxy → t.outgoing = v.outgoing →
      OneApp env s (log ++ [(c, 0)] ++ log') t

/-- A call on a proxy without an application is not answered with the number
that stands for none. -/
def NoSentinel (env : Env) (c : AppAsk) (s : Conn) : Prop :=
  s.proxy.app_id = -1 → ∀ slice, Delivers env c.mem s slice → ¬ DecodesId env slice (-1)

/-- While an application is there it is not the number that stands for none. -/
private structure OneRealApp (env : Env) (s : Conn) (log : List (AppAsk × ℤ)) (t : Conn) :
    Prop where
  runs : Prog.AnyRuns (AppAsk.prog env) s log t
  one : OneApp env s log t
  none : t.proxy.app_id = -1 → AllFail log

private theorem oneRealApp_call {s : Conn} {log : List (AppAsk × ℤ)} {t u : Conn} {c : AppAsk}
    {a : ℤ} (h : OneRealApp env s log t) (hok : NoSentinel env c t)
    (hret : (c.prog env).run t = .ret a u) : OneRealApp env s (log ++ [(c, a)]) u := by
  have hruns := h.runs.snoc trivial hret
  by_cases happ : t.proxy.app_id = -1
  · rcases (c.call.prog_wp env c.mem happ).of_ret hret with ⟨rfl, hu⟩ | ⟨rfl, slice, hslice, hid⟩
    · have hall := (h.none happ).snoc c
      exact ⟨hruns, .none hall hu, fun _ => hall⟩
    · refine ⟨hruns, ?_, fun hu => absurd (hu ▸ hid) (hok happ slice hslice)⟩
      have hone : OneApp env s (log ++ [(c, 0)] ++ []) u :=
        .one h.runs (h.none happ) happ hret hslice hid .nil allFail_nil rfl rfl
      rwa [List.append_nil] at hone
  · obtain ⟨ds, hrun⟩ := c.call.prog_refused env c.mem happ
    have hsame := hret
    rw [AppAsk.prog, hrun, Outcome.ret.injEq] at hsame
    obtain ⟨rfl, rfl⟩ := hsame
    refine ⟨hruns, ?_, fun hnone => absurd hnone happ⟩
    cases h.one with
    | none _ hnone => exact absurd hnone happ
    | one hlog hfail hu hcall hslice hid hlog' hfail' hproxy hout =>
        rw [List.append_assoc]
        exact .one hlog hfail hu hcall hslice hid (hlog'.snoc trivial hret) (hfail'.snoc c) hproxy
          hout

/-- While no response carries the id that stands for none, one call at most gets
an application, which the proxy keeps, and no call after it sends anything. -/
theorem oneApp_of_moments {s t : Conn} {log : List (AppAsk × ℤ)} (hfresh : s.proxy.app_id = -1)
    (h : Prog.Moments (NoSentinel env) (AppAsk.prog env) s log t) : OneApp env s log t := by
  have hreal : ∀ {log t}, Prog.Runs (NoSentinel env) (AppAsk.prog env) s log t →
      OneRealApp env s log t := fun hruns =>
    hruns.invariant ⟨.nil, .none allFail_nil hfresh, fun _ => allFail_nil⟩ oneRealApp_call
  cases h with
  | returned h => exact (hreal h).one
  | underway h hok hwait =>
      rename_i u c
      by_cases happ : u.proxy.app_id = -1
      · have hstate := c.call.prog_wp env c.mem happ
        rw [AppAsk.prog] at hwait
        rw [hwait, Outcome.wp_wait] at hstate
        exact .none ((hreal h).none happ) hstate
      · obtain ⟨ds, hrun⟩ := c.call.prog_refused env c.mem happ
        rw [AppAsk.prog, hrun] at hwait
        cases hwait

/-- A call that is answered ends with the look at its payload. -/
theorem getNewApp_of_payload {s : Conn} {slice : List UInt8} (hs : s.proxy.app_id = -1)
    (hslice : Delivers env l s slice) :
    ∃ v, v.proxy.app_id = -1 ∧ (getNewApp env l).run s = (storeAppId env slice).run v := by
  obtain ⟨u, v, n, hasks, hrecv⟩ := hslice
  have hv : v.proxy.app_id = u.proxy.app_id :=
    (sameApp_frame.recvRpcResponse (fun _ _ => sameApp_print _) env l).of_ret hrecv
  refine ⟨v, hv.trans (hasks.app_id.trans hs), ?_⟩
  rw [getNewApp_of_asks hs hasks, receiveAppId, Prog.run_bind, hrecv, Outcome.andThen_ret]

theorem storeAppId_of_decodes {s : Conn} {slice : List UInt8} {id : BitVec 32}
    (hid : DecodesId env slice id) : (storeAppId env slice).run s = .ret 0 (s.withApp id) := by
  obtain ⟨rmsg, application_id, hnew, hmessage, hint⟩ := hid
  rw [storeAppId, hnew, Prog.run_bind, Prog.ofOption_some, Prog.run_pure, Outcome.andThen_ret]
  dsimp only
  rw [hmessage]
  dsimp only
  rw [hint]
  rfl

/-- A call that is answered stores the id that it decodes. -/
theorem getNewApp_of_delivers {s : Conn} {slice : List UInt8} {id : BitVec 32}
    (hs : s.proxy.app_id = -1) (hslice : Delivers env l s slice) (hid : DecodesId env slice id) :
    ∃ t, (getNewApp env l).run s = .ret 0 t ∧ t.proxy.app_id = id := by
  obtain ⟨v, -, hrun⟩ := getNewApp_of_payload hs hslice
  exact ⟨v.withApp id, hrun.trans (storeAppId_of_decodes hid), rfl⟩

/-- A proxy before its first call, whose server answers in these bytes. -/
def answeredConn (incoming : List UInt8) : Conn where
  proxy := ⟨0, .client, .rm, clientRmProtocolName, -1⟩
  incoming := incoming
  outgoing := []
  reads := List.replicate 20 (.upTo 40)
  writes := List.replicate 20 (.upTo 200)
  allocs := []
  printed := []

/-- The return code of a call, and the application that it leaves. -/
private def callAndLook : Prog Conn (ℤ × BitVec 32) := do
  let rc ← getNewApp protocolEnv zeroLocals
  let s ← .get
  pure (rc, s.proxy.app_id)

private theorem callAndLook_eq {s t : Conn} {rc : ℤ} {id : BitVec 32}
    (h : callAndLook.run s = .ret (rc, id) t) :
    (getNewApp protocolEnv zeroLocals).run s = .ret rc t ∧ t.proxy.app_id = id := by
  obtain ⟨a, u, hret, hrest⟩ := Prog.bind_eq_ret.mp h
  obtain ⟨⟨rfl, rfl⟩, rfl⟩ : (a = rc ∧ u.proxy.app_id = id) ∧ u = t := by simpa using hrest
  exact ⟨hret, rfl⟩

/-- The server answers with the application of number seven. -/
theorem oneApp_seven : ∃ t, OneApp protocolEnv
    (answeredConn [4, 8, 0, 16, 0, 0, 0, 0, 4, 10, 2, 8, 7])
    ([] ++ [(⟨.getNewApp, zeroLocals⟩, 0)] ++ [(⟨.submitApplication, zeroLocals⟩, -1)]) t ∧
      t.proxy.app_id = 7 := by
  have hseven : (callAndLook.run
      (answeredConn [4, 8, 0, 16, 0, 0, 0, 0, 4, 10, 2, 8, 7])).value? = some (0, 7) := by
    decide +kernel
  obtain ⟨u, hu⟩ := Outcome.value?_eq_some.mp hseven
  obtain ⟨hret, happ⟩ := callAndLook_eq hu
  have hreal : NoSentinel protocolEnv ⟨.getNewApp, zeroLocals⟩
      (answeredConn [4, 8, 0, 16, 0, 0, 0, 0, 4, 10, 2, 8, 7]) := by
    intro _ slice hslice hid
    obtain ⟨t, hret', hzero⟩ := getNewApp_of_delivers rfl hslice hid
    rw [hret, Outcome.ret.injEq] at hret'
    rw [← hret'.2, happ] at hzero
    exact absurd hzero (by decide)
  obtain ⟨ds, hrefused⟩ := AppCall.prog_refused protocolEnv zeroLocals
    (s := u) (by rw [happ]; decide) .submitApplication
  have hdone : NoSentinel protocolEnv ⟨.submitApplication, zeroLocals⟩ u :=
    fun hnone => absurd (happ.symm.trans hnone) (by decide)
  exact ⟨_, oneApp_of_moments rfl
    (.returned (.snoc (.snoc .nil hreal hret) hdone hrefused)), happ⟩

theorem OneApp.length_le {s : Conn} {log : List (AppAsk × ℤ)} {t : Conn} (h : OneApp env s log t) :
    (log.filter (·.2 = 0)).length ≤ 1 := by
  have hnone : ∀ {log : List (AppAsk × ℤ)}, AllFail log → log.filter (·.2 = 0) = [] := by
    intro log hall
    rw [List.filter_eq_nil_iff]
    intro e he
    simp [hall e he]
  cases h with
  | none hall => simp [hnone hall]
  | one _ hfail _ _ _ _ _ hfail' => simp [hnone hfail, hnone hfail']

/-- The answer to a request under the id `c`, with the application minus one. -/
private def sentinelAnswer (c : UInt8) : List UInt8 :=
  [4, 8, c, 16, 0, 0, 0, 0, 13, 10, 11, 8] ++ List.replicate 9 255 ++ [1]

/-- A server that answers with the number that stands for none gives a proxy a
second application. -/
theorem sentinel_app_repeats : ¬ ∀ (env : Env) (s t : Conn) (log : List (AppAsk × ℤ)),
    s.proxy.app_id = -1 → Prog.Moments (fun _ _ => True) (AppAsk.prog env) s log t →
    OneApp env s log t := by
  intro hclaim
  have htwice : ((do
      let first ← callAndLook
      let second ← callAndLook
      pure (first, second)).run
        (answeredConn (sentinelAnswer 0 ++ sentinelAnswer 1))).value? = some ((0, -1), (0, -1)) := by
    decide +kernel
  obtain ⟨v, hv⟩ := Outcome.value?_eq_some.mp htwice
  obtain ⟨first, t, hfirst, hrest⟩ := Prog.bind_eq_ret.mp hv
  obtain ⟨second, u, hsecond, hpure⟩ := Prog.bind_eq_ret.mp hrest
  obtain ⟨⟨rfl, rfl⟩, -⟩ : (first = (0, -1) ∧ second = (0, -1)) ∧ u = v := by simpa using hpure
  have hruns : Prog.AnyRuns (AppAsk.prog protocolEnv)
      (answeredConn (sentinelAnswer 0 ++ sentinelAnswer 1))
      ([] ++ [(⟨.getNewApp, zeroLocals⟩, 0)] ++ [(⟨.getNewApp, zeroLocals⟩, 0)]) u :=
    .snoc (.snoc .nil trivial (callAndLook_eq hfirst).1) trivial (callAndLook_eq hsecond).1
  exact absurd (hclaim _ _ _ _ rfl (.returned hruns)).length_le (by decide)

end HdClient
