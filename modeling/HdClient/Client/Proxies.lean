-- SUMMARY: The whole client: its environment, its proxies and its sockets, and every call a program can make of it.
import HdClient.Base.Components
import HdClient.Client.ClientRmProtocol
import HdClient.Client.HadoopRpc

/-! # Proxies

A program makes an environment and then proxies, and asks each proxy for an
application, in any order and as often as it likes. Nothing is ever given back. -/

namespace HdClient

open Pbc

/-- A line that is printed while a proxy is made. -/
inductive ProxyDiag where
  | notInitialized
  | serverNull
  | serverTypeUnsupported
  | noSuchHost
  | errorConnecting
  | writeHeaderFailed
  deriving DecidableEq

def ProxyDiag.text : ProxyDiag → String
  | .notInitialized => "initialize pb_env before use this function.\n"
  | .serverNull => "server cannot be null.\n"
  | .serverTypeUnsupported => "not support such server type now.\n"
  | .noSuchHost => "ERROR, no such host.\n"
  | .errorConnecting => "ERROR connecting.\n"
  | .writeHeaderFailed => "write connection header failed.\n"

/-- What a new connection meets: the answers of the system calls, what the peer
sends, and what happens to be in the memory of the proxy. -/
structure Endpoint where
  resolves : Bool
  connects : Bool
  incoming : List UInt8
  reads : List Ans
  writes : List Ans
  allocs : List Bool
  app_id : BitVec 32

/-- The state of the client. A proxy is the index of its connection; the sockets of
proxies that were not made stay open. -/
structure Client where
  globals : Globals
  proxies : List Conn
  sockets : List Conn
  printed : List ProxyDiag

namespace Client

def print (d : ProxyDiag) : Prog Client Unit := .modify fun s => { s with printed := s.printed ++ [d] }

/-- `check_init_and_print` -/
def checkInitAndPrint : Prog Client Bool := do
  let s ← .get
  if s.globals.is_env_initialize then pure true
  else do
    print .notInitialized
    pure false

/-- `connect_to_server`; a socket that could not be made does not connect. -/
def connectToServer (e : Endpoint) : Prog Client ℤ :=
  if ¬ e.resolves then do
    print .noSuchHost
    pure (-1)
  else if ¬ e.connects then do
    print .errorConnecting
    pure (-1)
  else pure 0

/-- The protocol that a client speaks to a server. -/
def protocolName (client_type : ClientType) (server_type : ServerType) : CString :=
  match server_type with
  -- name nodes and data nodes have been refused
  | .nm | .nn | .dn => containerManagerProtocolName
  | .rm => match client_type with
      | .client => clientRmProtocolName
      | .am => amRmProtocolName

/-- The connection of a new proxy. -/
def newConn (client_type : ClientType) (server_type : ServerType) (e : Endpoint) : Conn where
  proxy := ⟨0, client_type, server_type, protocolName client_type server_type, e.app_id⟩
  incoming := e.incoming
  outgoing := []
  reads := e.reads
  writes := e.writes
  allocs := e.allocs
  printed := []

/-- The call of `write_connection_header`. While it lasts the socket is one without a proxy. -/
def greet (env : Env) (c : Conn) : Prog Client (ℤ × Conn) where
  run s := match (writeConnectionHeader env).run c with
    | .ret rc c => .ret (rc, c) s
    | .wait c => .wait { s with sockets := s.sockets ++ [c] }
    | .undefined c => .undefined { s with sockets := s.sockets ++ [c] }

/-- The proxy is given to the program. -/
def addProxy (c : Conn) : Prog Client ℕ where
  run s := .ret s.proxies.length
    { s with proxies := s.proxies ++ [{ c with proxy := { c.proxy with app_id := -1 } }] }

/-- `new_hadoop_rpc_proxy` -/
def newHadoopRpcProxy (host : Option CString) (client_type : ClientType)
    (server_type : ServerType) (e : Endpoint) : Prog Client (Option ℕ) := do
  if ¬ (← checkInitAndPrint) then pure none
  else if host.isNone then do
    print .serverNull
    pure none
  else if server_type = .nn ∨ server_type = .dn then do
    print .serverTypeUnsupported
    pure none
  else if (← connectToServer e) ≠ 0 then pure none
  else do
    let s ← .get
    let env ← .ofOption s.globals.env
    let (rc, c) ← greet env (newConn client_type server_type e)
    if rc ≠ 0 then do
      .modify fun s => { s with sockets := s.sockets ++ [c] }
      print .writeHeaderFailed
      pure none
    else do
      let i ← addProxy c
      pure (some i)

/-! ## What making a proxy changes -/

/-- What has become of the connection when its header has not been written to the end. -/
def Abandoned (client_type : ClientType) (server_type : ServerType) (e : Endpoint)
    (env : Option Env) (c : Conn) : Prop :=
  ∃ p, env = some p ∧
    ((writeConnectionHeader p).run (newConn client_type server_type e)).state = c ∧
    ∀ d, (writeConnectionHeader p).run (newConn client_type server_type e) ≠ .ret 0 d

/-- No proxy was made; there may be a socket without one. -/
structure NotMade (client_type : ClientType) (server_type : ServerType) (e : Endpoint)
    (s t : Client) : Prop where
  globals : t.globals = s.globals
  proxies : t.proxies = s.proxies
  sockets : ∀ c ∈ t.sockets, c ∈ s.sockets ∨
    s.globals.is_env_initialize = true ∧ Abandoned client_type server_type e s.globals.env c

/-- A proxy was made, on a connection whose header is out. -/
structure Made (client_type : ClientType) (server_type : ServerType) (e : Endpoint) (s t : Client) :
    Prop where
  initialized : s.globals.is_env_initialize = true
  globals : t.globals = s.globals
  sockets : t.sockets = s.sockets
  proxies : ∃ env c, s.globals.env = some env ∧
    (writeConnectionHeader env).run (newConn client_type server_type e) = .ret 0 c ∧
    t.proxies = s.proxies ++ [{ c with proxy := { c.proxy with app_id := -1 } }]

/-- A null pointer is returned and no proxy is made, or one is made and returned. -/
theorem newHadoopRpcProxy_wp (host : Option CString) (client_type : ClientType)
    (server_type : ServerType) (e : Endpoint) (s : Client) :
    ((newHadoopRpcProxy host client_type server_type e).run s).wp
      (fun i t => i = none ∧ NotMade client_type server_type e s t ∨
        i = some s.proxies.length ∧ Made client_type server_type e s t)
      (NotMade client_type server_type e s) := by
  cases hflag : s.globals.is_env_initialize with
  | false =>
      have hcheck : checkInitAndPrint.run s =
          .ret false { s with printed := s.printed ++ [.notInitialized] } := by
        simp [checkInitAndPrint, hflag, print]
      rw [newHadoopRpcProxy, Prog.wp_bind, hcheck]
      exact .inl ⟨rfl, rfl, rfl, fun _ => .inl⟩
  | true =>
      have hcheck : checkInitAndPrint.run s = .ret true s := by simp [checkInitAndPrint, hflag]
      rw [newHadoopRpcProxy, Prog.wp_bind, hcheck, Outcome.wp_ret, if_neg (by decide)]
      split
      · exact .inl ⟨rfl, rfl, rfl, fun _ => .inl⟩
      split
      · exact .inl ⟨rfl, rfl, rfl, fun _ => .inl⟩
      rw [Prog.wp_bind, connectToServer]
      split
      · exact .inl ⟨rfl, rfl, rfl, fun _ => .inl⟩
      split
      · exact .inl ⟨rfl, rfl, rfl, fun _ => .inl⟩
      cases henv : s.globals.env with
      | none =>
          simp only [Prog.run_pure, Outcome.wp_ret, ne_eq, not_true_eq_false, if_false,
            Prog.run_bind, Prog.run_get, Outcome.andThen_ret, henv, Prog.ofOption_none]
          exact ⟨rfl, rfl, fun _ => .inl⟩
      | some env =>
          simp only [Prog.run_pure, Outcome.wp_ret, ne_eq, not_true_eq_false, if_false,
            Prog.run_bind, Prog.run_get, Outcome.andThen_ret, henv, Prog.ofOption_some, greet]
          -- a socket without a proxy is the one that the greeting left
          have hleft : ∀ {c : Conn} {o : Outcome Conn ℤ},
              (writeConnectionHeader env).run (newConn client_type server_type e) = o →
              o.state = c → (∀ d, o ≠ .ret 0 d) → ∀ d ∈ s.sockets ++ [c], d ∈ s.sockets ∨
                s.globals.is_env_initialize = true ∧
                  Abandoned client_type server_type e s.globals.env d := by
            intro c o hrun hstate hnot d hd
            rcases List.mem_append.mp hd with hd | hd
            · exact .inl hd
            · obtain rfl := List.mem_singleton.mp hd
              exact .inr ⟨hflag, env, henv, hrun ▸ hstate, hrun ▸ hnot⟩
          cases hgreet : (writeConnectionHeader env).run (newConn client_type server_type e) with
          | wait c => exact ⟨rfl, rfl, hleft hgreet rfl (by simp)⟩
          | undefined c => exact ⟨rfl, rfl, hleft hgreet rfl (by simp)⟩
          | ret rc c =>
              dsimp only [Outcome.andThen_ret]
              split
              · rename_i hrc
                exact .inl ⟨rfl, rfl, rfl, hleft hgreet rfl (by simp [hrc])⟩
              · rename_i hrc
                obtain rfl : rc = 0 := not_not.mp hrc
                exact .inr ⟨rfl, hflag, rfl, rfl, env, c, henv, hgreet, rfl⟩

/-- A proxy is made when its server is reached and the header can be written. -/
theorem newHadoopRpcProxy_made (host : CString) {env : Env} {client_type : ClientType}
    {server_type : ServerType} {e : Endpoint} {s : Client} {c : Conn}
    (hflag : s.globals.is_env_initialize = true) (henv : s.globals.env = some env)
    (hserver : ¬ (server_type = .nn ∨ server_type = .dn)) (hresolves : e.resolves = true)
    (hconnects : e.connects = true)
    (hgreet : (writeConnectionHeader env).run (newConn client_type server_type e) = .ret 0 c) :
    (newHadoopRpcProxy (some host) client_type server_type e).run s = .ret (some s.proxies.length)
      { s with proxies := s.proxies ++ [{ c with proxy := { c.proxy with app_id := -1 } }] } := by
  have hcheck : checkInitAndPrint.run s = .ret true s := by simp [checkInitAndPrint, hflag]
  have hconnect : connectToServer e = pure 0 := by simp [connectToServer, hresolves, hconnects]
  have hgreets : (greet env (newConn client_type server_type e)).run s = .ret (0, c) s := by
    simp [greet, hgreet]
  rw [newHadoopRpcProxy, Prog.run_bind, hcheck, Outcome.andThen_ret, if_neg (by decide),
    if_neg (by simp), if_neg hserver, hconnect]
  simp only [Prog.run_bind, Prog.run_pure, Outcome.andThen_ret, ne_eq, not_true_eq_false, if_false,
    Prog.run_get, henv, Prog.ofOption_some, hgreets]
  rfl

end Client

end HdClient
