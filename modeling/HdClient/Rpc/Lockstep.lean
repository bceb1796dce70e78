-- SUMMARY: Whole runs of get_new_app against a server that answers in order: requests and responses stay in step.
import HdClient.Rpc.Exchange
import HdClient.Rpc.Sessions

/-! # Lockstep -/

namespace HdClient

open Pbc Conn

variable {env : Env} {l : Locals} {s t u : Conn} {responses : List Response} {n : ℕ}

/-- The bytes of responses, one after the other. -/
def stream (responses : List Response) : List UInt8 := responses.flatMap Response.bytes

/-- What the server sends is one response a request, in order, each under the id of its request. -/
structure Serves (s : Conn) (responses : List Response) : Prop where
  incoming : s.incoming = stream responses
  in_order : ∀ i r, responses[i]? = some r → r.callId = s.proxy.caller_id + BitVec.ofNat 32 i

/-- No system call fails, and every read brings all that it asks for. -/
structure Healthy (s : Conn) : Prop where
  reads : WholeReads s.incoming.length s.reads
  reads_long : s.incoming.length ≤ s.reads.length
  writes : Transfer.Sound s.writes
  allocs : ∀ a ∈ s.allocs, a = true

/-- A request that is going to be sent is one that the server answers, and the
memory behind its empty body ends in a zero somewhere. -/
def Answered (l : Locals) (t : Conn) : Prop :=
  t.proxy.app_id = -1 → t.incoming ≠ [] ∧ 0 ∈ l.request_mem

/-- From `s` to `t`, `n` frames have been sent and their responses have been read, to the byte. -/
structure Lockstep (s : Conn) (responses : List Response) (n : ℕ) (t : Conn) : Prop where
  sent : ∃ bodies : List (List UInt8), bodies.length = n ∧
    t.outgoing = s.outgoing ++ frames s.proxy.caller_id bodies
  counted : t.proxy.caller_id = s.proxy.caller_id + BitVec.ofNat 32 n
  consumed : t.incoming = stream (responses.drop n)

theorem Lockstep.zero (h : Serves s responses) : Lockstep s responses 0 s where
  sent := ⟨[], rfl, by simp [frames]⟩
  counted := by simp
  consumed := h.incoming

/-- The next response is there. -/
theorem Lockstep.next (h : Lockstep s responses n t) (hne : t.incoming ≠ []) :
    ∃ r, responses[n]? = some r ∧ t.incoming = r.bytes ++ stream (responses.drop (n + 1)) := by
  rw [h.consumed] at hne ⊢
  cases hdrop : responses.drop n with
  | nil =>
      rw [hdrop] at hne
      exact absurd rfl hne
  | cons r rs =>
      have hget : responses[n]? = some r := by
        rw [← List.head?_drop, hdrop]
        rfl
      have htail : responses.drop (n + 1) = rs := by
        rw [← List.tail_drop, hdrop]
        rfl
      exact ⟨r, hget, by rw [htail]; rfl⟩

/-- One exchange is one step. -/
theorem Lockstep.step (h : Lockstep s responses n t)
    (hu : Exchanged l t (stream (responses.drop (n + 1))) u) : Lockstep s responses (n + 1) u where
  sent := by
    obtain ⟨bodies, hlen, hout⟩ := h.sent
    refine ⟨bodies ++ [newAppBody l], by simp [hlen], ?_⟩
    rw [hu.outgoing, hout, h.counted, frames_append, hlen, List.append_assoc]
    simp [frames]
  counted := by
    rw [hu.caller_id, h.counted, BitVec.add_assoc, BitVec.ofNat_add]
    rfl
  consumed := hu.incoming

/-- The answers of the system calls that are left serve as well. -/
theorem Healthy.exchanged (h : Healthy t) {rest : List UInt8} (hle : rest.length ≤ t.incoming.length)
    (hu : Exchanged l t rest u) : Healthy u where
  reads := by
    rw [hu.incoming]
    intro a ha
    obtain ⟨k, hk, hup⟩ := h.reads a (hu.reads.subset ha)
    exact ⟨k, by omega, hup⟩
  reads_long := by
    rw [hu.incoming]
    exact hu.reads_long
  writes := h.writes.suffix hu.writes
  allocs := fun a ha => h.allocs a (hu.allocs.subset ha)

/-- What the next call comes to, in step. -/
theorem Lockstep.exchange (hheader : RequestHeaderType env) (hrequest : NewAppRequestType env)
    (hresponse : ResponseHeaderType env) (hserves : Serves s responses)
    (hharmless : ∀ r ∈ responses, r.Harmless env) (hhealthy : Healthy t)
    (h : Lockstep s responses n t) (happ : t.proxy.app_id = -1) (hne : t.incoming ≠ [])
    (l : Locals) :
    ∃ r, responses[n]? = some r ∧ (stream (responses.drop (n + 1))).length ≤ t.incoming.length ∧
      Exchange env l t r (stream (responses.drop (n + 1))) ((getNewApp env l).run t) := by
  obtain ⟨r, hr, hin⟩ := h.next hne
  refine ⟨r, hr, by rw [hin, List.length_append]; omega, ?_⟩
  exact getNewApp_exchange hheader hrequest hresponse l
    (hharmless r (List.mem_of_getElem? hr)).header happ
    ((hserves.in_order n r hr).trans h.counted.symm) hin hhealthy.reads hhealthy.reads_long
    hhealthy.writes hhealthy.allocs

/-- A call on a proxy with an application sends nothing and reads nothing. -/
theorem Lockstep.refused (env : Env) (h : Lockstep s responses n t) (happ : t.proxy.app_id ≠ -1)
    (l : Locals) :
    ∃ ds, (getNewApp env l).run t = .ret (-1) { t with printed := t.printed ++ ds } ∧
      Lockstep s responses n { t with printed := t.printed ++ ds } := by
  obtain ⟨ds, hrun⟩ := AppCall.prog_refused env l happ .getNewApp
  exact ⟨ds, hrun, h.sent, h.counted, h.consumed⟩

/-- An exception for the first call, and the application of number seven for the second one. -/
def pairedResponses : List Response :=
  [⟨0, 1, responseHeader 0 1, .error [] [], responseHeader_fields 0 1, by decide, rfl,
      by rw [Reply.Fits]; decide⟩,
    ⟨1, 0, responseHeader 1 0, .success [10, 2, 8, 7], responseHeader_fields 1 0, by decide, rfl,
      by rw [Reply.Fits]; decide⟩]

/-- A proxy whose server sends these responses. -/
def servedConn (responses : List Response) : Conn where
  proxy := ⟨0, .client, .rm, clientRmProtocolName, -1⟩
  incoming := stream responses
  outgoing := []
  reads := List.replicate 40 (.upTo 40)
  writes := List.replicate 200 (.upTo 200)
  allocs := []
  printed := []

theorem healthy_servedConn {responses : List Response} (h : (stream responses).length ≤ 40) :
    Healthy (servedConn responses) :=
  ⟨fun a ha => ⟨40, h, List.eq_of_mem_replicate ha⟩, by simpa [servedConn] using h,
    fun a ha => ⟨200, List.eq_of_mem_replicate ha⟩, by simp [servedConn]⟩

private theorem pairedResponses_harmless : ∀ r ∈ pairedResponses, r.Harmless protocolEnv := by
  have hstore : ((storeAppId protocolEnv [10, 2, 8, 7]).run (servedConn [])).value? = some 0 := by
    decide +kernel
  obtain ⟨t, hret⟩ := Outcome.value?_eq_some.mp hstore
  intro r hr
  rcases List.mem_pair.mp hr with rfl | rfl
  · exact ⟨by decide, by simp⟩
  · refine ⟨by decide, fun payload hreply _ => ?_⟩
    obtain rfl : [10, 2, 8, 7] = payload := by simpa using hreply
    exact looksUp_of_ret hret

/-- Two calls, and what the proxy and the stream are like after each. -/
private def callTwice : Prog Conn ((ℤ × BitVec 32 × ℕ) × ℤ × BitVec 32 × ℕ) := do
  let first ← getNewApp protocolEnv zeroLocals
  let t ← .get
  let second ← getNewApp protocolEnv zeroLocals
  let u ← .get
  pure ((first, t.proxy.app_id, t.incoming.length), second, u.proxy.app_id, u.incoming.length)

/-- A success whose payload has, for an application, one byte that is no record. -/
def garbledResponses : List Response :=
  [⟨0, 0, responseHeader 0 0, .success [10, 1, 255], responseHeader_fields 0 0, by decide, rfl,
    by rw [Reply.Fits]; decide⟩]

end HdClient
