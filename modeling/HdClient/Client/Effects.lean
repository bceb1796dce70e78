-- SUMMARY: What the calls of the client leave as it was, from what their system calls do.
import HdClient.Client.ClientRmProtocol

/-! # Effects

A relation that every system call keeps is kept by the calls made of them. -/

namespace HdClient

open Pbc Conn

def Diag.isMismatch : Diag → Bool
  | .callerIdNotMatch _ _ => true
  | _ => false

/-- A relation that reading keeps, taking memory, and printing any line but the one
about call ids. -/
structure ReadFrame (R : Conn → Conn → Prop) : Prop extends Prog.Frame R where
  read : ∀ n, Prog.Keeps R (Conn.read n)
  malloc : Prog.Keeps R malloc
  print : ∀ d, d.isMismatch = false → Prog.Keeps R (print d)

namespace ReadFrame

variable {R : Conn → Conn → Prop} (h : ReadFrame R)

include h

theorem readLoop (size fuel : ℕ) (buffer : List UInt8) :
    Prog.Keeps R (readLoop size fuel buffer) := by
  induction fuel generalizing buffer with
  | zero => exact h.keeps_await
  | succ fuel ih =>
      refine .ite (h.keeps_bind (h.read _) fun r => ?_) (h.keeps_pure _)
      cases r with
      | none => exact h.keeps_bind (h.print _ rfl) fun _ => h.keeps_pure _
      | some bytes => exact ih _

theorem readAll (nonnull : Bool) (size : ℤ) : Prog.Keeps R (readAll nonnull size) := by
  refine .ite (h.keeps_bind (h.print _ rfl) fun _ => h.keeps_pure _) ?_
  refine .ite (h.keeps_bind (h.print _ rfl) fun _ => h.keeps_pure _) ?_
  exact h.keeps_bind h.keeps_get fun _ => h.readLoop _ _ _

theorem readChar (tmp : UInt8) : Prog.Keeps R (readChar tmp) := by
  refine h.keeps_bind (h.read _) fun r => ?_
  split
  · exact h.keeps_pure _
  · exact h.keeps_pure _

theorem discardLoop (i : ℕ) (tmp : UInt8) (readlen : ℕ) :
    Prog.Keeps R (discardLoop i tmp readlen) := by
  induction i generalizing tmp readlen with
  | zero => exact h.keeps_pure _
  | succ i ih => exact h.keeps_bind (h.readChar _) fun _ => .ite (h.keeps_pure _) (ih _ _)

theorem readRawVarint32 (tmp : UInt8) (value : BitVec 32) :
    Prog.Keeps R (readRawVarint32 tmp value) := by
  have hbyte : ∀ {j k next}, (∀ r b, Prog.Keeps R (next r b)) → ∀ r b,
      Prog.Keeps R (rawVarintByte j k next r b) := by
    intro j k next hnext r b
    exact h.keeps_bind (h.readChar _) fun _ => .ite (h.keeps_pure _) (hnext _ _)
  have htail : ∀ r b, Prog.Keeps R (rawVarintTail value r b) := by
    intro r b
    refine h.keeps_bind (h.readChar _) fun _ => .ite (h.keeps_pure _) ?_
    refine h.keeps_bind (h.discardLoop _ _ _) fun x => ?_
    obtain ⟨found, readlen⟩ := x
    cases found <;> exact h.keeps_pure _
  exact h.keeps_bind (h.readChar _) fun _ =>
    .ite (h.keeps_pure _) (hbyte (hbyte (hbyte htail)) _ _)

theorem recvPayload (mem : Locals) : Prog.Keeps R (recvPayload mem) := by
  refine h.keeps_bind (h.read _) fun _ => ?_
  refine .ite (h.keeps_bind (h.print _ rfl) fun _ => h.keeps_pure _) ?_
  refine h.keeps_bind h.malloc fun _ => ?_
  refine .ite (h.keeps_bind (h.print _ rfl) fun _ => h.keeps_pure _) ?_
  refine h.keeps_bind (h.readAll _ _) fun r => ?_
  exact .ite (h.keeps_bind (h.print _ rfl) fun _ => h.keeps_pure _) (h.keeps_pure _)

theorem readExceptionString {oom : Diag} (hoom : oom.isMismatch = false) :
    Prog.Keeps R (readExceptionString oom) := by
  refine h.keeps_bind (h.readAll _ _) fun _ => ?_
  refine .ite (h.keeps_bind (h.print _ rfl) fun _ => h.keeps_pure _) ?_
  refine h.keeps_bind h.malloc fun _ => ?_
  refine .ite (h.keeps_bind (h.print _ hoom) fun _ => h.keeps_pure _) ?_
  refine h.keeps_bind (h.readAll _ _) fun _ => ?_
  exact .ite (h.keeps_bind (h.print _ rfl) fun _ => h.keeps_pure _) (h.keeps_pure _)

theorem readException : Prog.Keeps R readException := by
  refine h.keeps_bind (h.readExceptionString rfl) fun r => ?_
  cases r with
  | none => exact h.keeps_pure _
  | some c =>
      refine h.keeps_bind (h.readExceptionString rfl) fun r => ?_
      cases r with
      | none => exact h.keeps_pure _
      | some st => exact h.keeps_pure _

theorem processBadRpcResponse (type : ResponseType) :
    Prog.Keeps R (processBadRpcResponse type) := by
  refine .ite (h.keeps_bind h.readException fun r => ?_) (h.print _ rfl)
  cases r with
  | none => exact h.print _ rfl
  | some p => exact h.print _ rfl

/-- `recv_rpc_response` also prints the line about call ids. -/
theorem recvRpcResponse (hmismatch : ∀ a b, Prog.Keeps R (Conn.print (.callerIdNotMatch a b)))
    (env : Env) (mem : Locals) : Prog.Keeps R (recvRpcResponse env mem) := by
  refine h.keeps_bind (h.readRawVarint32 _ _) fun _ => ?_
  refine .ite (h.keeps_bind (h.print _ rfl) fun _ => h.keeps_pure _) ?_
  refine h.keeps_bind h.malloc fun _ => ?_
  refine .ite (h.keeps_bind (h.print _ rfl) fun _ => h.keeps_pure _) ?_
  refine h.keeps_bind (h.readAll _ _) fun _ => ?_
  refine .ite (h.keeps_bind (h.print _ rfl) fun _ => h.keeps_pure _) ?_
  refine h.keeps_bind (h.keeps_ofOption _) fun r => ?_
  cases r with
  | error e => exact h.keeps_bind (h.print _ rfl) fun _ => h.keeps_pure _
  | ok m =>
      refine h.keeps_bind (h.keeps_ofOption _) fun _ => h.keeps_bind (h.keeps_ofOption _) fun _ =>
        h.keeps_bind (h.keeps_ofOption _) fun _ => h.keeps_bind h.keeps_get fun _ => ?_
      refine .ite (h.keeps_bind (hmismatch _ _) fun _ => h.keeps_pure _) ?_
      refine .ite (h.recvPayload _) (.ite (h.keeps_pure _) ?_)
      exact h.keeps_bind (h.print _ rfl) fun _ => h.keeps_pure _

end ReadFrame

/-- A relation that the system calls keep, and so does printing any line but the
one about call ids. -/
structure ConnFrame (R : Conn → Conn → Prop) : Prop extends Prog.Frame R where
  read : ∀ n, Prog.Keeps R (Conn.read n)
  write : ∀ bytes, Prog.Keeps R (Conn.write bytes)
  malloc : Prog.Keeps R malloc
  print : ∀ d, d.isMismatch = false → Prog.Keeps R (print d)

namespace ConnFrame

variable {R : Conn → Conn → Prop} (h : ConnFrame R)

include h

theorem orFail {rc : ℤ} {d : Diag} (hd : d.isMismatch = false) {next : Prog Conn ℤ}
    (hnext : Prog.Keeps R next) : Prog.Keeps R (orFail rc d next) :=
  .ite (h.keeps_bind (h.print d hd) fun _ => h.keeps_pure _) hnext

/-! ## Writing -/

theorem writeLoop (buffer : List UInt8) (fuel written : ℕ) :
    Prog.Keeps R (writeLoop buffer fuel written) := by
  induction fuel generalizing written with
  | zero => exact h.keeps_await
  | succ fuel ih =>
      refine .ite (h.keeps_bind (h.write _) fun r => ?_) (h.keeps_pure _)
      cases r with
      | none => exact h.keeps_bind (h.print _ rfl) fun _ => h.keeps_pure _
      | some k => exact ih _

theorem writeAll (buffer : Option (List UInt8)) (size : ℤ) :
    Prog.Keeps R (writeAll buffer size) := by
  refine .ite (h.keeps_bind (h.print _ rfl) fun _ => h.keeps_pure _) ?_
  cases buffer with
  | none => exact h.keeps_bind (h.print _ rfl) fun _ => h.keeps_pure _
  | some mem =>
      exact .ite h.keeps_undefined (h.keeps_bind h.keeps_get fun _ => h.writeLoop _ _ _)

theorem writeRequest (header : Option (List UInt8)) (header_len : BitVec 32)
    (request : Option (List UInt8)) (request_len : BitVec 32) :
    Prog.Keeps R (writeRequest header header_len request request_len) := by
  refine h.keeps_bind (h.keeps_ofOption _) fun _ => h.keeps_bind (h.keeps_ofOption _) fun _ => ?_
  refine h.keeps_bind (h.writeAll _ _) fun _ => h.orFail rfl ?_
  refine h.keeps_bind (h.writeAll _ _) fun _ => h.orFail rfl ?_
  refine h.keeps_bind (h.writeAll _ _) fun _ => h.orFail rfl ?_
  refine h.keeps_bind (h.writeAll _ _) fun _ => h.orFail rfl ?_
  exact h.keeps_bind (h.writeAll _ _) fun _ => h.orFail rfl (h.keeps_pure _)

theorem generateRequestHeader (env : Env) (caller_id : BitVec 32) :
    Prog.Keeps R (generateRequestHeader env caller_id) := by
  refine h.keeps_bind (h.keeps_ofOption _) fun m => ?_
  cases m with
  | none => exact h.keeps_bind (h.print _ rfl) fun _ => h.keeps_pure _
  | some m =>
      exact h.keeps_bind (h.keeps_ofOption _) fun _ => h.keeps_bind (h.keeps_ofOption _) fun _ =>
        h.keeps_bind (h.keeps_ofOption _) fun _ => h.keeps_bind (h.keeps_ofOption _) fun _ =>
        h.keeps_pure _

theorem generateHadoopRequest (env : Env) (request : List UInt8) (request_len : BitVec 32)
    (protocol method : CString) :
    Prog.Keeps R (generateHadoopRequest env request request_len protocol method) := by
  refine h.keeps_bind (h.keeps_ofOption _) fun m => ?_
  cases m with
  | none => exact h.keeps_bind (h.print _ rfl) fun _ => h.keeps_pure _
  | some m =>
      exact h.keeps_bind (h.keeps_ofOption _) fun _ => h.keeps_bind (h.keeps_ofOption _) fun _ =>
        h.keeps_bind (h.keeps_ofOption _) fun _ => h.keeps_bind (h.keeps_ofOption _) fun _ =>
        h.keeps_bind (h.keeps_ofOption _) fun _ => h.keeps_pure _

theorem generateNewAppRequest (env : Env) (mem : Locals) :
    Prog.Keeps R (generateNewAppRequest env mem) := by
  refine h.keeps_bind (h.keeps_ofOption _) fun m => ?_
  cases m with
  | none => exact h.keeps_undefined
  | some m =>
      refine h.keeps_bind (h.keeps_ofOption _) fun _ =>
        h.keeps_bind (h.generateHadoopRequest _ _ _ _ _) fun b => ?_
      cases b with
      | none => exact h.keeps_bind (h.print _ rfl) fun _ => h.keeps_pure _
      | some b => exact h.keeps_pure _

/-! ## Reading -/

theorem readFrame : ReadFrame R :=
  ⟨h.toFrame, h.read, h.malloc, h.print⟩

theorem recvPayload (mem : Locals) : Prog.Keeps R (recvPayload mem) := h.readFrame.recvPayload mem

theorem processBadRpcResponse (type : ResponseType) :
    Prog.Keeps R (processBadRpcResponse type) := h.readFrame.processBadRpcResponse type

theorem recvRpcResponse (hmismatch : ∀ a b, Prog.Keeps R (Conn.print (.callerIdNotMatch a b)))
    (env : Env) (mem : Locals) : Prog.Keeps R (recvRpcResponse env mem) :=
  h.readFrame.recvRpcResponse hmismatch env mem

end ConnFrame

/-- Relations between what the system calls do not touch. -/
theorem connFrame_of {R : Conn → Conn → Prop} (hframe : Prog.Frame R)
    (hread : ∀ (s : Conn) bytes as, R s { s with incoming := bytes, reads := as })
    (hwrite : ∀ (s : Conn) bytes as, R s { s with outgoing := bytes, writes := as })
    (hmalloc : ∀ (s : Conn) as, R s { s with allocs := as })
    (hprint : ∀ (s : Conn) d, d.isMismatch = false → R s { s with printed := s.printed ++ [d] }) :
    ConnFrame R where
  refl := hframe.refl
  trans := hframe.trans
  read n s := by
    obtain ⟨proxy, incoming, outgoing, reads, writes, allocs, printed⟩ := s
    cases reads with
    | nil => exact hframe.refl _
    | cons a as =>
        cases a with
        | fail => exact hread _ incoming as
        | upTo k => exact hread _ _ as
  write bytes s := by
    obtain ⟨proxy, incoming, outgoing, reads, writes, allocs, printed⟩ := s
    cases writes with
    | nil => exact hframe.refl _
    | cons a as =>
        cases a with
        | fail => exact hwrite _ outgoing as
        | upTo k => exact hwrite _ _ as
  malloc s := by
    obtain ⟨proxy, incoming, outgoing, reads, writes, allocs, printed⟩ := s
    cases allocs with
    | nil => exact hframe.refl _
    | cons a as => exact hmalloc _ as
  print d hd s := hprint s d hd

end HdClient
