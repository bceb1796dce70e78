-- SUMMARY: The proxy and its connection: what a call reads and changes, the system calls it makes, and the lines it prints.
import HdClient.Base.Outcome
import HdClient.Base.Transfer
import HdClient.Pbc.Rmessage

/-! # Connections -/

namespace HdClient

open Pbc

/-- A string of the program: no zero comes before the terminating one. -/
structure CString where
  bytes : CStr
  no_zero : 0 ∉ bytes

namespace CString

/-- The memory that a pointer to the string points to. -/
def mem (p : CString) : List UInt8 := p.bytes ++ [0]

theorem cstr_mem (p : CString) : cstr p.mem = p.bytes := by
  have h : ∀ b ∈ p.bytes, (decide (b ≠ 0)) = true := by
    intro b hb
    simp only [ne_eq, decide_not, Bool.not_eq_eq_eq_not, Bool.not_true, decide_eq_false_iff_not]
    rintro rfl
    exact p.no_zero hb
  rw [cstr, mem, List.takeWhile_append_of_pos h]
  simp

end CString

/-- A string literal of the program. -/
def CString.lit (s : String) (h : 0 ∉ Pbc.lit s := by decide) : CString := ⟨Pbc.lit s, h⟩

/-- `hadoop_server_type_t` -/
inductive ServerType where
  | nm | rm | nn | dn
  deriving DecidableEq, Repr

/-- `hadoop_client_type_t` -/
inductive ClientType where
  | client | am
  deriving DecidableEq, Repr

/-- `hadoop_rpc_proxy_t`, whose socket is the connection it is part of. -/
structure Proxy where
  caller_id : BitVec 32
  client_type : ClientType
  server_type : ServerType
  protocol_name : CString
  app_id : BitVec 32

/-- A line that is printed. -/
inductive Diag where
  | sizeNegative
  | readBufferNull
  | writeBufferNull
  | errorReading
  | errorWriting
  | writeHrpcFailed
  | writeVersionFailed
  | writeAuthFailed
  | writeSerializationFailed
  | noContextProto
  | writeContextLengthFailed
  | writeContextFailed
  | writeTotalFailed
  | writeHeaderVintFailed
  | writeHeaderFailed
  | writeRequestVintFailed
  | writeRequestFailed
  | noPayloadHeaderProto
  | noRequestProto
  | readHeaderLengthFailed
  | outOfMemory
  | readHeaderFailed
  | headerError (e : RmessageError)
  | callerIdNotMatch (got expected : BitVec 32)
  | badPayloadLength
  | outOfMemoryResponse
  | readPayloadFailed
  | fatal (version : BitVec 32)
  | generateHeaderFailed
  | writePayloadFailed
  | readExceptionLengthFailed
  | outOfMemoryClass
  | outOfMemoryStack
  | readExceptionFailed
  | readErrorFailed
  | responseError (class_ stack : CStr)
  | otherError
  | alreadyApp (id : BitVec 32)
  | generateNewAppFailed
  | sendNewAppFailed
  | createRequestFailed
  | deserializeResponseFailed
  | deserializeIdFailed
  | getNewAppFailed
  deriving DecidableEq

/-- The format a line is printed with. -/
def Diag.text : Diag → String
  | .sizeNegative => "size is <= 0, please check.\n"
  | .readBufferNull => "buffer is null, please check.\n"
  | .writeBufferNull => "buffer is null, will return.\n"
  | .errorReading => "error in reading data.\n"
  | .errorWriting => "error in writting data.\n"
  | .writeHrpcFailed => "write hrpc failed.\n"
  | .writeVersionFailed => "write version failed.\n"
  | .writeAuthFailed => "write auth method failed.\n"
  | .writeSerializationFailed => "write serialization type failed.\n"
  | .noContextProto =>
      "current env not contains hadoop.common.IpcConnectionContextProto, plz check.\n"
  | .writeContextLengthFailed => "write length of ipc connection context failed.\n"
  | .writeContextFailed => "write IpcConectionContextProto failed.\n"
  | .writeTotalFailed => "write total length failed.\n"
  | .writeHeaderVintFailed => "write header vint failed.\n"
  | .writeHeaderFailed => "write header buffer failed.\n"
  | .writeRequestVintFailed => "write request vint failed.\n"
  | .writeRequestFailed => "write request buffer failed.\n"
  | .noPayloadHeaderProto =>
      "current env not contains hadoop.common.RpcPayloadHeaderProto, plz check."
  | .noRequestProto =>
      "current env not contains hadoop.common.HadoopRpcRequestProto, plz check.\n"
  | .readHeaderLengthFailed => "read response header length failed.\n"
  | .outOfMemory => "Out of memory when alloc.\n"
  | .readHeaderFailed => "read head buffer from socket failed.\n"
  | .headerError _ => "Error : %s, \n"
  | .callerIdNotMatch _ _ => "caller-id not match, %d:%d.\n"
  | .badPayloadLength => "something wrong in reading size of response payload length.\n"
  | .outOfMemoryResponse => "out of memory when read response.\n"
  | .readPayloadFailed => "error in read response payload content.\n"
  | .fatal _ => "FATAL error of response, version not match, server version is:%d\n"
  | .generateHeaderFailed => "generate request header failed.\n"
  | .writePayloadFailed => "write request payload to socket failed.\n"
  | .readExceptionLengthFailed => "read length of exception failed.\n"
  | .outOfMemoryClass => "OOM when allocate exception class.\n"
  | .outOfMemoryStack => "OOM when allocate exception stack.\n"
  | .readExceptionFailed => "read exception class string failed.\n"
  | .readErrorFailed => "read error of response failed.\n"
  | .responseError _ _ => "error of response, class:%s\nstack_trace:%s\n."
  | .otherError => "some other error caused failed.\n"
  | .alreadyApp _ => "there's already a app, id=%d, will exit\n"
  | .generateNewAppFailed => "generate new app request failed.\n"
  | .sendNewAppFailed => "send new_application_request failed.\n"
  | .createRequestFailed => "create HadoopRpcRequestProto failed.\n"
  | .deserializeResponseFailed => "deserialize GetNewApplicationResponseProto from buffer failed.\n"
  | .deserializeIdFailed =>
      "deserialize application_id from GetNewApplicationResponseProto failed.\n"
  | .getNewAppFailed => "get new application invoke failed.\n"

/-- What the calls on a proxy read and change. -/
structure Conn where
  proxy : Proxy
  /-- What the peer sends and has not been read. -/
  incoming : List UInt8
  /-- What the socket has accepted. -/
  outgoing : List UInt8
  /-- The answers of `read` and of `write`. -/
  reads : List Ans
  writes : List Ans
  /-- The answers of `malloc`, where they are looked at; further ones succeed. -/
  allocs : List Bool
  printed : List Diag

/-- What happens to be in the variables that are read before they are written. -/
structure Locals where
  /-- `tmp` in `read_raw_varint32`. -/
  tmp : UInt8
  /-- `slice.len` in `recv_rpc_response`. -/
  slice_len : BitVec 32
  /-- `response_size` in `recv_rpc_response`. -/
  response_size : BitVec 32
  /-- `header_len` in `send_rpc_request`. -/
  header_len : BitVec 32
  /-- The memory behind the empty request that `generate_new_app_request` passes on. -/
  request_mem : List UInt8
  /-- It is part of the first page of a heap, whose size `_pbcH_new` sets. -/
  request_mem_le : request_mem.length ≤ 1024

/-- Memory that happens to be zero. -/
def zeroLocals : Locals where
  tmp := 0
  slice_len := 0
  response_size := 0
  header_len := 0
  request_mem := [0]
  request_mem_le := by decide

/-! ## System calls -/

namespace Conn

def print (d : Diag) : Prog Conn Unit := .modify fun s => { s with printed := s.printed ++ [d] }

/-- `read` of at most `n` bytes; at the end of the stream it returns none. -/
def read (n : ℕ) : Prog Conn (Option (List UInt8)) where
  run s := match s.reads with
    | [] => .wait s
    | .fail :: as => .ret none { s with reads := as }
    | .upTo k :: as =>
        let m := min k (min n s.incoming.length)
        .ret (some (s.incoming.take m)) { s with reads := as, incoming := s.incoming.drop m }

/-- `write` of `bytes`: the number of them that were accepted. -/
def write (bytes : List UInt8) : Prog Conn (Option ℕ) where
  run s := match s.writes with
    | [] => .wait s
    | .fail :: as => .ret none { s with writes := as }
    | .upTo k :: as =>
        let m := min k bytes.length
        .ret (some m) { s with writes := as, outgoing := s.outgoing ++ bytes.take m }

/-- Whether `malloc` returns memory. -/
def malloc : Prog Conn Bool where
  run s := match s.allocs with
    | [] => .ret true s
    | a :: as => .ret a { s with allocs := as }

@[simp] theorem run_print (d : Diag) (s : Conn) :
    (print d).run s = .ret () { s with printed := s.printed ++ [d] } := rfl

end Conn

end HdClient
