-- SUMMARY: The calls of hadoop_rpc_utils.c: the connection header, requests, responses and exceptions.
import HdClient.Client.NetUtils
import HdClient.Pbc.Wmessage

/-! # Hadoop RPC utils -/

namespace HdClient

open Pbc Conn

/-- What the caller of a function that can fail does: print a line and fail too, or go on. -/
def orFail (rc : ℤ) (d : Diag) (next : Prog Conn ℤ) : Prog Conn ℤ :=
  if rc ≠ 0 then do
    print d
    pure (-1)
  else next

/-- The length of a slice, an `int`. -/
def sliceLen (slice : List UInt8) : BitVec 32 := BitVec.ofNat 32 slice.length

/-! ## Writing -/

/-- `write_connection_header`, on a proxy that is not null. -/
def writeConnectionHeader (env : Env) : Prog Conn ℤ := do
  let rc ← writeAll (some (lit "hrpc")) 4
  orFail rc .writeHrpcFailed <| do
  let rc ← writeAll (some [7]) 1
  orFail rc .writeVersionFailed <| do
  let rc ← writeAll (some [80]) 1
  orFail rc .writeAuthFailed <| do
  let rc ← writeAll (some [0]) 1
  orFail rc .writeSerializationFailed <| do
  match ← .ofOption (wmessageNew env (lit "hadoop.common.IpcConnectionContextProto")) with
  | none => do
      print .noContextProto
      pure (-1)
  | some ipc_proto => do
      let s ← .get
      let (_, ipc_proto) ← .ofOption
        (wmessageString env ipc_proto (lit "protocol") s.proxy.protocol_name.mem 0)
      let slice ← .ofOption (wmessageBuffer ipc_proto)
      let rc ← writeAll (some (Word.le (intEndianSwap (sliceLen slice)))) 4
      orFail rc .writeContextLengthFailed <| do
      let rc ← writeAll (some slice) (sliceLen slice).toInt
      orFail rc .writeContextFailed (pure 0)

/-- `MAX_VINT_SIZE` -/
def maxVintSize : ℕ := 8

/-- `write_request`; `header` and `request` are null or the memory pointed to. -/
def writeRequest (header : Option (List UInt8)) (header_len : BitVec 32)
    (request : Option (List UInt8)) (request_len : BitVec 32) : Prog Conn ℤ := do
  let header_vint ← .ofOption (writeRawVarint32 maxVintSize header_len)
  let request_vint ← .ofOption (writeRawVarint32 maxVintSize request_len)
  let total_len := intEndianSwap
    (sliceLen header_vint + header_len + sliceLen request_vint + request_len)
  let rc ← writeAll (some (Word.le total_len)) 4
  orFail rc .writeTotalFailed <| do
  let rc ← writeAll (some header_vint) (sliceLen header_vint).toInt
  orFail rc .writeHeaderVintFailed <| do
  let rc ← writeAll header header_len.toInt
  orFail rc .writeHeaderFailed <| do
  let rc ← writeAll (some request_vint) (sliceLen request_vint).toInt
  orFail rc .writeRequestVintFailed <| do
  let rc ← writeAll request request_len.toInt
  orFail rc .writeRequestFailed (pure 0)

/-- `generate_request_header`: the buffer, or nothing when the message type is missing. -/
def generateRequestHeader (env : Env) (caller_id : BitVec 32) :
    Prog Conn (Option (List UInt8)) := do
  match ← .ofOption (wmessageNew env (lit "hadoop.common.RpcPayloadHeaderProto")) with
  | none => do
      print .noPayloadHeaderProto
      pure none
  | some header => do
      let (_, header) ← .ofOption (wmessageInteger header (lit "rpcKind") 2 0)
      let (_, header) ← .ofOption (wmessageInteger header (lit "rpcOp") 0 0)
      let (_, header) ← .ofOption (wmessageInteger header (lit "callId") caller_id 0)
      pure (some (← .ofOption (wmessageBuffer header)))

/-- `generate_hadoop_request`; `request` is the memory from the pointer on. -/
def generateHadoopRequest (env : Env) (request : List UInt8) (request_len : BitVec 32)
    (protocol method : CString) : Prog Conn (Option (List UInt8)) := do
  match ← .ofOption (wmessageNew env (lit "hadoop.common.HadoopRpcRequestProto")) with
  | none => do
      print .noRequestProto
      pure none
  | some rmsg => do
      let (_, rmsg) ← .ofOption (wmessageString env rmsg (lit "methodName") method.mem 0)
      let (_, rmsg) ← .ofOption (wmessageString env rmsg (lit "request") request request_len.toInt)
      let (_, rmsg) ← .ofOption
        (wmessageString env rmsg (lit "declaringClassProtocolName") protocol.mem 0)
      let (_, rmsg) ← .ofOption (wmessageInteger rmsg (lit "clientProtocolVersion") 1 0)
      pure (some (← .ofOption (wmessageBuffer rmsg)))

/-- `send_rpc_request`; a header that could not be generated is null and of any length. -/
def sendRpcRequest (env : Env) (mem : Locals) (request_payload : Option (List UInt8))
    (request_payload_len : BitVec 32) : Prog Conn ℤ := do
  let s ← .get
  let (header, header_len) ← match ← generateRequestHeader env s.proxy.caller_id with
    | some header => pure (some header, sliceLen header)
    | none => do
        print .generateHeaderFailed
        pure (none, mem.header_len)
  let rc ← writeRequest header header_len request_payload request_payload_len
  orFail rc .writePayloadFailed <| do
  .modify fun s => { s with proxy := { s.proxy with caller_id := s.proxy.caller_id + 1 } }
  pure 0

/-! ## Reading -/

/-- `response_type_t` -/
inductive ResponseType where
  | succeed | error | fatal | otherError
  deriving DecidableEq, Repr

/-- What `recv_rpc_response` returns, and what it stores to `*response` and `*size`. -/
structure RpcResponse where
  response_type : ResponseType
  payload : Option (List UInt8 × BitVec 32)
  deriving DecidableEq

def RpcResponse.other : RpcResponse := ⟨.otherError, none⟩

/-- The end of `recv_rpc_response` for a status of success. The four bytes of
`response_size` are read without a look at how many of them arrive. -/
def recvPayload (mem : Locals) : Prog Conn RpcResponse := do
  let bytes ← Conn.read 4
  let response_size := intEndianSwap (Word.overwrite mem.response_size (bytes.getD []))
  if response_size.toInt ≤ 0 then do
    print .badPayloadLength
    pure .other
  else if !(← malloc) then do
    print .outOfMemoryResponse
    pure .other
  else do
    let (rc, response) ← readAll true response_size.toInt
    if rc ≠ 0 then do
      print .readPayloadFailed
      pure .other
    else pure ⟨.succeed, some (response, response_size)⟩

/-- The part of `recv_rpc_response` after the header has been read. -/
def dispatchResponse (env : Env) (mem : Locals) (header : List UInt8) : Prog Conn RpcResponse := do
  match ← .ofOption (rmessageNew env (lit "hadoop.common.RpcResponseHeaderProto") header) with
  | .error e => do
      print (.headerError e)
      pure .other
  | .ok m => do
      let response_status ← .ofOption (rmessageInteger env m (lit "status") 0)
      let response_caller_id ← .ofOption (rmessageInteger env m (lit "callId") 0)
      let response_server_ipc_version ←
        .ofOption (rmessageInteger env m (lit "serverIpcVersionNum") 0)
      let s ← .get
      if response_caller_id ≠ s.proxy.caller_id - 1 then do
        print (.callerIdNotMatch response_caller_id (s.proxy.caller_id - 1))
        pure .other
      else if response_status = 0 then recvPayload mem
      else if response_status = 1 then pure ⟨.error, none⟩
      else do
        print (.fatal response_server_ipc_version)
        pure ⟨.fatal, none⟩

/-- `recv_rpc_response` -/
def recvRpcResponse (env : Env) (mem : Locals) : Prog Conn RpcResponse := do
  let len ← readRawVarint32 mem.tmp mem.slice_len
  if len.rc ≠ 0 ∨ len.value.toInt ≤ 0 then do
    print .readHeaderLengthFailed
    pure .other
  else if !(← malloc) then do
    print .outOfMemory
    pure .other
  else do
    let (rc, header) ← readAll true len.value.toInt
    if rc ≠ 0 then do
      print .readHeaderFailed
      pure .other
    else dispatchResponse env mem header

/-- One of the two strings that `read_exception` reads, with its terminating
zero; `oom` is what it prints for that string when memory runs out. -/
def readExceptionString (oom : Diag) : Prog Conn (Option (List UInt8)) := do
  let (rc, bytes) ← readAll true 4
  if rc ≠ 0 then do
    print .readExceptionLengthFailed
    pure none
  else if !(← malloc) then do
    print oom
    pure none
  else do
    let (rc, string) ← readAll true (intEndianSwap (Word.ofLe bytes)).toInt
    if rc ≠ 0 then do
      print .readExceptionFailed
      pure none
    else pure (some (string ++ [0]))

/-- `read_exception`: the class and the stack trace, or nothing for a return code of minus one. -/
def readException : Prog Conn (Option (List UInt8 × List UInt8)) := do
  match ← readExceptionString .outOfMemoryClass with
  | none => pure none
  | some exception_class => do
      match ← readExceptionString .outOfMemoryStack with
      | none => pure none
      | some exception_stack => pure (some (exception_class, exception_stack))

/-- `process_bad_rpc_response` -/
def processBadRpcResponse (type : ResponseType) : Prog Conn Unit :=
  if type = .error then do
    match ← readException with
    | none => print .readErrorFailed
    | some (exception_class, exception_stack) =>
        print (.responseError (cstr exception_class) (cstr exception_stack))
  else print .otherError

end HdClient
