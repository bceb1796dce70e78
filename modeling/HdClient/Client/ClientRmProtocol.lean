-- SUMMARY: Asking the resource manager for a new application, and creating the proxy that does it.
import HdClient.Client.HadoopRpcUtils

/-! # The client protocol of the resource manager -/

namespace HdClient

open Pbc Conn

def clientRmProtocolName : CString := .lit "org.apache.hadoop.yarn.api.ClientRMProtocolPB"
def amRmProtocolName : CString := .lit "org.apache.hadoop.yarn.api.AMRMProtocolPB"
def containerManagerProtocolName : CString := .lit "org.apache.hadoop.yarn.api.ContainerManagerPB"
def getNewApplicationMethodName : CString := .lit "getNewApplication"

/-- `generate_new_app_request`. The message is empty, and what is passed on with
a length of zero is the pointer to its fresh buffer. -/
def generateNewAppRequest (env : Env) (mem : Locals) : Prog Conn (Option (List UInt8)) := do
  match ← .ofOption (wmessageNew env (lit "GetNewApplicationRequestProto")) with
  -- the null pointer is not checked for
  | none => .undefined
  | some new_app_request => do
      let slice ← .ofOption (wmessageBuffer new_app_request)
      match ← generateHadoopRequest env (slice ++ mem.request_mem) (sliceLen slice)
          clientRmProtocolName getNewApplicationMethodName with
      | none => do
          print .createRequestFailed
          pure none
      | some buffer => pure (some buffer)

/-- The end of `get_new_app`: take the id out of the payload of a successful response. -/
def storeAppId (env : Env) (slice : List UInt8) : Prog Conn ℤ := do
  match ← .ofOption (rmessageNew env (lit "GetNewApplicationResponseProto") slice) with
  | .error _ => do
      print .deserializeResponseFailed
      pure (-1)
  | .ok rmsg => match rmessageMessage env rmsg (lit "application_id") 0 with
      | .undefined => .undefined
      | .null => do
          print .deserializeIdFailed
          pure (-1)
      | .ok id => do
          let app_id ← .ofOption (rmessageInteger env id (lit "id") 0)
          .modify fun s => { s with proxy := { s.proxy with app_id := app_id } }
          pure 0

/-- The part of `get_new_app` after the request has been sent. -/
def receiveAppId (env : Env) (mem : Locals) : Prog Conn ℤ := do
  let response ← recvRpcResponse env mem
  match response.response_type, response.payload with
  | .succeed, some (slice, _) => storeAppId env slice
  | type, _ => do
      processBadRpcResponse type
      pure (-1)

/-- `get_new_app` -/
def getNewApp (env : Env) (mem : Locals) : Prog Conn ℤ := do
  let s ← .get
  if s.proxy.app_id ≠ -1 then do
    print (.alreadyApp s.proxy.app_id)
    pure (-1)
  else do
    match ← generateNewAppRequest env mem with
    | none => do
        print .generateNewAppFailed
        pure (-1)
    | some request => do
        let rc ← sendRpcRequest env mem (some request) (sliceLen request)
        orFail rc .sendNewAppFailed (receiveAppId env mem)

/-- `submit_application` -/
def submitApplication (env : Env) (mem : Locals) : Prog Conn ℤ := do
  let rc ← getNewApp env mem
  orFail rc .getNewAppFailed (pure 0)

end HdClient
