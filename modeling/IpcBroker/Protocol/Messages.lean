import Mathlib.Logic.Function.Basic
import Mathlib.Tactic.SplitIfs

/-! The wire protocol of `rpc.rs` and the service records of `activate.rs`. -/

namespace IpcBroker

/-- The largest packet, in bytes: `BUF_SIZE`. -/
def bufSize : Nat := 65535 + 1

structure ClientId where
  id : String
deriving DecidableEq

structure CallId where
  id : String
deriving DecidableEq

/-- `serde_json::Number`: a `u64`, a negative `i64`, or the bits of an `f64`. -/
inductive Number
  | posInt (n : UInt64)
  | negInt (n : Int64)
  | float (bits : UInt64)
deriving DecidableEq

inductive Value
  | null
  | bool (b : Bool)
  | number (n : Number)
  | string (s : String)
  | array (items : List Value)
  | object (entries : List (String × Value))

structure Call where
  callId : CallId
  objectName : String
  method : String
  args : Value

inductive RpcRequest
  | registerObject (objectName : String)
  | registerService (objectName serviceName : String)
  | call (k : Call)
  | subscribe (objectName topic : String)
  | publish (objectName topic : String) (args : Value)
  | hasObject (objectName : String)

inductive RpcResponse
  | registered (objectName : String)
  | result (callId : CallId) (objectName : String) (value : Value)
  | error (callId : Option CallId) (objectName message : String)
  | event (objectName topic : String) (args : Value)
  | subscribed (objectName topic : String)
  | hasObjectResult (objectName : String) (exists_ : Bool)

/-- The JSON text of one message; the encoder of the two enums keeps them apart. -/
inductive Packet
  | request (r : RpcRequest)
  | response (r : RpcResponse)

/-- The call a response answers: the two arms `handle_response` routes. -/
def RpcResponse.callId? : RpcResponse → Option CallId
  | .result c _ _ => some c
  | .error (some c) _ _ => some c
  | _ => none

def RpcRequest.call? : RpcRequest → Option Call
  | .call k => some k
  | _ => none

def Packet.call? : Packet → Option Call
  | .request r => r.call?
  | .response _ => none

def Packet.terminal? : Packet → Option CallId
  | .request _ => none
  | .response r => r.callId?

inductive ServiceState
  | stopped
  | starting
  | running (owner : ClientId)
deriving DecidableEq

structure ServiceEntry where
  state : ServiceState
  serviceName : String
  pendingCalls : List RpcRequest
  owner : Option ClientId

/-- One record of a service activation file. -/
structure ServiceActivationFile where
  kind : String
  objectName : String
  serviceName : String

/-- The entry both `load_service_activations` and `handle_register_service` create. -/
def ServiceEntry.stopped (serviceName : String) : ServiceEntry :=
  { state := .stopped, serviceName, pendingCalls := [], owner := none }

/-- `load_service_activations` on the records of the files, in the order read: a record of
another type is skipped and a later record replaces an earlier one. -/
def loadServiceActivations (items : List ServiceActivationFile) : String → Option ServiceEntry :=
  items.foldl (fun services item =>
    if item.kind = "RegisterService" then
      Function.update services item.objectName (some (.stopped item.serviceName))
    else services) fun _ => none

theorem loadServiceActivations_stopped (items : List ServiceActivationFile) {o : String}
    {e : ServiceEntry} (h : loadServiceActivations items o = some e) :
    ∃ name, e = .stopped name := by
  unfold loadServiceActivations at h
  generalize hm : (fun _ : String => (none : Option ServiceEntry)) = m at h
  have hinit : ∀ o e, m o = some e → ∃ name, e = ServiceEntry.stopped name := by
    intro o e he
    simp [← hm] at he
  clear hm
  induction items generalizing m with
  | nil => exact hinit o e h
  | cons item items ih =>
    rw [List.foldl_cons] at h
    refine ih _ h ?_
    intro o' e' he
    split_ifs at he with hk
    · by_cases ho : o' = item.objectName
      · subst ho
        rw [Function.update_self, Option.some.injEq] at he
        exact ⟨_, he.symm⟩
      · rw [Function.update_of_ne ho] at he
        exact hinit o' e' he
    · exact hinit o' e' he

end IpcBroker
