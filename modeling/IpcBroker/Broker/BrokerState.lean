import Mathlib.Tactic.Simps.Basic
import IpcBroker.Protocol.Messages

/-! The shared maps of the broker, the tasks of each connection and the channels between them. -/

namespace IpcBroker
open Function

/-- A clone of the sending half of the channel of one client actor. -/
structure ClientSender where
  channel : ClientId
deriving DecidableEq

/-- `mpsc::channel::<ClientMsg>(64)` of `spawn_client`. -/
def channelCapacity : Nat := 64

/-- The lock section a running handler executes next, with the locals it carries. -/
inductive HandlerPc
  | registerObjects (objectName : String)
  | registerServices (objectName : String)
  | registerService (objectName serviceName : String)
  | callLookup (k : Call)
  | callInsert (k : Call) (workerId : Option ClientId) (workerTx : Option ClientSender)
      (callerTx : ClientSender)
  | callForward (k : Call) (workerTx : ClientSender)
  | callServices (k : Call)
  | callStart (objectName serviceName : String)
  | responseTake (resp : RpcResponse) (callId : CallId)
  | responseForward (resp : RpcResponse) (callerTx : ClientSender)
  | subscribe (objectName topic : String)
  | publishSnapshot (objectName topic : String) (args : Value)
  | publishSenders (event : RpcResponse) (subsList : List ClientId)
  | publishSend (event : RpcResponse) (senders : List ClientSender)
  | hasObject (objectName : String)
  | sendLookup (msg : Packet) (rest : List Packet)
  | sendAwait (tx : ClientSender) (msg : Packet) (rest : List Packet)

/-- The section of `cleanup_client` that runs next; the last one carries the snapshot of the
keys of `calls`. -/
inductive CleanupPc
  | objects
  | subscriptions
  | calls
  | activeCalls
  | services (activeCalls : CallId → Bool)

/-- How far the tasks of one connection are: the reader loop, then `cleanup_client`, then the
end of `ClientActor::run`, which drops the receiver. -/
inductive Phase
  | absent
  | reading
  | handling (pc : HandlerPc)
  | stopping
  | cleaning (pc : CleanupPc)
  | cleaned
  | ended

/-- A running `spawn_service` task; `objectName` only says for which call it was started. -/
structure StartTask where
  task : Nat
  objectName : String
  unit : String
deriving DecidableEq

/-- `subscriptions` reads an absent entry as the empty set, as the code does; `servicesLock` is
the client whose handler keeps the `services` guard across an await. -/
structure Broker where
  clients : ClientId → Option ClientSender
  objects : String → Option ClientId
  subscriptions : String → String → List ClientId
  calls : CallId → Option (ClientId × ClientSender)
  services : String → Option ServiceEntry
  servicesLock : Option ClientId
  phase : ClientId → Phase
  writing : ClientId → Bool
  channel : ClientId → List Packet
  starts : List StartTask
  nextTask : Nat

def Broker.initial (items : List ServiceActivationFile) : Broker where
  clients := fun _ => none
  objects := fun _ => none
  subscriptions := fun _ _ => []
  calls := fun _ => none
  services := loadServiceActivations items
  servicesLock := none
  phase := fun _ => .absent
  writing := fun _ => false
  channel := fun _ => []
  starts := []
  nextTask := 0

inductive SendSite
  | sendToClient
  | handleCall
  | handleResponse
  | handlePublish
deriving DecidableEq

/-- What a step shows: the history of a run is a list of these. -/
inductive Event
  | connected (x : ClientId)
  | received (x : ClientId) (p : Packet)
  | lookedUp (x : ClientId) (objectName : String) (workerId : Option ClientId)
  | recorded (x : ClientId) (callId : CallId)
  | queued (x : ClientId) (k : Call) (left : ServiceState)
  | ignored (x : ClientId) (k : Call)
  | refused (x : ClientId) (k : Call)
  | settled (x : ClientId) (callId : CallId) (caller : ClientId)
  | registered (x : ClientId) (objectName : String)
  | running (x : ClientId) (objectName : String) (flushed : List RpcRequest)
  | serviceRegistered (x : ClientId) (objectName : String)
  | enqueued (site : SendSite) (by_ dst : ClientId) (msg : Packet)
  | sendFailed (site : SendSite) (by_ dst : ClientId) (msg : Packet)
  | delivered (x : ClientId) (msg : Packet)
  | disconnected (x : ClientId)
  | cleanedUp (x : ClientId)
  | spawned (x : ClientId) (objectName : String) (task : Nat)
  | spawnEnded (task : Nat) (success : Bool)

namespace Broker
variable (s : Broker) (x : ClientId)

@[simps] def goto (p : Phase) : Broker :=
  { s with
    phase := update s.phase x p
    servicesLock := match p with
      | .reading => if s.servicesLock = some x then none else s.servicesLock
      | _ => s.servicesLock }

abbrev enter (pc : HandlerPc) : Broker := s.goto x (.handling pc)

abbrev leave : Broker := s.goto x .reading

/-- Where a reader task is that has `msgs` left to pass to `send_to_client`, one at a time. -/
def afterSends : List Packet → Phase
  | [] => .reading
  | msg :: rest => .handling (.sendLookup msg rest)

/-- `send_to_client` to `x` itself for each message in turn, and then return. -/
abbrev sendAll (msgs : List Packet) : Broker := s.goto x (afterSends msgs)

@[simps] def push (tx : ClientSender) (msg : Packet) : Broker :=
  { s with channel := update s.channel tx.channel (s.channel tx.channel ++ [msg]) }

/-- `tx.send(msg).await`, after which the handler goes on at `p`: an error at once when the
receiver is gone (`ClientActor::run` drops it at its end), no step while the channel is full. -/
def send (site : SendSite) (tx : ClientSender) (msg : Packet) (p : Phase) :
    Option (Broker × List Event) :=
  match s.phase tx.channel with
  | .ended => some (s.goto x p, [.sendFailed site x tx.channel msg])
  | _ =>
    if (s.channel tx.channel).length < channelCapacity then
      some ((s.push tx msg).goto x p, [.enqueued site x tx.channel msg])
    else none

end Broker
end IpcBroker
