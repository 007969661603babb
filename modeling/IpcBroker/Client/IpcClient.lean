import IpcBroker.Protocol.Framing

/-! `IPCClient`: what its methods send to the client actor and make of the reply, and the state of
the actor with its end of the connection. -/

namespace IpcBroker
open Function

/-- `serde_json::to_vec` on a request, and `serde_json::from_slice` on a response. -/
structure SerdeJson where
  toVec : RpcRequest → List UInt8
  fromSlice : List UInt8 → Except String RpcResponse

namespace IpcClient

def mailboxCapacity : Nat := 64

def updatesCapacity : Nat := 16

/-- A message to the actor, with a name for the channel whose sender it carries. -/
inductive ClientMsg
  | request (req : RpcRequest) (respTx : Nat)
  | subscribe (objectName topic : String) (updates : Nat)

/-- The request that the arm of a message writes. -/
def ClientMsg.toWrite : ClientMsg → RpcRequest
  | .request req _ => req
  | .subscribe o topic _ => .subscribe o topic

/-- The calls of the methods of a handle; a remote call has made its request by now. -/
inductive Operation
  | remoteCall (k : Call)
  | hasObject (objectName : String)
  | publish (objectName topic : String) (args : Value)
  | subscribe (objectName topic : String)

def Operation.msg (channel : Nat) : Operation → ClientMsg
  | .remoteCall k => .request (.call k) channel
  | .hasObject o => .request (.hasObject o) channel
  | .publish o topic args => .request (.publish o topic args) channel
  | .subscribe o topic => .subscribe o topic channel

inductive Reply
  | received (result : Except IoError RpcResponse)
  | actorDropped
  | actorEnded

/-- What a method returns once it has a reply; `onResponse` reads the response. -/
def Reply.finish {T : Type} (onResponse : RpcResponse → Except IoError T) : Reply → Except IoError T
  | .received (.ok resp) => onResponse resp
  | .received (.error e) => .error e
  | .actorDropped => .error (.custom .brokenPipe "Actor dropped")
  | .actorEnded => .error (.custom .connectionAborted "Actor task ended: channel closed")

def unexpectedResponse : IoError := .custom .invalidData "Unexpected response type"

def remoteCall.onResponse {T : Type} (fromValue : Value → Except String T) :
    RpcResponse → Except IoError T
  | .result _ _ value =>
    match fromValue value with
    | .ok v => .ok v
    | .error e => .error (.custom .invalidData ("Deserialize error: " ++ e))
  | .error _ _ message => .error (.custom .other ("Remote error: " ++ message))
  | _ => .error unexpectedResponse

/-- The end of `remote_call`, with `serde_json::from_value` at its type of results. -/
def remoteCall {T : Type} (fromValue : Value → Except String T) : Reply → Except IoError T :=
  Reply.finish (remoteCall.onResponse fromValue)

def hasObject.onResponse : RpcResponse → Except IoError Bool
  | .hasObjectResult _ exists_ => .ok exists_
  | _ => .error unexpectedResponse

/-- The end of `has_object`. -/
def hasObject : Reply → Except IoError Bool := Reply.finish hasObject.onResponse

structure Receiver where
  buffer : List Value
  dropped : Bool

def Receiver.recv (r : Receiver) : Receiver := { r with buffer := r.buffer.tail }

/-- Where the actor is: in `select!`, whose read branch is disabled once its read has failed; at the
read after a request; or out of its loop. -/
inductive Phase
  | selecting (reading : Option ReadPacket)
  | awaiting (req : RpcRequest) (respTx : Nat) (reading : ReadPacket)
  | ended

def Phase.held : Phase → List UInt8
  | .selecting (some reading) | .awaiting _ _ reading => reading.held
  | _ => []

end IpcClient

/-- `arrived` can be read from the stream, `coming` is still on the way; `hungUp` is what reads
report after the last byte, once the connection has ended. -/
structure IpcClient where
  phase : IpcClient.Phase
  mailbox : List IpcClient.ClientMsg
  handles : Bool
  subs : String → String → List Nat
  receivers : Nat → IpcClient.Receiver
  arrived : List UInt8
  coming : List UInt8
  hungUp : Option String
  nextChannel : Nat

namespace IpcClient

def initial : IpcClient where
  phase := .selecting (some .start)
  mailbox := []
  handles := true
  subs := fun _ _ => []
  receivers := fun _ => ⟨[], false⟩
  arrived := []
  coming := []
  hungUp := none
  nextChannel := 0

/-- What a step shows; the history of a run is a list of these. -/
inductive Event
  | issued (msg : ClientMsg)
  | sent (req : RpcRequest)
  | registered (objectName topic : String) (updates : Nat)
  | incoming (payload : List UInt8)
  | returned (data : List UInt8)
  | replied (req : RpcRequest) (respTx : Nat) (reply : Reply)
  | delivered (updates : Nat) (args : Value)
  | pruned (updates : Nat)

/-- A message that the actor does not get, or leaves unread: its sender is dropped with it. -/
def ClientMsg.abandon (reply : Reply) : ClientMsg → Option Event
  | .request req respTx => some (.replied req respTx reply)
  | .subscribe _ _ _ => none

variable (json : SerdeJson) (s : IpcClient)

def select : IpcClient := { s with phase := .selecting (some .start) }

def exit : IpcClient × List Event :=
  ({ s with phase := .ended, mailbox := [], subs := fun _ _ => [] },
    (s.mailbox.filterMap (ClientMsg.abandon .actorEnded)).reverse)

/-- The requests after which the actor waits for one packet. -/
def expectsResponse : RpcRequest → Bool
  | .call _ | .registerObject _ | .hasObject _ | .registerService _ _ => true
  | .publish _ _ _ | .subscribe _ _ => false

/-- The arm of `ClientMsg::Request`, up to the wait for the response. -/
def request (req : RpcRequest) (respTx : Nat) (fault : Option String) : IpcClient × List Event :=
  match writePacket (json.toVec req) fault with
  | .error e => (s.select, [.replied req respTx (.received (.error e))])
  | .ok _ =>
    if expectsResponse req then ({ s with phase := .awaiting req respTx .start }, [.sent req])
    else (s.select, [.replied req respTx (.received (.ok (.event "" "" .null))), .sent req])

/-- The arm of `ClientMsg::Subscribe`; that the write fails is ignored. -/
def subscribe (o topic : String) (updates : Nat) (fault : Option String) : IpcClient × List Event :=
  ({ s with subs := update s.subs o (update (s.subs o) topic (s.subs o topic ++ [updates])) }.select,
    (match writePacket (json.toVec (.subscribe o topic)) fault with
      | .ok _ => [.sent (.subscribe o topic)]
      | .error _ => []) ++ [.registered o topic updates])

def takeMsg (fault : Option String) : ClientMsg → IpcClient × List Event
  | .request req respTx => s.request json req respTx fault
  | .subscribe o topic updates => s.subscribe json o topic updates fault

/-- `tx.try_send(args)` succeeds. -/
def trySend (updates : Nat) : Bool :=
  !(s.receivers updates).dropped && (s.receivers updates).buffer.length < updatesCapacity

/-- An event goes to the subscribers of its topic; those that cannot take it are dropped. -/
def publishTo (o topic : String) (args : Value) : IpcClient × List Event :=
  let subscribers := s.subs o topic
  ({ s with
      subs := update s.subs o (update (s.subs o) topic (subscribers.filter s.trySend))
      receivers := fun c =>
        if c ∈ subscribers ∧ s.trySend c then
          { s.receivers c with buffer := (s.receivers c).buffer ++ [args] }
        else s.receivers c },
    (subscribers.map fun c => if s.trySend c then .delivered c args else .pruned c).reverse)

/-- The arm of a packet read in `select!`. -/
def readArm (data : List UInt8) : IpcClient × List Event :=
  if data = [] then s.exit
  else
    match json.fromSlice data with
    | .ok (.event o topic args) => ((s.publishTo o topic args).1.select, (s.publishTo o topic args).2)
    | _ => (s.select, [])

/-- The reply to a request from the packet read for it. -/
def replyOf (data : List UInt8) : Reply :=
  .received (match json.fromSlice data with
    | .ok resp => .ok resp
    | .error e => .error (.custom .invalidData e))

/-- Polls a read: when the connection has ended, it fails after the last byte. -/
def read (reading : ReadPacket) : ReadPoll :=
  match reading.poll s.arrived, s.coming, s.hungUp with
  | .pending _, [], some message => .ready (.error (.transport message)) []
  | r, _, _ => r

def poll : Option (IpcClient × List Event) :=
  match s.phase with
  | .selecting (some reading) =>
    match s.read reading with
    | .pending reading' => some ({ s with phase := .selecting (some reading'), arrived := [] }, [])
    | .ready (.ok data) rest =>
      let r := { s with arrived := rest }.readArm json data
      some (r.1, r.2 ++ [.returned data])
    | .ready (.error _) rest => some ({ s with phase := .selecting none, arrived := rest }, [])
  | .awaiting req respTx reading =>
    match s.read reading with
    | .pending reading' =>
      some ({ s with phase := .awaiting req respTx reading', arrived := [] }, [])
    | .ready (.ok data) rest =>
      some ({ s with arrived := rest }.select, [.replied req respTx (replyOf json data), .returned data])
    | .ready (.error e) rest =>
      some ({ s with arrived := rest }.select, [.replied req respTx (.received (.error e))])
  | _ => none

/-- A handle sends its message: an error once the actor has ended, no step while the mailbox is
full. -/
def issue (op : Operation) : Option (IpcClient × List Event) :=
  let msg := op.msg s.nextChannel
  match s.handles, s.phase with
  | false, _ => none
  | true, .ended =>
    some ({ s with nextChannel := s.nextChannel + 1 }, (msg.abandon .actorDropped).toList)
  | true, _ =>
    if s.mailbox.length < mailboxCapacity then
      some ({ s with mailbox := s.mailbox ++ [msg], nextChannel := s.nextChannel + 1 },
        [.issued msg])
    else none

end IpcClient
end IpcBroker
