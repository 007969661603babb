import IpcBroker.Broker.Transition
import IpcBroker.Client.ActorLoop
import IpcBroker.Foundation.BoundedPipe
import IpcBroker.Protocol.Json

/-! The broker together with the actors of its clients: every connection is two byte pipes of
bounded capacity, between which `write_packet` and `read_packet` move a few bytes at a time. -/

namespace IpcBroker
open Function Foundation

/-- `serde_json` on both sides of the connections, and the capacities of the pipes of each. -/
structure Transport where
  json : SerdeJson
  text : JsonText
  toBroker : ClientId → Nat
  toClient : ClientId → Nat

/-- For each connection `writing` is what the actor has still to write of a frame, `sent` the pipe
to the broker and `reading` the `read_packet` of the reader loop. The pipe to the client is what
has `arrived` there; what is `coming` is what the writer loop has still to write of a frame. -/
structure Connections where
  broker : Broker
  client : ClientId → IpcClient
  writing : ClientId → List UInt8
  sent : ClientId → List UInt8
  reading : ClientId → ReadPacket

namespace IpcClient

/-- The bytes that the arm of a message puts on the stream; a write that fails puts the first `n`. -/
def ClientMsg.bytes (json : SerdeJson) (msg : ClientMsg) (fault : Option String) (n : Nat) :
    List UInt8 :=
  match writePacket (json.toVec msg.toWrite) none, fault with
  | .ok bytes, none => bytes
  | .ok bytes, some _ => bytes.take n
  | .error _, _ => []

end IpcClient

namespace Connections

inductive Event
  | broker (e : IpcBroker.Event)
  | client (x : ClientId) (e : IpcClient.Event)

/-- The actions of the broker, and of a client, in which no byte moves; then those on the pipes.
`take` begins the `write_packet` of a message, and `writerLoop` that of the next one for `x`. -/
inductive Action
  | broker (a : IpcBroker.Action)
  | client (x : ClientId) (a : IpcClient.Action)
  | take (x : ClientId) (fault : Option String) (n : Nat)
  | write (x : ClientId) (n : Nat)
  | writeError (x : ClientId)
  | readerLoop (x : ClientId)
  | writerLoop (x : ClientId)
  | writerWrite (x : ClientId) (n : Nat)

def initial (items : List ServiceActivationFile) : Connections where
  broker := .initial items
  client := fun _ => .initial
  writing := fun _ => []
  sent := fun _ => []
  reading := fun _ => .start

variable (T : Transport) (s : Connections)

/-- A packet comes and goes through the pipes only, and the writer loop takes the next one when
it has written the last. -/
def brokerAlone : IpcBroker.Action → Bool
  | .receive _ _ | .write _ => false
  | .writeError x => (s.client x).coming.isEmpty
  | _ => true

/-- An actor in `write_packet` does not read; an end of the connection cuts off what is not in
the pipe. -/
def clientAlone (x : ClientId) : IpcClient.Action → Bool
  | .issue _ | .dropHandles | .receive _ | .dropReceiver _ => true
  | .poll | .exit => (s.writing x).isEmpty
  | .hangUp _ n => n = 0
  | .take _ | .write _ | .arrive _ => false

def stepBroker (a : IpcBroker.Action) : Option (Connections × List Event) :=
  (s.broker.step a).map fun r => ({ s with broker := r.1 }, r.2.map .broker)

def stepClient (x : ClientId) (a : IpcClient.Action) : Option (Connections × List Event) :=
  ((s.client x).step T.json a).map fun r =>
    ({ s with client := update s.client x r.1 }, r.2.map (.client x))

/-- `reader_loop` polls its `read_packet`; a packet that is complete goes to its handler. -/
def readerLoop (x : ClientId) : Option (Connections × List Event) :=
  match s.broker.phase x with
  | .reading =>
    match (s.reading x).poll (s.sent x) with
    | .pending reading =>
      some ({ s with reading := update s.reading x reading, sent := update s.sent x [] }, [])
    | .ready (.ok data) rest =>
      { s with reading := update s.reading x .start, sent := update s.sent x rest }.stepBroker
        (.receive x (T.text.decode data))
    | .ready (.error _) rest => { s with sent := update s.sent x rest }.stepBroker (.readError x)
  | _ => none

/-- `writer_loop` takes the next message of the channel and begins to write its frame. -/
def writerLoop (x : ClientId) : Option (Connections × List Event) :=
  match (s.client x).coming, s.broker.channel x with
  | [], msg :: _ =>
    (s.stepBroker (.write x)).bind fun r =>
      (r.1.stepClient T x (.write (T.text.encode msg))).map fun r' => (r'.1, r'.2 ++ r.2)
  | _, _ => none

def step : Action → Option (Connections × List Event)
  | .broker a => if s.brokerAlone a then s.stepBroker a else none
  | .client x a => if s.clientAlone x a then s.stepClient T x a else none
  | .take x fault n =>
    match s.writing x, (s.client x).mailbox with
    | [], msg :: _ =>
      { s with writing := update s.writing x (msg.bytes T.json fault n) }.stepClient T x (.take fault)
    | _, _ => none
  | .write x n =>
    if n ≤ (s.writing x).length ∧ (s.sent x).length + n ≤ T.toBroker x then
      some ({ s with
        sent := update s.sent x (s.sent x ++ (s.writing x).take n)
        writing := update s.writing x ((s.writing x).drop n) }, [])
    else none
  | .writeError x =>
    -- the client has counted this write as made when it began: what is cut off here is counted still
    if (s.client x).hungUp.isSome then some ({ s with writing := update s.writing x [] }, [])
    else none
  | .readerLoop x => s.readerLoop T x
  | .writerLoop x => s.writerLoop T x
  | .writerWrite x n =>
    if s.broker.writing x ∧ n ≤ (s.client x).coming.length ∧
        (s.client x).arrived.length + n ≤ T.toClient x then
      s.stepClient T x (.arrive n)
    else none

end Connections

/-- The broker and its clients as one system: every order of their steps and of the bytes. -/
def connections (T : Transport) : System Connections Connections.Action Connections.Event where
  initial s := ∃ items, s = Connections.initial items
  step := Connections.step T

end IpcBroker
