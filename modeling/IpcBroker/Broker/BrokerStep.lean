import IpcBroker.Broker.Handlers
import IpcBroker.Foundation.StepHistory

/-! The steps of the broker: connections come, read, write and go, and every handler and cleanup
advances by one lock section at a time, in any order. -/

namespace IpcBroker
open Function Foundation

inductive Action
  | connect (x : ClientId)
  | receive (x : ClientId) (p : Option Packet)
  | readError (x : ClientId)
  | handler (x : ClientId)
  | snapshot (x : ClientId) (subsList : List ClientId)
  | write (x : ClientId)
  | writeError (x : ClientId)
  | stopWriter (x : ClientId)
  | cleanup (x : ClientId)
  | finish (x : ClientId)
  | spawnEnd (task : Nat) (success : Bool)

namespace Broker

/-- The first section of the handler `handle_request` picks. -/
def handleRequest : RpcRequest → HandlerPc
  | .registerObject o => .registerObjects o
  | .registerService o name => .registerService o name
  | .call k => .callLookup k
  | .subscribe o topic => .subscribe o topic
  | .publish o topic args => .publishSnapshot o topic args
  | .hasObject o => .hasObject o

/-- The handler a decoded packet starts; a response that answers no call starts none. -/
def dispatch : Packet → Option HandlerPc
  | .request r => some (handleRequest r)
  | .response r => r.callId?.map (.responseTake r)

/-- `reader_loop` on one packet, `none` being a packet that is neither a request nor a response. -/
def readerLoop (s : Broker) (x : ClientId) : Option Packet → Broker × List Event
  | some p =>
    (match dispatch p with
      | some pc => s.enter x pc
      | none => s, [.received x p])
  | none => (s, [])

/-- `spawn_client`, with an id no other connection has had. -/
def spawnClient (s : Broker) (x : ClientId) : Broker × List Event :=
  ({ s with
      clients := update s.clients x (some ⟨x⟩)
      phase := update s.phase x .reading
      writing := update s.writing x true
      channel := update s.channel x [] }, [.connected x])

/-- `writer_loop` takes the next message of the channel of `x`. -/
def writerLoop (s : Broker) (x : ClientId) (ok : Bool) : Option (Broker × List Event) :=
  match s.writing x, s.channel x with
  | true, msg :: rest =>
    some ({ s with channel := update s.channel x rest, writing := update s.writing x ok },
      if ok then [.delivered x msg] else [])
  | _, _ => none

/-- `spawn_service` ends: the outcome is logged and changes nothing. -/
def spawnService (s : Broker) (task : Nat) (success : Bool) : Option (Broker × List Event) :=
  if task ∈ s.starts.map (·.task) then
    some ({ s with starts := s.starts.filter (·.task ≠ task) }, [.spawnEnded task success])
  else none

def step (s : Broker) : Action → Option (Broker × List Event)
  | .connect x =>
    match s.phase x with
    | .absent => some (s.spawnClient x)
    | _ => none
  | .receive x p =>
    match s.phase x with
    | .reading => some (s.readerLoop x p)
    | _ => none
  | .readError x =>
    match s.phase x with
    | .reading => some ({ s with phase := update s.phase x .stopping }, [.disconnected x])
    | _ => none
  | .handler x =>
    match s.phase x with
    | .handling pc => s.runSection x pc
    | _ => none
  | .snapshot x subsList =>
    match s.phase x with
    | .handling (.publishSnapshot o topic args) => handlePublish s x o topic args subsList
    | _ => none
  | .write x => s.writerLoop x true
  | .writeError x => s.writerLoop x false
  | .stopWriter x =>
    match s.phase x with
    | .stopping => some ({ s with writing := update s.writing x false }, [])
    | _ => none
  | .cleanup x => s.cleanupClient x (s.phase x)
  | .finish x =>
    match s.phase x with
    | .cleaned => some ({ s with phase := update s.phase x .ended }, [])
    | _ => none
  | .spawnEnd task success => s.spawnService task success

end Broker

/-- The broker as a system: every start-up configuration, every interleaving. -/
def broker : System Broker Action Event where
  initial s := ∃ items, s = Broker.initial items
  step := Broker.step

abbrev BrokerStep : Type := Taken Broker Action Event

/-! The clients, the configuration and the calls that the concrete runs are about. -/

namespace Broker

def workerA : ClientId := ⟨"a"⟩
def workerB : ClientId := ⟨"b"⟩
def callerC : ClientId := ⟨"c"⟩
def callerD : ClientId := ⟨"d"⟩

def activationOf (o : String) : List ServiceActivationFile :=
  [⟨"RegisterService", o, o ++ ".service"⟩]

def callOf (id o : String) : Call := ⟨⟨id⟩, o, "method", .null⟩

/-- `x` sends a request whose handler takes `n` more steps. -/
def request (x : ClientId) (r : RpcRequest) (n : Nat) : List Action :=
  .receive x (some (.request r)) :: List.replicate n (.handler x)

def disconnect (x : ClientId) : List Action :=
  [.readError x, .stopWriter x] ++ List.replicate 6 (.cleanup x)

def cleansUp (z : ClientId) : Event → Bool
  | .cleanedUp y => y = z
  | _ => false

theorem cleanedUp_of_any {z : ClientId} {tr : List Event} (h : tr.any (cleansUp z) = true) :
    Event.cleanedUp z ∈ tr := by
  obtain ⟨e, he, hz⟩ := List.any_eq_true.mp h
  unfold cleansUp at hz
  split at hz
  · exact of_decide_eq_true hz ▸ he
  · cases hz

end Broker
end IpcBroker
