import IpcBroker.Broker.BrokerState

/-! The handlers of `ServerState` and `ClientActor::cleanup_client`, one definition for each
section that runs under its own locks. -/

namespace IpcBroker.Broker
open Function
variable (s : Broker) (x : ClientId)

/-! `handle_register_object` -/

def handleRegisterObject (o : String) : Broker × List Event :=
  ({ s with objects := update s.objects o (some x) }.enter x (.registerServices o),
    [.registered x o])

/-- The service section; the calls it takes are then sent to `x`, and last `Registered`. -/
def handleRegisterObject.services (o : String) : Option (Broker × List Event) :=
  if s.servicesLock = none then
    match s.services o with
    | some service =>
      some ({ s with
          services := update s.services o (some { service with
            state := .running x, owner := some x, pendingCalls := [] }) }.sendAll x
            (service.pendingCalls.map Packet.request ++ [Packet.response (.registered o)]),
        [.running x o service.pendingCalls])
    | none => some (s.sendAll x [.response (.registered o)], [])
  else none

/-! `handle_register_service` -/

/-- The update of an existing entry: anything but "running, owned by `x`" is reset to stopped. -/
def handleRegisterService.modify (serviceName : String) (svc : ServiceEntry) : ServiceEntry :=
  { svc with
    serviceName
    state := if svc.state ≠ .running x then .stopped else svc.state }

def handleRegisterService.entry (serviceName : String) : Option ServiceEntry → ServiceEntry
  | some svc => handleRegisterService.modify x serviceName svc
  | none => .stopped serviceName

def handleRegisterService (o serviceName : String) : Option (Broker × List Event) :=
  if s.servicesLock = none then
    some ({ s with
        services := update s.services o
          (some (handleRegisterService.entry x serviceName (s.services o))) }.leave x,
      [.serviceRegistered x o])
  else none

/-! `handle_call` -/

/-- `clients`, then `objects`: the owner, its sender and the caller's sender. -/
def handleCall (k : Call) : Broker × List Event :=
  let workerId := s.objects k.objectName
  let workerTx := workerId.bind s.clients
  match s.clients x with
  | some callerTx =>
    (s.enter x (.callInsert k workerId workerTx callerTx),
      [.lookedUp x k.objectName workerId])
  | none =>
    (s.sendAll x [.response (.error (some k.callId) k.objectName "Caller disconnected")],
      [.refused x k, .lookedUp x k.objectName workerId])

/-- Which way the call goes on: to the worker, or to the service activation. -/
def handleCall.route (k : Call) : Option ClientId → Option ClientSender → HandlerPc
  | some _, some workerTx => .callForward k workerTx
  | _, _ => .callServices k

def handleCall.insert (k : Call) (workerId : Option ClientId) (workerTx : Option ClientSender)
    (callerTx : ClientSender) : Broker × List Event :=
  ({ s with calls := update s.calls k.callId (some (x, callerTx)) }.enter x
      (handleCall.route k workerId workerTx),
    [.recorded x k.callId])

def handleCall.forward (k : Call) (workerTx : ClientSender) : Option (Broker × List Event) :=
  s.send x .handleCall workerTx (.request (.call k)) .reading

/-- The service section. For an unknown service the guard is still held while the error is
sent; for a running one nothing is done. -/
def handleCall.services (k : Call) : Option (Broker × List Event) :=
  if s.servicesLock = none then
    match s.services k.objectName with
    | some service =>
      let pendingCalls := service.pendingCalls ++ [.call k]
      match service.state with
      | .stopped =>
        some ({ s with
            services := update s.services k.objectName
              (some { service with state := .starting, pendingCalls }) }.enter x
              (.callStart k.objectName service.serviceName),
          [.queued x k .starting])
      | .starting =>
        some ({ s with
            services := update s.services k.objectName
              (some { service with pendingCalls }) }.leave x,
          [.queued x k .starting])
      | .running _ => some (s.leave x, [.ignored x k])
    | none =>
      some ({ s with servicesLock := some x }.sendAll x
          [.response (.error (some k.callId) k.objectName
            ("No such object '" ++ k.objectName ++ "'"))],
        [.refused x k])
  else none

/-- `tokio::spawn(activate::spawn_service(name))`, after the guard is dropped. -/
def handleCall.start (o unit : String) : Broker × List Event :=
  ({ s with
      starts := s.starts ++ [StartTask.mk s.nextTask o unit]
      nextTask := s.nextTask + 1 }.leave x,
    [.spawned x o s.nextTask])

/-! `handle_response` -/

def handleResponse (resp : RpcResponse) (callId : CallId) : Broker × List Event :=
  match s.calls callId with
  | some (_, callerTx) =>
    ({ s with calls := update s.calls callId none }.enter x (.responseForward resp callerTx),
      [.settled x callId callerTx.channel])
  | none => (s.leave x, [])

def handleResponse.forward (resp : RpcResponse) (callerTx : ClientSender) :
    Option (Broker × List Event) :=
  s.send x .handleResponse callerTx (.response resp) .reading

/-! `handle_subscribe` and `handle_publish` -/

def handleSubscribe (o topic : String) : Broker × List Event :=
  ({ s with
      subscriptions := update s.subscriptions o
        (update (s.subscriptions o) topic ((s.subscriptions o topic).insert x)) }.sendAll x
      [.response (.subscribed o topic)], [])

/-- The snapshot of the subscribers, in the order the iteration of the hash set gave. -/
def handlePublish (o topic : String) (args : Value) (subsList : List ClientId) :
    Option (Broker × List Event) :=
  if subsList.Perm (s.subscriptions o topic) then
    some (if subsList = [] then s.leave x
      else s.enter x (.publishSenders (.event o topic args) subsList), [])
  else none

def handlePublish.next (event : RpcResponse) : List ClientSender → Phase
  | [] => .reading
  | senders => .handling (.publishSend event senders)

def handlePublish.senders (event : RpcResponse) (subsList : List ClientId) :
    Broker × List Event :=
  (s.goto x (handlePublish.next event (subsList.filterMap s.clients)), [])

def handlePublish.send (event : RpcResponse) : List ClientSender → Option (Broker × List Event)
  | [] => some (s.leave x, [])
  | tx :: rest =>
    s.send x .handlePublish tx (.response event) (handlePublish.next event rest)

/-! The `HasObject` arm of `handle_request`, and `send_to_client` -/

def handleHasObject (o : String) : Broker × List Event :=
  (s.sendAll x [.response (.hasObjectResult o (s.objects o).isSome)], [])

def sendToClient (msg : Packet) (rest : List Packet) : Broker × List Event :=
  match s.clients x with
  | some tx => (s.enter x (.sendAwait tx msg rest), [])
  | none => (s.sendAll x rest, [])

def sendToClient.send (tx : ClientSender) (msg : Packet) (rest : List Packet) :
    Option (Broker × List Event) :=
  s.send x .sendToClient tx msg (afterSends rest)

/-- The section a running handler executes next, all but the subscriber snapshot. -/
def runSection : HandlerPc → Option (Broker × List Event)
  | .registerObjects o => some (handleRegisterObject s x o)
  | .registerServices o => handleRegisterObject.services s x o
  | .registerService o name => handleRegisterService s x o name
  | .callLookup k => some (handleCall s x k)
  | .callInsert k workerId workerTx callerTx => some (handleCall.insert s x k workerId workerTx callerTx)
  | .callForward k workerTx => handleCall.forward s x k workerTx
  | .callServices k => handleCall.services s x k
  | .callStart o unit => some (handleCall.start s x o unit)
  | .responseTake resp c => some (handleResponse s x resp c)
  | .responseForward resp tx => handleResponse.forward s x resp tx
  | .subscribe o topic => some (handleSubscribe s x o topic)
  | .publishSnapshot _ _ _ => none
  | .publishSenders event subsList => some (handlePublish.senders s x event subsList)
  | .publishSend event senders => handlePublish.send s x event senders
  | .hasObject o => some (handleHasObject s x o)
  | .sendLookup msg rest => some (sendToClient s x msg rest)
  | .sendAwait tx msg rest => sendToClient.send s x tx msg rest

/-! `cleanup_client` -/

/-- A queued request a leaving client's cleanup keeps: all but the calls gone from `calls`. -/
def keepPending (activeCalls : CallId → Bool) : RpcRequest → Bool
  | .call k => activeCalls k.callId
  | _ => true

/-- What the cleanup of `x` makes of one service. -/
def cleanupService (activeCalls : CallId → Bool) (service : ServiceEntry) : ServiceEntry :=
  if service.owner = some x then
    { service with owner := none, state := .stopped, pendingCalls := [] }
  else { service with pendingCalls := service.pendingCalls.filter (keepPending activeCalls) }

/-- The next section of the cleanup; it starts once the reader and the writer loop are done. -/
def cleanupClient : Phase → Option (Broker × List Event)
  | .stopping =>
    if s.writing x = false then
      some ({ s with
        clients := update s.clients x none
        phase := update s.phase x (.cleaning .objects) }, [])
    else none
  | .cleaning .objects =>
    some ({ s with
      objects := fun o => if s.objects o = some x then none else s.objects o
      phase := update s.phase x (.cleaning .subscriptions) }, [])
  | .cleaning .subscriptions =>
    some ({ s with
      subscriptions := fun o topic => (s.subscriptions o topic).filter (· ≠ x)
      phase := update s.phase x (.cleaning .calls) }, [])
  | .cleaning .calls =>
    some ({ s with
      calls := fun c => (s.calls c).filter (·.1 ≠ x)
      phase := update s.phase x (.cleaning .activeCalls) }, [])
  | .cleaning .activeCalls =>
    some ({ s with
      phase := update s.phase x (.cleaning (.services fun c => (s.calls c).isSome)) }, [])
  | .cleaning (.services activeCalls) =>
    if s.servicesLock = none then
      some ({ s with
        services := fun o => (s.services o).map (cleanupService x activeCalls)
        phase := update s.phase x .cleaned }, [.cleanedUp x])
    else none
  | _ => none

end IpcBroker.Broker
