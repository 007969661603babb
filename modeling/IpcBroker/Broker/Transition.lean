import IpcBroker.Broker.BrokerStep

/-! Inversion of the step function: every way a step can go, with the branch it took. -/

namespace IpcBroker
open Function Foundation Broker

/-- The four sections that put a message on a channel: where, what, and where the handler goes
on. -/
def HandlerPc.sends : HandlerPc → Option (SendSite × ClientSender × Packet × Phase)
  | .callForward k tx => some (.handleCall, tx, .request (.call k), .reading)
  | .responseForward resp tx => some (.handleResponse, tx, .response resp, .reading)
  | .publishSend event (tx :: rest) =>
    some (.handlePublish, tx, .response event, handlePublish.next event rest)
  | .sendAwait tx msg rest => some (.sendToClient, tx, msg, afterSends rest)
  | _ => none

theorem HandlerPc.sends_cases {pc : HandlerPc} {site : SendSite} {tx : ClientSender} {msg : Packet}
    {p : Phase} (h : pc.sends = some (site, tx, msg, p)) :
    (∃ k, pc = .callForward k tx ∧ site = .handleCall ∧ msg = .request (.call k) ∧
      p = .reading) ∨
    (∃ resp, pc = .responseForward resp tx ∧ site = .handleResponse ∧ msg = .response resp ∧
      p = .reading) ∨
    (∃ event rest, pc = .publishSend event (tx :: rest) ∧ site = .handlePublish ∧
      msg = .response event ∧ p = handlePublish.next event rest) ∨
    ∃ rest, pc = .sendAwait tx msg rest ∧ site = .sendToClient ∧ p = afterSends rest := by
  cases pc with
  | callForward k tx' =>
    cases h
    exact .inl ⟨k, rfl, rfl, rfl, rfl⟩
  | responseForward resp tx' =>
    cases h
    exact .inr (.inl ⟨resp, rfl, rfl, rfl, rfl⟩)
  | publishSend event txs =>
    cases txs with
    | nil => cases h
    | cons tx' rest =>
      cases h
      exact .inr (.inr (.inl ⟨event, rest, rfl, rfl, rfl, rfl⟩))
  | sendAwait tx' msg' rest =>
    cases h
    exact .inr (.inr (.inr ⟨rest, rfl, rfl, rfl⟩))
  | _ => cases h

def Phase.calm : Phase → Bool
  | .reading | .handling (.sendLookup _ _) | .handling (.publishSend _ _) => true
  | _ => false

def Action.mover : Action → Option ClientId
  | .connect x | .receive x _ | .readError x | .handler x | .snapshot x _ | .cleanup x
  | .finish x => some x
  | _ => none

namespace Broker

inductive Transition (s : Broker) : Action → Broker → List Event → Prop
  | connect {x} (h : s.phase x = .absent) :
      Transition s (.connect x) (s.spawnClient x).1 [.connected x]
  | receiveInvalid {x} (h : s.phase x = .reading) : Transition s (.receive x none) s []
  | receiveIdle {x p} (h : s.phase x = .reading) (hp : dispatch p = none) :
      Transition s (.receive x (some p)) s [.received x p]
  | receive {x p pc} (h : s.phase x = .reading) (hp : dispatch p = some pc) :
      Transition s (.receive x (some p)) (s.enter x pc) [.received x p]
  | readError {x} (h : s.phase x = .reading) :
      Transition s (.readError x) { s with phase := update s.phase x .stopping }
        [.disconnected x]
  | registerObjects {x o} (h : s.phase x = .handling (.registerObjects o)) :
      Transition s (.handler x)
        ({ s with objects := update s.objects o (some x) }.enter x (.registerServices o))
        [.registered x o]
  | registerServices {x o e} (h : s.phase x = .handling (.registerServices o))
      (hl : s.servicesLock = none) (he : s.services o = some e) :
      Transition s (.handler x)
        ({ s with
          services := update s.services o (some { e with
            state := .running x, owner := some x, pendingCalls := [] }) }.sendAll x
          (e.pendingCalls.map Packet.request ++ [Packet.response (.registered o)]))
        [.running x o e.pendingCalls]
  | registerPlain {x o} (h : s.phase x = .handling (.registerServices o))
      (hl : s.servicesLock = none) (he : s.services o = none) :
      Transition s (.handler x) (s.sendAll x [.response (.registered o)]) []
  | registerService {x o name} (h : s.phase x = .handling (.registerService o name))
      (hl : s.servicesLock = none) :
      Transition s (.handler x)
        ({ s with
          services := update s.services o
            (some (handleRegisterService.entry x name (s.services o))) }.leave x)
        [.serviceRegistered x o]
  | callLookup {x k tx} (h : s.phase x = .handling (.callLookup k)) (hc : s.clients x = some tx) :
      Transition s (.handler x)
        (s.enter x (.callInsert k (s.objects k.objectName)
          ((s.objects k.objectName).bind s.clients) tx))
        [.lookedUp x k.objectName (s.objects k.objectName)]
  | callGone {x k} (h : s.phase x = .handling (.callLookup k)) (hc : s.clients x = none) :
      Transition s (.handler x)
        (s.sendAll x [.response (.error (some k.callId) k.objectName "Caller disconnected")])
        [.refused x k, .lookedUp x k.objectName (s.objects k.objectName)]
  | callInsert {x k workerId workerTx tx}
      (h : s.phase x = .handling (.callInsert k workerId workerTx tx)) :
      Transition s (.handler x)
        ({ s with calls := update s.calls k.callId (some (x, tx)) }.enter x
          (handleCall.route k workerId workerTx))
        [.recorded x k.callId]
  | callStopped {x k e} (h : s.phase x = .handling (.callServices k))
      (hl : s.servicesLock = none) (he : s.services k.objectName = some e)
      (hs : e.state = .stopped) :
      Transition s (.handler x)
        ({ s with
          services := update s.services k.objectName (some { e with
            state := .starting, pendingCalls := e.pendingCalls ++ [RpcRequest.call k] }) }.enter x
          (.callStart k.objectName e.serviceName))
        [.queued x k .starting]
  | callStarting {x k e} (h : s.phase x = .handling (.callServices k))
      (hl : s.servicesLock = none) (he : s.services k.objectName = some e)
      (hs : e.state = .starting) :
      Transition s (.handler x)
        ({ s with
          services := update s.services k.objectName (some { e with
            pendingCalls := e.pendingCalls ++ [RpcRequest.call k] }) }.leave x)
        [.queued x k .starting]
  | callRunning {x k e w} (h : s.phase x = .handling (.callServices k))
      (hl : s.servicesLock = none) (he : s.services k.objectName = some e)
      (hs : e.state = .running w) :
      Transition s (.handler x) (s.leave x) [.ignored x k]
  | callUnknown {x k} (h : s.phase x = .handling (.callServices k))
      (hl : s.servicesLock = none) (he : s.services k.objectName = none) :
      Transition s (.handler x)
        ({ s with servicesLock := some x }.sendAll x
          [.response (.error (some k.callId) k.objectName
            ("No such object '" ++ k.objectName ++ "'"))])
        [.refused x k]
  | callStart {x o unit} (h : s.phase x = .handling (.callStart o unit)) :
      Transition s (.handler x) (handleCall.start s x o unit).1 [.spawned x o s.nextTask]
  | responseTake {x resp c a tx} (h : s.phase x = .handling (.responseTake resp c))
      (hc : s.calls c = some (a, tx)) :
      Transition s (.handler x)
        ({ s with calls := update s.calls c none }.enter x (.responseForward resp tx))
        [.settled x c tx.channel]
  | responseUnknown {x resp c} (h : s.phase x = .handling (.responseTake resp c))
      (hc : s.calls c = none) : Transition s (.handler x) (s.leave x) []
  | subscribe {x o topic} (h : s.phase x = .handling (.subscribe o topic)) :
      Transition s (.handler x) (handleSubscribe s x o topic).1 []
  | snapshotNone {x o topic args} (h : s.phase x = .handling (.publishSnapshot o topic args)) :
      Transition s (.snapshot x []) (s.leave x) []
  | snapshot {x o topic args subsList}
      (h : s.phase x = .handling (.publishSnapshot o topic args))
      (hp : subsList.Perm (s.subscriptions o topic)) :
      Transition s (.snapshot x subsList)
        (s.enter x (.publishSenders (.event o topic args) subsList)) []
  | publishSenders {x event subsList}
      (h : s.phase x = .handling (.publishSenders event subsList)) :
      Transition s (.handler x)
        (s.goto x (handlePublish.next event (subsList.filterMap s.clients))) []
  | publishDone {x event} (h : s.phase x = .handling (.publishSend event [])) :
      Transition s (.handler x) (s.leave x) []
  | hasObject {x o} (h : s.phase x = .handling (.hasObject o)) :
      Transition s (.handler x)
        (s.sendAll x [.response (.hasObjectResult o (s.objects o).isSome)]) []
  | sendLookup {x msg rest tx} (h : s.phase x = .handling (.sendLookup msg rest))
      (hc : s.clients x = some tx) :
      Transition s (.handler x) (s.enter x (.sendAwait tx msg rest)) []
  | sendLookupGone {x msg rest} (h : s.phase x = .handling (.sendLookup msg rest))
      (hc : s.clients x = none) : Transition s (.handler x) (s.sendAll x rest) []
  | send {x pc site tx msg p} (h : s.phase x = .handling pc) (hp : pc.sends = some (site, tx, msg, p))
      (ho : s.phase tx.channel ≠ .ended)
      (hroom : (s.channel tx.channel).length < channelCapacity) :
      Transition s (.handler x) ((s.push tx msg).goto x p) [.enqueued site x tx.channel msg]
  | sendFailed {x pc site tx msg p} (h : s.phase x = .handling pc)
      (hp : pc.sends = some (site, tx, msg, p)) (ho : s.phase tx.channel = .ended) :
      Transition s (.handler x) (s.goto x p) [.sendFailed site x tx.channel msg]
  | write {x msg rest} (hw : s.writing x = true) (hc : s.channel x = msg :: rest) :
      Transition s (.write x)
        { s with channel := update s.channel x rest, writing := update s.writing x true }
        [.delivered x msg]
  | writeError {x msg rest} (hw : s.writing x = true) (hc : s.channel x = msg :: rest) :
      Transition s (.writeError x)
        { s with channel := update s.channel x rest, writing := update s.writing x false } []
  | stopWriter {x} (h : s.phase x = .stopping) :
      Transition s (.stopWriter x) { s with writing := update s.writing x false } []
  | cleanupClients {x} (h : s.phase x = .stopping) (hw : s.writing x = false) :
      Transition s (.cleanup x)
        { s with
          clients := update s.clients x none
          phase := update s.phase x (.cleaning .objects) } []
  | cleanupObjects {x} (h : s.phase x = .cleaning .objects) :
      Transition s (.cleanup x)
        { s with
          objects := fun o => if s.objects o = some x then none else s.objects o
          phase := update s.phase x (.cleaning .subscriptions) } []
  | cleanupSubscriptions {x} (h : s.phase x = .cleaning .subscriptions) :
      Transition s (.cleanup x)
        { s with
          subscriptions := fun o topic => (s.subscriptions o topic).filter (· ≠ x)
          phase := update s.phase x (.cleaning .calls) } []
  | cleanupCalls {x} (h : s.phase x = .cleaning .calls) :
      Transition s (.cleanup x)
        { s with
          calls := fun c => (s.calls c).filter (·.1 ≠ x)
          phase := update s.phase x (.cleaning .activeCalls) } []
  | cleanupActiveCalls {x} (h : s.phase x = .cleaning .activeCalls) :
      Transition s (.cleanup x)
        { s with
          phase := update s.phase x (.cleaning (.services fun c => (s.calls c).isSome)) } []
  | cleanupServices {x activeCalls} (h : s.phase x = .cleaning (.services activeCalls))
      (hl : s.servicesLock = none) :
      Transition s (.cleanup x)
        { s with
          services := fun o => (s.services o).map (cleanupService x activeCalls)
          phase := update s.phase x .cleaned } [.cleanedUp x]
  | finish {x} (h : s.phase x = .cleaned) :
      Transition s (.finish x) { s with phase := update s.phase x .ended } []
  | spawnEnd {task success} (h : task ∈ s.starts.map (·.task)) :
      Transition s (.spawnEnd task success)
        { s with starts := s.starts.filter (·.task ≠ task) } [.spawnEnded task success]

variable {s s' : Broker} {x : ClientId} {es : List Event}

theorem send_transition {pc : HandlerPc} {site : SendSite} {tx : ClientSender} {msg : Packet}
    {p : Phase} (h : s.phase x = .handling pc) (hp : pc.sends = some (site, tx, msg, p))
    (hs : s.send x site tx msg p = some (s', es)) : Transition s (.handler x) s' es := by
  unfold send at hs
  split at hs
  · next he =>
    obtain ⟨rfl, rfl⟩ := Prod.mk.inj (Option.some.inj hs)
    exact .sendFailed h hp he
  · next he =>
    split_ifs at hs with hroom
    obtain ⟨rfl, rfl⟩ := Prod.mk.inj (Option.some.inj hs)
    exact .send h hp he hroom

theorem section_transition {pc : HandlerPc} (h : s.phase x = .handling pc)
    (hs : s.runSection x pc = some (s', es)) : Transition s (.handler x) s' es := by
  cases pc with
  | registerObjects o =>
    obtain ⟨rfl, rfl⟩ := Prod.mk.inj (Option.some.inj hs)
    exact .registerObjects h
  | registerServices o =>
    simp only [runSection, handleRegisterObject.services] at hs
    split_ifs at hs with hl
    split at hs
    all_goals obtain ⟨rfl, rfl⟩ := Prod.mk.inj (Option.some.inj hs)
    · next e he => exact .registerServices h hl he
    · next he => exact .registerPlain h hl he
  | registerService o name =>
    simp only [runSection, handleRegisterService] at hs
    split_ifs at hs with hl
    obtain ⟨rfl, rfl⟩ := Prod.mk.inj (Option.some.inj hs)
    exact .registerService h hl
  | callLookup k =>
    simp only [runSection, handleCall] at hs
    split at hs
    all_goals obtain ⟨rfl, rfl⟩ := Prod.mk.inj (Option.some.inj hs)
    · next tx hc => exact .callLookup h hc
    · next hc => exact .callGone h hc
  | callInsert k workerId workerTx callerTx =>
    obtain ⟨rfl, rfl⟩ := Prod.mk.inj (Option.some.inj hs)
    exact .callInsert h
  | callForward k workerTx => exact send_transition h rfl hs
  | callServices k =>
    simp only [runSection, handleCall.services] at hs
    split_ifs at hs with hl
    split at hs
    · next e he =>
      split at hs
      all_goals obtain ⟨rfl, rfl⟩ := Prod.mk.inj (Option.some.inj hs)
      · next hst => exact .callStopped h hl he hst
      · next hst => exact .callStarting h hl he hst
      · next w hst => exact .callRunning h hl he hst
    · next he =>
      obtain ⟨rfl, rfl⟩ := Prod.mk.inj (Option.some.inj hs)
      exact .callUnknown h hl he
  | callStart o unit =>
    obtain ⟨rfl, rfl⟩ := Prod.mk.inj (Option.some.inj hs)
    exact .callStart h
  | responseTake resp c =>
    simp only [runSection, handleResponse] at hs
    split at hs
    all_goals obtain ⟨rfl, rfl⟩ := Prod.mk.inj (Option.some.inj hs)
    · next a tx hc => exact .responseTake h hc
    · next hc => exact .responseUnknown h hc
  | responseForward resp tx => exact send_transition h rfl hs
  | subscribe o topic =>
    obtain ⟨rfl, rfl⟩ := Prod.mk.inj (Option.some.inj hs)
    exact .subscribe h
  | publishSnapshot o topic args => cases hs
  | publishSenders event subsList =>
    obtain ⟨rfl, rfl⟩ := Prod.mk.inj (Option.some.inj hs)
    exact .publishSenders h
  | publishSend event senders =>
    cases senders with
    | nil =>
      obtain ⟨rfl, rfl⟩ := Prod.mk.inj (Option.some.inj hs)
      exact .publishDone h
    | cons tx rest => exact send_transition h rfl hs
  | hasObject o =>
    obtain ⟨rfl, rfl⟩ := Prod.mk.inj (Option.some.inj hs)
    exact .hasObject h
  | sendLookup msg rest =>
    simp only [runSection, sendToClient] at hs
    split at hs
    all_goals obtain ⟨rfl, rfl⟩ := Prod.mk.inj (Option.some.inj hs)
    · next tx hc => exact .sendLookup h hc
    · next hc => exact .sendLookupGone h hc
  | sendAwait tx msg rest => exact send_transition h rfl hs

theorem cleanup_transition (h : s.cleanupClient x (s.phase x) = some (s', es)) :
    Transition s (.cleanup x) s' es := by
  generalize hp : s.phase x = p at h
  match p with
  | .stopping =>
    simp only [cleanupClient] at h
    split_ifs at h with hw
    obtain ⟨rfl, rfl⟩ := Prod.mk.inj (Option.some.inj h)
    exact .cleanupClients hp hw
  | .cleaning (.services activeCalls) =>
    simp only [cleanupClient] at h
    split_ifs at h with hl
    obtain ⟨rfl, rfl⟩ := Prod.mk.inj (Option.some.inj h)
    exact .cleanupServices hp hl
  | .cleaning .objects =>
    obtain ⟨rfl, rfl⟩ := Prod.mk.inj (Option.some.inj h)
    exact .cleanupObjects hp
  | .cleaning .subscriptions =>
    obtain ⟨rfl, rfl⟩ := Prod.mk.inj (Option.some.inj h)
    exact .cleanupSubscriptions hp
  | .cleaning .calls =>
    obtain ⟨rfl, rfl⟩ := Prod.mk.inj (Option.some.inj h)
    exact .cleanupCalls hp
  | .cleaning .activeCalls =>
    obtain ⟨rfl, rfl⟩ := Prod.mk.inj (Option.some.inj h)
    exact .cleanupActiveCalls hp
  | .absent | .reading | .handling _ | .cleaned | .ended => cases h

theorem step_transition {a : Action} (h : s.step a = some (s', es)) : Transition s a s' es := by
  cases a with
  | connect x =>
    simp only [step] at h
    split at h
    · next hp =>
      obtain ⟨rfl, rfl⟩ := Prod.mk.inj (Option.some.inj h)
      exact .connect hp
    · cases h
  | receive x p =>
    simp only [step] at h
    split at h
    · next hp =>
      cases p with
      | none =>
        obtain ⟨rfl, rfl⟩ := Prod.mk.inj (Option.some.inj h)
        exact .receiveInvalid hp
      | some p =>
        obtain ⟨rfl, rfl⟩ := Prod.mk.inj (Option.some.inj h)
        cases hd : dispatch p with
        | none => exact .receiveIdle hp hd
        | some pc => exact .receive hp hd
    · cases h
  | readError x =>
    simp only [step] at h
    split at h
    · next hp =>
      obtain ⟨rfl, rfl⟩ := Prod.mk.inj (Option.some.inj h)
      exact .readError hp
    · cases h
  | handler x =>
    simp only [step] at h
    split at h
    · next pc hp => exact section_transition hp h
    · cases h
  | snapshot x subsList =>
    simp only [step] at h
    split at h
    · next o topic args hp =>
      simp only [handlePublish] at h
      split_ifs at h with hperm hnil
      all_goals obtain ⟨rfl, rfl⟩ := Prod.mk.inj (Option.some.inj h)
      · subst hnil
        exact .snapshotNone hp
      · exact .snapshot hp hperm
    · cases h
  | write x =>
    simp only [step, writerLoop] at h
    split at h
    · next msg rest hw hc =>
      obtain ⟨rfl, rfl⟩ := Prod.mk.inj (Option.some.inj h)
      exact .write hw hc
    · cases h
  | writeError x =>
    simp only [step, writerLoop] at h
    split at h
    · next msg rest hw hc =>
      obtain ⟨rfl, rfl⟩ := Prod.mk.inj (Option.some.inj h)
      exact .writeError hw hc
    · cases h
  | stopWriter x =>
    simp only [step] at h
    split at h
    · next hp =>
      obtain ⟨rfl, rfl⟩ := Prod.mk.inj (Option.some.inj h)
      exact .stopWriter hp
    · cases h
  | cleanup x => exact cleanup_transition h
  | finish x =>
    simp only [step] at h
    split at h
    · next hp =>
      obtain ⟨rfl, rfl⟩ := Prod.mk.inj (Option.some.inj h)
      exact .finish hp
    · cases h
  | spawnEnd task success =>
    simp only [step, spawnService] at h
    split_ifs at h with hm
    obtain ⟨rfl, rfl⟩ := Prod.mk.inj (Option.some.inj h)
    exact .spawnEnd hm

/-! Who enters which phase. -/

@[simp] theorem calm_afterSends (msgs : List Packet) : (afterSends msgs).calm = true := by
  cases msgs <;> rfl

@[simp] theorem calm_next (event : RpcResponse) (txs : List ClientSender) :
    (handlePublish.next event txs).calm = true := by
  cases txs <;> rfl

theorem calm_sends {pc : HandlerPc} {site : SendSite} {tx : ClientSender} {msg : Packet}
    {p : Phase} (h : pc.sends = some (site, tx, msg, p)) : p.calm = true := by
  obtain ⟨k, -, -, -, rfl⟩ | ⟨resp, -, -, -, rfl⟩ | ⟨event, rest, -, -, -, rfl⟩ |
    ⟨rest, -, -, rfl⟩ := HandlerPc.sends_cases h
  · rfl
  · rfl
  · exact calm_next event rest
  · exact calm_afterSends rest

theorem dispatch_cases {p : Packet} {pc : HandlerPc} (h : dispatch p = some pc) :
    (∃ r, p = .request r ∧ pc = handleRequest r) ∨
    ∃ resp c, p = .response resp ∧ resp.callId? = some c ∧ pc = .responseTake resp c := by
  cases p with
  | request r =>
    cases h
    exact .inl ⟨r, rfl, rfl⟩
  | response resp =>
    obtain ⟨c, hc, rfl⟩ := Option.map_eq_some_iff.mp h
    exact .inr ⟨resp, c, rfl, hc, rfl⟩

theorem route_cases (k : Call) (workerId : Option ClientId) (workerTx : Option ClientSender) :
    (∃ w tx, workerId = some w ∧ workerTx = some tx ∧
      handleCall.route k workerId workerTx = .callForward k tx) ∨
    (workerId = none ∨ workerTx = none) ∧
      handleCall.route k workerId workerTx = .callServices k := by
  cases workerId with
  | none => exact .inr ⟨.inl rfl, rfl⟩
  | some w =>
    cases workerTx with
    | none => exact .inr ⟨.inr rfl, rfl⟩
    | some tx => exact .inl ⟨w, tx, rfl, rfl, rfl⟩

inductive EntersBy (s : Broker) (y : ClientId) : Action → List Event → Phase → Prop
  | receive {p pc} (h : s.phase y = .reading) (hp : dispatch p = some pc) :
      EntersBy s y (.receive y (some p)) [.received y p] (.handling pc)
  | readError (h : s.phase y = .reading) :
      EntersBy s y (.readError y) [.disconnected y] .stopping
  | registerServices {o} (h : s.phase y = .handling (.registerObjects o)) :
      EntersBy s y (.handler y) [.registered y o] (.handling (.registerServices o))
  | callInsert {k tx} (h : s.phase y = .handling (.callLookup k)) (hc : s.clients y = some tx) :
      EntersBy s y (.handler y) [.lookedUp y k.objectName (s.objects k.objectName)]
        (.handling (.callInsert k (s.objects k.objectName)
          ((s.objects k.objectName).bind s.clients) tx))
  | callRoute {k workerId workerTx tx}
      (h : s.phase y = .handling (.callInsert k workerId workerTx tx)) :
      EntersBy s y (.handler y) [.recorded y k.callId]
        (.handling (handleCall.route k workerId workerTx))
  | callStart {k e} (h : s.phase y = .handling (.callServices k))
      (he : s.services k.objectName = some e) (hs : e.state = .stopped) :
      EntersBy s y (.handler y) [.queued y k .starting]
        (.handling (.callStart k.objectName e.serviceName))
  | responseForward {resp c caller tx} (h : s.phase y = .handling (.responseTake resp c))
      (hc : s.calls c = some (caller, tx)) :
      EntersBy s y (.handler y) [.settled y c tx.channel] (.handling (.responseForward resp tx))
  | publishSenders {o topic args subsList}
      (h : s.phase y = .handling (.publishSnapshot o topic args))
      (hp : subsList.Perm (s.subscriptions o topic)) :
      EntersBy s y (.snapshot y subsList) []
        (.handling (.publishSenders (.event o topic args) subsList))
  | sendAwait {msg rest tx} (h : s.phase y = .handling (.sendLookup msg rest))
      (hc : s.clients y = some tx) :
      EntersBy s y (.handler y) [] (.handling (.sendAwait tx msg rest))
  | cleanupObjects (h : s.phase y = .stopping) :
      EntersBy s y (.cleanup y) [] (.cleaning .objects)
  | cleanupSubscriptions (h : s.phase y = .cleaning .objects) :
      EntersBy s y (.cleanup y) [] (.cleaning .subscriptions)
  | cleanupCalls (h : s.phase y = .cleaning .subscriptions) :
      EntersBy s y (.cleanup y) [] (.cleaning .calls)
  | cleanupActiveCalls (h : s.phase y = .cleaning .calls) :
      EntersBy s y (.cleanup y) [] (.cleaning .activeCalls)
  | cleanupServices (h : s.phase y = .cleaning .activeCalls) :
      EntersBy s y (.cleanup y) [] (.cleaning (.services fun c => (s.calls c).isSome))
  | cleaned {activeCalls} (h : s.phase y = .cleaning (.services activeCalls)) :
      EntersBy s y (.cleanup y) [.cleanedUp y] .cleaned
  | finish (h : s.phase y = .cleaned) : EntersBy s y (.finish y) [] .ended

theorem entered_of_update {y : ClientId} {p q : Phase} {a : Action}
    (hq : update s.phase x p y = q) (he : EntersBy s x a es p) :
    s.phase y = q ∨ EntersBy s y a es q := by
  by_cases hy : y = x
  · subst hy
    rw [update_self] at hq
    exact .inr (hq ▸ he)
  · rw [update_of_ne hy] at hq
    exact .inl hq

theorem kept_of_update {y : ClientId} {p q : Phase} (hq : update s.phase x p y = q)
    (hc : q.calm = false) (hp : p.calm = true) : s.phase y = q := by
  by_cases hy : y = x
  · subst hy
    rw [update_self] at hq
    rw [← hq, hp] at hc
    cases hc
  · rwa [update_of_ne hy] at hq

theorem Transition.entered {a : Action} {y : ClientId} {q : Phase} (h : Transition s a s' es)
    (hc : q.calm = false) (hq : s'.phase y = q) : s.phase y = q ∨ EntersBy s y a es q := by
  cases h with
  | receiveInvalid | receiveIdle | write | writeError | stopWriter | spawnEnd => exact .inl hq
  | receive h hp => exact entered_of_update hq (.receive h hp)
  | readError h => exact entered_of_update hq (.readError h)
  | registerObjects h => exact entered_of_update hq (.registerServices h)
  | callLookup h hx => exact entered_of_update hq (.callInsert h hx)
  | callInsert h => exact entered_of_update hq (.callRoute h)
  | callStopped h hl he hs => exact entered_of_update hq (.callStart h he hs)
  | responseTake h hx => exact entered_of_update hq (.responseForward h hx)
  | snapshot h hp => exact entered_of_update hq (.publishSenders h hp)
  | sendLookup h hx => exact entered_of_update hq (.sendAwait h hx)
  | cleanupClients h => exact entered_of_update hq (.cleanupObjects h)
  | cleanupObjects h => exact entered_of_update hq (.cleanupSubscriptions h)
  | cleanupSubscriptions h => exact entered_of_update hq (.cleanupCalls h)
  | cleanupCalls h => exact entered_of_update hq (.cleanupActiveCalls h)
  | cleanupActiveCalls h => exact entered_of_update hq (.cleanupServices h)
  | cleanupServices h => exact entered_of_update hq (.cleaned h)
  | finish h => exact entered_of_update hq (.finish h)
  | send h hp | sendFailed h hp => exact .inl (kept_of_update hq hc (calm_sends hp))
  | registerServices | sendLookupGone => exact .inl (kept_of_update hq hc (calm_afterSends _))
  | publishSenders => exact .inl (kept_of_update hq hc (calm_next _ _))
  | _ => exact .inl (kept_of_update hq hc rfl)

def later : HandlerPc → Bool
  | .registerServices _ | .callInsert _ _ _ _ | .callStart _ _ | .responseForward _ _
  | .publishSenders _ _ | .sendAwait _ _ _ => true
  | _ => false

theorem dispatch_later {p : Packet} {pc : HandlerPc} (h : dispatch p = some pc) :
    later pc = false := by
  obtain ⟨r, -, rfl⟩ | ⟨resp, c, -, -, rfl⟩ := dispatch_cases h
  · cases r <;> rfl
  · rfl

theorem route_later (k : Call) (workerId : Option ClientId) (workerTx : Option ClientSender) :
    later (handleCall.route k workerId workerTx) = false := by
  obtain ⟨w, tx, -, -, h⟩ | ⟨-, h⟩ := route_cases k workerId workerTx <;>
    · rw [h]
      rfl

theorem Transition.entered_registerServices {a : Action} {y : ClientId} {o : String}
    (h : Transition s a s' es) (hq : s'.phase y = .handling (.registerServices o)) :
    s.phase y = .handling (.registerServices o) ∨
      s.phase y = .handling (.registerObjects o) ∧ es = [.registered y o] := by
  obtain hq | he := h.entered rfl hq
  · exact .inl hq
  · generalize hp : Phase.handling (.registerServices o) = p at he
    cases he with
    | registerServices hx =>
      cases hp
      exact .inr ⟨hx, rfl⟩
    | receive _ hd =>
      cases hp
      cases dispatch_later hd
    | callRoute => cases Phase.handling.inj hp ▸ route_later _ _ _
    | _ => cases hp

theorem Transition.entered_callInsert {a : Action} {y : ClientId} {k : Call}
    {workerId : Option ClientId} {workerTx : Option ClientSender} {tx : ClientSender}
    (h : Transition s a s' es)
    (hq : s'.phase y = .handling (.callInsert k workerId workerTx tx)) :
    s.phase y = .handling (.callInsert k workerId workerTx tx) ∨
      s.phase y = .handling (.callLookup k) ∧ s.clients y = some tx ∧
        workerId = s.objects k.objectName ∧
        workerTx = (s.objects k.objectName).bind s.clients ∧
        es = [.lookedUp y k.objectName (s.objects k.objectName)] := by
  obtain hq | he := h.entered rfl hq
  · exact .inl hq
  · generalize hp : Phase.handling (.callInsert k workerId workerTx tx) = p at he
    cases he with
    | callInsert hx hc =>
      cases hp
      exact .inr ⟨hx, hc, rfl, rfl, rfl⟩
    | receive _ hd =>
      cases hp
      cases dispatch_later hd
    | callRoute => cases Phase.handling.inj hp ▸ route_later _ _ _
    | _ => cases hp

theorem Transition.entered_callStart {a : Action} {y : ClientId} {o unit : String}
    (h : Transition s a s' es) (hq : s'.phase y = .handling (.callStart o unit)) :
    s.phase y = .handling (.callStart o unit) ∨
      ∃ k e, s.phase y = .handling (.callServices k) ∧ k.objectName = o ∧
        s.services o = some e ∧ e.state = .stopped ∧ es = [.queued y k .starting] := by
  obtain hq | he := h.entered rfl hq
  · exact .inl hq
  · generalize hp : Phase.handling (.callStart o unit) = p at he
    cases he with
    | callStart hx he hs =>
      cases hp
      exact .inr ⟨_, _, hx, rfl, he, hs, rfl⟩
    | receive _ hd =>
      cases hp
      cases dispatch_later hd
    | callRoute => cases Phase.handling.inj hp ▸ route_later _ _ _
    | _ => cases hp

theorem Transition.entered_sendAwait {a : Action} {y : ClientId} {tx : ClientSender}
    {msg : Packet} {rest : List Packet} (h : Transition s a s' es)
    (hq : s'.phase y = .handling (.sendAwait tx msg rest)) :
    s.phase y = .handling (.sendAwait tx msg rest) ∨
      s.phase y = .handling (.sendLookup msg rest) ∧ s.clients y = some tx := by
  obtain hq | he := h.entered rfl hq
  · exact .inl hq
  · generalize hp : Phase.handling (.sendAwait tx msg rest) = p at he
    cases he with
    | sendAwait hx hc =>
      cases hp
      exact .inr ⟨hx, hc⟩
    | receive _ hd =>
      cases hp
      cases dispatch_later hd
    | callRoute => cases Phase.handling.inj hp ▸ route_later _ _ _
    | _ => cases hp

theorem eq_of_update_ne {y : ClientId} {p : Phase}
    (hne : update s.phase x p y ≠ s.phase y) : x = y := by
  by_contra hxy
  exact hne (update_of_ne (Ne.symm hxy) _ _)

theorem Transition.mover {a : Action} {y : ClientId} (h : Transition s a s' es)
    (hne : s'.phase y ≠ s.phase y) : a.mover = some y := by
  cases h with
  | receiveInvalid | receiveIdle | write | writeError | stopWriter | spawnEnd =>
    exact absurd rfl hne
  | _ => exact congrArg some (eq_of_update_ne hne)

/-! Where the task of a client is when it takes a step. -/

theorem Transition.at_receive {p : Option Packet} (h : Transition s (.receive x p) s' es) :
    s.phase x = .reading := by
  cases h with
  | receiveInvalid hx | receiveIdle hx | receive hx => exact hx

theorem Transition.at_handler (h : Transition s (.handler x) s' es) :
    ∃ pc, s.phase x = .handling pc := by
  cases h <;> exact ⟨_, ‹s.phase x = _›⟩

theorem runSection_sends {pc : HandlerPc} {site : SendSite} {tx : ClientSender} {msg : Packet}
    {p : Phase} (hp : pc.sends = some (site, tx, msg, p)) :
    s.runSection x pc = s.send x site tx msg p := by
  obtain ⟨k, rfl, rfl, rfl, rfl⟩ | ⟨resp, rfl, rfl, rfl, rfl⟩ | ⟨event, rest, rfl, rfl, rfl, rfl⟩ |
    ⟨rest, rfl, rfl, rfl⟩ := HandlerPc.sends_cases hp <;> rfl

theorem Transition.ran {pc : HandlerPc} (h : Transition s (.handler x) s' es)
    (hp : s.phase x = .handling pc) : s.runSection x pc = some (s', es) := by
  cases h with
  | send hp' hs ho hroom =>
    cases hp.symm.trans hp'
    rw [runSection_sends hs, Broker.send]
    split
    · next he => exact absurd he ho
    · rw [if_pos hroom]
  | sendFailed hp' hs ho =>
    cases hp.symm.trans hp'
    rw [runSection_sends hs, Broker.send, ho]
  | registerServices hp' hl he | registerPlain hp' hl he =>
    cases hp.symm.trans hp'
    simp [runSection, handleRegisterObject.services, hl, he]
  | registerService hp' hl =>
    cases hp.symm.trans hp'
    simp [runSection, handleRegisterService, hl]
  | callLookup hp' hc | callGone hp' hc =>
    cases hp.symm.trans hp'
    simp [runSection, handleCall, hc]
  | callStopped hp' hl he hs | callStarting hp' hl he hs | callRunning hp' hl he hs =>
    cases hp.symm.trans hp'
    simp [runSection, handleCall.services, hl, he, hs]
  | callUnknown hp' hl he =>
    cases hp.symm.trans hp'
    simp [runSection, handleCall.services, hl, he]
  | responseTake hp' hc | responseUnknown hp' hc =>
    cases hp.symm.trans hp'
    simp [runSection, handleResponse, hc]
  | sendLookup hp' hc | sendLookupGone hp' hc =>
    cases hp.symm.trans hp'
    simp [runSection, sendToClient, hc]
  | _ =>
    cases hp.symm.trans ‹s.phase x = _›
    rfl

theorem Transition.sender {a : Action} {y : ClientId} {site : SendSite} {msg : Packet}
    (h : Transition s a s' es) (he : Event.enqueued site x y msg ∈ es) :
    ∃ pc tx p, a = .handler x ∧ s.phase x = .handling pc ∧ pc.sends = some (site, tx, msg, p) ∧
      tx.channel = y ∧ s.phase y ≠ .ended ∧ es = [.enqueued site x y msg] ∧
      s' = (s.push tx msg).goto x p := by
  cases h with
  | send hx hs ho =>
    cases List.mem_singleton.mp he
    exact ⟨_, _, _, rfl, hx, hs, rfl, ho, rfl, rfl⟩
  | _ => simp at he

theorem Transition.sends {pc : HandlerPc} {site : SendSite} {tx : ClientSender} {msg : Packet}
    {p : Phase} (h : Transition s (.handler x) s' es) (hx : s.phase x = .handling pc)
    (hs : pc.sends = some (site, tx, msg, p)) :
    s.phase tx.channel = .ended ∨ es = [.enqueued site x tx.channel msg] := by
  have hran := h.ran hx
  rw [runSection_sends hs, Broker.send] at hran
  split at hran
  · next he => exact .inl he
  · split_ifs at hran
    obtain ⟨-, rfl⟩ := Prod.mk.inj (Option.some.inj hran)
    exact .inr rfl

inductive CallServices (s : Broker) (x : ClientId) (k : Call) : Broker → List Event → Prop
  | stopped {s' e} (he : s.services k.objectName = some e) (hs : e.state = .stopped)
      (hp : s'.phase x = .handling (.callStart k.objectName e.serviceName)) :
      CallServices s x k s' [.queued x k .starting]
  | starting {s' e} (he : s.services k.objectName = some e) (hs : e.state = .starting)
      (hp : s'.phase x = .reading)
      (hq : s'.services k.objectName =
        some { e with pendingCalls := e.pendingCalls ++ [RpcRequest.call k] }) :
      CallServices s x k s' [.queued x k .starting]
  | running {s' e w} (he : s.services k.objectName = some e) (hs : e.state = .running w)
      (hp : s'.phase x = .reading) : CallServices s x k s' [.ignored x k]
  | unknown {s' message} (he : s.services k.objectName = none)
      (hp : s'.phase x = .handling
        (.sendLookup (.response (.error (some k.callId) k.objectName message)) [])) :
      CallServices s x k s' [.refused x k]

theorem Transition.callServices {k : Call} (h : Transition s (.handler x) s' es)
    (hp : s.phase x = .handling (.callServices k)) : CallServices s x k s' es := by
  have hran : handleCall.services s x k = some (s', es) := h.ran hp
  unfold handleCall.services at hran
  split_ifs at hran
  split at hran
  · next e he =>
    split at hran
    all_goals obtain ⟨rfl, rfl⟩ := Prod.mk.inj (Option.some.inj hran)
    · next hs => exact .stopped he hs (update_self ..)
    · next hs => exact .starting he hs (update_self ..) (update_self ..)
    · next w hs => exact .running he hs (update_self ..)
  · next he =>
    obtain ⟨rfl, rfl⟩ := Prod.mk.inj (Option.some.inj hran)
    exact .unknown he (update_self ..)

theorem Transition.entered_callServices {a : Action} {y : ClientId} {k : Call}
    (h : Transition s a s' es) (hq : s'.phase y = .handling (.callServices k)) :
    s.phase y = .handling (.callServices k) ∨ ∃ workerId workerTx tx,
      s.phase y = .handling (.callInsert k workerId workerTx tx) ∧ es = [.recorded y k.callId] := by
  obtain hq | he := h.entered rfl hq
  · exact .inl hq
  · generalize hp : Phase.handling (.callServices k) = p at he
    cases he with
    | @callRoute k' workerId workerTx tx hx =>
      obtain ⟨v, t, -, -, hroute⟩ | ⟨-, hroute⟩ := route_cases k' workerId workerTx
      · rw [hroute] at hp
        cases hp
      · rw [hroute] at hp
        cases hp
        exact .inr ⟨_, _, _, hx, rfl⟩
    | receive _ hd =>
      cases hp
      obtain ⟨r, -, hpc⟩ | ⟨resp, c, -, -, hpc⟩ := dispatch_cases hd
      · cases r <;> cases hpc
      · cases hpc
    | _ => cases hp

inductive ChannelChange (s s' : Broker) (y : ClientId) : Action → List Event → Prop
  | same {a es} (hsame : s'.channel y = s.channel y) : ChannelChange s s' y a es
  | opened (hy : s.phase y = .absent) (hnew : s'.channel y = []) :
      ChannelChange s s' y (.connect y) [.connected y]
  | sent {x pc site tx msg p} (hx : s.phase x = .handling pc)
      (hs : pc.sends = some (site, tx, msg, p)) (htx : tx.channel = y)
      (hroom : (s.channel y).length < channelCapacity) (hp : s'.phase x = p)
      (hpush : s'.channel y = s.channel y ++ [msg]) :
      ChannelChange s s' y (.handler x) [.enqueued site x y msg]
  | written {msg} (htaken : s.channel y = msg :: s'.channel y) :
      ChannelChange s s' y (.write y) [.delivered y msg]
  | lost {msg} (htaken : s.channel y = msg :: s'.channel y) :
      ChannelChange s s' y (.writeError y) []

theorem Transition.channelChange {a : Action} (h : Transition s a s' es) (y : ClientId) :
    ChannelChange s s' y a es := by
  cases h with
  | @connect x hx =>
    by_cases hy : y = x
    · subst hy
      exact .opened hx (update_self ..)
    · exact .same (update_of_ne hy _ _)
  | @send x pc site tx msg p hx hs ho hroom =>
    by_cases hy : y = tx.channel
    · subst hy
      exact .sent hx hs rfl hroom (update_self ..) (update_self ..)
    · exact .same (update_of_ne hy _ _)
  | @write x msg rest hw hc =>
    by_cases hy : y = x
    · subst hy
      have hrest := update_self y rest s.channel
      exact .written (hc.trans (congrArg (msg :: ·) hrest.symm))
    · exact .same (update_of_ne hy _ _)
  | @writeError x msg rest hw hc =>
    by_cases hy : y = x
    · subst hy
      have hrest := update_self y rest s.channel
      exact .lost (hc.trans (congrArg (msg :: ·) hrest.symm))
    · exact .same (update_of_ne hy _ _)
  | _ => exact .same rfl

theorem Transition.channel_length {a : Action} (h : Transition s a s' es) (y : ClientId) :
    (s'.channel y).length ≤ (s.channel y).length ∨
      ∃ x pc site tx msg p, a = .handler x ∧ s.phase x = .handling pc ∧
        pc.sends = some (site, tx, msg, p) ∧ tx.channel = y ∧
        (s.channel y).length < channelCapacity ∧ s'.phase x = p ∧
        s'.channel y = s.channel y ++ [msg] := by
  cases h.channelChange y with
  | same hsame => exact .inl (Nat.le_of_eq (congrArg List.length hsame))
  | opened hy hnew =>
    rw [hnew]
    exact .inl (Nat.zero_le _)
  | sent hx hs htx hroom hp hpush =>
    exact .inr ⟨_, _, _, _, _, _, rfl, hx, hs, htx, hroom, hp, hpush⟩
  | written htaken | lost htaken =>
    rw [htaken]
    exact .inl (Nat.le_succ _)

theorem Transition.at_snapshot {subsList : List ClientId}
    (h : Transition s (.snapshot x subsList) s' es) :
    ∃ o topic args, s.phase x = .handling (.publishSnapshot o topic args) := by
  cases h with
  | snapshotNone hx | snapshot hx => exact ⟨_, _, _, hx⟩

theorem Transition.events_receive {p : Packet} (h : Transition s (.receive x (some p)) s' es) :
    es = [.received x p] := by
  cases h with
  | receiveIdle | receive => rfl

theorem Transition.dispatched {p : Packet} {pc : HandlerPc}
    (h : Transition s (.receive x (some p)) s' es) (hp : dispatch p = some pc) :
    s'.phase x = .handling pc := by
  cases h with
  | receiveIdle hx hd => cases hp.symm.trans hd
  | receive hx hd =>
    cases hp.symm.trans hd
    exact update_self ..

theorem Transition.handling_kept {a : Action} {y : ClientId} {pc : HandlerPc}
    (h : Transition s a s' es) (hy : s.phase y = .handling pc)
    (ha : a ≠ .handler y) (hs : ∀ subsList, a ≠ .snapshot y subsList) :
    s'.phase y = .handling pc := by
  by_contra hne
  have hm := h.mover (hy ▸ hne)
  cases h with
  | receiveInvalid | receiveIdle | write | writeError | stopWriter | spawnEnd => exact hne hy
  | snapshotNone | snapshot =>
    cases hm
    exact hs _ rfl
  | connect hx | receive hx | readError hx | cleanupClients hx | cleanupObjects hx
  | cleanupSubscriptions hx | cleanupCalls hx | cleanupActiveCalls hx | cleanupServices hx
  | finish hx =>
    cases hm
    rw [hx] at hy
    cases hy
  | _ =>
    cases hm
    exact ha rfl

theorem exec_phase {ok : World Broker Event → Action → Prop} [∀ w a, Decidable (ok w a)]
    {w w' : World Broker Event} {as : List Action} {y : ClientId}
    (he : broker.exec ok w as = some w') (hy : y ∉ as.filterMap Action.mover) :
    w'.state.phase y = w.state.phase y := by
  induction as generalizing w with
  | nil =>
    rw [System.exec, Option.some.injEq] at he
    rw [he]
  | cons a as ih =>
    rw [System.exec] at he
    split_ifs at he
    obtain ⟨w₁, hn, hrest⟩ := Option.bind_eq_some_iff.mp he
    obtain ⟨es, hs⟩ := System.next_state hn
    have hmem : y ∉ as.filterMap Action.mover := by
      intro hm
      obtain ⟨b, hb, hby⟩ := List.mem_filterMap.mp hm
      exact hy (List.mem_filterMap.mpr ⟨b, List.mem_cons_of_mem _ hb, hby⟩)
    have ha : a.mover ≠ some y := fun ha =>
      hy (List.mem_filterMap.mpr ⟨a, List.mem_cons_self .., ha⟩)
    rw [ih hrest hmem]
    by_contra hne
    exact ha ((step_transition hs).mover hne)

end Broker
end IpcBroker
