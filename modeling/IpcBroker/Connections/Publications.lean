import IpcBroker.Broker.PublishDelivery
import IpcBroker.Client.SubscriberOrder
import IpcBroker.Connections.Backpressure
import IpcBroker.Connections.Streams

/-! Publications from one client to another: what a subscriber is sent has been published, by each
publisher in its order and none of it twice. -/

namespace IpcBroker
open Function Foundation

def Publication.argsOf? (o topic : String) (e : Publication) : Option Value :=
  if e.objectName = o ∧ e.topic = topic then some e.args else none

def RpcRequest.publication? : RpcRequest → Option Publication
  | .publish o topic args => some ⟨o, topic, args⟩
  | _ => none

def Event.putOn? (x : ClientId) : Event → Option (ClientId × Packet)
  | .enqueued _ y z m => if z = x then some (y, m) else none
  | _ => none

def putOn (tr : List Event) (x : ClientId) : List (ClientId × Packet) := chronicle (Event.putOn? x) tr

def eventFrom? (o topic : String) (q : ClientId × Packet) : Option (ClientId × Value) :=
  (q.2.publication?.bind (Publication.argsOf? o topic)).map fun args => (q.1, args)

def gotFrom (p : ClientId) (got : List (ClientId × Value)) : List Value :=
  (got.filter fun q => q.1 = p).map Prod.snd

variable {tr : List Event} {x p : ClientId} {o topic : String}

theorem putOn_enqueued (tr : List Event) (x : ClientId) :
    (putOn tr x).map Prod.snd = enqueuedOn tr x := by
  rw [putOn, enqueuedOn, chronicle, chronicle, List.map_reverse, List.map_filterMap]
  refine congrArg List.reverse (List.filterMap_congr fun e _ => ?_)
  cases e with
  | enqueued site y z m => by_cases hz : z = x <;> simp [Event.putOn?, Event.enqueuedOn?, hz]
  | _ => rfl

theorem eventsTo_putOn (p x : ClientId) (steps : List BrokerStep) :
    eventsTo p x steps = ((putOn (steps.flatMap (·.events)) x).filter fun q => q.1 = p).filterMap
      fun q => q.2.publication? := by
  rw [eventsTo, putOn, chronicle, chronicle, List.filter_reverse, List.filterMap_reverse,
    ← List.filterMap_eq_filter, List.filterMap_filterMap, List.filterMap_filterMap]
  refine congrArg List.reverse (List.filterMap_congr fun e _ => ?_)
  cases e with
  | enqueued site y z m =>
    by_cases hz : z = x <;> by_cases hy : y = p <;>
      simp [Event.putOn?, Event.publishedTo?, hz, hy, Option.guard]
  | _ => rfl

theorem gotFrom_events (p : ClientId) (qs : List (ClientId × Packet)) :
    gotFrom p (qs.filterMap (eventFrom? o topic)) =
      ((qs.filter fun q => q.1 = p).filterMap fun q => q.2.publication?).filterMap
        (Publication.argsOf? o topic) := by
  rw [gotFrom, ← List.filterMap_eq_filter, ← List.filterMap_eq_filter, List.filterMap_filterMap,
    List.map_filterMap, List.filterMap_filterMap, List.filterMap_filterMap]
  refine List.filterMap_congr fun q _ => ?_
  cases hargs : q.2.publication?.bind (Publication.argsOf? o topic) <;> by_cases hq : q.1 = p <;>
    simp [eventFrom?, Option.guard, hargs, hq]

def Packet.published? : Packet → Option Publication
  | .request r => r.publication?
  | .response _ => none

theorem published_received (p : ClientId) (steps : List BrokerStep) : published p steps =
    (receivedFrom (steps.flatMap (·.events)) p).filterMap Packet.published? := by
  rw [published, receivedFrom, chronicle, chronicle, List.filterMap_reverse,
    List.filterMap_filterMap]
  refine congrArg List.reverse (List.filterMap_congr fun e _ => ?_)
  cases e with
  | received y m =>
    by_cases hy : y = p
    · cases m with
      | request r => cases r <;> simp [Event.publishes?, Event.receivedFrom?, Packet.published?,
          RpcRequest.publication?, hy]
      | response r => simp [Event.publishes?, Event.receivedFrom?, Packet.published?, hy]
    · cases m with
      | request r => cases r <;> simp [Event.publishes?, Event.receivedFrom?, hy]
      | response r => simp [Event.publishes?, Event.receivedFrom?, hy]
  | _ => rfl

theorem Broker.eventsTo_published {ok : World Broker BrokerStep → Action → Prop}
    {w : World Broker BrokerStep} (h : broker.recorded.RunWhere ok w) (p x : ClientId) :
    (eventsTo p x w.trace).Sublist (published p w.trace) := by
  refine ((List.prefix_append ..).trans (delivered_due h p x).2).sublist.trans ?_
  rw [published_order h p]
  exact (due_sublist p x w.trace).trans (List.sublist_append_left ..)

namespace IpcClient

def publishes (o topic : String) (tr : List Event) : List Value :=
  (((issuedMsgs tr).map ClientMsg.toWrite).filterMap RpcRequest.publication?).filterMap
    (Publication.argsOf? o topic)

theorem eventsRead_packets (json : SerdeJson) (o topic : String) (tr : List Event) :
    eventsRead json o topic tr =
      (returned tr).filterMap fun data => Event.eventOf? json o topic (.returned data) := by
  rw [eventsRead, returned, chronicle, chronicle, List.filterMap_reverse, List.filterMap_filterMap]
  refine congrArg List.reverse (List.filterMap_congr fun e _ => ?_)
  cases e <;> rfl

end IpcClient

namespace Connections
variable {T : Transport} {y : ClientId} {c : Nat} {w : World Connections Event}

theorem Readable.eventOf {m : Packet} (h : Readable T m) (o topic : String) :
    IpcClient.Event.eventOf? T.json o topic (.returned (T.text.encode m)) =
      m.publication?.bind (Publication.argsOf? o topic) := by
  obtain ⟨hne, hread⟩ := h
  by_cases hm : ∃ e : Publication, m = .response e.event
  · obtain ⟨e, rfl⟩ := hm
    exact IpcClient.eventOf_event hne ((hread _).mpr rfl) o topic
  · rw [IpcClient.eventOf_other fun o' topic' args hev => hm ⟨⟨o', topic', args⟩, (hread _).mp hev⟩]
    cases m with
    | request r => rfl
    | response r =>
      cases r with
      | event o' topic' args => exact absurd ⟨⟨o', topic', args⟩, rfl⟩ hm
      | _ => rfl

theorem events_read (h : (connections T).RunWhere (Carried T) w) (x : ClientId) :
    ∃ qs, qs <+: putOn (brokerWorld w).trace x ∧
      IpcClient.returned (clientWorld w x).trace = qs.map (fun q => T.text.encode q.2) ∧
      (∀ q ∈ qs, Readable T q.2) ∧ ∀ o topic, (qs.filterMap (eventFrom? o topic)).map Prod.snd =
        IpcClient.eventsRead T.json o topic (clientWorld w x).trace := by
  obtain ⟨u, hu, hev⟩ := (broker_run h).exists_recorded
  have hdelivered := Broker.delivered_inOrder hu x
  rw [hev] at hdelivered
  obtain ⟨ms, hms, hreturned⟩ := List.prefix_map_iff.mp (returned_delivered h x)
  have hput := hms.trans hdelivered
  rw [← putOn_enqueued] at hput
  obtain ⟨qs, hqs, rfl⟩ := List.prefix_map_iff.mp hput
  rw [List.map_map] at hreturned
  have hreadable : ∀ q ∈ qs, Readable T q.2 := fun q hq =>
    (packetsCarried h x).readable q.2 (hms.subset (List.mem_map_of_mem hq))
  refine ⟨qs, hqs, hreturned, hreadable, fun o topic => ?_⟩
  rw [IpcClient.eventsRead_packets, hreturned, List.filterMap_map, List.map_filterMap]
  refine List.filterMap_congr fun q hq => ?_
  simp only [Function.comp_apply, (hreadable q hq).eventOf, eventFrom?]
  cases q.2.publication?.bind (Publication.argsOf? o topic) <;> rfl

theorem published_sent (h : (connections T).RunWhere (Carried T) w) (p : ClientId) :
    (receivedFrom (brokerWorld w).trace p).filterMap Packet.published? <+:
      (IpcClient.sentRequests (clientWorld w p).trace).filterMap RpcRequest.publication? := by
  obtain ⟨later, hlater⟩ := requestsCarried h p
  have hsent : (IpcClient.sentRequests (clientWorld w p).trace).filterMap RpcRequest.publication? =
      ((IpcClient.sentRequests (clientWorld w p).trace).map Packet.request).filterMap
        Packet.published? := by
    rw [List.filterMap_map]
    rfl
  rw [hsent, hlater.sent, List.filterMap_append]
  exact List.prefix_append _ _

theorem sent_published (h : (connections T).RunWhere (Carried T) w) (o topic : String)
    (p : ClientId) :
    ((IpcClient.sentRequests (clientWorld w p).trace).filterMap RpcRequest.publication?).filterMap
      (Publication.argsOf? o topic) |>.Sublist (IpcClient.publishes o topic (clientWorld w p).trace) :=
  (((List.sublist_append_left _ _).trans (IpcClient.sent_inOrder (client_run h p))).filterMap
    _).filterMap _

theorem gotFrom_published (h : (connections T).RunWhere (Carried T) w) (p x : ClientId)
    (o topic : String) :
    (gotFrom p ((putOn (brokerWorld w).trace x).filterMap (eventFrom? o topic))).Sublist
      (IpcClient.publishes o topic (clientWorld w p).trace) := by
  obtain ⟨u, hu, hev⟩ := (broker_run h).exists_recorded
  have htrace : u.trace.flatMap (·.events) = (brokerWorld w).trace := congrArg World.trace hev
  refine List.Sublist.trans ?_ (sent_published h o topic p)
  rw [gotFrom_events, ← htrace, ← eventsTo_putOn]
  refine List.Sublist.filterMap _ ?_
  refine (Broker.eventsTo_published hu p x).trans ?_
  rw [published_received, htrace]
  exact (published_sent h p).sublist

/-- From end to end: what the receiver `c` of a subscriber has been sent are values that clients have
published to its topic, and those of one publisher are in the order it published them, none of them
twice. -/
theorem events_published (h : (connections T).RunWhere (Carried T) w)
    (hreg : Event.client x (.registered o topic c) ∈ w.trace) :
    ∃ got : List (ClientId × Value),
      got.map Prod.snd = IpcClient.sentTo c (clientWorld w x).trace ∧
        ∀ p, (gotFrom p got).Sublist (IpcClient.publishes o topic (clientWorld w p).trace) := by
  obtain ⟨qs, hqs, -, -, hread⟩ := events_read h x
  have hregistered : ⟨o, topic, c⟩ ∈ IpcClient.registrations (clientWorld w x).trace :=
    IpcClient.mem_registrations.mpr (List.mem_filterMap.mpr ⟨_, hreg, if_pos rfl⟩)
  have hsent := IpcClient.sent_sublist (client_run h x) hregistered
  rw [← hread] at hsent
  obtain ⟨got, hgot, hmap⟩ := List.sublist_map_iff.mp hsent
  refine ⟨got, hmap.symm, fun p => ?_⟩
  refine List.Sublist.trans ?_ (gotFrom_published h p x o topic)
  exact ((hgot.trans (hqs.sublist.filterMap _)).filter _).map _

/-! A client subscribes, and another one publishes. -/

def widePipes : Transport := ⟨IpcClient.textJson, textValues, fun _ => 64, fun _ => 64⟩

def knownRequest : RpcRequest → Bool
  | .publish "o" "t" .null | .subscribe "o" "t" => true
  | _ => false

def knownPacket : Packet → Bool
  | .response (.event "o" "t" .null) | .response (.subscribed "o" "t") => true
  | _ => false

theorem known_sendable {r : RpcRequest} (h : knownRequest r = true) : Sendable widePipes r := by
  unfold knownRequest at h
  split at h
  · rfl
  · rfl
  · cases h

theorem readable_response {r : RpcResponse} (hne : widePipes.text.encode (.response r) ≠ [])
    (hr : widePipes.json.fromSlice (widePipes.text.encode (.response r)) = .ok r) :
    Readable widePipes (.response r) := by
  refine ⟨hne, fun r' => ⟨fun h => ?_, fun h => ?_⟩⟩
  · cases hr.symm.trans h
    rfl
  · cases h
    exact hr

theorem known_readable {p : Packet} (h : knownPacket p = true) : Readable widePipes p := by
  unfold knownPacket at h
  split at h
  · exact readable_response (by decide) rfl
  · exact readable_response (by decide) rfl
  · cases h

def carriedTest (w : World Connections Event) : Action → Bool
  | .take x fault _ => fault.isNone && (w.state.client x).phase.held.isEmpty &&
    (w.state.client x).mailbox.head?.all fun msg => knownRequest msg.toWrite
  | .writerLoop x => (w.state.broker.channel x).head?.all knownPacket
  | .writeError _ => false
  | _ => true

theorem carried_of_test (w : World Connections Event) (a : Action) (h : carriedTest w a = true) :
    Carried widePipes w a := by
  refine ⟨?_, ?_, ?_⟩
  · rintro x fault n rfl
    simp only [carriedTest, Bool.and_eq_true, Option.isNone_iff_eq_none, List.isEmpty_iff] at h
    obtain ⟨⟨hfault, hheld⟩, hknown⟩ := h
    refine ⟨hfault, hheld, fun msg hmsg => ?_⟩
    rw [Option.mem_def.mp hmsg] at hknown
    exact known_sendable hknown
  · rintro x rfl
    cases h
  · rintro x rfl p hp
    simp only [carriedTest, Option.mem_def.mp hp] at h
    exact known_readable h

def subscribeBoth (x p : ClientId) : List Action :=
  [.broker (.connect x), .broker (.connect p), .client x (.issue (.subscribe "o" "t")),
    .take x none 0, .write x 49, .readerLoop x] ++ List.replicate 3 (.broker (.handler x)) ++
    [.writerLoop x, .writerWrite x 50, .client x .poll]

def publishRead (x p : ClientId) : List Action :=
  publish p 59 ++ [.readerLoop p, .broker (.snapshot p [x]), .broker (.handler p),
    .broker (.handler p), .writerLoop x, .writerWrite x 57, .client x .poll]

def publishedTo : List Action :=
  subscribeBoth Broker.callerC Broker.callerD ++ publishRead Broker.callerC Broker.callerD

def registers (x : ClientId) : Event → Bool
  | .client y (.registered "o" "t" 0) => y = x
  | _ => false

theorem registered_of_any {tr : List Event} {x : ClientId} (h : tr.any (registers x) = true) :
    Event.client x (.registered "o" "t" 0) ∈ tr := by
  obtain ⟨e, he, hreg⟩ := List.any_eq_true.mp h
  unfold registers at hreg
  split at hreg
  · next y => exact of_decide_eq_true hreg ▸ he
  · cases hreg

theorem events_published_once :
    ∃ w got, (connections widePipes).exec (fun w a => carriedTest w a = true)
        ⟨Connections.initial [], []⟩ publishedTo = some w ∧
      (IpcClient.sentTo 0 (clientWorld w Broker.callerC).trace).length = 1 ∧
      got.map Prod.snd = IpcClient.sentTo 0 (clientWorld w Broker.callerC).trace ∧
      ∀ p, (gotFrom p got).Sublist (IpcClient.publishes "o" "t" (clientWorld w p).trace) := by
  obtain ⟨w, hr, he, ht⟩ := System.RunWhere.of_exec_any (connections widePipes)
    (fun w a => carriedTest w a = true) publishedTo
    (fun w => w.trace.any (registers Broker.callerC) &&
      (IpcClient.sentTo 0 (clientWorld w Broker.callerC).trace).length = 1) ⟨[], rfl⟩ (by decide)
  rw [Bool.and_eq_true, decide_eq_true_eq] at ht
  obtain ⟨got, hgot, hfrom⟩ :=
    events_published (hr.mono carried_of_test) (registered_of_any ht.1)
  exact ⟨w, got, he, ht.2, hgot, hfrom⟩

end Connections
end IpcBroker
