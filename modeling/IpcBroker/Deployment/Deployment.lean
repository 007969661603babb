import IpcBroker.Broker.Transition
import IpcBroker.Foundation.Simulation
import IpcBroker.Protocol.Json
import IpcBroker.Worker.RunWorker

/-! The broker with the workers and the programs connected to it. Between the two ends of a
connection are the packets that one end has written and the other has not read. -/

namespace IpcBroker
open Function Foundation

def JsonText.worker (json : JsonText) : WorkerJson where
  toVec p := .ok (json.encode p)
  fromSlice data := (json.fromSlice data).bind RpcRequest.deserialize

def Worker.Outcome.isEnded : Worker.Outcome → Bool
  | .serving => false
  | .ended _ => true

namespace Deployment

/-- The objects that `run_worker` serves on a connection, by the keys of the map in its order;
`none` for a program that sends requests only, as an `IPCClient` does. -/
structure Setup where
  text : JsonText
  objects : ClientId → Option (List String)

inductive Event
  | broker (e : IpcBroker.Event)
  | executed (x : ClientId) (k : Call) (value : Value)

/-- `register` and `work` are the turns of a worker, each with the error of the transport, if any;
`stop` is the end of its loop by a signal or a lost connection. -/
inductive Action
  | broker (a : IpcBroker.Action)
  | request (x : ClientId) (r : RpcRequest)
  | read (x : ClientId)
  | register (x : ClientId) (fault : Option String)
  | work (x : ClientId) (value : Value) (fault : Option String)
  | stop (x : ClientId)
  | readerLoop (x : ClientId)
  | writerLoop (x : ClientId)

end Deployment

/-- `unregistered` has the names that the worker has still to register. -/
structure Deployment where
  broker : Broker
  toBroker : ClientId → List (List UInt8)
  toClient : ClientId → List (List UInt8)
  unregistered : ClientId → List String
  stopped : ClientId → Bool

namespace Deployment
variable (T : Setup) (s : Deployment)

def initial (items : List ServiceActivationFile) : Deployment where
  broker := .initial items
  toBroker := fun _ => []
  toClient := fun _ => []
  unregistered := fun x => (T.objects x).getD []
  stopped := fun _ => false

def brokerAlone : IpcBroker.Action → Bool
  | .receive _ _ | .write _ => false
  | _ => true

def stepBroker (a : IpcBroker.Action) : Option (Deployment × List Event) :=
  (s.broker.step a).map fun r => ({ s with broker := r.1 }, r.2.map .broker)

/-- `run_worker` registers the next object of its map. -/
def register (x : ClientId) (fault : Option String) : Option (Deployment × List Event) :=
  match s.stopped x, s.unregistered x with
  | false, name :: names =>
    let data := T.text.encode (.request (.registerObject name))
    match writePacket data fault with
    | .ok _ =>
      some ({ s with
        unregistered := update s.unregistered x names
        toBroker := update s.toBroker x (s.toBroker x ++ [data]) }, [])
    | .error _ => some ({ s with stopped := update s.stopped x true }, [])
  | _, _ => none

/-- `run_worker` handles the next packet; `value` is what the object returns if it is called. -/
def work (x : ClientId) (value : Value) (fault : Option String) : Option (Deployment × List Event) :=
  match T.objects x, s.stopped x, s.unregistered x, s.toClient x with
  | some objects, false, [], data :: rest =>
    let r := Worker.handle T.text.worker objects data value fault
    some ({ s with
        toClient := update s.toClient x rest
        toBroker := update s.toBroker x
          (s.toBroker x ++ r.1.map fun resp => T.text.encode (.response resp))
        stopped := update s.stopped x r.2.isEnded },
      (Worker.knownCall T.text.worker objects data).toList.map fun k => .executed x k value)
  | _, _, _, _ => none

/-- `reader_loop` reads the next packet. -/
def readerLoop (x : ClientId) : Option (Deployment × List Event) :=
  match s.toBroker x with
  | data :: rest =>
    { s with toBroker := update s.toBroker x rest }.stepBroker (.receive x (T.text.decode data))
  | [] => none

/-- `writer_loop` writes the next message of the channel. -/
def writerLoop (x : ClientId) : Option (Deployment × List Event) :=
  match s.broker.channel x with
  | msg :: _ =>
    let data := T.text.encode msg
    if data.length ≤ bufSize then
      { s with toClient := update s.toClient x (s.toClient x ++ [data]) }.stepBroker (.write x)
    else none
  | [] => none

def step : Action → Option (Deployment × List Event)
  | .broker a => if brokerAlone a then s.stepBroker a else none
  | .request x r =>
    let data := T.text.encode (.request r)
    if T.objects x = none ∧ data.length ≤ bufSize then
      some ({ s with toBroker := update s.toBroker x (s.toBroker x ++ [data]) }, [])
    else none
  | .read x =>
    if T.objects x = none then
      some ({ s with toClient := update s.toClient x (s.toClient x).tail }, [])
    else none
  | .register x fault => s.register T x fault
  | .work x value fault => s.work T x value fault
  | .stop x => some ({ s with stopped := update s.stopped x true }, [])
  | .readerLoop x => s.readerLoop T x
  | .writerLoop x => s.writerLoop T x

end Deployment

/-- The whole as one system: every order of the steps of the broker, the workers and the other
programs. -/
def deployment (T : Deployment.Setup) : System Deployment Deployment.Action Deployment.Event where
  initial s := ∃ items, s = Deployment.initial T items
  step := Deployment.step T

namespace Deployment

inductive Transition (T : Setup) (s : Deployment) : Action → Deployment → List Event → Prop
  | broker {a b es} (ha : brokerAlone a = true) (hb : s.broker.step a = some (b, es)) :
      Transition T s (.broker a) { s with broker := b } (es.map .broker)
  | request {x r} (hx : T.objects x = none) (hsize : (T.text.encode (.request r)).length ≤ bufSize) :
      Transition T s (.request x r)
        { s with toBroker := update s.toBroker x (s.toBroker x ++ [T.text.encode (.request r)]) } []
  | read {x} (hx : T.objects x = none) :
      Transition T s (.read x) { s with toClient := update s.toClient x (s.toClient x).tail } []
  | register {x fault name names bytes} (hs : s.stopped x = false)
      (hn : s.unregistered x = name :: names)
      (hw : writePacket (T.text.encode (.request (.registerObject name))) fault = .ok bytes) :
      Transition T s (.register x fault)
        { s with
          unregistered := update s.unregistered x names
          toBroker := update s.toBroker x
            (s.toBroker x ++ [T.text.encode (.request (.registerObject name))]) } []
  | registerFailed {x fault} :
      Transition T s (.register x fault) { s with stopped := update s.stopped x true } []
  | work {x value fault objects data rest} (hx : T.objects x = some objects)
      (hs : s.stopped x = false) (hn : s.unregistered x = []) (hd : s.toClient x = data :: rest) :
      Transition T s (.work x value fault)
        { s with
          toClient := update s.toClient x rest
          toBroker := update s.toBroker x (s.toBroker x ++
            (Worker.handle T.text.worker objects data value fault).1.map
              fun resp => T.text.encode (.response resp))
          stopped := update s.stopped x
            (Worker.handle T.text.worker objects data value fault).2.isEnded }
        ((Worker.knownCall T.text.worker objects data).toList.map fun k => .executed x k value)
  | stop {x} : Transition T s (.stop x) { s with stopped := update s.stopped x true } []
  | readerLoop {x data rest b es} (hd : s.toBroker x = data :: rest)
      (hb : s.broker.step (.receive x (T.text.decode data)) = some (b, es)) :
      Transition T s (.readerLoop x)
        { s with broker := b, toBroker := update s.toBroker x rest } (es.map .broker)
  | writerLoop {x msg rest b es} (hm : s.broker.channel x = msg :: rest)
      (hb : s.broker.step (.write x) = some (b, es)) :
      Transition T s (.writerLoop x)
        { s with
          broker := b
          toClient := update s.toClient x (s.toClient x ++ [T.text.encode msg]) } (es.map .broker)

variable {T : Setup} {s s' : Deployment} {a : Action} {es : List Event} {x : ClientId}
  {w w' : World Deployment Event}

theorem stepBroker_some {b : IpcBroker.Action} (h : s.stepBroker b = some (s', es)) :
    ∃ t es', s.broker.step b = some (t, es') ∧ s' = { s with broker := t } ∧
      es = es'.map .broker := by
  obtain ⟨⟨t, es'⟩, ht, hpair⟩ := Option.map_eq_some_iff.mp h
  cases hpair
  exact ⟨t, es', ht, rfl, rfl⟩

theorem register_transition {fault : Option String} (h : s.register T x fault = some (s', es)) :
    Transition T s (.register x fault) s' es := by
  unfold register at h
  split at h
  · next name names hs hn =>
    simp only at h
    split at h
    · next bytes hw =>
      obtain ⟨rfl, rfl⟩ := Prod.mk.inj (Option.some.inj h)
      exact .register hs hn hw
    · obtain ⟨rfl, rfl⟩ := Prod.mk.inj (Option.some.inj h)
      exact .registerFailed
  · cases h

theorem work_transition {value : Value} {fault : Option String}
    (h : s.work T x value fault = some (s', es)) : Transition T s (.work x value fault) s' es := by
  unfold work at h
  split at h
  · next objects data rest hx hs hn hd =>
    obtain ⟨rfl, rfl⟩ := Prod.mk.inj (Option.some.inj h)
    exact .work hx hs hn hd
  · cases h

theorem step_transition (h : s.step T a = some (s', es)) : Transition T s a s' es := by
  cases a with
  | broker b =>
    simp only [step] at h
    split_ifs at h with ha
    obtain ⟨t, es', ht, rfl, rfl⟩ := stepBroker_some h
    exact .broker ha ht
  | request x r =>
    simp only [step] at h
    split_ifs at h with hx
    obtain ⟨rfl, rfl⟩ := Prod.mk.inj (Option.some.inj h)
    exact .request hx.1 hx.2
  | read x =>
    simp only [step] at h
    split_ifs at h with hx
    obtain ⟨rfl, rfl⟩ := Prod.mk.inj (Option.some.inj h)
    exact .read hx
  | register x fault => exact register_transition h
  | work x value fault => exact work_transition h
  | stop x =>
    obtain ⟨rfl, rfl⟩ := Prod.mk.inj (Option.some.inj h)
    exact .stop
  | readerLoop x =>
    simp only [step, readerLoop] at h
    split at h
    · next data rest hd =>
      obtain ⟨t, es', ht, rfl, rfl⟩ := stepBroker_some h
      exact .readerLoop hd ht
    · cases h
  | writerLoop x =>
    simp only [step, writerLoop] at h
    split at h
    · next msg rest hm =>
      split_ifs at h
      obtain ⟨t, es', ht, rfl, rfl⟩ := stepBroker_some h
      exact .writerLoop hm ht
    · cases h

theorem next_transition (h : (deployment T).next w a = some w') :
    ∃ es, Transition T w.state a w'.state es ∧ w'.trace = es ++ w.trace := by
  obtain ⟨es, hs, htr⟩ := System.next_eq_some.mp h
  exact ⟨es, step_transition hs, htr⟩

/-! The broker in a run of the whole. -/

def Event.broker? : Event → Option IpcBroker.Event
  | .broker e => some e
  | .executed _ _ _ => none

def brokerWorld (w : World Deployment Event) : World Broker IpcBroker.Event :=
  ⟨w.state.broker, w.trace.filterMap Event.broker?⟩

theorem broker?_broker (es : List IpcBroker.Event) :
    (es.map Event.broker).filterMap Event.broker? = es := by
  rw [List.filterMap_map]
  exact List.filterMap_some

theorem mem_broker {e : IpcBroker.Event} {tr : List Event} :
    e ∈ tr.filterMap Event.broker? ↔ Event.broker e ∈ tr := by
  rw [List.mem_filterMap]
  constructor
  · rintro ⟨e', he', h⟩
    cases e' with
    | broker e'' =>
      cases h
      exact he'
    | executed => cases h
  · exact fun h => ⟨_, h, rfl⟩

def brokerAction? (T : Setup) (s : Deployment) : Action → Option IpcBroker.Action
  | .broker a => if brokerAlone a then some a else none
  | .readerLoop x => (s.toBroker x).head?.map fun data => .receive x (T.text.decode data)
  | .writerLoop x => some (.write x)
  | _ => none

theorem Transition.brokerStep (h : Transition T s a s' es) :
    (s'.broker = s.broker ∧ es.filterMap Event.broker? = []) ∨
      ∃ b, brokerAction? T s a = some b ∧
        s.broker.step b = some (s'.broker, es.filterMap Event.broker?) := by
  cases h with
  | broker ha hb => exact .inr ⟨_, if_pos ha, by rw [broker?_broker]; exact hb⟩
  | readerLoop hd hb =>
    exact .inr ⟨_, by rw [brokerAction?, hd]; rfl, by rw [broker?_broker]; exact hb⟩
  | writerLoop hm hb => exact .inr ⟨_, rfl, by rw [broker?_broker]; exact hb⟩
  | work =>
    refine .inl ⟨rfl, ?_⟩
    rw [List.filterMap_map]
    exact List.filterMap_eq_nil_iff.mpr fun _ _ => rfl
  | _ => exact .inl ⟨rfl, rfl⟩

theorem broker_run {ok : World Deployment Event → Action → Prop}
    {ok' : World Broker IpcBroker.Event → IpcBroker.Action → Prop}
    (hok : ∀ w a b, (deployment T).RunWhere ok w → IpcBroker.broker.RunWhere ok' (brokerWorld w) → ok w a →
      brokerAction? T w.state a = some b → ok' (brokerWorld w) b)
    (h : (deployment T).RunWhere ok w) : IpcBroker.broker.RunWhere ok' (brokerWorld w) := by
  refine h.mapped brokerWorld ?_ ?_
  · rintro _ ⟨items, rfl⟩
    exact ⟨_, ⟨items, rfl⟩, rfl⟩
  · intro w a w' hr hb ha hn
    obtain ⟨es, ht, htr⟩ := next_transition hn
    have hev : w'.trace.filterMap Event.broker? =
        es.filterMap Event.broker? ++ w.trace.filterMap Event.broker? := by
      rw [htr, List.filterMap_append]
    obtain ⟨hsame, hes⟩ | ⟨b, hact, hstep⟩ := ht.brokerStep
    · have heq : brokerWorld w' = brokerWorld w := by
        rw [brokerWorld, hev, hes, hsame]
        rfl
      exact heq ▸ .stay
    · exact .step (hok w a b hr hb ha hact) (System.next_eq_some.mpr ⟨_, hstep, hev⟩)

end Deployment
end IpcBroker
