import IpcBroker.Connections.Connections

/-! Inversion of the steps of the connections, and their parts: by itself the broker runs as a
broker, and every client as a client. -/

namespace IpcBroker.Connections
open Function Foundation

inductive Transition (T : Transport) (s : Connections) : Action → Connections → List Event → Prop
  | broker {a b es} (ha : s.brokerAlone a = true) (hb : s.broker.step a = some (b, es)) :
      Transition T s (.broker a) { s with broker := b } (es.map .broker)
  | client {x a c es} (ha : s.clientAlone x a = true)
      (hc : (s.client x).step T.json a = some (c, es)) :
      Transition T s (.client x a) { s with client := update s.client x c } (es.map (.client x))
  | take {x fault n msg rest c es} (hw : s.writing x = []) (hm : (s.client x).mailbox = msg :: rest)
      (hc : (s.client x).step T.json (.take fault) = some (c, es)) :
      Transition T s (.take x fault n)
        { s with
          client := update s.client x c
          writing := update s.writing x (msg.bytes T.json fault n) } (es.map (.client x))
  | write {x n} (hn : n ≤ (s.writing x).length) (hroom : (s.sent x).length + n ≤ T.toBroker x) :
      Transition T s (.write x n)
        { s with
          sent := update s.sent x (s.sent x ++ (s.writing x).take n)
          writing := update s.writing x ((s.writing x).drop n) } []
  | writeError {x} (hup : (s.client x).hungUp.isSome = true) :
      Transition T s (.writeError x) { s with writing := update s.writing x [] } []
  | readPending {x reading} (hx : s.broker.phase x = .reading)
      (hr : (s.reading x).poll (s.sent x) = .pending reading) :
      Transition T s (.readerLoop x)
        { s with reading := update s.reading x reading, sent := update s.sent x [] } []
  | readPacket {x data rest b es} (hx : s.broker.phase x = .reading)
      (hr : (s.reading x).poll (s.sent x) = .ready (.ok data) rest)
      (hb : s.broker.step (.receive x (T.text.decode data)) = some (b, es)) :
      Transition T s (.readerLoop x)
        { s with
          broker := b
          reading := update s.reading x .start
          sent := update s.sent x rest } (es.map .broker)
  | readFailed {x e rest b es} (hx : s.broker.phase x = .reading)
      (hr : (s.reading x).poll (s.sent x) = .ready (.error e) rest)
      (hb : s.broker.step (.readError x) = some (b, es)) :
      Transition T s (.readerLoop x) { s with broker := b, sent := update s.sent x rest }
        (es.map .broker)
  | writerLoop {x msg rest b es c es'} (hidle : (s.client x).coming = [])
      (hm : s.broker.channel x = msg :: rest) (hb : s.broker.step (.write x) = some (b, es))
      (hc : (s.client x).step T.json (.write (T.text.encode msg)) = some (c, es')) :
      Transition T s (.writerLoop x)
        { s with broker := b, client := update s.client x c }
        (es'.map (.client x) ++ es.map .broker)
  | writerWrite {x n c es} (hw : s.broker.writing x = true) (hn : n ≤ (s.client x).coming.length)
      (hroom : (s.client x).arrived.length + n ≤ T.toClient x)
      (hc : (s.client x).step T.json (.arrive n) = some (c, es)) :
      Transition T s (.writerWrite x n) { s with client := update s.client x c } (es.map (.client x))

variable {T : Transport} {s s' : Connections} {a : Action} {es : List Event} {x y : ClientId}
  {w w' : World Connections Event}

theorem stepBroker_some {b : IpcBroker.Action} (h : s.stepBroker b = some (s', es)) :
    ∃ t es', s.broker.step b = some (t, es') ∧ s' = { s with broker := t } ∧
      es = es'.map .broker := by
  obtain ⟨⟨t, es'⟩, ht, hpair⟩ := Option.map_eq_some_iff.mp h
  cases hpair
  exact ⟨t, es', ht, rfl, rfl⟩

theorem stepClient_some {c : IpcClient.Action} (h : s.stepClient T x c = some (s', es)) :
    ∃ t es', (s.client x).step T.json c = some (t, es') ∧
      s' = { s with client := update s.client x t } ∧ es = es'.map (.client x) := by
  obtain ⟨⟨t, es'⟩, ht, hpair⟩ := Option.map_eq_some_iff.mp h
  cases hpair
  exact ⟨t, es', ht, rfl, rfl⟩

theorem readerLoop_transition (h : s.readerLoop T x = some (s', es)) :
    Transition T s (.readerLoop x) s' es := by
  unfold readerLoop at h
  split at h
  · next hx =>
    split at h
    · next reading hr =>
      obtain ⟨rfl, rfl⟩ := Prod.mk.inj (Option.some.inj h)
      exact .readPending hx hr
    · next data rest hr =>
      obtain ⟨t, es', ht, rfl, rfl⟩ := stepBroker_some h
      exact .readPacket hx hr ht
    · next e rest hr =>
      obtain ⟨t, es', ht, rfl, rfl⟩ := stepBroker_some h
      exact .readFailed hx hr ht
  · cases h

theorem writerLoop_transition (h : s.writerLoop T x = some (s', es)) :
    Transition T s (.writerLoop x) s' es := by
  unfold writerLoop at h
  split at h
  · next msg rest hidle hm =>
    obtain ⟨⟨s₁, es₁⟩, h₁, hrest⟩ := Option.bind_eq_some_iff.mp h
    obtain ⟨⟨s₂, es₂⟩, h₂, hpair⟩ := Option.map_eq_some_iff.mp hrest
    obtain ⟨b, es, hb, rfl, rfl⟩ := stepBroker_some h₁
    obtain ⟨c, es', hc, rfl, rfl⟩ := stepClient_some h₂
    cases hpair
    exact .writerLoop hidle hm hb hc
  · cases h

theorem step_transition (h : s.step T a = some (s', es)) : Transition T s a s' es := by
  cases a with
  | broker b =>
    simp only [step] at h
    split_ifs at h with ha
    obtain ⟨t, es', ht, rfl, rfl⟩ := stepBroker_some h
    exact .broker ha ht
  | client x c =>
    simp only [step] at h
    split_ifs at h with ha
    obtain ⟨t, es', ht, rfl, rfl⟩ := stepClient_some h
    exact .client ha ht
  | take x fault n =>
    simp only [step] at h
    split at h
    · next msg rest hw hm =>
      obtain ⟨t, es', ht, rfl, rfl⟩ := stepClient_some h
      exact .take hw hm ht
    · cases h
  | write x n =>
    simp only [step] at h
    split_ifs at h with hroom
    obtain ⟨rfl, rfl⟩ := Prod.mk.inj (Option.some.inj h)
    exact .write hroom.1 hroom.2
  | writeError x =>
    simp only [step] at h
    split_ifs at h with hup
    obtain ⟨rfl, rfl⟩ := Prod.mk.inj (Option.some.inj h)
    exact .writeError hup
  | readerLoop x => exact readerLoop_transition h
  | writerLoop x => exact writerLoop_transition h
  | writerWrite x n =>
    simp only [step] at h
    split_ifs at h with hroom
    obtain ⟨t, es', ht, rfl, rfl⟩ := stepClient_some h
    exact .writerWrite hroom.1 hroom.2.1 hroom.2.2 ht

theorem next_transition (h : (connections T).next w a = some w') :
    ∃ es, Transition T w.state a w'.state es ∧ w'.trace = es ++ w.trace := by
  obtain ⟨es, hs, htr⟩ := System.next_eq_some.mp h
  exact ⟨es, step_transition hs, htr⟩

/-! The parts of a run. -/

def Event.broker? : Event → Option IpcBroker.Event
  | .broker e => some e
  | .client _ _ => none

def Event.client? (x : ClientId) : Event → Option IpcClient.Event
  | .broker _ => none
  | .client y e => if y = x then some e else none

def brokerWorld (w : World Connections Event) : World Broker IpcBroker.Event :=
  ⟨w.state.broker, w.trace.filterMap Event.broker?⟩

def clientWorld (w : World Connections Event) (x : ClientId) : World IpcClient IpcClient.Event :=
  ⟨w.state.client x, w.trace.filterMap (Event.client? x)⟩

theorem broker?_broker (es : List IpcBroker.Event) :
    (es.map Event.broker).filterMap Event.broker? = es := by
  rw [List.filterMap_map]
  exact List.filterMap_some

theorem broker?_client (es : List IpcClient.Event) (x : ClientId) :
    (es.map (Event.client x)).filterMap Event.broker? = [] := by
  rw [List.filterMap_map]
  exact List.filterMap_eq_nil_iff.mpr fun _ _ => rfl

theorem client?_broker (es : List IpcBroker.Event) (x : ClientId) :
    (es.map Event.broker).filterMap (Event.client? x) = [] := by
  rw [List.filterMap_map]
  exact List.filterMap_eq_nil_iff.mpr fun _ _ => rfl

theorem client?_client (es : List IpcClient.Event) (x y : ClientId) :
    (es.map (Event.client y)).filterMap (Event.client? x) = if y = x then es else [] := by
  rw [List.filterMap_map]
  split_ifs with hyx
  · refine (List.filterMap_congr fun e _ => ?_).trans List.filterMap_some
    exact if_pos hyx
  · exact List.filterMap_eq_nil_iff.mpr fun _ _ => if_neg hyx

theorem Transition.brokerStep (h : Transition T s a s' es) :
    (s'.broker = s.broker ∧ es.filterMap Event.broker? = []) ∨
      ∃ b, s.broker.step b = some (s'.broker, es.filterMap Event.broker?) := by
  cases h with
  | broker ha hb => exact .inr ⟨_, by rw [broker?_broker]; exact hb⟩
  | client | take | writerWrite => exact .inl ⟨rfl, broker?_client _ _⟩
  | write | writeError | readPending => exact .inl ⟨rfl, rfl⟩
  | readPacket hx hr hb | readFailed hx hr hb => exact .inr ⟨_, by rw [broker?_broker]; exact hb⟩
  | writerLoop hidle hm hb hc =>
    rw [List.filterMap_append, broker?_client, broker?_broker]
    exact .inr ⟨_, hb⟩

theorem clientStep_update {c : IpcClient} {b : IpcClient.Action} {es' : List IpcClient.Event}
    (hc : (s.client y).step T.json b = some (c, es')) (x : ClientId) :
    (update s.client y c x = s.client x ∧ (es'.map (Event.client y)).filterMap (Event.client? x) = []) ∨
      ∃ b, (s.client x).step T.json b =
        some (update s.client y c x, (es'.map (Event.client y)).filterMap (Event.client? x)) := by
  rw [client?_client]
  by_cases hxy : y = x
  · subst hxy
    rw [update_self, if_pos rfl]
    exact .inr ⟨b, hc⟩
  · rw [update_of_ne (Ne.symm hxy), if_neg hxy]
    exact .inl ⟨rfl, rfl⟩

theorem Transition.clientStep (h : Transition T s a s' es) (x : ClientId) :
    (s'.client x = s.client x ∧ es.filterMap (Event.client? x) = []) ∨
      ∃ b, (s.client x).step T.json b = some (s'.client x, es.filterMap (Event.client? x)) := by
  cases h with
  | broker ha hb => exact .inl ⟨rfl, client?_broker _ _⟩
  | client _ hc | take _ _ hc | writerWrite _ _ _ hc => exact clientStep_update hc x
  | write | writeError | readPending => exact .inl ⟨rfl, rfl⟩
  | readPacket | readFailed => exact .inl ⟨rfl, client?_broker _ _⟩
  | writerLoop hidle hm hb hc =>
    rw [List.filterMap_append, client?_broker, List.append_nil]
    exact clientStep_update hc x

section Runs
variable {ok : World Connections Event → Action → Prop}

theorem broker_run (h : (connections T).RunWhere ok w) : IpcBroker.broker.Run (brokerWorld w) := by
  refine h.invariant (I := fun w => IpcBroker.broker.Run (brokerWorld w)) ?_ ?_
  · rintro _ ⟨items, rfl⟩
    exact .start ⟨items, rfl⟩
  · intro w a w' _ hI _ hn
    obtain ⟨es, ht, htr⟩ := next_transition hn
    have hev : w'.trace.filterMap Event.broker? =
        es.filterMap Event.broker? ++ w.trace.filterMap Event.broker? := by
      rw [htr, List.filterMap_append]
    obtain ⟨hb, hes⟩ | ⟨b, hb⟩ := ht.brokerStep
    · rw [brokerWorld, hev, hes, hb]
      exact hI
    · exact .step hI trivial (System.next_eq_some.mpr ⟨_, hb, hev⟩)

theorem client_run (h : (connections T).RunWhere ok w) (x : ClientId) :
    (IpcClient.client T.json).Run (clientWorld w x) := by
  refine h.invariant (I := fun w => (IpcClient.client T.json).Run (clientWorld w x)) ?_ ?_
  · rintro _ ⟨items, rfl⟩
    exact .start rfl
  · intro w a w' _ hI _ hn
    obtain ⟨es, ht, htr⟩ := next_transition hn
    have hev : w'.trace.filterMap (Event.client? x) =
        es.filterMap (Event.client? x) ++ w.trace.filterMap (Event.client? x) := by
      rw [htr, List.filterMap_append]
    obtain ⟨hc, hes⟩ | ⟨b, hc⟩ := ht.clientStep x
    · rw [clientWorld, hev, hes, hc]
      exact hI
    · exact .step hI trivial (System.next_eq_some.mpr ⟨_, hc, hev⟩)

end Runs
end IpcBroker.Connections
