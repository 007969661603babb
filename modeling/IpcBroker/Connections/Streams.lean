import IpcBroker.Broker.ChannelOrder
import IpcBroker.Client.RequestOrder
import IpcBroker.Connections.Components
import IpcBroker.Foundation.Simulation

/-! What the connections carry: the packets that a client reads are the first messages of its channel,
and the requests that the broker reads are the first that the actor of the client has written. -/

namespace IpcBroker
open Function Foundation

def Event.receivedFrom? (x : ClientId) : Event → Option Packet
  | .received y p => if y = x then some p else none
  | _ => none

def receivedFrom (tr : List Event) (x : ClientId) : List Packet :=
  chronicle (Event.receivedFrom? x) tr

theorem receivedFrom_append (es tr : List Event) (x : ClientId) :
    receivedFrom (es ++ tr) x = receivedFrom tr x ++ receivedFrom es x := chronicle_append

theorem receivedFrom_none {es : List Event} {x : ClientId}
    (h : ∀ p, Event.received x p ∉ es) : receivedFrom es x = [] := by
  refine chronicle_none fun e he => ?_
  unfold Event.receivedFrom?
  split
  · next y p =>
    refine if_neg fun hy => ?_
    exact h p (hy ▸ he)
  · rfl

namespace IpcClient
variable {json : SerdeJson} {s s' : IpcClient} {a : Action} {es : List Event}

theorem write_events {payload : List UInt8} (h : s.step json (.write payload) = some (s', es)) :
    es = [.incoming payload] := by
  cases step_transition h with
  | write => rfl

theorem Transition.written_none (h : Transition json s a s' es) (ha : ∀ payload, a ≠ .write payload) :
    IpcClient.written es = [] := by
  cases h with
  | write => exact absurd rfl (ha _)
  | issueEnded =>
    refine written_calm fun e he => ?_
    obtain ⟨req, respTx, rfl⟩ := abandon_event (Option.mem_toList.mp he)
    rfl
  | subscribe => exact written_calm subscribe_calm
  | pollPacket =>
    rw [written_append, written_calm readArm_calm]
    rfl
  | exit => exact written_calm exit_calm
  | _ => rfl

theorem Transition.sent_none (h : Transition json s a s' es) (ha : ∀ fault, a ≠ .take fault) :
    sentRequests es = [] := by
  cases h with
  | requestFailed | requestAwaits | requestDone | subscribe => exact absurd rfl (ha _)
  | issueEnded =>
    refine chronicle_none fun e he => ?_
    obtain ⟨req, respTx, rfl⟩ := abandon_event (Option.mem_toList.mp he)
    rfl
  | pollPacket =>
    rw [sentRequests_append, (readArm_answered _ _ _).2.2.1]
    rfl
  | exit => exact exit_quiet.2
  | _ => rfl

end IpcClient

namespace Connections

/-- The text of a packet is not empty, and a client reads it as the response that it is, if any. -/
def Readable (T : Transport) (p : Packet) : Prop :=
  T.text.encode p ≠ [] ∧ ∀ r, T.json.fromSlice (T.text.encode p) = .ok r ↔ p = .response r

/-- The broker reads the text of a request as what it is. -/
def Sendable (T : Transport) (r : RpcRequest) : Prop :=
  T.text.decode (T.json.toVec r) = some (.request r)

/-- No write of a client fails, a message is taken only while the read of `select!` has taken no
byte, and what is written can be read. -/
structure Carried (T : Transport) (w : World Connections Event) (a : Action) : Prop where
  take : ∀ x fault n, a = .take x fault n → fault = none ∧ (w.state.client x).phase.held = [] ∧
    ∀ msg ∈ (w.state.client x).mailbox.head?, Sendable T msg.toWrite
  write : ∀ x, a ≠ .writeError x
  writerLoop : ∀ x, a = .writerLoop x → ∀ p ∈ (w.state.broker.channel x).head?, Readable T p

def clientAction? (T : Transport) (s : Connections) (x : ClientId) :
    Action → Option IpcClient.Action
  | .client y a => if y = x then some a else none
  | .take y fault _ => if y = x then some (.take fault) else none
  | .writerLoop y =>
    if y = x then (s.broker.channel y).head?.map fun p => .write (T.text.encode p) else none
  | .writerWrite y n => if y = x then some (.arrive n) else none
  | _ => none

/-- The requests that the actor of `x` has written are those that the broker has read and `later`,
whose frames are on the way. -/
structure RequestsCarried (T : Transport) (w : World Connections Event) (x : ClientId)
    (later : List RpcRequest) : Prop where
  sent : (IpcClient.sentRequests (clientWorld w x).trace).map Packet.request =
    receivedFrom (brokerWorld w).trace x ++ later.map Packet.request
  bytes : frames (later.map T.json.toVec) =
    (w.state.reading x).held ++ (w.state.sent x ++ w.state.writing x)
  size : ∀ r ∈ later, (T.json.toVec r).length ≤ bufSize
  sendable : ∀ r ∈ later, Sendable T r

/-- The payloads that arrive at `x` are the texts of the messages that its writer loop has written,
and they can be read. -/
structure PacketsCarried (T : Transport) (w : World Connections Event) (x : ClientId) : Prop where
  written : IpcClient.written (clientWorld w x).trace =
    (deliveredTo (brokerWorld w).trace x).map T.text.encode
  readable : ∀ p ∈ deliveredTo (brokerWorld w).trace x, Readable T p

variable {T : Transport} {s s' : Connections} {a : Action} {es : List Event} {x y : ClientId}
  {later : List RpcRequest} {w w' : World Connections Event}

/-! A client under a condition on its own steps. -/

theorem clientStep_taken {c : IpcClient} {b : IpcClient.Action} {es' : List IpcClient.Event}
    {q : Option IpcClient.Action} (hq : q = if y = x then some b else none)
    (hc : (s.client y).step T.json b = some (c, es')) :
    (update s.client y c x = s.client x ∧ (es'.map (Event.client y)).filterMap (Event.client? x) = []) ∨
      ∃ b, q = some b ∧ (s.client x).step T.json b =
        some (update s.client y c x, (es'.map (Event.client y)).filterMap (Event.client? x)) := by
  rw [client?_client]
  by_cases hxy : y = x
  · subst hxy
    rw [update_self, if_pos rfl]
    exact .inr ⟨b, hq.trans (if_pos rfl), hc⟩
  · rw [update_of_ne (Ne.symm hxy), if_neg hxy]
    exact .inl ⟨rfl, rfl⟩

theorem Transition.clientTaken (h : Transition T s a s' es) (x : ClientId) :
    (s'.client x = s.client x ∧ es.filterMap (Event.client? x) = []) ∨
      ∃ b, clientAction? T s x a = some b ∧
        (s.client x).step T.json b = some (s'.client x, es.filterMap (Event.client? x)) := by
  cases h with
  | broker ha hb => exact .inl ⟨rfl, client?_broker _ _⟩
  | client _ hc | take _ _ hc | writerWrite _ _ _ hc => exact clientStep_taken rfl hc
  | write | writeError | readPending => exact .inl ⟨rfl, rfl⟩
  | readPacket | readFailed => exact .inl ⟨rfl, client?_broker _ _⟩
  | @writerLoop y msg rest b es c es' hidle hm hb hc =>
    rw [List.filterMap_append, client?_broker, List.append_nil]
    exact clientStep_taken (by simp only [clientAction?, hm, List.head?_cons, Option.map_some]) hc

section Runs
variable {ok : World Connections Event → Action → Prop}

theorem broker_follows (hn : (connections T).next w a = some w') :
    IpcBroker.broker.StepOrStay (fun _ _ => True) (brokerWorld w) (brokerWorld w') := by
  obtain ⟨es, ht, htr⟩ := next_transition hn
  have hev : w'.trace.filterMap Event.broker? =
      es.filterMap Event.broker? ++ w.trace.filterMap Event.broker? := by
    rw [htr, List.filterMap_append]
  obtain ⟨hb, hes⟩ | ⟨b, hb⟩ := ht.brokerStep
  · have hsame : brokerWorld w' = brokerWorld w := by
      rw [brokerWorld, brokerWorld, hev, hes, hb]
      rfl
    rw [hsame]
    exact .stay
  · exact .step trivial (System.next_eq_some.mpr ⟨_, hb, hev⟩)

theorem client_follows {C : World IpcClient IpcClient.Event → IpcClient.Action → Prop}
    (hok : ∀ b, clientAction? T w.state x a = some b → C (clientWorld w x) b)
    (hn : (connections T).next w a = some w') :
    (IpcClient.client T.json).StepOrStay C (clientWorld w x) (clientWorld w' x) := by
  obtain ⟨es, ht, htr⟩ := next_transition hn
  have hev : w'.trace.filterMap (Event.client? x) =
      es.filterMap (Event.client? x) ++ w.trace.filterMap (Event.client? x) := by
    rw [htr, List.filterMap_append]
  obtain ⟨hc, hes⟩ | ⟨b, hb, hc⟩ := ht.clientTaken x
  · have hsame : clientWorld w' x = clientWorld w x := by
      rw [clientWorld, clientWorld, hev, hes, hc]
      rfl
    rw [hsame]
    exact .stay
  · exact .step (hok b hb) (System.next_eq_some.mpr ⟨_, hc, hev⟩)

theorem client_runWhere {C : World IpcClient IpcClient.Event → IpcClient.Action → Prop}
    (hok : ∀ w a w', ok w a → (connections T).next w a = some w' →
      ∀ b, clientAction? T w.state x a = some b → C (clientWorld w x) b)
    (h : (connections T).RunWhere ok w) : (IpcClient.client T.json).RunWhere C (clientWorld w x) := by
  refine h.mapped (fun w => clientWorld w x) ?_ ?_
  · rintro _ ⟨items, rfl⟩
    exact ⟨_, rfl, rfl⟩
  · exact fun w a w' _ _ ha hn => client_follows (hok w a w' ha hn) hn

theorem Carried.taken {fault : Option String} (hok : Carried T w a)
    (hn : (connections T).next w a = some w')
    (hb : clientAction? T w.state x a = some (.take fault)) :
    fault = none ∧ (w.state.client x).phase.held = [] := by
  cases a with
  | take y fault' n =>
    simp only [clientAction?] at hb
    split_ifs at hb with hy
    cases hb
    obtain ⟨hfault, hheld, -⟩ := hok.take y fault n rfl
    exact ⟨hfault, hy ▸ hheld⟩
  | client y b' =>
    simp only [clientAction?] at hb
    split_ifs at hb with hy
    cases hb
    -- the bytes of a message are written by the action of the connection alone
    cases hn
  | writerLoop y =>
    simp only [clientAction?] at hb
    split_ifs at hb with hy
    obtain ⟨p, -, hp⟩ := Option.map_eq_some_iff.mp hb
    cases hp
  | writerWrite y n =>
    simp only [clientAction?] at hb
    split_ifs at hb with hy
    cases hb
  | _ => cases hb

theorem untouched_run (h : (connections T).RunWhere (Carried T) w) (x : ClientId) :
    (IpcClient.client T.json).RunWhere (fun w a => IpcClient.readUntouched w a = true)
      (clientWorld w x) := by
  refine client_runWhere (fun w a w' ha hn b hb => ?_) h
  unfold IpcClient.readUntouched
  split
  · exact List.isEmpty_iff.mpr (ha.taken hn hb).2
  · rfl

theorem unfailing_run (h : (connections T).RunWhere (Carried T) w) (x : ClientId) :
    (IpcClient.client T.json).RunWhere (fun _ a => ∀ fault, a = .take fault → fault = none)
      (clientWorld w x) := by
  refine client_runWhere (fun w a w' ha hn b hb fault hfault => ?_) h
  exact (ha.taken hn (hfault ▸ hb)).1

end Runs

/-! One step, for the packets to a client. -/

theorem PacketsCarried.quiet (h : PacketsCarried T w x)
    (hwritten : IpcClient.written (es.filterMap (Event.client? x)) = [])
    (hdelivered : ∀ p, IpcBroker.Event.delivered x p ∉ es.filterMap Event.broker?) :
    PacketsCarried T ⟨s', es ++ w.trace⟩ x := by
  have hall : deliveredTo (brokerWorld ⟨s', es ++ w.trace⟩).trace x =
      deliveredTo (brokerWorld w).trace x := by
    rw [brokerWorld, List.filterMap_append, Broker.deliveredTo_append,
      Broker.deliveredTo_none hdelivered, List.append_nil]
    rfl
  refine ⟨?_, hall ▸ h.readable⟩
  rw [hall, clientWorld, List.filterMap_append, IpcClient.written_append, hwritten, List.append_nil]
  exact h.written

theorem PacketsCarried.step (h : PacketsCarried T w x) (hok : Carried T w a)
    (ht : Transition T w.state a s' es) : PacketsCarried T ⟨s', es ++ w.trace⟩ x := by
  have hclient : ∀ {y b c} {es' : List IpcClient.Event}, (∀ payload, b ≠ .write payload) →
      (w.state.client y).step T.json b = some (c, es') →
      IpcClient.written ((es'.map (Event.client y)).filterMap (Event.client? x)) = [] := by
    intro y b c es' hb hc
    rw [client?_client]
    split_ifs
    · exact (IpcClient.step_transition hc).written_none hb
    · rfl
  have hbroker : ∀ {b t} {es' : List IpcBroker.Event}, (∀ x, b ≠ .write x) →
      w.state.broker.step b = some (t, es') →
      ∀ p, IpcBroker.Event.delivered x p ∉ (es'.map Event.broker).filterMap Event.broker? := by
    intro b t es' hb ht
    rw [broker?_broker]
    exact (Broker.step_transition ht).writes_none hb
  have hquiet : ∀ {y p} {es' : List IpcClient.Event},
      IpcBroker.Event.delivered x p ∉ (es'.map (Event.client y)).filterMap Event.broker? := by
    intro y p es'
    rw [broker?_client]
    exact List.not_mem_nil
  cases ht with
  | broker ha hb =>
    refine h.quiet (client?_broker _ _ ▸ rfl) (hbroker ?_ hb)
    rintro y rfl
    cases ha
  | client ha hc =>
    refine h.quiet (hclient ?_ hc) fun _ => hquiet
    rintro payload rfl
    cases ha
  | take hw hm hc => exact h.quiet (hclient (by simp) hc) fun _ => hquiet
  | writerWrite hw hn hroom hc => exact h.quiet (hclient (by simp) hc) fun _ => hquiet
  | write | writeError | readPending => exact h.quiet rfl (by simp)
  | readPacket hx hr hb | readFailed hx hr hb =>
    exact h.quiet (client?_broker _ _ ▸ rfl) (hbroker (by simp) hb)
  | @writerLoop y msg rest b es c es' hidle hm hb hc =>
    obtain rfl := Broker.write_events hm hb
    obtain rfl := IpcClient.write_events hc
    by_cases hy : y = x
    · subst hy
      have hread : Readable T msg := hok.writerLoop y rfl msg (by rw [hm]; rfl)
      have hdelivered : deliveredTo ([.delivered y msg] ++ (brokerWorld w).trace) y =
          deliveredTo (brokerWorld w).trace y ++ [msg] := by
        rw [Broker.deliveredTo_append]
        simp [deliveredTo, chronicle, Event.deliveredTo?]
      have hwritten : IpcClient.written ([.incoming (T.text.encode msg)] ++ (clientWorld w y).trace) =
          IpcClient.written (clientWorld w y).trace ++ [T.text.encode msg] :=
        IpcClient.written_append
      refine ⟨?_, fun p hp => ?_⟩
      · have hincoming : Event.client? y (.client y (.incoming (T.text.encode msg))) =
            some (.incoming (T.text.encode msg)) := if_pos rfl
        calc _ = IpcClient.written ([.incoming (T.text.encode msg)] ++ (clientWorld w y).trace) :=
              congrArg IpcClient.written (List.filterMap_cons_some hincoming)
          _ = IpcClient.written (clientWorld w y).trace ++ [T.text.encode msg] := hwritten
          _ = (deliveredTo (brokerWorld w).trace y ++ [msg]).map T.text.encode := by
              rw [h.written, List.map_append]
              rfl
          _ = _ := congrArg (List.map T.text.encode) hdelivered.symm
      · replace hp : p ∈ deliveredTo ([.delivered y msg] ++ (brokerWorld w).trace) y := hp
        rw [hdelivered] at hp
        obtain hp | hp := List.mem_append.mp hp
        · exact h.readable p hp
        · exact List.mem_singleton.mp hp ▸ hread
    · refine h.quiet ?_ ?_
      · simp [Event.client?, hy, IpcClient.written, chronicle]
      · simp [Event.broker?, hy]

/-! One step, for the requests of a client. -/

theorem RequestsCarried.quiet (h : RequestsCarried T w x later)
    (hsent : IpcClient.sentRequests (es.filterMap (Event.client? x)) = [])
    (hreceived : ∀ p, IpcBroker.Event.received x p ∉ es.filterMap Event.broker?)
    (hpipe : (s'.reading x).held ++ (s'.sent x ++ s'.writing x) =
      (w.state.reading x).held ++ (w.state.sent x ++ w.state.writing x)) :
    RequestsCarried T ⟨s', es ++ w.trace⟩ x later := by
  refine ⟨?_, h.bytes.trans hpipe.symm, h.size, h.sendable⟩
  rw [clientWorld, brokerWorld, List.filterMap_append, List.filterMap_append,
    IpcClient.sentRequests_append, receivedFrom_append, hsent, receivedFrom_none hreceived,
    List.append_nil, List.append_nil]
  exact h.sent

theorem take_bytes {c c' : IpcClient} {msg : IpcClient.ClientMsg}
    {rest : List IpcClient.ClientMsg} {es' : List IpcClient.Event} {n : Nat}
    (hm : c.mailbox = msg :: rest) (hc : c.step T.json (.take none) = some (c', es')) :
    ((T.json.toVec msg.toWrite).length ≤ bufSize ∧
      IpcClient.sentRequests es' = [msg.toWrite] ∧
      msg.bytes T.json none n = frame (T.json.toVec msg.toWrite)) ∨
    IpcClient.sentRequests es' = [] ∧ msg.bytes T.json none n = [] := by
  have hwrite : (writePacket (T.json.toVec msg.toWrite) none = .ok (frame (T.json.toVec msg.toWrite)) ∧
      (T.json.toVec msg.toWrite).length ≤ bufSize) ∨
      ∃ e, writePacket (T.json.toVec msg.toWrite) none = .error e := by
    unfold writePacket
    split_ifs with hlong
    · exact .inr ⟨_, rfl⟩
    · exact .inl ⟨rfl, Nat.le_of_not_lt hlong⟩
  cases IpcClient.step_transition hc with
  | requestFailed hp hm' hw =>
    cases hm.symm.trans hm'
    exact .inr ⟨rfl, by simp only [IpcClient.ClientMsg.bytes, IpcClient.ClientMsg.toWrite, hw]⟩
  | requestAwaits hp hm' hw | requestDone hp hm' hw =>
    cases hm.symm.trans hm'
    obtain ⟨hframe, hsize⟩ | ⟨e, he⟩ := hwrite
    · exact .inl ⟨hsize, rfl, by simp only [IpcClient.ClientMsg.bytes, hframe]⟩
    · cases hw.symm.trans he
  | @subscribe _ reading o topic updates rest' hp hm' =>
    cases hm.symm.trans hm'
    obtain ⟨hframe, hsize⟩ | ⟨e, he⟩ := hwrite
    · refine .inl ⟨hsize, ?_, by simp only [IpcClient.ClientMsg.bytes, hframe]⟩
      simp only [IpcClient.ClientMsg.toWrite] at hframe
      simp only [IpcClient.subscribe, hframe]
      rfl
    · refine .inr ⟨?_, by simp only [IpcClient.ClientMsg.bytes, he]⟩
      simp only [IpcClient.ClientMsg.toWrite] at he
      simp only [IpcClient.subscribe, he]
      rfl

theorem RequestsCarried.taken {fault : Option String} {n : Nat} {msg : IpcClient.ClientMsg}
    {rest : List IpcClient.ClientMsg} {c : IpcClient} {es' : List IpcClient.Event}
    (h : RequestsCarried T w x later) (hok : Carried T w (.take x fault n))
    (hw : w.state.writing x = []) (hm : (w.state.client x).mailbox = msg :: rest)
    (hc : (w.state.client x).step T.json (.take fault) = some (c, es')) :
    ∃ later, RequestsCarried T ⟨{ w.state with
      client := update w.state.client x c
      writing := update w.state.writing x (msg.bytes T.json fault n) },
      es'.map (.client x) ++ w.trace⟩ x later := by
  obtain ⟨rfl, -, hsend⟩ := hok.take x fault n rfl
  have hclient : (es'.map (Event.client x)).filterMap (Event.client? x) = es' := by
    rw [client?_client, if_pos rfl]
  have hreceived : ∀ p, IpcBroker.Event.received x p ∉
      (es'.map (Event.client x)).filterMap Event.broker? := by
    rw [broker?_client]
    exact fun _ => List.not_mem_nil
  obtain ⟨hsize, hsent, hbytes⟩ | ⟨hsent, hbytes⟩ := take_bytes (n := n) hm hc
  · refine ⟨later ++ [msg.toWrite], ?_, ?_, ?_, ?_⟩
    · rw [clientWorld, brokerWorld, List.filterMap_append, List.filterMap_append, hclient,
        IpcClient.sentRequests_append, receivedFrom_append, receivedFrom_none hreceived, hsent,
        List.append_nil, List.map_append, List.map_append, ← List.append_assoc]
      exact congrArg (· ++ _) h.sent
    · have hpipe := h.bytes
      rw [hw, List.append_nil] at hpipe
      simp only [update_self, hbytes, List.map_append, List.map_cons, List.map_nil, frames_append,
        frames_cons, frames_nil, List.append_nil, hpipe, List.append_assoc]
    · intro r hr
      obtain hr | hr := List.mem_append.mp hr
      · exact h.size r hr
      · exact List.mem_singleton.mp hr ▸ hsize
    · intro r hr
      obtain hr | hr := List.mem_append.mp hr
      · exact h.sendable r hr
      · exact List.mem_singleton.mp hr ▸ hsend msg (by rw [hm]; rfl)
  · refine ⟨later, h.quiet ?_ hreceived ?_⟩
    · rw [hclient]
      exact hsent
    · simp only [update_self, hbytes, hw]

theorem RequestsCarried.read {data rest : List UInt8} {b : Broker} {es' : List IpcBroker.Event}
    (h : RequestsCarried T w x later)
    (hr : (w.state.reading x).poll (w.state.sent x) = .ready (.ok data) rest)
    (hb : w.state.broker.step (.receive x (T.text.decode data)) = some (b, es')) :
    ∃ later, RequestsCarried T ⟨{ w.state with
      broker := b
      reading := update w.state.reading x .start
      sent := update w.state.sent x rest }, es'.map .broker ++ w.trace⟩ x later := by
  obtain ⟨hframe, hdata⟩ := ReadPacket.poll_ready hr
  have hpipe := h.bytes
  rw [← List.append_assoc, hframe, List.append_assoc] at hpipe
  have hsize : ∀ p ∈ later.map T.json.toVec, p.length < 2 ^ 32 := by
    intro p hp
    obtain ⟨r, hr, rfl⟩ := List.mem_map.mp hp
    exact IpcClient.lt_of_le_bufSize (h.size r hr)
  obtain ⟨ps, hps, -⟩ := frame_prefix_frames (IpcClient.lt_of_le_bufSize hdata) hsize
    ⟨[], by rw [List.append_nil, hpipe]⟩
  cases later with
  | nil => cases hps
  | cons r later =>
    obtain ⟨rfl, rfl⟩ := List.cons.inj hps
    have hsend : T.text.decode (T.json.toVec r) = some (.request r) :=
      h.sendable r List.mem_cons_self
    rw [hsend] at hb
    obtain rfl : es' = [.received x (.request r)] := by
      cases Broker.step_transition hb <;> rfl
    refine ⟨later, ?_, ?_, fun r' hr' => h.size r' (List.mem_cons_of_mem r hr'),
      fun r' hr' => h.sendable r' (List.mem_cons_of_mem r hr')⟩
    · have hreceived : receivedFrom ([.received x (.request r)] ++ (brokerWorld w).trace) x =
          receivedFrom (brokerWorld w).trace x ++ [.request r] := by
        rw [receivedFrom_append]
        simp [receivedFrom, chronicle, IpcBroker.Event.receivedFrom?]
      refine h.sent.trans ?_
      rw [List.map_cons, List.append_cons, ← hreceived]
      rfl
    · simp only [update_self, List.map_cons, frames_cons] at hpipe ⊢
      exact List.append_cancel_left hpipe

theorem RequestsCarried.step (h : RequestsCarried T w x later) (hok : Carried T w a)
    (ht : Transition T w.state a s' es) :
    ∃ later, RequestsCarried T ⟨s', es ++ w.trace⟩ x later := by
  have hclient : ∀ {y b c} {es' : List IpcClient.Event},
      ((∀ fault, b ≠ .take fault) ∨ y ≠ x) →
      (w.state.client y).step T.json b = some (c, es') →
      IpcClient.sentRequests ((es'.map (Event.client y)).filterMap (Event.client? x)) = [] := by
    intro y b c es' hb hc
    rw [client?_client]
    split_ifs with hy
    · exact (IpcClient.step_transition hc).sent_none (hb.resolve_right fun hne => hne hy)
    · rfl
  have hbroker : ∀ {b t} {es' : List IpcBroker.Event}, (∀ p, b ≠ .receive x (some p)) →
      w.state.broker.step b = some (t, es') →
      ∀ p, IpcBroker.Event.received x p ∉ (es'.map Event.broker).filterMap Event.broker? := by
    intro b t es' hb ht p he
    rw [broker?_broker] at he
    exact hb p ((Broker.step_transition ht).received he).1
  have hquiet : ∀ {y p} {es' : List IpcClient.Event},
      IpcBroker.Event.received x p ∉ (es'.map (Event.client y)).filterMap Event.broker? := by
    intro y p es'
    rw [broker?_client]
    exact List.not_mem_nil
  cases ht with
  | broker ha hb =>
    refine ⟨later, h.quiet (client?_broker _ _ ▸ rfl) (hbroker ?_ hb) rfl⟩
    rintro p rfl
    cases ha
  | client ha hc =>
    refine ⟨later, h.quiet (hclient (.inl ?_) hc) (fun _ => hquiet) rfl⟩
    rintro fault rfl
    cases ha
  | @take y fault n msg rest c es hw hm hc =>
    by_cases hy : y = x
    · subst hy
      exact h.taken hok hw hm hc
    · refine ⟨later, h.quiet (hclient (.inr hy) hc) (fun _ => hquiet) ?_⟩
      simp only [update_of_ne (Ne.symm hy)]
  | @write y n hn hroom =>
    refine ⟨later, h.quiet rfl (by simp) ?_⟩
    by_cases hy : x = y
    · subst hy
      simp only [update_self, List.append_assoc, List.take_append_drop]
    · simp only [update_of_ne hy]
  | @writeError y => exact absurd rfl (hok.write y)
  | @readPending y reading hx hr =>
    refine ⟨later, h.quiet rfl (by simp) ?_⟩
    by_cases hy : x = y
    · subst hy
      simp only [update_self, ReadPacket.poll_pending hr, List.append_assoc, List.nil_append]
    · simp only [update_of_ne hy]
  | @readPacket y data rest b es hx hr hb =>
    by_cases hy : x = y
    · subst hy
      exact h.read hr hb
    · refine ⟨later, h.quiet (client?_broker _ _ ▸ rfl) (hbroker ?_ hb) ?_⟩
      · exact fun p heq => hy (IpcBroker.Action.receive.inj heq).1.symm
      · simp only [update_of_ne hy]
  | @readFailed y e rest b es hx hr hb =>
    by_cases hy : x = y
    · subst hy
      -- no length on the way is beyond the limit
      obtain ⟨hdr, hhdr, hlong, heq⟩ := ReadPacket.poll_error hr
      have hpipe := h.bytes
      rw [← List.append_assoc, heq, List.append_assoc] at hpipe
      have hsize : ∀ p ∈ later.map T.json.toVec, p.length ≤ bufSize := by
        intro p hp
        obtain ⟨r, hr, rfl⟩ := List.mem_map.mp hp
        exact h.size r hr
      obtain ⟨p, ps, hps, hlen, -⟩ := header_prefix_frames hhdr
        (fun p hp => IpcClient.lt_of_le_bufSize (hsize p hp))
        ⟨[], by rw [List.append_nil, hpipe]⟩
      have hp := hsize p (hps ▸ List.mem_cons_self)
      omega
    · refine ⟨later, h.quiet (client?_broker _ _ ▸ rfl) (hbroker (by simp) hb) ?_⟩
      simp only [update_of_ne hy]
  | writerLoop hidle hm hb hc =>
    refine ⟨later, h.quiet ?_ ?_ rfl⟩
    · rw [List.filterMap_append, client?_broker, List.append_nil]
      exact hclient (.inl (by simp)) hc
    · rw [List.filterMap_append, broker?_client, List.nil_append]
      exact hbroker (by simp) hb
  | writerWrite hw hn hroom hc =>
    exact ⟨later, h.quiet (hclient (.inl (by simp)) hc) (fun _ => hquiet) rfl⟩

/-! A whole run. -/

theorem packetsCarried (h : (connections T).RunWhere (Carried T) w) (x : ClientId) :
    PacketsCarried T w x := by
  refine h.invariant (I := fun w => PacketsCarried T w x) ?_ ?_
  · rintro _ ⟨items, rfl⟩
    exact ⟨rfl, List.forall_mem_nil _⟩
  · intro w a w' _ hI hok hn
    obtain ⟨es, ht, htr⟩ := next_transition hn
    obtain ⟨s', tr'⟩ := w'
    obtain rfl : tr' = es ++ w.trace := htr
    exact hI.step hok ht

theorem requestsCarried (h : (connections T).RunWhere (Carried T) w) (x : ClientId) :
    ∃ later, RequestsCarried T w x later := by
  refine h.invariant (I := fun w => ∃ later, RequestsCarried T w x later) ?_ ?_
  · rintro _ ⟨items, rfl⟩
    exact ⟨[], rfl, rfl, List.forall_mem_nil _, List.forall_mem_nil _⟩
  · rintro w a w' - ⟨later, hI⟩ hok hn
    obtain ⟨es, ht, htr⟩ := next_transition hn
    obtain ⟨s', tr'⟩ := w'
    obtain rfl : tr' = es ++ w.trace := htr
    exact hI.step hok ht

theorem returned_delivered (h : (connections T).RunWhere (Carried T) w) (x : ClientId) :
    IpcClient.returned (clientWorld w x).trace <+:
      (deliveredTo (brokerWorld w).trace x).map T.text.encode := by
  rw [← (packetsCarried h x).written]
  exact (IpcClient.streamInv (fun _ _ h => h) (untouched_run h x)).in_order

end Connections
end IpcBroker
