import IpcBroker.Connections.Components
import IpcBroker.Protocol.Stream

/-! What holds the writers of a connection up: its two pipes and the channel between the handlers
and the writer loop. They are not all three full at once, as long as no write begins and no message
is put on the channel for which there is no room in the last of them. -/

namespace IpcBroker
open Function Foundation

namespace IpcClient
variable {json : SerdeJson} {s s' : IpcClient} {a : Action} {es : List Event}

def incomingLoad (s : IpcClient) : Nat := load s.arrived s.coming

theorem read_rest {r : ReadPacket} {result : Except IoError (List UInt8)} {rest : List UInt8}
    (h : s.read r = .ready result rest) : rest.length ≤ s.arrived.length := by
  unfold read at h
  split at h
  · cases h
    exact Nat.zero_le _
  · exact ReadPacket.poll_rest h

theorem Transition.incomingLoad_le (h : Transition json s a s' es) (ha : ∀ p, a ≠ .write p) :
    s'.incomingLoad ≤ s.incomingLoad := by
  cases h with
  | issue | issueEnded | dropHandles | requestFailed | requestAwaits | requestDone | subscribe
  | exit | receive | dropReceiver => exact Nat.le_refl _
  | pollPending | awaitPending => exact Nat.add_le_add_right (Nat.zero_le _) _
  | @pollPacket reading data rest hp hr =>
    obtain ⟨harr, hcom, -⟩ := readArm_stream json { s with arrived := rest } data
    rw [incomingLoad, harr, hcom]
    exact Nat.add_le_add_right (read_rest hr) _
  | pollFailed hp hr | awaitPacket hp hr | awaitFailed hp hr =>
    exact Nat.add_le_add_right (read_rest hr) _
  | write => exact absurd rfl (ha _)
  | arrive => exact Nat.le_of_eq (load_move ..)
  | hangUp => exact Nat.add_le_add_left (List.length_take_le' ..) _

end IpcClient

namespace Connections
variable (T : Transport) (s : Connections) (x y : ClientId)

/-- The actor of `x` is in `write_packet`, and the pipe to the broker is full. -/
def ActorBlocked : Prop := WriteBlocked (T.toBroker x) (s.sent x) (s.writing x)

/-- The writer loop of `x` is in `write_packet`, and the pipe to the client is full. -/
def WriterBlocked : Prop :=
  s.broker.writing x = true ∧
    WriteBlocked (T.toClient x) (s.client x).arrived (s.client x).coming

/-- The reader loop of `x` is at a send to `y`, whose channel is full. -/
def ReaderBlocked : Prop :=
  ∃ pc site tx msg p, s.broker.phase x = .handling pc ∧ pc.sends = some (site, tx, msg, p) ∧
    tx.channel = y ∧ s.broker.phase y ≠ .ended ∧ channelCapacity ≤ (s.broker.channel y).length

/-- The actor of `x` waits for its reader loop, which waits for the writer loop of `y`, which waits
for the actor of `y`, which is itself blocked. -/
structure Deadlocked : Prop where
  actor : s.ActorBlocked T x
  reader : s.ReaderBlocked x y
  writer : s.WriterBlocked T y
  peer : s.ActorBlocked T y

def bothWait : Bool :=
  WriteWaits (T.toBroker y) (s.sent y) (s.writing y) &&
    WriteWaits (T.toClient y) (s.client y).arrived (s.client y).coming

/-- An actor whose channel is full and whose writer loop waits begins a write only if its frame
fits into the pipe, and no message fills the channel of a client while both ends of its connection
wait. -/
def leavesRoom : Action → Bool
  | .take y fault n =>
    match (s.client y).mailbox with
    | msg :: _ =>
      (s.broker.channel y).length < channelCapacity ||
        !decide (WriteWaits (T.toClient y) (s.client y).arrived (s.client y).coming) ||
        (s.sent y).length + (msg.bytes T.json fault n).length ≤ T.toBroker y
    | [] => true
  | .broker (.handler x) =>
    match s.broker.phase x with
    | .handling pc => pc.sends.all fun sent =>
        (s.broker.channel sent.2.1.channel).length + 1 < channelCapacity ||
          !s.bothWait T sent.2.1.channel
    | _ => true
  | _ => true

variable {T s x y} {s' : Connections} {a : Action} {es : List Event} {w w' : World Connections Event}

inductive LoadStep (T : Transport) (s s' : Connections) (y : ClientId) : Action → Prop
  | calm {a : Action} (hchan : (s'.broker.channel y).length ≤ (s.broker.channel y).length)
      (hup : load (s'.sent y) (s'.writing y) ≤ load (s.sent y) (s.writing y))
      (hdown : (s'.client y).incomingLoad ≤ (s.client y).incomingLoad) : LoadStep T s s' y a
  | take {fault : Option String} {n : Nat} {msg : IpcClient.ClientMsg}
      {rest : List IpcClient.ClientMsg} (hm : (s.client y).mailbox = msg :: rest)
      (hchan : s'.broker.channel y = s.broker.channel y)
      (hup : load (s'.sent y) (s'.writing y) =
        (s.sent y).length + (msg.bytes T.json fault n).length)
      (hdown : (s'.client y).incomingLoad ≤ (s.client y).incomingLoad) :
      LoadStep T s s' y (.take y fault n)
  | enqueue {x : ClientId} {pc : HandlerPc} {site : SendSite} {tx : ClientSender} {msg : Packet}
      {p : Phase} (hx : s.broker.phase x = .handling pc)
      (hs : pc.sends = some (site, tx, msg, p)) (htx : tx.channel = y)
      (hroom : (s.broker.channel y).length < channelCapacity)
      (hchan : s'.broker.channel y = s.broker.channel y ++ [msg])
      (hup : load (s'.sent y) (s'.writing y) = load (s.sent y) (s.writing y))
      (hdown : s'.client y = s.client y) : LoadStep T s s' y (.broker (.handler x))
  | dequeue (hchan : (s'.broker.channel y).length < (s.broker.channel y).length) :
      LoadStep T s s' y (.writerLoop y)

theorem incomingLoad_update {c : IpcClient} (h : c.incomingLoad ≤ (s.client x).incomingLoad)
    (y : ClientId) : (update s.client x c y).incomingLoad ≤ (s.client y).incomingLoad := by
  by_cases hy : y = x
  · subst hy
    rw [update_self]
    exact h
  · exact Nat.le_of_eq (congrArg IpcClient.incomingLoad (update_of_ne hy _ _))

theorem sent_update {sent : List UInt8} {writing : List UInt8}
    (h : load sent writing ≤ load (s.sent x) (s.writing x)) (y : ClientId) :
    load (update s.sent x sent y) (update s.writing x writing y) ≤
      load (s.sent y) (s.writing y) := by
  by_cases hy : y = x
  · subst hy
    rw [update_self, update_self]
    exact h
  · exact Nat.le_of_eq (congrArg₂ load (update_of_ne hy _ _) (update_of_ne hy _ _))

theorem sent_read {rest : List UInt8} (h : rest.length ≤ (s.sent x).length) (y : ClientId) :
    load (update s.sent x rest y) (s.writing y) ≤ load (s.sent y) (s.writing y) := by
  by_cases hy : y = x
  · subst hy
    rw [update_self]
    exact Nat.add_le_add_right h _
  · exact Nat.le_of_eq (congrArg (load · (s.writing y)) (update_of_ne hy _ _))

theorem Transition.loadStep (h : Transition T s a s' es) (y : ClientId) : LoadStep T s s' y a := by
  cases h with
  | @broker b t es ha hb =>
    obtain hle | ⟨x, pc, site, tx, msg, p, rfl, hx, hs, htx, hroom, -, hchan⟩ :=
      (Broker.step_transition hb).channel_length y
    · exact .calm hle (Nat.le_refl _) (Nat.le_refl _)
    · exact .enqueue hx hs htx hroom hchan rfl rfl
  | @client x c t es ha hc =>
    refine .calm (Nat.le_refl _) (Nat.le_refl _) (incomingLoad_update ?_ y)
    refine (IpcClient.step_transition hc).incomingLoad_le fun p hp => ?_
    subst hp
    cases ha
  | @take x fault n msg rest c es hw hm hc =>
    have hdown := incomingLoad_update ((IpcClient.step_transition hc).incomingLoad_le nofun) y
    by_cases hy : y = x
    · subst hy
      refine .take hm rfl ?_ hdown
      simp only [update_self]
      rfl
    · refine .calm (Nat.le_refl _) ?_ hdown
      simp only [update_of_ne hy]
      exact Nat.le_refl _
  | @write x n hn hroom =>
    exact .calm (Nat.le_refl _) (sent_update (Nat.le_of_eq (load_move ..)) y) (Nat.le_refl _)
  | @writeError x hup =>
    refine .calm (Nat.le_refl _) ?_ (Nat.le_refl _)
    by_cases hy : y = x
    · subst hy
      simp only [update_self]
      exact Nat.add_le_add_left (Nat.zero_le _) _
    · simp only [update_of_ne hy]
      exact Nat.le_refl _
  | readPending hx hr => exact .calm (Nat.le_refl _) (sent_read (Nat.zero_le _) y) (Nat.le_refl _)
  | readPacket hx hr hb | readFailed hx hr hb =>
    refine .calm ?_ (sent_read (ReadPacket.poll_rest hr) y) (Nat.le_refl _)
    obtain hle | ⟨x, -, -, -, -, -, ha, -⟩ := (Broker.step_transition hb).channel_length y
    · exact hle
    · cases ha
  | @writerLoop x msg rest b es c es' hidle hm hb hc =>
    have ht := Broker.step_transition hb
    by_cases hy : y = x
    · subst hy
      refine .dequeue ?_
      cases ht with
      | write hw hc =>
        simp only [update_self, hc, List.length_cons]
        exact Nat.lt_succ_self _
    · refine .calm ?_ (Nat.le_refl _) ?_
      · obtain hle | ⟨x, -, -, -, -, -, ha, -⟩ := ht.channel_length y
        · exact hle
        · cases ha
      · simp only [update_of_ne hy]
        exact Nat.le_refl _
  | @writerWrite x n c es hw hn hroom hc =>
    refine .calm (Nat.le_refl _) (Nat.le_refl _) (incomingLoad_update ?_ y)
    exact (IpcClient.step_transition hc).incomingLoad_le nofun

/-! The invariant, and what it says of the runs. -/

theorem bothWait_iff : s.bothWait T y = true ↔ WriteWaits (T.toBroker y) (s.sent y) (s.writing y) ∧
    WriteWaits (T.toClient y) (s.client y).arrived (s.client y).coming := by
  rw [bothWait, Bool.and_eq_true, decide_eq_true_eq, decide_eq_true_eq]

theorem bothWait_of_load_le (hup : load (s'.sent y) (s'.writing y) ≤ load (s.sent y) (s.writing y))
    (hdown : (s'.client y).incomingLoad ≤ (s.client y).incomingLoad)
    (h : s'.bothWait T y = true) : s.bothWait T y = true := by
  obtain ⟨hb, hc⟩ := bothWait_iff.mp h
  exact bothWait_iff.mpr ⟨hb.of_load_le hup, hc.of_load_le hdown⟩

/-- A channel is full only while one end of the connection has room for what it writes. -/
structure RoomLeft (T : Transport) (s : Connections) : Prop where
  bounded : ∀ y, (s.broker.channel y).length ≤ channelCapacity
  apart : ∀ y, s.bothWait T y = true → (s.broker.channel y).length < channelCapacity

theorem leavesRoom_take {fault : Option String} {n : Nat} {msg : IpcClient.ClientMsg}
    {rest : List IpcClient.ClientMsg} (hok : s.leavesRoom T (.take y fault n) = true)
    (hm : (s.client y).mailbox = msg :: rest) :
    (s.broker.channel y).length < channelCapacity ∨
      ¬ WriteWaits (T.toClient y) (s.client y).arrived (s.client y).coming ∨
        (s.sent y).length + (msg.bytes T.json fault n).length ≤ T.toBroker y := by
  simp only [leavesRoom, hm] at hok
  rw [Bool.or_eq_true, Bool.or_eq_true, decide_eq_true_eq, Bool.not_eq_true', decide_eq_false_iff_not,
    decide_eq_true_eq, or_assoc] at hok
  exact hok

theorem leavesRoom_enqueue {pc : HandlerPc} {site : SendSite} {tx : ClientSender} {msg : Packet}
    {p : Phase} (hok : s.leavesRoom T (.broker (.handler x)) = true)
    (hx : s.broker.phase x = .handling pc) (hs : pc.sends = some (site, tx, msg, p)) :
    (s.broker.channel tx.channel).length + 1 < channelCapacity ∨
      s.bothWait T tx.channel ≠ true := by
  simp only [leavesRoom, hx, hs, Option.all_some] at hok
  rw [Bool.or_eq_true, decide_eq_true_eq, Bool.not_eq_true'] at hok
  exact hok.imp_right fun h => by rw [h]; nofun

theorem RoomLeft.step (hI : RoomLeft T s) (hok : s.leavesRoom T a = true)
    (ht : Transition T s a s' es) : RoomLeft T s' := by
  have hstep : ∀ y, (s'.broker.channel y).length ≤ channelCapacity ∧
      (s'.bothWait T y = true → (s'.broker.channel y).length < channelCapacity) := by
    intro y
    have hbounded := hI.bounded y
    have hload := ht.loadStep y
    cases hload with
    | calm hchan hup hdown =>
      refine ⟨Nat.le_trans hchan hbounded, fun hwait => ?_⟩
      exact Nat.lt_of_le_of_lt hchan (hI.apart y (bothWait_of_load_le hup hdown hwait))
    | take hm hchan hup hdown =>
      rw [hchan]
      refine ⟨hbounded, fun hwait => ?_⟩
      obtain ⟨hb, hc⟩ := bothWait_iff.mp hwait
      obtain hroom | hidle | hfits := leavesRoom_take hok hm
      · exact hroom
      · exact absurd (hc.of_load_le hdown) hidle
      · -- the whole frame fits, and the actor does not wait
        have hlt : T.toBroker y < load (s'.sent y) (s'.writing y) := hb
        omega
    | enqueue hx hs htx hroom hchan hup hdown =>
      rw [hchan, List.length_append, List.length_singleton]
      refine ⟨hroom, fun hwait => ?_⟩
      have hwait' := bothWait_of_load_le (Nat.le_of_eq hup) (Nat.le_of_eq (by rw [hdown])) hwait
      obtain hlast | hidle := leavesRoom_enqueue hok hx hs
      · exact htx ▸ hlast
      · exact absurd (htx ▸ hwait') hidle
    | dequeue hchan =>
      exact ⟨Nat.le_trans (Nat.le_of_lt hchan) hbounded, fun _ => Nat.lt_of_lt_of_le hchan hbounded⟩
  exact ⟨fun y => (hstep y).1, fun y => (hstep y).2⟩

theorem roomLeft (h : (connections T).RunWhere (fun w a => w.state.leavesRoom T a = true) w) :
    RoomLeft T w.state := by
  refine h.invariant (I := fun w => RoomLeft T w.state) ?_ ?_
  · rintro _ ⟨items, rfl⟩
    refine ⟨fun _ => Nat.zero_le _, fun _ _ => ?_⟩
    exact Nat.lt_of_sub_pos (Nat.zero_lt_succ 63)
  · intro w a w' _ hI hok hn
    obtain ⟨es, ht, -⟩ := next_transition hn
    exact hI.step hok ht

/-- For pipes of any capacity and clients that do anything in any order: as long as no actor begins
a write that does not fit while its channel is full and its writer loop waits, and no message fills
a channel while both ends of the connection wait, backpressure deadlocks no client. -/
theorem backpressure_never_deadlocks
    (h : (connections T).RunWhere (fun w a => w.state.leavesRoom T a = true) w) (x y : ClientId) :
    ¬ w.state.Deadlocked T x y := by
  intro hdead
  obtain ⟨pc, site, tx, msg, p, -, -, -, -, hfull⟩ := hdead.reader
  have hwait : w.state.bothWait T y = true :=
    bothWait_iff.mpr ⟨hdead.peer.waits, hdead.writer.2.waits⟩
  exact absurd ((roomLeft h).apart y hwait) (Nat.not_lt_of_le hfull)

/-! The runs of a client that is subscribed to a topic and publishes to it. -/

def publishText : List UInt8 := IpcClient.textJson.toVec (.publish "o" "t" .null)

def subscribeText : List UInt8 := IpcClient.textJson.toVec (.subscribe "o" "t")

def textValues : JsonText where
  toVec v :=
    match RpcResponse.deserialize v with
    | some (.event _ _ _) => IpcClient.eventText
    | some (.subscribed _ _) => IpcClient.subscribedText
    | _ => []
  fromSlice data :=
    if data = publishText then some (RpcRequest.publish "o" "t" .null).serialize
    else if data = subscribeText then some (RpcRequest.subscribe "o" "t").serialize
    else none

def narrowPipes : Transport := ⟨IpcClient.textJson, textValues, fun _ => 59, fun _ => 1⟩

def publish (x : ClientId) (n : Nat) : List Action :=
  [.client x (.issue (.publish "o" "t" .null)), .take x none 0, .write x n]

/-- The reader loop of `x` reads the request, and its handler comes to the send to `x`. -/
def handlePublish (x : ClientId) : List Action :=
  [.readerLoop x, .broker (.snapshot x [x]), .broker (.handler x)]

def publishWaits : List Action := publish Broker.callerC 59 ++ publish Broker.callerC 0

theorem backpressure_never_deadlocks_waits :
    ∃ w, (connections narrowPipes).exec (fun w a => w.state.leavesRoom narrowPipes a = true)
        ⟨Connections.initial [], []⟩ publishWaits = some w ∧
      w.state.ActorBlocked narrowPipes Broker.callerC ∧
      ¬ w.state.Deadlocked narrowPipes Broker.callerC Broker.callerC := by
  obtain ⟨w, hr, he, ht⟩ := System.RunWhere.of_exec_any (connections narrowPipes)
    (fun w a => w.state.leavesRoom narrowPipes a = true) publishWaits
    (fun w => WriteBlocked 59 (w.state.sent Broker.callerC) (w.state.writing Broker.callerC))
    ⟨[], rfl⟩ (by decide)
  have hblocked : WriteBlocked 59 (w.state.sent Broker.callerC) (w.state.writing Broker.callerC) :=
    of_decide_eq_true ht
  exact ⟨w, he, hblocked, backpressure_never_deadlocks hr _ _⟩

/-- The client `x` has subscribed to the topic it publishes to and reads nothing: `n` messages are
on its channel, the writer loop waits for room in the pipe, and the reader loop is at `p` with
`bytes` to read. -/
structure Flooded (s : Connections) (x : ClientId) (n : Nat) (p : Phase) (bytes : List UInt8) :
    Prop where
  phase : s.broker.phase x = p
  clients : s.broker.clients x = some ⟨x⟩
  subscriptions : s.broker.subscriptions "o" "t" = [x]
  channel : (s.broker.channel x).length = n
  running : s.broker.writing x = true
  selecting : (s.client x).phase = .selecting (some .start)
  mailbox : (s.client x).mailbox = []
  handles : (s.client x).handles = true
  arrived : (s.client x).arrived.length = 1
  coming : 0 < (s.client x).coming.length
  writing : s.writing x = []
  sent : s.sent x = bytes
  reading : s.reading x = .start

def subscribes (x : ClientId) : List Action :=
  [.broker (.connect x), .client x (.issue (.subscribe "o" "t")), .take x none 0, .write x 49,
    .readerLoop x] ++ List.replicate 3 (.broker (.handler x)) ++ [.writerLoop x, .writerWrite x 1]

theorem flooded_start : ∃ w, (connections narrowPipes).exec (fun _ _ => True)
    ⟨Connections.initial [], []⟩ (subscribes Broker.callerC) = some w ∧
      Flooded w.state Broker.callerC 0 .reading [] := by
  have hrun : ((connections narrowPipes).exec (fun _ _ => True) ⟨Connections.initial [], []⟩
      (subscribes Broker.callerC)).isSome = true := by decide
  exact ⟨_, (Option.some_get hrun).symm,
    ⟨rfl, rfl, rfl, rfl, rfl, rfl, rfl, rfl, rfl, Nat.zero_lt_succ _, rfl, rfl, rfl⟩⟩

theorem publish_bytes (respTx : Nat) :
    (IpcClient.ClientMsg.request (.publish "o" "t" .null) respTx).bytes narrowPipes.json none 0 =
      frame publishText := rfl

theorem publish_take (c : IpcClient) (respTx : Nat) :
    (c.takeMsg narrowPipes.json none (.request (.publish "o" "t" .null) respTx)).1 = c.select := rfl

theorem publish_length : (frame publishText).length = 59 := by decide

theorem publish_poll : ReadPacket.start.poll (frame publishText) = .ready (.ok publishText) [] := by
  rw [← List.append_nil (frame publishText)]
  exact poll_frame (by decide) []

theorem publish_decode : narrowPipes.text.decode publishText =
    some (.request (.publish "o" "t" .null)) := rfl

variable {n : Nat} {p : Phase} {bytes : List UInt8}

theorem flooded_publish (tr : List Event) (h : Flooded s x n p []) :
    ∃ w, (connections narrowPipes).exec (fun _ _ => True) ⟨s, tr⟩ (publish x 59) = some w ∧
      Flooded w.state x n p (frame publishText) := by
  simp [publish, System.exec, System.next, connections, step, clientAlone, stepClient,
    IpcClient.step, IpcClient.issue, h.handles, h.selecting, h.mailbox, IpcClient.mailboxCapacity,
    IpcClient.Operation.msg, h.writing, publish_bytes, publish_take, h.sent]
  have htake : (frame publishText).take 59 = frame publishText :=
    List.take_of_length_le (Nat.le_of_eq publish_length)
  refine ⟨⟨Nat.le_of_eq publish_length.symm, Nat.le_refl 59⟩, ?_⟩
  constructor <;>
    simp [h.phase, h.clients, h.subscriptions, h.channel, h.running, h.arrived, h.coming, h.reading,
      IpcClient.select, publish_length, htake]

theorem flooded_read (tr : List Event) (h : Flooded s x n .reading (frame publishText)) :
    ∃ w, (connections narrowPipes).exec (fun _ _ => True) ⟨s, tr⟩ (handlePublish x) = some w ∧
      Flooded w.state x n (.handling (.publishSend (.event "o" "t" .null) [⟨x⟩])) [] := by
  simp [handlePublish, System.exec, System.next, connections, step, brokerAlone, stepBroker,
    readerLoop, h.phase, h.reading, h.sent, publish_poll, publish_decode, Broker.step,
    Broker.readerLoop, Broker.dispatch, Broker.handleRequest, Broker.handlePublish, h.subscriptions,
    Broker.runSection, Broker.handlePublish.senders, h.clients, Broker.handlePublish.next]
  constructor <;>
    simp [h.clients, h.subscriptions, h.channel, h.running, h.arrived, h.coming, h.selecting,
      h.mailbox, h.handles, h.writing]

theorem flooded_event (tr : List Event)
    (h : Flooded s x n (.handling (.publishSend (.event "o" "t" .null) [⟨x⟩])) [])
    (hn : n < channelCapacity) :
    ∃ w, (connections narrowPipes).exec (fun _ _ => True) ⟨s, tr⟩ [.broker (.handler x)] = some w ∧
      Flooded w.state x (n + 1) .reading [] := by
  have hlen : (s.broker.channel x).length < channelCapacity := h.channel.symm ▸ hn
  simp [System.exec, System.next, connections, step, brokerAlone, stepBroker, h.phase, Broker.step,
    Broker.runSection, Broker.handlePublish.send, Broker.send, hlen, Broker.handlePublish.next]
  constructor <;>
    simp [h.clients, h.subscriptions, h.channel, h.running, h.arrived, h.coming, h.reading,
      h.selecting, h.mailbox, h.handles, h.writing, h.sent]

theorem flooded_full (hn : n ≤ channelCapacity) :
    ∃ w, (connections narrowPipes).Run w ∧ Flooded w.state Broker.callerC n .reading [] := by
  induction n with
  | zero =>
    obtain ⟨w, he, h⟩ := flooded_start
    have hstart : (connections narrowPipes).Run ⟨Connections.initial [], []⟩ := .start ⟨[], rfl⟩
    exact ⟨w, hstart.of_exec he, h⟩
  | succ n ih =>
    obtain ⟨w, hr, h⟩ := ih (Nat.le_of_succ_le hn)
    obtain ⟨w₁, he₁, h₁⟩ := flooded_publish w.trace h
    obtain ⟨w₂, he₂, h₂⟩ := flooded_read w₁.trace h₁
    obtain ⟨w₃, he₃, h₃⟩ := flooded_event w₂.trace h₂ hn
    exact ⟨w₃, ((hr.of_exec he₁).of_exec he₂).of_exec he₃, h₃⟩

theorem flooded_blocks (tr : List Event)
    (h : Flooded s x channelCapacity (.handling (.publishSend (.event "o" "t" .null) [⟨x⟩]))
      (frame publishText)) :
    ∃ w, (connections narrowPipes).exec (fun _ _ => True) ⟨s, tr⟩ (publish x 0) = some w ∧
      w.state.Deadlocked narrowPipes x x := by
  have hlen : (s.sent x).length = 59 := by rw [h.sent, publish_length]
  simp [publish, System.exec, System.next, connections, step, clientAlone, stepClient,
    IpcClient.step, IpcClient.issue, h.handles, h.selecting, h.mailbox, IpcClient.mailboxCapacity,
    IpcClient.Operation.msg, h.writing, publish_bytes, publish_take]
  refine ⟨Nat.le_of_eq hlen, ?_⟩
  have hpending : 0 < (frame publishText).length := by
    rw [publish_length]
    exact Nat.zero_lt_succ 58
  have hactor : WriteBlocked 59 (s.sent x) (update s.writing x (frame publishText) x) := by
    rw [update_self]
    exact ⟨hpending, Nat.le_of_eq hlen.symm⟩
  refine ⟨hactor, ?_, ⟨h.running, ?_⟩, hactor⟩
  · refine ⟨_, _, ⟨x⟩, _, _, h.phase, rfl, rfl, ?_, Nat.le_of_eq h.channel.symm⟩
    intro hended
    cases h.phase.symm.trans hended
  · simp only [update_self]
    exact ⟨h.coming, Nat.le_of_eq h.arrived.symm⟩

/-- A client that publishes to a topic it is subscribed to deadlocks with the broker, once the
channel and the pipes between them are full. -/
theorem self_publish_deadlocks :
    ¬ ∀ (T : Transport) (w : World Connections Event) (x y : ClientId),
      (connections T).Run w → ¬ w.state.Deadlocked T x y := by
  intro hall
  obtain ⟨w, hr, h⟩ := flooded_full (Nat.le_refl channelCapacity)
  obtain ⟨w₁, he₁, h₁⟩ := flooded_publish w.trace h
  obtain ⟨w₂, he₂, h₂⟩ := flooded_read w₁.trace h₁
  obtain ⟨w₃, he₃, h₃⟩ := flooded_publish w₂.trace h₂
  obtain ⟨w₄, he₄, hdead⟩ := flooded_blocks w₃.trace h₃
  have hr' := (((hr.of_exec he₁).of_exec he₂).of_exec he₃).of_exec he₄
  exact hall narrowPipes w₄ Broker.callerC Broker.callerC hr' hdead

end Connections
end IpcBroker
