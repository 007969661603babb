import IpcBroker.Broker.Registry
import IpcBroker.Connections.Publications

/-! No publication is lost: what is published after a subscriber has read the acknowledgement of its
subscription has been sent to its receiver, once nothing is on the way any more. -/

namespace IpcBroker
open Function Foundation

/-! The broker: who has been told so is among the subscribers, and gets what is published then. -/

namespace Broker
variable {x p : ClientId} {o topic : String} {w : World Broker BrokerStep} {tr : List BrokerStep}
  {ok : World Broker BrokerStep → Action → Prop}

theorem subscribed_inserted (h : broker.recorded.RunWhere ok w)
    (hm : .response (.subscribed o topic) ∈ (w.state.phase x).messages) :
    Inserted w.trace x o topic := by
  revert hm
  refine h.invariant (I := fun w => .response (.subscribed o topic) ∈ (w.state.phase x).messages →
    Inserted w.trace x o topic) ?_ ?_
  · rintro _ ⟨items, rfl⟩
    nofun
  · intro w a w' hr hI _ hn hm
    obtain ⟨es, hs, htr⟩ := System.recorded_next.mp hn
    rw [htr]
    obtain hold | ⟨pc, rfl, hx, hmade⟩ := (step_transition hs).own_reply hm
    · exact (hI hold).cons _
    · cases pc with
      | subscribe o' topic' =>
        cases List.mem_singleton.mp hmade
        exact inserted_cons.mpr (.inl (inserts_iff.mpr ⟨rfl, hx⟩))
      | _ => simp [ownReplies] at hmade

theorem acknowledged (h : broker.recorded.RunWhere ok w) {site : SendSite} {y : ClientId}
    (he : Event.enqueued site y x (.response (.subscribed o topic)) ∈ w.events.trace) :
    Inserted w.trace x o topic := by
  revert he
  refine h.invariant (I := fun w =>
    Event.enqueued site y x (.response (.subscribed o topic)) ∈ w.events.trace →
      Inserted w.trace x o topic) (fun _ _ he => absurd he List.not_mem_nil) ?_
  intro w a w' hr hI _ hn he
  obtain ⟨es, hs, htr⟩ := System.recorded_next.mp hn
  rw [World.events, htr, List.flatMap_cons] at he
  rw [htr]
  obtain he | he := List.mem_append.mp he
  · obtain ⟨rfl, -, rest, hx⟩ := (step_transition hs).replier (recorded_lifecycle hr)
      (sources hr.run_events).phase (subscriptionsInserted hr).phase he (Option.some_ne_none _)
    refine (subscribed_inserted hr ?_).cons _
    rw [hx]
    exact List.mem_cons_self
  · exact (hI he).cons _

theorem due_since (hi : Inserted tr x o topic) (later : List BrokerStep) :
    (due p x (later ++ tr)).filterMap (Publication.argsOf? o topic) =
      (due p x tr).filterMap (Publication.argsOf? o topic) ++
        (chronicle (snapshotOf? p) later).filterMap (Publication.argsOf? o topic) := by
  induction later with
  | nil => exact (List.append_nil _).symm
  | cons st later ih =>
    have hnew : ((snapshotOf? p st).toList.filter fun e =>
        (later ++ tr).any (inserts x e.objectName e.topic)).filterMap
          (Publication.argsOf? o topic) =
        (chronicle (snapshotOf? p) [st]).filterMap (Publication.argsOf? o topic) := by
      cases hsnap : snapshotOf? p st with
      | none => simp [chronicle, hsnap]
      | some e =>
        have hone : chronicle (snapshotOf? p) [st] = [e] := by simp [chronicle, hsnap]
        rw [hone, Option.toList_some]
        by_cases htopic : e.objectName = o ∧ e.topic = topic
        · obtain ⟨rfl, rfl⟩ := htopic
          have hin : (later ++ tr).any (inserts x e.objectName e.topic) = true := by
            rw [List.any_append, Bool.or_eq_true]
            exact .inr hi
          exact congrArg _ (List.filter_cons_of_pos hin)
        · have hnone : e.argsOf? o topic = none := if_neg htopic
          rw [List.filterMap_cons_none hnone]
          refine List.filterMap_eq_nil_iff.mpr fun e' he' => ?_
          rw [List.mem_singleton.mp (List.mem_filter.mp he').1]
          exact hnone
    rw [List.cons_append, due_cons, List.filterMap_append, ih, hnew, List.append_assoc,
      ← List.filterMap_append, ← chronicle_append, List.singleton_append]

end Broker

/-! A client whose writes do not fail writes all that fits into a packet. -/

namespace IpcClient
variable {json : SerdeJson} {s s' : IpcClient} {a : Action} {es : List Event} {o topic : String}
  {c : Nat} {w : World IpcClient Event} {ok : World IpcClient Event → Action → Prop}

def fits (json : SerdeJson) (r : RpcRequest) : Bool := (json.toVec r).length ≤ bufSize

def fitting (json : SerdeJson) (msgs : List ClientMsg) : List RpcRequest :=
  (msgs.map ClientMsg.toWrite).filter (fits json)

def published (json : SerdeJson) (o topic : String) (tr : List Event) : List Value :=
  ((fitting json (issuedMsgs tr)).filterMap RpcRequest.publication?).filterMap
    (Publication.argsOf? o topic)

theorem fitting_append (msgs msgs' : List ClientMsg) :
    fitting json (msgs ++ msgs') = fitting json msgs ++ fitting json msgs' := by
  rw [fitting, List.map_append, List.filter_append]
  rfl

theorem published_append (json : SerdeJson) (o topic : String) (es tr : List Event) :
    published json o topic (es ++ tr) = published json o topic tr ++ published json o topic es := by
  rw [published, issuedMsgs_append, fitting_append, List.filterMap_append, List.filterMap_append]
  rfl

theorem fitting_cons (msg : ClientMsg) (msgs : List ClientMsg) : fitting json (msg :: msgs) =
    (if fits json msg.toWrite then [msg.toWrite] else []) ++ fitting json msgs := by
  rw [fitting, List.map_cons, List.filter_cons]
  split_ifs <;> rfl

theorem writePacket_fits {r : RpcRequest} : (fits json r = true ∧ ∃ bytes,
      writePacket (json.toVec r) none = .ok bytes) ∨
    fits json r = false ∧ ∃ e, writePacket (json.toVec r) none = .error e := by
  unfold writePacket fits
  split_ifs with hlong
  · exact .inr ⟨decide_eq_false (Nat.not_le_of_lt hlong), _, rfl⟩
  · exact .inl ⟨decide_eq_true (Nat.le_of_not_lt hlong), _, rfl⟩

theorem Transition.fitting (h : Transition json s a s' es) (ha : ∀ fault, a = .take fault → fault = none)
    (hp : s'.phase ≠ .ended) : s.phase ≠ .ended ∧
      sentRequests es ++ fitting json s'.mailbox =
        fitting json s.mailbox ++ fitting json (issuedMsgs es) := by
  have hstay : sentRequests es = [] → issuedMsgs es = [] → s'.mailbox = s.mailbox →
      s'.phase = s.phase → s.phase ≠ .ended ∧ sentRequests es ++ IpcClient.fitting json s'.mailbox =
        IpcClient.fitting json s.mailbox ++ IpcClient.fitting json (issuedMsgs es) := by
    intro hsent hissued hm hphase
    refine ⟨hphase ▸ hp, ?_⟩
    rw [hsent, hissued, hm]
    exact (List.append_nil _).symm
  have htake : ∀ {fault msg rest}, a = .take fault → s.mailbox = msg :: rest →
      (∀ e, writePacket (json.toVec msg.toWrite) fault = .error e → sentRequests es = []) →
      (∀ bytes, writePacket (json.toVec msg.toWrite) fault = .ok bytes →
        sentRequests es = [msg.toWrite]) →
      sentRequests es ++ IpcClient.fitting json rest = IpcClient.fitting json s.mailbox := by
    intro fault msg rest hact hm herr hok
    obtain rfl := ha fault hact
    rw [hm, fitting_cons]
    obtain ⟨hfits, bytes, hbytes⟩ | ⟨hfits, e, he⟩ := @writePacket_fits json msg.toWrite
    · rw [hok bytes hbytes, if_pos hfits]
    · rw [herr e he, hfits]
      rfl
  cases h with
  | issue hne => exact ⟨hne, fitting_append _ _⟩
  | issueEnded hend => exact absurd hend hp
  | requestFailed hs hm hw =>
    refine ⟨hs ▸ Phase.noConfusion, (htake rfl hm (fun _ _ => rfl) fun bytes hb => ?_).trans
      (List.append_nil _).symm⟩
    cases hw.symm.trans hb
  | requestAwaits hs hm hw | requestDone hs hm hw =>
    refine ⟨hs ▸ Phase.noConfusion, (htake rfl hm (fun e he => ?_) fun _ _ => rfl).trans
      (List.append_nil _).symm⟩
    cases hw.symm.trans he
  | @subscribe fault reading o topic updates rest hs hm =>
    have hissued : issuedMsgs
        (IpcClient.subscribe json { s with mailbox := rest } o topic updates fault).2 = [] :=
      (subscribe_answered _ _ _ _ _ _).2.1
    rw [hissued]
    refine ⟨hs ▸ Phase.noConfusion, (htake rfl hm (fun e he => ?_) fun bytes hb => ?_).trans
      (List.append_nil _).symm⟩
    · simp only [ClientMsg.toWrite] at he
      simp only [IpcClient.subscribe, he]
      rfl
    · simp only [ClientMsg.toWrite] at hb
      simp only [IpcClient.subscribe, hb]
      rfl
  | @pollPacket reading data rest hs hr =>
    obtain ⟨-, hissued, hsent, -⟩ := readArm_answered json { s with arrived := rest } data
    obtain hexit | ⟨hphase, hmailbox⟩ := readArm_goes_on json { s with arrived := rest } data
    · rw [hexit] at hp
      exact absurd rfl hp
    · rw [sentRequests_append, issuedMsgs_append, hissued, hsent, hmailbox]
      exact ⟨hs ▸ Phase.noConfusion, (List.append_nil _).symm⟩
  | pollPending hs | pollFailed hs | awaitPending hs | awaitPacket hs | awaitFailed hs =>
    exact ⟨hs ▸ Phase.noConfusion, (List.append_nil _).symm⟩
  | exit => exact absurd rfl hp
  | _ => exact hstay rfl rfl rfl rfl

theorem Transition.last (h : Transition json s a s' es) (hp : s'.phase = .ended) :
    sentRequests es = [] ∧ issuedMsgs es = [] := by
  cases h with
  | issue hne => exact absurd hp hne
  | issueEnded =>
    constructor <;> refine chronicle_none fun e he => ?_
    all_goals
      obtain ⟨req, respTx, rfl⟩ := abandon_event (Option.mem_toList.mp he)
      rfl
  | pollPacket =>
    rw [sentRequests_append, issuedMsgs_append, (readArm_answered _ _ _).2.1,
      (readArm_answered _ _ _).2.2.1]
    exact ⟨rfl, rfl⟩
  | exit => exact ⟨exit_quiet.2, exit_quiet.1⟩
  | requestFailed | requestAwaits | requestDone | subscribe | awaitPacket => cases hp
  | _ => exact ⟨rfl, rfl⟩

theorem sent_fitting (hok : ∀ w a, ok w a → ∀ fault, a = .take fault → fault = none)
    (h : (client json).RunWhere ok w) :
    ∃ left, IpcClient.fitting json (issuedMsgs w.trace) = sentRequests w.trace ++ left ∧
      (w.state.phase ≠ .ended → left = IpcClient.fitting json w.state.mailbox) := by
  refine h.invariant (I := fun w => ∃ left,
    IpcClient.fitting json (issuedMsgs w.trace) = sentRequests w.trace ++ left ∧
      (w.state.phase ≠ .ended → left = IpcClient.fitting json w.state.mailbox)) ?_ ?_
  · rintro _ rfl
    exact ⟨[], rfl, fun _ => rfl⟩
  · rintro w a w' - ⟨left, hsent, hleft⟩ ha hn
    obtain ⟨es, ht, htr⟩ := next_transition hn
    rw [htr, issuedMsgs_append, sentRequests_append, fitting_append, hsent]
    by_cases hp : w'.state.phase = .ended
    · obtain ⟨hnone, hissued⟩ := ht.last hp
      exact ⟨left, by rw [hnone, hissued, List.append_nil]; exact List.append_nil _,
        fun hne => absurd hp hne⟩
    · obtain ⟨hrun, hstep⟩ := ht.fitting (hok w a ha) hp
      refine ⟨_, ?_, fun _ => rfl⟩
      rw [hleft hrun, List.append_assoc, ← hstep, List.append_assoc]

theorem sent_since (h : (client json).RunWhere (fun w a => awaitsNoEvent json w.state a = true) w)
    {since before : List Event} (htr : w.trace = since ++ .registered o topic c :: before)
    (hpruned : .pruned c ∉ since) : sentTo c since = eventsRead json o topic since := by
  obtain ⟨u, hu, rfl⟩ := h.exists_recorded
  obtain ⟨-, hsent⟩ | ⟨after, mid, args, rfl, -⟩ := (run_course hu c).since htr
  · exact hsent
  · exact absurd (List.mem_append_right _ List.mem_cons_self) hpruned

end IpcClient

namespace Connections
variable {T : Transport} {s : Connections} {x p : ClientId} {o topic : String} {c : Nat}
  {w w₀ : World Connections Event}

/-- The actor of `x` does not take an event of a topic with a receiver for a response. -/
def Listens (T : Transport) (x : ClientId) (w : World Connections Event) (a : Action) : Prop :=
  ∀ b, clientAction? T w.state x a = some b →
    IpcClient.awaitsNoEvent T.json (w.state.client x) b = true

/-- `x` is connected, and nothing is on the way to it. -/
structure Drained (s : Connections) (x : ClientId) : Prop where
  connected : (s.broker.clients x).isSome = true
  running : s.broker.writing x = true
  channel : s.broker.channel x = []
  hungUp : (s.client x).hungUp = none
  held : (s.client x).phase.held = []
  arrived : (s.client x).arrived = []
  coming : (s.client x).coming = []

/-- The actor of `p` runs, and the broker has read and handled all that it was given to send. -/
structure Handled (s : Connections) (p : ClientId) : Prop where
  running : (s.client p).phase ≠ .ended
  mailbox : (s.client p).mailbox = []
  writing : s.writing p = []
  sent : s.sent p = []
  held : (s.reading p).held = []
  handler : s.broker.phase p = .reading

theorem all_returned (h : (connections T).RunWhere (Carried T) w) (hd : Drained w.state x) :
    IpcClient.returned (clientWorld w x).trace =
      (putOn (brokerWorld w).trace x).map fun q => T.text.encode q.2 := by
  obtain ⟨u, hu, hev⟩ := (broker_run h).exists_recorded
  have hstate : u.state = w.state.broker := congrArg World.state hev
  have hchannel := Broker.channel_inOrder hu (y := x) (by rw [hstate]; exact hd.running)
  rw [hstate, hd.channel, List.append_nil, hev, ← putOn_enqueued] at hchannel
  have hI := IpcClient.streamInv (fun _ _ h => h) (untouched_run h x)
  obtain ⟨lost, hbytes, hlost⟩ := hI.bytes
  have hheld : (clientWorld w x).state.phase.held = [] := hd.held
  have harrived : (clientWorld w x).state.arrived = [] := hd.arrived
  have hcoming : (clientWorld w x).state.coming = [] := hd.coming
  rw [hlost hd.hungUp, hheld, harrived, hcoming] at hbytes
  simp only [List.append_nil] at hbytes
  rw [eq_of_frames hI.in_order hbytes, (packetsCarried h x).written, ← hchannel, List.map_map]
  rfl

theorem gotFrom_append (p : ClientId) (got got' : List (ClientId × Value)) :
    gotFrom p (got ++ got') = gotFrom p got ++ gotFrom p got' := by
  rw [gotFrom, List.filter_append, List.map_append]
  rfl

/-! The publications of `p`, by the snapshots of their subscribers. -/

section Publisher
variable {u : World Broker BrokerStep}

theorem snapshots_published (h : (connections T).RunWhere (Carried T) w)
    (hu : IpcBroker.broker.recorded.Run u) (hev : u.events = brokerWorld w) (o topic : String)
    (p : ClientId) :
    (chronicle (snapshotOf? p) u.trace).filterMap (Publication.argsOf? o topic) <+:
      IpcClient.published T.json o topic (clientWorld w p).trace := by
  have htrace : u.trace.flatMap (·.events) = (brokerWorld w).trace := congrArg World.trace hev
  have hsent := published_sent h p
  rw [← htrace, ← published_received, Broker.published_order hu p] at hsent
  obtain ⟨left, hfits, -⟩ := IpcClient.sent_fitting (fun _ _ ha => ha) (unfailing_run h p)
  rw [IpcClient.published, hfits, List.filterMap_append]
  exact (((List.prefix_append _ _).trans hsent).trans (List.prefix_append _ _)).filterMap _

theorem handled_published (h : (connections T).RunWhere (Carried T) w)
    (hu : IpcBroker.broker.recorded.Run u) (hev : u.events = brokerWorld w)
    (hp : Handled w.state p) (o topic : String) :
    (chronicle (snapshotOf? p) u.trace).filterMap (Publication.argsOf? o topic) =
      IpcClient.published T.json o topic (clientWorld w p).trace := by
  have htrace : u.trace.flatMap (·.events) = (brokerWorld w).trace := congrArg World.trace hev
  have hphase : u.state.phase p = .reading := by
    rw [show u.state = w.state.broker from congrArg World.state hev]
    exact hp.handler
  have horder := Broker.published_order hu p
  rw [hphase, published_received, htrace] at horder
  obtain ⟨later, hlater⟩ := requestsCarried h p
  have hnone : later = [] := by
    have hbytes := hlater.bytes
    rw [hp.held, hp.sent, hp.writing] at hbytes
    exact List.map_eq_nil_iff.mp (frames_eq_nil hbytes)
  have hsent := hlater.sent
  rw [hnone, List.map_nil, List.append_nil] at hsent
  obtain ⟨left, hfits, hleft⟩ := IpcClient.sent_fitting (fun _ _ ha => ha) (unfailing_run h p)
  have hempty : (clientWorld w p).state.mailbox = [] := hp.mailbox
  rw [hleft hp.running, hempty] at hfits
  have hread : (chronicle (snapshotOf? p) u.trace) =
      (IpcClient.sentRequests (clientWorld w p).trace).filterMap RpcRequest.publication? := by
    refine (List.append_nil _).symm.trans (horder.symm.trans ?_)
    rw [← hsent, List.filterMap_map]
    rfl
  rw [hread, IpcClient.published, hfits]
  exact congrArg _ (congrArg _ (List.append_nil _).symm)

theorem gotFrom_due (hu : IpcBroker.broker.recorded.Run u) (hev : u.events = brokerWorld w)
    (o topic : String) (p x : ClientId) :
    gotFrom p ((putOn (brokerWorld w).trace x).filterMap (eventFrom? o topic)) <+:
      (due p x u.trace).filterMap (Publication.argsOf? o topic) := by
  have htrace : u.trace.flatMap (·.events) = (brokerWorld w).trace := congrArg World.trace hev
  rw [gotFrom_events, ← htrace, ← eventsTo_putOn]
  exact ((List.prefix_append ..).trans (Broker.delivered_due hu p x).2).filterMap _

theorem gotFrom_all_due (hu : IpcBroker.broker.recorded.Run u) (hev : u.events = brokerWorld w)
    (hp : Handled w.state p) (hx : (w.state.broker.clients x).isSome = true) (o topic : String) :
    gotFrom p ((putOn (brokerWorld w).trace x).filterMap (eventFrom? o topic)) =
      (due p x u.trace).filterMap (Publication.argsOf? o topic) := by
  have htrace : u.trace.flatMap (·.events) = (brokerWorld w).trace := congrArg World.trace hev
  have hstate : u.state = w.state.broker := congrArg World.state hev
  have hphase : u.state.phase p = .reading := hstate ▸ hp.handler
  rw [gotFrom_events, ← htrace, ← eventsTo_putOn]
  have hrank := (Broker.clients_isSome (Broker.recorded_lifecycle hu)).mp (hstate ▸ hx)
  rw [← (Broker.delivered_due hu p x).1 hrank.2, Broker.toDeliver_nil (by simp [hphase])
    (by simp [hphase]), List.append_nil]

end Publisher

theorem acknowledged_inserted {u : World Broker BrokerStep} {data : List UInt8}
    (h : (connections T).RunWhere (Carried T) w) (hu : IpcBroker.broker.recorded.Run u)
    (hev : u.events = brokerWorld w) (hread : Event.client x (.returned data) ∈ w.trace)
    (hdata : T.json.fromSlice data = .ok (.subscribed o topic)) : Inserted u.trace x o topic := by
  obtain ⟨qs, hqs, hreturned, hreadable, -⟩ := events_read h x
  have hmem : data ∈ IpcClient.returned (clientWorld w x).trace := by
    refine List.mem_reverse.mpr (List.mem_filterMap.mpr ⟨.returned data, ?_, rfl⟩)
    exact List.mem_filterMap.mpr ⟨_, hread, if_pos rfl⟩
  rw [hreturned] at hmem
  obtain ⟨q, hq, rfl⟩ := List.mem_map.mp hmem
  have hpacket : q.2 = .response (.subscribed o topic) := ((hreadable q hq).2 _).mp hdata
  obtain ⟨e, he, hput⟩ := List.mem_filterMap.mp (List.mem_reverse.mp (hqs.subset hq))
  unfold IpcBroker.Event.putOn? at hput
  split at hput
  · next site y z m =>
    split_ifs at hput with hz
    cases hput
    obtain rfl : m = .response (.subscribed o topic) := hpacket
    rw [← hev, hz] at he
    exact Broker.acknowledged hu he
  · cases hput

theorem drained_events (h : (connections T).RunWhere (Carried T) w) (hd : Drained w.state x)
    (o topic : String) :
    ((putOn (brokerWorld w).trace x).filterMap (eventFrom? o topic)).map Prod.snd =
      IpcClient.eventsRead T.json o topic (clientWorld w x).trace := by
  obtain ⟨qs, hqs, hreturned, -, hread⟩ := events_read h x
  have hlength := congrArg List.length (hreturned.symm.trans (all_returned h hd))
  rw [List.length_map, List.length_map] at hlength
  rw [← hqs.eq_of_length hlength]
  exact hread o topic

/-- What has come to a receiver since an earlier moment, at which its subscription had been
acknowledged: of each publisher all that it has published since then, in order and each once, after
what of the earlier publications was still on the way. -/
structure Arrived (T : Transport) (w₀ w : World Connections Event) (x : ClientId) (c : Nat)
    (o topic : String) (got : List (ClientId × Value)) : Prop where
  sent : IpcClient.sentTo c (clientWorld w x).trace =
    IpcClient.sentTo c (clientWorld w₀ x).trace ++ got.map Prod.snd
  all : ∀ p, Handled w.state p → ∃ earlier later,
    earlier.Sublist (IpcClient.published T.json o topic (clientWorld w₀ p).trace) ∧
    IpcClient.published T.json o topic (clientWorld w p).trace =
      IpcClient.published T.json o topic (clientWorld w₀ p).trace ++ later ∧
    gotFrom p got = earlier ++ later

theorem arrived_from {u₀ u : World Broker BrokerStep} {later : List BrokerStep}
    {got₀ got : List (ClientId × Value)} (h₀ : (connections T).RunWhere (Carried T) w₀)
    (h : (connections T).RunWhere (Carried T) w) (hu₀ : IpcBroker.broker.recorded.Run u₀)
    (hev₀ : u₀.events = brokerWorld w₀) (hu : IpcBroker.broker.recorded.Run u)
    (hev : u.events = brokerWorld w) (htr : u.trace = later ++ u₀.trace)
    (hin : Inserted u₀.trace x o topic) (hp : Handled w.state p)
    (hx : (w.state.broker.clients x).isSome = true)
    (hsince : (clientWorld w₀ p).trace <:+ (clientWorld w p).trace)
    (hgot₀ : got₀ <+: (putOn (brokerWorld w₀).trace x).filterMap (eventFrom? o topic))
    (hgot : (putOn (brokerWorld w).trace x).filterMap (eventFrom? o topic) = got₀ ++ got) :
    ∃ earlier later,
      earlier.Sublist (IpcClient.published T.json o topic (clientWorld w₀ p).trace) ∧
      IpcClient.published T.json o topic (clientWorld w p).trace =
        IpcClient.published T.json o topic (clientWorld w₀ p).trace ++ later ∧
      gotFrom p got = earlier ++ later := by
  obtain ⟨rest, hbefore⟩ := ((hgot₀.filter _).map _).trans (gotFrom_due hu₀ hev₀ o topic p x)
  obtain ⟨missing, hmissing⟩ := snapshots_published h₀ hu₀ hev₀ o topic p
  have hall := gotFrom_all_due hu hev hp hx o topic
  rw [hgot, gotFrom_append, htr, Broker.due_since hin, ← hbefore, List.append_assoc] at hall
  have hgotFrom := List.append_cancel_left hall
  have hpublished := handled_published h hu hev hp o topic
  obtain ⟨es, hes⟩ := hsince
  rw [htr, chronicle_append, List.filterMap_append, ← hes, IpcClient.published_append, ← hmissing,
    List.append_assoc] at hpublished
  have hlater := List.append_cancel_left hpublished
  refine ⟨rest ++ missing, IpcClient.published T.json o topic es, ?_, ?_, ?_⟩
  · rw [← hmissing]
    refine List.Sublist.append ?_ (List.Sublist.refl _)
    have hrest : rest.Sublist ((due p x u₀.trace).filterMap (Publication.argsOf? o topic)) :=
      hbefore ▸ List.sublist_append_right _ _
    exact hrest.trans ((Broker.due_sublist p x u₀.trace).filterMap _)
  · rw [← hes, IpcClient.published_append]
  · rw [hgotFrom, hlater, List.append_assoc]

/-- A publication that is issued once the acknowledgement of the subscription has been read gets to
the receiver: when nothing is on the way any more, every publisher that has been handled has had all
of its publications passed on, in order and each once. -/
theorem publications_arrive {data : List UInt8}
    (h₀ : (connections T).RunWhere (fun w a => Carried T w a ∧ Listens T x w a) w₀)
    (hreg : Event.client x (.registered o topic c) ∈ w₀.trace)
    (hread : Event.client x (.returned data) ∈ w₀.trace)
    (hdata : T.json.fromSlice data = .ok (.subscribed o topic))
    (hf : (connections T).From (fun w a => Carried T w a ∧ Listens T x w a) w₀ w)
    (hd : Drained w.state x) (hpruned : Event.client x (.pruned c) ∉ w.trace) :
    ∃ got, Arrived T w₀ w x c o topic got := by
  have h := hf.run h₀
  have hc₀ := h₀.mono fun _ _ => And.left
  have hc := h.mono fun _ _ => And.left
  have hsuffix : ∀ y, (clientWorld w₀ y).trace <:+ (clientWorld w y).trace := fun y =>
    hf.trace.filterMap _
  -- the steps of the broker since then
  obtain ⟨u₀, hu₀, hev₀⟩ := (broker_run hc₀).exists_recorded
  have hfollows : IpcBroker.broker.From (fun _ _ => True) (brokerWorld w₀) (brokerWorld w) :=
    hf.mapped brokerWorld fun _ _ _ _ hn => broker_follows hn
  rw [← hev₀] at hfollows
  obtain ⟨u, hfu, hev⟩ := hfollows.exists_recorded
  have hu : IpcBroker.broker.recorded.Run u := hfu.run hu₀
  obtain ⟨steps, hsteps⟩ := hfu.trace
  have hin := acknowledged_inserted hc₀ hu₀ hev₀ hread hdata
  -- the events read until then, and those that have been put on the channel since
  obtain ⟨qs, hqs, -, -, hevents⟩ := events_read hc₀ x
  have hput : (putOn (brokerWorld w₀).trace x) <+: putOn (brokerWorld w).trace x := by
    obtain ⟨es, hes⟩ : (brokerWorld w₀).trace <:+ (brokerWorld w).trace := hf.trace.filterMap _
    rw [← hes, putOn, putOn, chronicle_append]
    exact List.prefix_append _ _
  obtain ⟨rest, hrest⟩ := hqs.trans hput
  have hgot : (putOn (brokerWorld w).trace x).filterMap (eventFrom? o topic) =
      qs.filterMap (eventFrom? o topic) ++ rest.filterMap (eventFrom? o topic) := by
    rw [← hrest, List.filterMap_append]
  refine ⟨rest.filterMap (eventFrom? o topic), ?_, fun p hp => ?_⟩
  · have hlistens : ∀ {v}, (connections T).RunWhere (fun w a => Carried T w a ∧ Listens T x w a) v →
        (IpcClient.client T.json).RunWhere
          (fun w a => IpcClient.awaitsNoEvent T.json w.state a = true) (clientWorld v x) :=
      fun hv => client_runWhere (fun _ _ _ ha _ b hb => ha.2 b hb) hv
    have hmem : IpcClient.Event.registered o topic c ∈ (clientWorld w₀ x).trace :=
      List.mem_filterMap.mpr ⟨_, hreg, if_pos rfl⟩
    obtain ⟨since₀, before, hbefore⟩ := List.append_of_mem hmem
    obtain ⟨es, hes⟩ := hsuffix x
    have hnever : IpcClient.Event.pruned c ∉ (clientWorld w x).trace := by
      intro hmem
      obtain ⟨e, he, hclient⟩ := List.mem_filterMap.mp hmem
      unfold Event.client? at hclient
      split at hclient
      · cases hclient
      · next y e' =>
        split_ifs at hclient with hy
        cases hclient
        exact hpruned (hy ▸ he)
    have hsplit : (clientWorld w x).trace = (es ++ since₀) ++ .registered o topic c :: before := by
      rw [← hes, hbefore, List.append_assoc]
    have hsent₀ := IpcClient.sent_since (hlistens h₀) hbefore fun hp =>
      hnever (hsplit ▸ List.mem_append_left _ (List.mem_append_right _ hp))
    have hsent := IpcClient.sent_since (hlistens h) hsplit fun hp =>
      hnever (hsplit ▸ List.mem_append_left _ hp)
    rw [IpcClient.sentTo_append, IpcClient.eventsRead_append, hsent₀] at hsent
    have hsame : IpcClient.sentTo c es = IpcClient.eventsRead T.json o topic es :=
      List.append_cancel_left hsent
    have hall := drained_events hc hd o topic
    rw [hgot, List.map_append, hevents, ← hes, IpcClient.eventsRead_append, ← hsame] at hall
    rw [← hes, IpcClient.sentTo_append, List.append_cancel_left hall]
  · exact arrived_from hc₀ hc hu₀ hev₀ hu hev hsteps.symm hin hp hd.connected (hsuffix p)
      (hqs.filterMap _) hgot

/-! A client reads the acknowledgement of its subscription, and another one publishes. -/

def acknowledges (x : ClientId) : Event → Bool
  | .client y (.returned data) => y = x && data = IpcClient.subscribedText
  | _ => false

def dropped (x : ClientId) : Event → Bool
  | .client y (.pruned 0) => y = x
  | _ => false

def drainedTest (s : Connections) (x : ClientId) : Bool :=
  (s.broker.clients x).isSome && s.broker.writing x && (s.broker.channel x).isEmpty &&
    (s.client x).hungUp.isNone && (s.client x).phase.held.isEmpty &&
    (s.client x).arrived.isEmpty && (s.client x).coming.isEmpty

def listensTest (x : ClientId) (w : World Connections Event) (a : Action) : Bool :=
  (clientAction? widePipes w.state x a).all
    (IpcClient.awaitsNoEvent IpcClient.textJson (w.state.client x))

theorem listens_of_test (w : World Connections Event) (a : Action)
    (h : listensTest x w a = true) : Listens widePipes x w a := by
  intro b hb
  rw [listensTest, hb] at h
  exact h

theorem acknowledged_of_any {tr : List Event} (h : tr.any (acknowledges x) = true) :
    Event.client x (.returned IpcClient.subscribedText) ∈ tr := by
  obtain ⟨e, he, hread⟩ := List.any_eq_true.mp h
  unfold acknowledges at hread
  split at hread
  · next y data =>
    rw [Bool.and_eq_true, decide_eq_true_eq, decide_eq_true_eq] at hread
    exact hread.1 ▸ hread.2 ▸ he
  · cases hread

theorem drained_of_test {s : Connections} (h : drainedTest s x = true) : Drained s x := by
  simp only [drainedTest, Bool.and_eq_true, List.isEmpty_iff, Option.isNone_iff_eq_none] at h
  obtain ⟨⟨⟨⟨⟨⟨hconnected, hrunning⟩, hchannel⟩, hhungUp⟩, hheld⟩, harrived⟩, hcoming⟩ := h
  exact ⟨hconnected, hrunning, hchannel, hhungUp, hheld, harrived, hcoming⟩

theorem publications_arrive_once :
    ∃ w₀ w got, (connections widePipes).exec (fun w a => (carriedTest w a &&
        listensTest Broker.callerC w a) = true) ⟨Connections.initial [], []⟩
          (subscribeBoth Broker.callerC Broker.callerD) = some w₀ ∧
      (connections widePipes).exec (fun w a => (carriedTest w a &&
        listensTest Broker.callerC w a) = true) w₀
          (publishRead Broker.callerC Broker.callerD) = some w ∧
      (IpcClient.sentTo 0 (clientWorld w Broker.callerC).trace).length = 1 ∧
      Arrived widePipes w₀ w Broker.callerC 0 "o" "t" got := by
  obtain ⟨w₀, w, h₀, hf, he₀, he, ht⟩ := System.From.of_exec_any (connections widePipes)
    (fun w a => (carriedTest w a && listensTest Broker.callerC w a) = true)
    (subscribeBoth Broker.callerC Broker.callerD) (publishRead Broker.callerC Broker.callerD)
    (fun w₀ w => w₀.trace.any (registers Broker.callerC) &&
      w₀.trace.any (acknowledges Broker.callerC) && drainedTest w.state Broker.callerC &&
      !w.trace.any (dropped Broker.callerC) &&
      (IpcClient.sentTo 0 (clientWorld w Broker.callerC).trace).length = 1) ⟨[], rfl⟩ (by decide)
  simp only [Bool.and_eq_true, decide_eq_true_eq, Bool.not_eq_true'] at ht
  obtain ⟨⟨⟨⟨hreg, hread⟩, hdrained⟩, hdropped⟩, hone⟩ := ht
  have hok : ∀ w a, (carriedTest w a && listensTest Broker.callerC w a) = true →
      Carried widePipes w a ∧ Listens widePipes Broker.callerC w a := by
    intro w a hok
    rw [Bool.and_eq_true] at hok
    exact ⟨carried_of_test w a hok.1, listens_of_test w a hok.2⟩
  have hpruned : Event.client Broker.callerC (.pruned 0) ∉ w.trace := fun hmem => by
    rw [List.any_eq_false] at hdropped
    exact hdropped _ hmem (by decide)
  obtain ⟨got, hgot⟩ := publications_arrive (h₀.mono hok) (registered_of_any hreg)
    (acknowledged_of_any hread) rfl (hf.mono hok) (drained_of_test hdrained) hpruned
  exact ⟨w₀, w, got, he₀, he, hone, hgot⟩

end Connections
end IpcBroker
