import Mathlib.Data.List.Forall2
import IpcBroker.Broker.PublishSources
import IpcBroker.Client.IpcClient
import IpcBroker.Foundation.History

/-! The replies that the broker makes itself: those on the channel of a client match its requests in
order, but for service registrations, which have none. -/

namespace IpcBroker
open Function Foundation

/-- The requests that the broker handles by itself. -/
def RpcRequest.forBroker : RpcRequest → Bool
  | .registerObject _ | .registerService _ _ | .subscribe _ _ | .hasObject _ => true
  | .call _ | .publish _ _ _ => false

def RpcRequest.registersService : RpcRequest → Bool
  | .registerService _ _ => true
  | _ => false

/-- The responses that the broker makes to such a request. -/
def RpcResponse.ofBroker : RpcResponse → Bool
  | .registered _ | .subscribed _ _ | .hasObjectResult _ _ => true
  | .event _ _ _ | .result _ _ _ | .error _ _ _ => false

/-- The response is one to the request; only `Registered` could be one to a service registration. -/
def Matches : RpcRequest → RpcResponse → Prop
  | .registerObject o, .registered o' | .registerService o _, .registered o'
  | .hasObject o, .hasObjectResult o' _ => o' = o
  | .subscribe o topic, .subscribed o' topic' => o' = o ∧ topic' = topic
  | _, _ => False

def Event.requestFrom? (x : ClientId) : Event → Option RpcRequest
  | .received y (.request r) => if y = x ∧ r.forBroker then some r else none
  | _ => none

def Packet.reply? : Packet → Option RpcResponse
  | .response r => if r.ofBroker then some r else none
  | .request _ => none

def Event.replyTo? (x : ClientId) : Event → Option RpcResponse
  | .enqueued _ _ y msg => if y = x then msg.reply? else none
  | _ => none

def requestsOf (tr : List Event) (x : ClientId) : List RpcRequest :=
  chronicle (Event.requestFrom? x) tr

def repliesTo (tr : List Event) (x : ClientId) : List RpcResponse :=
  chronicle (Event.replyTo? x) tr

def Broker.idle (s : Broker) (x : ClientId) : Prop := ∀ pc, s.phase x ≠ .handling pc

def Phase.unanswered : Phase → List RpcRequest
  | .handling (.registerObjects o) | .handling (.registerServices o) => [.registerObject o]
  | .handling (.subscribe o topic) => [.subscribe o topic]
  | .handling (.hasObject o) => [.hasObject o]
  | _ => []

def Phase.replies : Phase → List RpcResponse
  | .handling (.sendLookup msg rest) | .handling (.sendAwait _ msg rest) =>
    (msg :: rest).filterMap Packet.reply?
  | _ => []

def answerable (rs : List RpcRequest) : List RpcRequest := rs.filter fun r => !r.registersService

namespace Broker

def Answers (s s' : Broker) (es : List Event) (x : ClientId) : Prop :=
  ∃ done made, List.Forall₂ Matches done made ∧
    (s.phase x).unanswered ++ answerable (requestsOf es x) = done ++ (s'.phase x).unanswered ∧
    (s.phase x).replies ++ made = repliesTo es x ++ (s'.phase x).replies

variable {s s' : Broker} {a : Action} {es tr : List Event} {x y : ClientId}

theorem unanswered_afterSends (msgs : List Packet) : (afterSends msgs).unanswered = [] := by
  cases msgs <;> rfl

theorem replies_afterSends (msgs : List Packet) :
    (afterSends msgs).replies = msgs.filterMap Packet.reply? := by
  cases msgs <;> rfl

theorem next_quiet (event : RpcResponse) (txs : List ClientSender) :
    (handlePublish.next event txs).unanswered = [] ∧
      (handlePublish.next event txs).replies = [] := by
  cases txs <;> exact ⟨rfl, rfl⟩

theorem reply_none {resp : RpcResponse} {c : CallId} (h : resp.callId? = some c) :
    (Packet.response resp).reply? = none := by
  cases resp with
  | result | error => rfl
  | _ => cases h

theorem Transition.replier {site : SendSite} {msg : Packet} (h : Transition s a s' es)
    (hL : Lifecycle s) (hS : ∀ y, PhaseSourced tr y (s.phase y)) {tr' : List BrokerStep}
    (hE : ∀ y, PhaseEvents tr' y (s.phase y)) (he : Event.enqueued site y x msg ∈ es)
    (hr : msg.reply? ≠ none) :
    y = x ∧ a = .handler x ∧ ∃ rest, s.phase x = .handling (.sendAwait ⟨x⟩ msg rest) := by
  obtain ⟨pc, tx, p, rfl, hy, hs, htx, -⟩ := h.sender he
  obtain ⟨k, rfl, -, rfl, -⟩ | ⟨resp, rfl, -, rfl, -⟩ | ⟨event, rest, rfl, -, rfl, -⟩ |
    ⟨rest, rfl, -, -⟩ := HandlerPc.sends_cases hs
  · exact absurd rfl hr
  · have hsrc := hS y
    rw [hy] at hsrc
    obtain ⟨c, hc, -⟩ := hsrc
    exact absurd (reply_none hc) hr
  · have hev := hE y
    rw [hy] at hev
    obtain ⟨-, e, rfl, -⟩ := hev
    exact absurd rfl hr
  · obtain rfl := hL.ownTx y tx msg rest hy
    obtain rfl : y = x := htx
    exact ⟨rfl, rfl, rest, hy⟩

theorem Answers.quiet {p q : Phase} (hx : s.phase x = q) (hx' : s'.phase x = p)
    (hunanswered : p.unanswered = q.unanswered) (hreplies : p.replies = q.replies)
    (hes : ∀ e ∈ es, e.requestFrom? x = none ∧ e.replyTo? x = none) : Answers s s' es x := by
  have hrequests : requestsOf es x = [] := chronicle_none fun e he => (hes e he).1
  have hmade : repliesTo es x = [] := chronicle_none fun e he => (hes e he).2
  refine ⟨[], [], .nil, ?_, ?_⟩
  · rw [hrequests, hx, hx', hunanswered]
    exact List.append_nil _
  · rw [hmade, hx, hx', hreplies]
    exact List.append_nil _

theorem requestFrom_none {e : Event} (h : ∀ p, e ≠ .received x p) : e.requestFrom? x = none := by
  cases e with
  | received y p =>
    have hy : y ≠ x := by
      rintro rfl
      exact h p rfl
    cases p with
    | request r => exact if_neg fun hr => hy hr.1
    | response r => rfl
  | _ => rfl

theorem replyTo_none {e : Event}
    (h : ∀ site y msg, e = .enqueued site y x msg → msg.reply? = none) : e.replyTo? x = none := by
  cases e with
  | enqueued site y z msg =>
    by_cases hz : z = x
    · subst hz
      exact (if_pos rfl).trans (h site y msg rfl)
    · exact if_neg hz
  | _ => rfl

theorem Answers.other (h : Transition s a s' es) (hL : Lifecycle s)
    (hS : ∀ y, PhaseSourced tr y (s.phase y)) {tr' : List BrokerStep}
    (hE : ∀ y, PhaseEvents tr' y (s.phase y)) (ha : a.mover ≠ some x) : Answers s s' es x := by
  have hphase : s'.phase x = s.phase x := by
    by_contra hne
    exact ha (h.mover hne)
  refine .quiet rfl hphase rfl rfl fun e he => ⟨?_, ?_⟩
  · refine requestFrom_none ?_
    rintro p rfl
    obtain ⟨rfl, -⟩ := h.received he
    exact ha rfl
  · refine replyTo_none ?_
    rintro site y msg rfl
    by_contra hr
    obtain ⟨-, rfl, -⟩ := h.replier hL hS hE he hr
    exact ha rfl

theorem requestsOf_receive (p : Packet) : answerable (requestsOf [.received x p] x) =
    match dispatch p with
    | some pc => (Phase.handling pc).unanswered
    | none => [] := by
  cases p with
  | request r =>
    cases r <;> simp [requestsOf, chronicle, Event.requestFrom?, answerable, RpcRequest.forBroker,
      RpcRequest.registersService, dispatch, handleRequest, Phase.unanswered]
  | response r =>
    cases h : r.callId? <;> simp [requestsOf, chronicle, Event.requestFrom?, answerable, dispatch,
      h, Phase.unanswered]

theorem Answers.made {q : Phase} {msgs : List Packet} {r : RpcRequest} {resp : RpcResponse}
    (h : Matches r resp) (hx : s.phase x = q) (hx' : s'.phase x = afterSends msgs)
    (hunanswered : q.unanswered = [r]) (hreplies : q.replies = [])
    (hmsgs : msgs.filterMap Packet.reply? = [resp])
    (hes : ∀ e ∈ es, e.requestFrom? x = none ∧ e.replyTo? x = none) : Answers s s' es x := by
  have hrequests : requestsOf es x = [] := chronicle_none fun e he => (hes e he).1
  have hmade : repliesTo es x = [] := chronicle_none fun e he => (hes e he).2
  refine ⟨[r], [resp], .cons h .nil, ?_, ?_⟩
  · rw [hrequests, hx, hx', hunanswered, unanswered_afterSends]
    rfl
  · rw [hmade, hx, hx', hreplies, replies_afterSends, hmsgs]

theorem HandlerPc.replies_sends {pc : HandlerPc} {site : SendSite} {tx : ClientSender}
    {msg : Packet} {p : Phase} (hL : Lifecycle s) (hS : PhaseSourced tr x (s.phase x))
    {tr' : List BrokerStep} (hE : PhaseEvents tr' x (s.phase x)) (hx : s.phase x = .handling pc)
    (hs : pc.sends = some (site, tx, msg, p)) :
    (s.phase x).unanswered = [] ∧ p.unanswered = [] ∧ (tx.channel = x ∨ msg.reply? = none) ∧
      (s.phase x).replies = msg.reply?.toList ++ p.replies := by
  rw [hx] at hS hE ⊢
  obtain ⟨k, rfl, -, rfl, rfl⟩ | ⟨resp, rfl, -, rfl, rfl⟩ | ⟨event, rest, rfl, -, rfl, rfl⟩ |
    ⟨rest, rfl, -, rfl⟩ := HandlerPc.sends_cases hs
  · exact ⟨rfl, rfl, .inr rfl, rfl⟩
  · obtain ⟨c, hc, -⟩ := hS
    have hr := reply_none hc
    refine ⟨rfl, rfl, .inr hr, ?_⟩
    rw [hr]
    rfl
  · obtain ⟨-, e, rfl, -⟩ := hE
    obtain ⟨hunanswered, hreplies⟩ := next_quiet e.event rest
    refine ⟨rfl, hunanswered, .inr rfl, ?_⟩
    rw [hreplies]
    rfl
  · refine ⟨rfl, unanswered_afterSends rest, .inl ?_, ?_⟩
    · rw [hL.ownTx x tx msg rest hx]
    · rw [replies_afterSends, Phase.replies]
      cases hm : msg.reply? with
      | none => exact List.filterMap_cons_none hm
      | some r => exact List.filterMap_cons_some hm

theorem repliesTo_enqueued {site : SendSite} {msg : Packet} :
    repliesTo [.enqueued site x y msg] x = if y = x then msg.reply?.toList else [] := by
  rw [repliesTo, chronicle]
  split_ifs with hy
  · subst hy
    have hev : Event.replyTo? y (.enqueued site y y msg) = msg.reply? := if_pos rfl
    cases hr : msg.reply? with
    | none => rw [List.filterMap_cons_none (hev.trans hr)]; rfl
    | some r => rw [List.filterMap_cons_some (hev.trans hr)]; rfl
  · have hev : Event.replyTo? x (.enqueued site x y msg) = none := if_neg hy
    rw [List.filterMap_cons_none hev]
    rfl

theorem reply_request (rs : List RpcRequest) :
    (rs.map Packet.request).filterMap Packet.reply? = [] := by
  rw [List.filterMap_map]
  exact List.filterMap_eq_nil_iff.mpr fun r _ => rfl

theorem dispatch_replies {p : Packet} {pc : HandlerPc} (hd : dispatch p = some pc) :
    (Phase.handling pc).replies = [] := by
  obtain ⟨r, -, rfl⟩ | ⟨resp, c, -, -, rfl⟩ := dispatch_cases hd
  · cases r <;> rfl
  · rfl

theorem Answers.received {p : Packet} {pc : HandlerPc} (hx : s.phase x = .reading)
    (hd : dispatch p = some pc) : Answers s (s.enter x pc) [.received x p] x := by
  refine ⟨[], [], .nil, ?_, ?_⟩
  · rw [requestsOf_receive, hd, hx, enter, goto_phase, update_self]
    rfl
  · rw [hx, enter, goto_phase, update_self, dispatch_replies hd]
    rfl

theorem Answers.ignored {p : Packet} (hd : dispatch p = none) : Answers s s [.received x p] x := by
  refine ⟨[], [], .nil, ?_, ?_⟩
  · rw [requestsOf_receive, hd]
    exact List.append_nil _
  · exact List.append_nil _

theorem route_quiet (k : Call) (workerId : Option ClientId) (workerTx : Option ClientSender) :
    (Phase.handling (handleCall.route k workerId workerTx)).unanswered = [] ∧
      (Phase.handling (handleCall.route k workerId workerTx)).replies = [] := by
  obtain ⟨w, t, -, -, h⟩ | ⟨-, h⟩ := route_cases k workerId workerTx
  · rw [h]
    exact ⟨rfl, rfl⟩
  · rw [h]
    exact ⟨rfl, rfl⟩

theorem Answers.sent {pc : HandlerPc} {site : SendSite} {tx : ClientSender} {msg : Packet}
    {p : Phase} (hL : Lifecycle s) (hS : PhaseSourced tr x (s.phase x)) {tr' : List BrokerStep}
    (hE : PhaseEvents tr' x (s.phase x)) (hx : s.phase x = .handling pc)
    (hs : pc.sends = some (site, tx, msg, p)) :
    Answers s ((s.push tx msg).goto x p) [.enqueued site x tx.channel msg] x := by
  obtain ⟨hunanswered, hunanswered', htx, hreplies⟩ := HandlerPc.replies_sends hL hS hE hx hs
  refine ⟨[], [], .nil, ?_, ?_⟩
  · rw [hunanswered, goto_phase, update_self, hunanswered']
    rfl
  · rw [hreplies, goto_phase, update_self, List.append_nil, repliesTo_enqueued]
    obtain htx | hr := htx
    · rw [if_pos htx]
    · rw [hr, Option.toList_none, ite_self]

theorem Answers.notSent {pc : HandlerPc} {site : SendSite} {tx : ClientSender} {msg : Packet}
    {p : Phase} (hL : Lifecycle s) (hS : PhaseSourced tr x (s.phase x)) {tr' : List BrokerStep}
    (hE : PhaseEvents tr' x (s.phase x)) (hx : s.phase x = .handling pc)
    (hs : pc.sends = some (site, tx, msg, p)) (ho : s.phase tx.channel = .ended) :
    Answers s (s.goto x p) [.sendFailed site x tx.channel msg] x := by
  obtain ⟨hunanswered, hunanswered', htx, hreplies⟩ := HandlerPc.replies_sends hL hS hE hx hs
  -- the connection of `x` has not ended, so the message is none for `x` itself
  have hne : tx.channel ≠ x := by
    rintro rfl
    cases ho.symm.trans hx
  rw [htx.resolve_left hne] at hreplies
  exact .quiet rfl (update_self ..) (hunanswered'.trans hunanswered.symm) hreplies.symm
    (by simp [Event.requestFrom?, Event.replyTo?])

theorem Transition.answers (h : Transition s a s' es) (hL : Lifecycle s)
    (hS : ∀ y, PhaseSourced tr y (s.phase y)) {tr' : List BrokerStep}
    (hE : ∀ y, PhaseEvents tr' y (s.phase y)) (x : ClientId) : Answers s s' es x := by
  by_cases ha : a.mover = some x
  swap
  · exact .other h hL hS hE ha
  cases h with
  | write | writeError | stopWriter | spawnEnd => cases ha
  | receiveInvalid => exact .quiet rfl rfl rfl rfl (List.forall_mem_nil _)
  | receiveIdle hx hd =>
    cases ha
    exact .ignored hd
  | receive hx hd =>
    cases ha
    exact .received hx hd
  | @registerServices y o e hx hl he =>
    cases ha
    have hm : Matches (.registerObject o) (.registered o) := rfl
    refine .made hm hx (update_self ..) rfl rfl ?_ (by simp [Event.requestFrom?, Event.replyTo?])
    rw [List.filterMap_append, reply_request]
    rfl
  | @registerPlain y o hx =>
    cases ha
    have hm : Matches (.registerObject o) (.registered o) := rfl
    exact .made hm hx (update_self ..) rfl rfl rfl (List.forall_mem_nil _)
  | @subscribe y o topic hx =>
    cases ha
    have hm : Matches (.subscribe o topic) (.subscribed o topic) := ⟨rfl, rfl⟩
    exact .made hm hx (update_self ..) rfl rfl rfl (List.forall_mem_nil _)
  | @hasObject y o hx =>
    cases ha
    have hm : Matches (.hasObject o) (.hasObjectResult o (s.objects o).isSome) := rfl
    exact .made hm hx (update_self ..) rfl rfl rfl (List.forall_mem_nil _)
  | @callInsert y k workerId workerTx tx hx =>
    cases ha
    obtain ⟨hunanswered, hreplies⟩ := route_quiet k workerId workerTx
    exact .quiet hx (update_self ..) hunanswered hreplies
      (by simp [Event.requestFrom?, Event.replyTo?])
  | sendLookup hx =>
    cases ha
    exact .quiet hx (update_self ..) rfl rfl (List.forall_mem_nil _)
  | @sendLookupGone y msg rest hx hc =>
    cases ha
    -- a client is in `clients` as long as its handler runs
    rw [hL.clients, hx] at hc
    cases hc
  | send hx hs =>
    cases ha
    exact .sent hL (hS x) (hE x) hx hs
  | sendFailed hx hs ho =>
    cases ha
    exact .notSent hL (hS x) (hE x) hx hs ho
  | publishSenders hx =>
    cases ha
    obtain ⟨hunanswered, hreplies⟩ := next_quiet _ _
    exact .quiet hx (update_self ..) hunanswered hreplies (List.forall_mem_nil _)
  | snapshotNone hx | snapshot hx =>
    cases ha
    exact .quiet hx (update_self ..) rfl rfl (List.forall_mem_nil _)
  | _ hx =>
    cases ha
    exact .quiet hx (update_self ..) rfl rfl (by simp [Event.requestFrom?, Event.replyTo?])

theorem unanswered_length (p : Phase) : p.unanswered.length ≤ 1 := by
  unfold Phase.unanswered
  split
  · exact Nat.le_refl 1
  · exact Nat.le_refl 1
  · exact Nat.le_refl 1
  · exact Nat.le_refl 1
  · exact Nat.zero_le 1

theorem Transition.reads_idle (h : Transition s a s' es) (x : ClientId) :
    answerable (requestsOf es x) = [] ∨
      s.phase x = .reading ∧ (answerable (requestsOf es x)).length ≤ 1 := by
  by_cases hp : ∃ p, Event.received x p ∈ es
  · obtain ⟨p, hp⟩ := hp
    obtain ⟨-, rfl, hx⟩ := h.received hp
    refine .inr ⟨hx, ?_⟩
    rw [requestsOf_receive]
    split
    · next pc _ => exact unanswered_length (.handling pc)
    · exact Nat.zero_le _
  · left
    have hnone : requestsOf es x = [] := chronicle_none fun e he =>
      requestFrom_none fun p hev => hp ⟨p, hev ▸ he⟩
    rw [hnone]
    rfl

theorem requestsOf_append (es tr : List Event) :
    requestsOf (es ++ tr) x = requestsOf tr x ++ requestsOf es x := chronicle_append

theorem repliesTo_append (es tr : List Event) :
    repliesTo (es ++ tr) x = repliesTo tr x ++ repliesTo es x := chronicle_append

structure RepliesMade (tr : List Event) (x : ClientId) (p : Phase) : Prop where
  made : ∃ answered, answerable (requestsOf tr x) = answered ++ p.unanswered ∧
    List.Forall₂ Matches answered (repliesTo tr x ++ p.replies)
  one : p.unanswered.length + p.replies.length ≤ 1

theorem RepliesMade.step (hI : RepliesMade tr x (s.phase x)) (h : Transition s a s' es)
    (ha : Answers s s' es x) : RepliesMade (es ++ tr) x (s'.phase x) := by
  obtain ⟨answered, hrequests, hmatch⟩ := hI.made
  obtain ⟨done, made, hmade, hdone, hreplies⟩ := ha
  constructor
  · refine ⟨answered ++ done, ?_, ?_⟩
    · rw [requestsOf_append, answerable, List.filter_append]
      calc answerable (requestsOf tr x) ++ answerable (requestsOf es x)
          = answered ++ ((s.phase x).unanswered ++ answerable (requestsOf es x)) := by
            rw [hrequests, List.append_assoc]
        _ = answered ++ done ++ (s'.phase x).unanswered := by rw [hdone, List.append_assoc]
    · have hall : List.Forall₂ Matches (answered ++ done)
        (repliesTo tr x ++ (s.phase x).replies ++ made) := List.rel_append hmatch hmade
      rwa [List.append_assoc, hreplies, ← List.append_assoc, ← repliesTo_append] at hall
  · -- a reply is made for each request that is through, and only a reader that is idle reads one
    have hone := hI.one
    have hlen := hmade.length_eq
    have hd := congrArg List.length hdone
    have hr := congrArg List.length hreplies
    simp only [List.length_append] at hd hr
    obtain hnone | ⟨hx, hle⟩ := h.reads_idle x
    · rw [hnone, List.length_nil] at hd
      omega
    · have hunanswered : (s.phase x).unanswered = [] := by rw [hx]; rfl
      have hreplies : (s.phase x).replies = [] := by rw [hx]; rfl
      rw [hunanswered, List.length_nil] at hd
      rw [hreplies, List.length_nil] at hr
      omega

theorem repliesMade {ok : World Broker BrokerStep → Action → Prop} {w : World Broker BrokerStep}
    (h : broker.recorded.RunWhere ok w) (x : ClientId) :
    RepliesMade w.events.trace x (w.state.phase x) := by
  refine h.invariant (I := fun w => RepliesMade w.events.trace x (w.state.phase x)) ?_ ?_
  · rintro _ ⟨items, rfl⟩
    exact ⟨⟨[], rfl, .nil⟩, Nat.zero_le _⟩
  · intro w a w' hr hI _ hn
    obtain ⟨es, hs, ht⟩ := System.recorded_next.mp hn
    have hT := step_transition hs
    have hanswers := hT.answers (recorded_lifecycle hr) (sources hr.run_events).phase
      (subscriptionsInserted hr).phase x
    have hnext := hI.step hT hanswers
    rwa [World.events, ht, List.flatMap_cons]

end Broker
end IpcBroker
