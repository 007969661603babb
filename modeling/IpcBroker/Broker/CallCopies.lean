import IpcBroker.Broker.CallHistory
import IpcBroker.Foundation.Copies

/-! With distinct ids a call is in one place at a time: not yet sent, with the task of a client,
in the queue of a service, on the channel of a worker, or refused. -/

namespace IpcBroker
open Function Foundation

inductive CallPlace
  | unsent
  | task (x : ClientId)
  | queue (objectName : String)
  | sent
  | refused

def Packet.calls (c : CallId) (p : Packet) : Bool := p.call?.any fun k => k.callId = c

def Phase.messages : Phase → List Packet
  | .handling (.sendLookup msg rest) | .handling (.sendAwait _ msg rest) => msg :: rest
  | _ => []

def Phase.callCopies (c : CallId) (p : Phase) : Nat :=
  (p.call?.toList.countP fun k => k.callId = c) + p.messages.countP (Packet.calls c)

def queueCopies (c : CallId) (entry : Option ServiceEntry) : Nat :=
  entry.elim 0 fun e => e.pendingCalls.countP fun r => (Packet.request r).calls c

def Event.sendsCall (c : CallId) : Event → Bool
  | .enqueued _ _ _ p => p.calls c
  | _ => false

def Event.refuses (c : CallId) : Event → Bool
  | .refused _ k => k.callId = c
  | _ => false

def callCopies (w : World Broker Event) (c : CallId) : CallPlace → Nat
  | .unsent => if c ∈ callIds w.trace then 0 else 1
  | .task x => (w.state.phase x).callCopies c
  | .queue o => queueCopies c (w.state.services o)
  | .sent => w.trace.countP (Event.sendsCall c)
  | .refused => w.trace.countP (Event.refuses c)

namespace Broker
variable {s s' : Broker} {a : Action} {es tr : List Event} {x y : ClientId} {k : Call}
  {c : CallId} {w w' : World Broker Event}

@[simp] theorem messages_afterSends (msgs : List Packet) : (afterSends msgs).messages = msgs := by
  cases msgs <;> rfl

@[simp] theorem messages_next (event : RpcResponse) (txs : List ClientSender) :
    (handlePublish.next event txs).messages = [] := by
  cases txs <;> rfl

@[simp] theorem call_afterSends (msgs : List Packet) : (afterSends msgs).call? = none := by
  cases msgs <;> rfl

@[simp] theorem call_next (event : RpcResponse) (txs : List ClientSender) :
    (handlePublish.next event txs).call? = none := by
  cases txs <;> rfl

theorem callCopies_afterSends (msgs : List Packet) :
    (afterSends msgs).callCopies c = msgs.countP (Packet.calls c) := by
  simp [Phase.callCopies]

theorem callCopies_next (event : RpcResponse) (txs : List ClientSender) :
    (handlePublish.next event txs).callCopies c = 0 := by
  simp [Phase.callCopies]

theorem calls_self (k : Call) : (Packet.request (.call k)).calls k.callId = true := by
  simp [Packet.calls, Packet.call?, RpcRequest.call?]

theorem callIds_append (es tr : List Event) : callIds (es ++ tr) = callIds es ++ callIds tr := by
  simp [callIds]

structure NoCall (c : CallId) (es : List Event) : Prop where
  ids : callIds es = []
  sent : es.countP (Event.sendsCall c) = 0
  refused : es.countP (Event.refuses c) = 0

theorem NoCall.unsent (h : NoCall c es) (s s' : Broker) (tr : List Event) :
    callCopies ⟨s', es ++ tr⟩ c .unsent = callCopies ⟨s, tr⟩ c .unsent := by
  simp only [callCopies, callIds_append, h.ids, List.nil_append]

theorem NoCall.sent_eq (h : NoCall c es) (s s' : Broker) (tr : List Event) :
    callCopies ⟨s', es ++ tr⟩ c .sent = callCopies ⟨s, tr⟩ c .sent := by
  simp only [callCopies, List.countP_append, h.sent, Nat.zero_add]

theorem NoCall.refused_eq (h : NoCall c es) (s s' : Broker) (tr : List Event) :
    callCopies ⟨s', es ++ tr⟩ c .refused = callCopies ⟨s, tr⟩ c .refused := by
  simp only [callCopies, List.countP_append, h.refused, Nat.zero_add]

theorem callFlow_within (hes : NoCall c es)
    (htask : ∀ y, (s'.phase y).callCopies c ≤ (s.phase y).callCopies c)
    (hqueue : ∀ o, queueCopies c (s'.services o) ≤ queueCopies c (s.services o)) :
    ∃ i j, Flows (callCopies ⟨s, tr⟩ c) (callCopies ⟨s', es ++ tr⟩ c) i j := by
  refine ⟨_, _, Flows.of_le (fun q => ?_) .unsent⟩
  cases q with
  | unsent => exact Nat.le_of_eq (hes.unsent s s' tr)
  | task y => exact htask y
  | queue o => exact hqueue o
  | sent => exact Nat.le_of_eq (hes.sent_eq s s' tr)
  | refused => exact Nat.le_of_eq (hes.refused_eq s s' tr)

theorem callFlow_task {p : Phase} (hes : NoCall c es) (hph : s'.phase = update s.phase x p)
    (hsv : ∀ o, queueCopies c (s'.services o) ≤ queueCopies c (s.services o))
    (hp : p.callCopies c ≤ (s.phase x).callCopies c) :
    ∃ i j, Flows (callCopies ⟨s, tr⟩ c) (callCopies ⟨s', es ++ tr⟩ c) i j := by
  refine callFlow_within hes (fun y => ?_) hsv
  by_cases hy : y = x
  · subst hy
    rw [hph, update_self]
    exact hp
  · rw [hph, update_of_ne hy]

theorem callFlow_drop {p : Phase} (hes : NoCall c es) (hph : s'.phase = update s.phase x p)
    (hsv : ∀ o, queueCopies c (s'.services o) ≤ queueCopies c (s.services o))
    (hp : p.callCopies c = 0) :
    ∃ i j, Flows (callCopies ⟨s, tr⟩ c) (callCopies ⟨s', es ++ tr⟩ c) i j :=
  callFlow_task hes hph hsv (hp ▸ Nat.zero_le _)

theorem callFlow_moved {p : Phase} {i : CallPlace} (hph : s'.phase = update s.phase x p)
    (hrest : ∀ q, q ≠ i → (∀ y, q ≠ .task y) →
      callCopies ⟨s', es ++ tr⟩ c q ≤ callCopies ⟨s, tr⟩ c q)
    (hmoved : callCopies ⟨s', es ++ tr⟩ c i + p.callCopies c ≤
      callCopies ⟨s, tr⟩ c i + (s.phase x).callCopies c) :
    ∃ i j, Flows (callCopies ⟨s, tr⟩ c) (callCopies ⟨s', es ++ tr⟩ c) i j := by
  refine ⟨i, .task x, fun q hi hx => ?_, ?_⟩
  · by_cases hq : ∃ y, q = .task y
    · obtain ⟨y, rfl⟩ := hq
      have hy : y ≠ x := fun hyx => hx (hyx ▸ rfl)
      simp only [callCopies, hph, update_of_ne hy]
      exact Nat.le_refl _
    · exact hrest q hi fun y hy => hq ⟨y, hy⟩
  · have htask : callCopies ⟨s', es ++ tr⟩ c (.task x) = p.callCopies c := by
      simp only [callCopies, hph, update_self]
    rw [htask]
    exact hmoved

theorem callCopies_sends {pc : HandlerPc} {site : SendSite} {tx : ClientSender} {msg : Packet}
    {p : Phase} (h : pc.sends = some (site, tx, msg, p)) :
    (Phase.handling pc).callCopies c = p.callCopies c + if msg.calls c then 1 else 0 := by
  obtain ⟨k, rfl, -, rfl, rfl⟩ | ⟨resp, rfl, -, rfl, rfl⟩ | ⟨event, rest, rfl, -, rfl, rfl⟩ |
    ⟨rest, rfl, -, rfl⟩ := HandlerPc.sends_cases h
  · simp [Phase.callCopies, Phase.call?, Phase.messages, Packet.calls, Packet.call?,
      RpcRequest.call?]
  · rfl
  · rw [callCopies_next]
    rfl
  · rw [callCopies_afterSends]
    exact (Nat.zero_add _).trans (List.countP_cons ..)

theorem queueCopies_register {name : String} {m : Option ServiceEntry} :
    queueCopies c (some (handleRegisterService.entry x name m)) = queueCopies c m := by
  cases m <;> rfl

theorem queueCopies_cleanup {active : CallId → Bool} {m : Option ServiceEntry} :
    queueCopies c (m.map (cleanupService x active)) ≤ queueCopies c m := by
  cases m with
  | none => exact Nat.le_refl _
  | some e =>
    unfold cleanupService
    simp only [queueCopies, Option.map_some, Option.elim_some]
    split_ifs
    · exact Nat.zero_le _
    · exact List.Sublist.countP_le List.filter_sublist

theorem queueCopies_push {e : ServiceEntry} {st : ServiceState} :
    queueCopies c (some { e with state := st, pendingCalls := e.pendingCalls ++ [RpcRequest.call k] }) =
      queueCopies c (some e) + if k.callId = c then 1 else 0 := by
  simp [queueCopies, List.countP_append, List.countP_cons, Packet.calls, Packet.call?,
    RpcRequest.call?]

theorem callFlow_queued {e : ServiceEntry} {st left : ServiceState} {p : Phase}
    (h : s.phase x = .handling (.callServices k)) (he : s.services k.objectName = some e)
    (hph : s'.phase = update s.phase x p) (hp : p.callCopies c = 0)
    (hsv : s'.services = update s.services k.objectName
      (some { e with state := st, pendingCalls := e.pendingCalls ++ [RpcRequest.call k] })) :
    ∃ i j, Flows (callCopies ⟨s, tr⟩ c) (callCopies ⟨s', [.queued x k left] ++ tr⟩ c) i j := by
  have hes : NoCall c [.queued x k left] := ⟨rfl, rfl, rfl⟩
  refine callFlow_moved (i := .queue k.objectName) hph (fun q hq hx => ?_) ?_
  · cases q with
    | unsent => exact Nat.le_of_eq (hes.unsent s s' tr)
    | task y => exact absurd rfl (hx y)
    | queue o =>
      have ho : o ≠ k.objectName := fun ho => hq (ho ▸ rfl)
      simp only [callCopies, hsv, update_of_ne ho]
      exact Nat.le_refl _
    | sent => exact Nat.le_of_eq (hes.sent_eq s s' tr)
    | refused => exact Nat.le_of_eq (hes.refused_eq s s' tr)
  · have hx : (s.phase x).callCopies c = if k.callId = c then 1 else 0 := by
      rw [h]
      simp [Phase.callCopies, Phase.call?, Phase.messages]
    simp only [callCopies, hsv, update_self, queueCopies_push, he, hp, hx]
    exact Nat.le_refl _

theorem callCopies_holding {p : Phase} (h₁ : p.call? = some k) (h₂ : p.messages = []) :
    p.callCopies c = if k.callId = c then 1 else 0 := by
  simp [Phase.callCopies, h₁, h₂]

theorem callFlow_refused {p : Phase} (h : (s.phase x).call? = some k)
    (hm : (s.phase x).messages = []) (hph : s'.phase = update s.phase x p)
    (hp : p.callCopies c = 0) (hsv : s'.services = s.services)
    (hids : callIds es = []) (hsent : es.countP (Event.sendsCall c) = 0)
    (href : es.countP (Event.refuses c) = if k.callId = c then 1 else 0) :
    ∃ i j, Flows (callCopies ⟨s, tr⟩ c) (callCopies ⟨s', es ++ tr⟩ c) i j := by
  refine callFlow_moved (i := .refused) hph (fun q hq hx => ?_) ?_
  · cases q with
    | unsent => simp only [callCopies, callIds_append, hids, List.nil_append, Nat.le_refl]
    | task y => exact absurd rfl (hx y)
    | queue o => simp only [callCopies, hsv, Nat.le_refl]
    | sent => simp only [callCopies, List.countP_append, hsent, Nat.zero_add, Nat.le_refl]
    | refused => exact absurd rfl hq
  · rw [hp, callCopies_holding h hm]
    simp only [callCopies, List.countP_append, href]
    omega

theorem callFlow_send {pc : HandlerPc} {site : SendSite} {tx : ClientSender} {msg : Packet}
    {p : Phase} (h : s.phase x = .handling pc) (hs : pc.sends = some (site, tx, msg, p))
    (hph : s'.phase = update s.phase x p) (hsv : s'.services = s.services) :
    ∃ i j, Flows (callCopies ⟨s, tr⟩ c)
      (callCopies ⟨s', [.enqueued site x tx.channel msg] ++ tr⟩ c) i j := by
  refine callFlow_moved (i := .sent) hph (fun q hq hx => ?_) ?_
  · cases q with
    | unsent => exact Nat.le_refl _
    | task y => exact absurd rfl (hx y)
    | queue o => simp only [callCopies, hsv, Nat.le_refl]
    | sent => exact absurd rfl hq
    | refused => exact Nat.le_refl _
  · have hsent : callCopies ⟨s', [.enqueued site x tx.channel msg] ++ tr⟩ c .sent =
        callCopies ⟨s, tr⟩ c .sent + if msg.calls c then 1 else 0 := List.countP_cons ..
    rw [h, callCopies_sends hs, hsent]
    omega

theorem Transition.callFlow (h : Transition s a s' es)
    (hfresh : freshCall ⟨s, tr⟩ a = true) :
    ∃ i j, Flows (callCopies ⟨s, tr⟩ c) (callCopies ⟨s', es ++ tr⟩ c) i j := by
  have hsame : ∀ o, queueCopies c (s.services o) ≤ queueCopies c (s.services o) :=
    fun _ => Nat.le_refl _
  cases h with
  | receiveInvalid | write | writeError | stopWriter | spawnEnd =>
    exact callFlow_within ⟨rfl, rfl, rfl⟩ (fun _ => Nat.le_refl _) hsame
  | @receiveIdle x p hx hd =>
    have hids : callIds [.received x p] = [] := by
      cases p with
      | request r => cases hd
      | response r => rfl
    exact callFlow_within ⟨hids, rfl, rfl⟩ (fun _ => Nat.le_refl _) hsame
  | @receive x p pc hx hd =>
    obtain ⟨r, rfl, rfl⟩ | ⟨resp, c', rfl, hc, rfl⟩ := dispatch_cases hd
    · cases r with
      | call k =>
        have hnew : k.callId ∉ callIds tr := of_decide_eq_true hfresh
        refine callFlow_moved (i := .unsent) rfl (fun q hq hx => ?_) ?_
        · cases q with
          | unsent => exact absurd rfl hq
          | task y => exact absurd rfl (hx y)
          | queue | sent | refused => exact Nat.le_refl _
        · have hids : callIds ([.received x (.request (.call k))] ++ tr) = k.callId :: callIds tr :=
            rfl
          have hcopies : (Phase.handling (handleRequest (.call k))).callCopies c =
              if k.callId = c then 1 else 0 := callCopies_holding rfl rfl
          rw [hcopies]
          simp only [callCopies, hids, List.mem_cons]
          by_cases hkc : k.callId = c
          · subst hkc
            simp [hnew]
          · simp [hkc, Ne.symm hkc]
      | _ => exact callFlow_drop ⟨rfl, rfl, rfl⟩ rfl hsame rfl
    · exact callFlow_drop ⟨rfl, rfl, rfl⟩ rfl hsame rfl
  | @registerServices x o e hx hl he =>
    have hes : NoCall c [.running x o e.pendingCalls] := ⟨rfl, rfl, rfl⟩
    refine callFlow_moved (i := .queue o) rfl (fun q hq hx => ?_) ?_
    · cases q with
      | unsent => exact Nat.le_of_eq (hes.unsent ..)
      | task y => exact absurd rfl (hx y)
      | queue o' =>
        have ho : o' ≠ o := fun ho => hq (ho ▸ rfl)
        simp only [callCopies, goto_services, update_of_ne ho, Nat.le_refl]
      | sent => exact Nat.le_of_eq (hes.sent_eq ..)
      | refused => exact Nat.le_of_eq (hes.refused_eq ..)
    · rw [callCopies_afterSends, List.countP_append, List.countP_map]
      simp only [callCopies, goto_services, update_self, he]
      exact Nat.le_trans (Nat.le_of_eq (Nat.zero_add _)) (Nat.le_add_right _ _)
  | @registerService x o name hx =>
    refine callFlow_drop ⟨rfl, rfl, rfl⟩ rfl (fun o' => ?_) rfl
    by_cases ho : o' = o
    · subst ho
      simp only [goto_services, update_self, queueCopies_register, Nat.le_refl]
    · simp only [goto_services, update_of_ne ho, Nat.le_refl]
  | callLookup hx =>
    exact callFlow_task ⟨rfl, rfl, rfl⟩ rfl hsame (by rw [hx]; exact Nat.le_refl _)
  | @callInsert x k workerId workerTx tx hx =>
    refine callFlow_task ⟨rfl, rfl, rfl⟩ rfl hsame ?_
    rw [hx]
    obtain ⟨w, t, -, -, hroute⟩ | ⟨-, hroute⟩ := route_cases k workerId workerTx <;>
      · rw [hroute]
        exact Nat.le_refl _
  | callGone hx =>
    exact callFlow_refused (by rw [hx]; rfl) (by rw [hx]; rfl) rfl rfl rfl rfl rfl
      (by simp [Event.refuses, List.countP_cons])
  | callUnknown hx =>
    exact callFlow_refused (by rw [hx]; rfl) (by rw [hx]; rfl) rfl rfl rfl rfl rfl
      (by simp [Event.refuses, List.countP_cons])
  | callStopped hx hl he => exact callFlow_queued hx he rfl rfl rfl
  | callStarting hx hl he => exact callFlow_queued hx he rfl rfl rfl
  | publishSenders => exact callFlow_drop ⟨rfl, rfl, rfl⟩ rfl hsame (callCopies_next _ _)
  | sendLookup hx =>
    exact callFlow_task ⟨rfl, rfl, rfl⟩ rfl hsame (by rw [hx]; exact Nat.le_refl _)
  | sendLookupGone hx =>
    refine callFlow_task ⟨rfl, rfl, rfl⟩ rfl hsame ?_
    rw [hx, callCopies_afterSends]
    exact (List.Sublist.countP_le (List.sublist_cons_self ..)).trans (Nat.le_add_left _ _)
  | send hx hs => exact callFlow_send hx hs rfl rfl
  | sendFailed hx hs =>
    refine callFlow_task ⟨rfl, rfl, rfl⟩ rfl hsame ?_
    rw [hx, callCopies_sends hs]
    exact Nat.le_add_right _ _
  | cleanupServices hx =>
    exact callFlow_drop ⟨rfl, rfl, rfl⟩ rfl (fun _ => queueCopies_cleanup) rfl
  | _ => exact callFlow_drop ⟨rfl, rfl, rfl⟩ rfl hsame rfl

theorem callCopies_atMostOne {ok : World Broker Event → Action → Prop}
    (hfresh : ∀ w a, ok w a → freshCall w a = true) (h : broker.RunWhere ok w) (c : CallId) :
    AtMostOne (callCopies w c) := by
  refine h.invariant (I := fun w => AtMostOne (callCopies w c)) ?_ ?_
  · rintro _ ⟨items, rfl⟩
    refine ⟨.unsent, Nat.le_refl _, fun q hq => ?_⟩
    cases q with
    | unsent => exact absurd rfl hq
    | task y => rfl
    | queue o =>
      simp only [callCopies, Broker.initial]
      cases he : loadServiceActivations items o with
      | none => rfl
      | some e =>
        obtain ⟨name, rfl⟩ := loadServiceActivations_stopped items he
        rfl
    | sent | refused => rfl
  · intro w a w' hr hI hok hn
    obtain ⟨es, ht, htr⟩ := next_transition hn
    have hstep : ∃ i j, Flows (callCopies ⟨w.state, w.trace⟩ c)
        (callCopies ⟨w'.state, es ++ w.trace⟩ c) i j := ht.callFlow (hfresh w a hok)
    obtain ⟨i, j, hflow⟩ := hstep
    rw [← htr] at hflow
    exact hI.flows hflow

end Broker
end IpcBroker
