import IpcBroker.Broker.CallCopies
import IpcBroker.Foundation.Custody
import IpcBroker.Foundation.History

/-! Whose calls are where: the packet of a call does not name the client that sent it, so every
call is followed from its caller through the queues and channels to its worker. -/

namespace IpcBroker
open Function Foundation

/-- A call as its caller knows it: `number` calls of the caller were read before it. -/
structure SentCall where
  caller : ClientId
  number : Nat
  call : Call

/-- Who has a call: the handler of its caller, the queue of a service, the registration that
flushes a queue, the channel of a worker, or the worker, until its answer is looked up. -/
inductive Holder
  | caller (x : ClientId)
  | service (objectName : String)
  | flush (x : ClientId)
  | channel (x : ClientId)
  | worker (x : ClientId)
deriving DecidableEq

abbrev CallCustody : Type := Custody Holder SentCall

def callsFrom (tr : List Event) (x : ClientId) : List Call := chronicle (Event.callFrom? x) tr

def queuedCalls (entry : Option ServiceEntry) : List Call :=
  entry.elim [] fun e => e.pendingCalls.filterMap RpcRequest.call?

namespace Broker

def handToChannel (s : Broker) (p : Holder) (tx : ClientSender) : Move Holder SentCall :=
  match s.phase tx.channel with
  | .ended => .lose p
  | _ => .pass p (.channel tx.channel)

/-- What a section of the handler of `x` does with the calls: those of the `handle_call`, those a
registration flushes, and the one that a response answers. -/
def handlerMove (s : Broker) (x : ClientId) : HandlerPc → Move Holder SentCall
  | .callLookup _ => if (s.clients x).isSome then .stay else .lose (.caller x)
  | .callForward _ workerTx => s.handToChannel (.caller x) workerTx
  | .callServices k =>
    match (s.services k.objectName).map ServiceEntry.state with
    | none | some (.running _) => .lose (.caller x)
    | _ => .pass (.caller x) (.service k.objectName)
  | .registerServices o => .passAll (.service o) (.flush x)
  | .sendLookup (.request (.call _)) _ => if (s.clients x).isSome then .stay else .lose (.flush x)
  | .sendAwait tx (.request (.call _)) _ => s.handToChannel (.flush x) tx
  | .responseTake _ _ => .lose (.worker x)
  | _ => .stay

def keepsHeld (s : Broker) (x : ClientId) (activeCalls : CallId → Bool) : Holder → SentCall → Bool
  | .service o, c => (s.services o).any fun e => e.owner ≠ some x && activeCalls c.call.callId
  | _, _ => true

def handing (s : Broker) (number : ClientId → Nat) : Action → Move Holder SentCall
  | .connect x => .keep fun p _ => p ≠ .channel x
  | .receive x (some (.request (.call k))) => .enter (.caller x) ⟨x, number x, k⟩
  | .handler x =>
    match s.phase x with
    | .handling pc => s.handlerMove x pc
    | _ => .stay
  | .write x =>
    if ((s.channel x).head?.bind Packet.call?).isSome then .pass (.channel x) (.worker x) else .stay
  | .writeError x =>
    if ((s.channel x).head?.bind Packet.call?).isSome then .lose (.channel x) else .stay
  | .cleanup x =>
    match s.phase x with
    | .cleaning (.services activeCalls) => .keep (s.keepsHeld x activeCalls)
    | _ => .stay
  | _ => .stay

end Broker

def handed (tr : List BrokerStep) (st : BrokerStep) : Move Holder SentCall :=
  st.before.handing (fun x => (callsFrom (tr.flatMap (·.events)) x).length) st.action

/-- The calls on their way after the steps of a run, with those who have them. -/
def callCustody : List BrokerStep → CallCustody
  | [] => []
  | st :: tr => (handed tr st).apply (callCustody tr)

namespace Broker

def callsAt (s : Broker) : Holder → List Call
  | .caller x => (s.phase x).call?.toList
  | .service o => queuedCalls (s.services o)
  | .flush x => (s.phase x).messages.filterMap Packet.call?
  | .channel x => (s.channel x).filterMap Packet.call?
  | .worker _ => []

def Mirrors (h : Holder → List SentCall) (s : Broker) : Prop :=
  ∀ p, (∀ x, p ≠ .worker x) → (h p).map (·.call) = s.callsAt p

variable {s s' : Broker} {a : Action} {es : List Event} {x y : ClientId} {k : Call}
  {h : Holder → List SentCall} {p q : Holder}

theorem callsAt_congr {r : Holder}
    (hcall : ∀ y, r = .caller y → (s'.phase y).call? = (s.phase y).call?)
    (hmsgs : ∀ y, r = .flush y → (s'.phase y).messages.filterMap Packet.call? =
      (s.phase y).messages.filterMap Packet.call?)
    (hqueue : ∀ o, r = .service o → queuedCalls (s'.services o) = queuedCalls (s.services o))
    (hchan : ∀ y, r = .channel y → (s'.channel y).filterMap Packet.call? =
      (s.channel y).filterMap Packet.call?) :
    s'.callsAt r = s.callsAt r := by
  cases r with
  | caller y => exact congrArg Option.toList (hcall y rfl)
  | service o => exact hqueue o rfl
  | flush y => exact hmsgs y rfl
  | channel y => exact hchan y rfl
  | worker y => rfl

namespace Mirrors

theorem stay (hm : Mirrors h s) (hs : ∀ r, s'.callsAt r = s.callsAt r) :
    Mirrors (fun r => Move.stay.at h r) s' := fun r hr => (hm r hr).trans (hs r).symm

theorem enter {c : SentCall} (hm : Mirrors h s) (hp : s'.callsAt p = s.callsAt p ++ [c.call])
    (hs : ∀ r, r ≠ p → s'.callsAt r = s.callsAt r) : Mirrors (fun r => (Move.enter p c).at h r) s' := by
  intro r hr
  simp only [Move.at]
  split_ifs with hrp
  · rw [hrp, hp, List.map_append, hm p (hrp ▸ hr)]
    rfl
  · rw [hs r hrp]
    exact hm r hr

theorem pass (hm : Mirrors h s) (hpw : ∀ x, p ≠ .worker x) (hpq : p ≠ q)
    (hk : s.callsAt p = k :: s'.callsAt p)
    (hq : (∀ x, q ≠ .worker x) → s'.callsAt q = s.callsAt q ++ [k])
    (hs : ∀ r, r ≠ p → r ≠ q → s'.callsAt r = s.callsAt r) :
    Mirrors (fun r => (Move.pass p q).at h r) s' := by
  have hcall := (hm p hpw).trans hk
  obtain ⟨c, rest, hp, rfl, hrest⟩ := List.map_eq_cons_iff.mp hcall
  intro r hr
  simp only [Move.at, hp]
  by_cases hrp : r = p
  · subst hrp
    simpa only [hp, if_true, if_neg hpq, List.tail_cons, List.append_nil] using hrest
  · by_cases hrq : r = q
    · subst hrq
      simp only [if_neg hrp, if_true, List.head?_cons, Option.toList_some, List.map_append,
        hm r hr, hq hr, List.map_cons, List.map_nil]
    · simp only [if_neg hrp, if_neg hrq, List.append_nil, hm r hr, hs r hrp hrq]

theorem passAll (hm : Mirrors h s) (hpw : ∀ x, p ≠ .worker x) (hpq : p ≠ q)
    (hp : s'.callsAt p = []) (hq : s'.callsAt q = s.callsAt q ++ s.callsAt p)
    (hs : ∀ r, r ≠ p → r ≠ q → s'.callsAt r = s.callsAt r) :
    Mirrors (fun r => (Move.passAll p q).at h r) s' := by
  intro r hr
  simp only [Move.at]
  by_cases hrp : r = p
  · subst hrp
    simp only [if_true, if_neg hpq, List.append_nil, List.map_nil, hp]
  · by_cases hrq : r = q
    · subst hrq
      simp only [if_neg hrp, if_true, List.map_append, hm r hr, hm p hpw, hq]
    · simp only [if_neg hrp, if_neg hrq, List.append_nil, hm r hr, hs r hrp hrq]

theorem lose (hm : Mirrors h s) (hp : (∀ x, p ≠ .worker x) → s'.callsAt p = (s.callsAt p).tail)
    (hs : ∀ r, r ≠ p → s'.callsAt r = s.callsAt r) : Mirrors (fun r => (Move.lose p).at h r) s' := by
  intro r hr
  simp only [Move.at]
  split_ifs with hrp
  · rw [hrp, hp (hrp ▸ hr), ← hm p (hrp ▸ hr), List.map_tail]
  · rw [hs r hrp]
    exact hm r hr

theorem keep {f : Holder → SentCall → Bool} {g : Holder → Call → Bool} (hm : Mirrors h s)
    (hf : ∀ p c, f p c = g p c.call) (hs : ∀ r, s'.callsAt r = (s.callsAt r).filter (g r)) :
    Mirrors (fun r => (Move.keep f).at h r) s' := by
  intro r hr
  have hfun : f r = g r ∘ SentCall.call := funext fun c => hf r c
  simp only [Move.at]
  rw [hs r, ← hm r hr, List.filter_map, hfun]

end Mirrors

theorem callsAt_moved {p : Phase} {r : Holder} (hph : s'.phase = update s.phase x p)
    (hcall : r = .caller x → p.call? = (s.phase x).call?)
    (hmsgs : r = .flush x → p.messages.filterMap Packet.call? =
      (s.phase x).messages.filterMap Packet.call?)
    (hqueue : ∀ o, r = .service o → queuedCalls (s'.services o) = queuedCalls (s.services o))
    (hchan : ∀ y, r = .channel y → (s'.channel y).filterMap Packet.call? =
      (s.channel y).filterMap Packet.call?) :
    s'.callsAt r = s.callsAt r := by
  refine callsAt_congr (fun y hr => ?_) (fun y hr => ?_) hqueue hchan
  · rw [hph]
    by_cases hy : y = x
    · rw [hy, update_self]
      exact hcall (hy ▸ hr)
    · rw [update_of_ne hy]
  · rw [hph]
    by_cases hy : y = x
    · rw [hy, update_self]
      exact hmsgs (hy ▸ hr)
    · rw [update_of_ne hy]

theorem callsAt_task {p : Phase} (hph : s'.phase = update s.phase x p)
    (hcall : p.call? = (s.phase x).call?)
    (hmsgs : p.messages.filterMap Packet.call? = (s.phase x).messages.filterMap Packet.call?)
    (hserv : s'.services = s.services) (hchan : s'.channel = s.channel) (r : Holder) :
    s'.callsAt r = s.callsAt r :=
  callsAt_moved hph (fun _ => hcall) (fun _ => hmsgs) (fun o _ => by rw [hserv])
    fun y _ => by rw [hchan]

theorem callsAt_caller {p : Phase} (hph : s'.phase = update s.phase x p) :
    s'.callsAt (.caller x) = p.call?.toList := by
  rw [callsAt, hph, update_self]

theorem callsAt_flush {p : Phase} (hph : s'.phase = update s.phase x p) :
    s'.callsAt (.flush x) = p.messages.filterMap Packet.call? := by
  rw [callsAt, hph, update_self]

theorem Mirrors.callLost {p : Phase} (hm : Mirrors h s) (hx : (s.phase x).call? = some k)
    (hmsgs : (s.phase x).messages = []) (hph : s'.phase = update s.phase x p)
    (hp : p.call? = none) (hp' : p.messages.filterMap Packet.call? = [])
    (hserv : s'.services = s.services) (hchan : s'.channel = s.channel) :
    Mirrors (fun r => (Move.lose (.caller x)).at h r) s' := by
  refine hm.lose (fun _ => ?_) fun r hr => ?_
  · rw [callsAt_caller hph, hp, callsAt, hx]
    rfl
  · refine callsAt_moved hph (fun h => absurd h hr) (fun _ => ?_) (fun o _ => by rw [hserv])
      fun y _ => by rw [hchan]
    rw [hp', hmsgs]
    rfl

theorem Mirrors.queued {p : Phase} {e : ServiceEntry} {state : ServiceState} (hm : Mirrors h s)
    (hx : s.phase x = .handling (.callServices k)) (he : s.services k.objectName = some e)
    (hph : s'.phase = update s.phase x p) (hp : p.call? = none) (hp' : p.messages = [])
    (hserv : s'.services = update s.services k.objectName (some { e with
      state, pendingCalls := e.pendingCalls ++ [RpcRequest.call k] }))
    (hchan : s'.channel = s.channel) :
    Mirrors (fun r => (Move.pass (.caller x) (.service k.objectName)).at h r) s' := by
  refine hm.pass (k := k) nofun nofun ?_ (fun _ => ?_) fun r hr hr' => ?_
  · rw [callsAt_caller hph, hp, callsAt, hx]
    rfl
  · rw [callsAt, callsAt, hserv, update_self, he]
    simp [queuedCalls, RpcRequest.call?]
  · refine callsAt_moved hph (fun h => absurd h hr) (fun _ => by rw [hp', hx]; rfl) (fun o ho => ?_)
      fun y _ => by rw [hchan]
    have hne : o ≠ k.objectName := fun h => hr' (h ▸ ho)
    rw [hserv, update_of_ne hne]

theorem Mirrors.taken {resp : RpcResponse} {c : CallId} {p : Phase} (hm : Mirrors h s)
    (hx : s.phase x = .handling (.responseTake resp c)) (hph : s'.phase = update s.phase x p)
    (hp : p.call? = none) (hp' : p.messages = []) (hserv : s'.services = s.services)
    (hchan : s'.channel = s.channel) : Mirrors (fun r => (Move.lose (.worker x)).at h r) s' := by
  have hsame := callsAt_task hph (by rw [hp, hx]; rfl) (by rw [hp', hx]; rfl) hserv hchan
  exact hm.lose (fun h => absurd rfl (h x)) fun r _ => hsame r

theorem handToChannel_open {tx : ClientSender} (ho : s.phase tx.channel ≠ .ended) :
    s.handToChannel p tx = .pass p (.channel tx.channel) := by
  unfold handToChannel
  split
  · next he => exact absurd he ho
  · rfl

theorem handToChannel_ended {tx : ClientSender} (ho : s.phase tx.channel = .ended) :
    s.handToChannel p tx = .lose p := by
  unfold handToChannel
  split
  · rfl
  · next hne => exact absurd ho hne

theorem callsAt_push {tx : ClientSender} {msg : Packet} {p : Phase} :
    ((s.push tx msg).goto x p).callsAt (.channel tx.channel) =
      s.callsAt (.channel tx.channel) ++ msg.call?.toList := by
  simp only [callsAt, goto_channel, push_channel, update_self, List.filterMap_append]
  cases hm : msg.call? <;> simp [hm]

theorem callsAt_pushed {tx : ClientSender} {msg : Packet} {p : Phase} {r : Holder}
    (hcall : r = .caller x → p.call? = (s.phase x).call?)
    (hmsgs : r = .flush x → p.messages.filterMap Packet.call? =
      (s.phase x).messages.filterMap Packet.call?)
    (hchan : r = .channel tx.channel → msg.call? = none) :
    ((s.push tx msg).goto x p).callsAt r = s.callsAt r := by
  refine callsAt_moved rfl hcall hmsgs (fun o _ => rfl) fun y hr => ?_
  rw [goto_channel, push_channel]
  by_cases hy : y = tx.channel
  · have hnone := hchan (hy ▸ hr)
    rw [hy, update_self, List.filterMap_append, List.filterMap_cons_none hnone]
    exact List.append_nil _
  · rw [update_of_ne hy]

theorem Mirrors.messageSent {tx : ClientSender} {msg : Packet} {p : Phase} (hm : Mirrors h s)
    (hmsg : msg.call? = none) (hcall : p.call? = (s.phase x).call?)
    (hmsgs : p.messages.filterMap Packet.call? = (s.phase x).messages.filterMap Packet.call?) :
    Mirrors (fun r => Move.stay.at h r) ((s.push tx msg).goto x p) :=
  hm.stay fun _ => callsAt_pushed (fun _ => hcall) (fun _ => hmsgs) fun _ => hmsg

theorem Mirrors.sent {pc : HandlerPc} {site : SendSite} {tx : ClientSender} {msg : Packet}
    {p : Phase} (hm : Mirrors h s) (hx : s.phase x = .handling pc)
    (hp : pc.sends = some (site, tx, msg, p)) (ho : s.phase tx.channel ≠ .ended) :
    Mirrors (fun r => (s.handlerMove x pc).at h r) ((s.push tx msg).goto x p) := by
  obtain ⟨k, rfl, -, rfl, rfl⟩ | ⟨resp, rfl, -, rfl, rfl⟩ | ⟨event, rest, rfl, -, rfl, rfl⟩ |
    ⟨rest, rfl, -, rfl⟩ := HandlerPc.sends_cases hp
  · rw [handlerMove, handToChannel_open ho]
    refine hm.pass (k := k) nofun nofun ?_ (fun _ => callsAt_push) fun r hr hr' => ?_
    · have hafter : ((s.push tx (.request (.call k))).goto x .reading).callsAt (.caller x) = [] :=
        callsAt_caller (p := .reading) rfl
      rw [hafter, callsAt, hx]
      rfl
    · exact callsAt_pushed (fun h => absurd h hr) (fun _ => by rw [hx]; rfl) fun h => absurd h hr'
  · exact hm.messageSent rfl (by rw [hx]; rfl) (by rw [hx]; rfl)
  · exact hm.messageSent rfl (by rw [hx, call_next]; rfl) (by rw [hx, messages_next]; rfl)
  · have hcall : (afterSends rest).call? = (s.phase x).call? := by
      rw [hx, call_afterSends]
      rfl
    have hmsgs : msg.call? = none → (afterSends rest).messages.filterMap Packet.call? =
        (s.phase x).messages.filterMap Packet.call? := by
      intro hnone
      rw [hx, messages_afterSends]
      exact (List.filterMap_cons_none hnone).symm
    cases hk : msg.call? with
    | none =>
      have hstay : s.handlerMove x (.sendAwait tx msg rest) = .stay := by
        cases msg with
        | request r => cases r <;> first | rfl | cases hk
        | response r => rfl
      rw [hstay]
      exact hm.messageSent hk hcall (hmsgs hk)
    | some k =>
      obtain rfl : msg = .request (.call k) := by
        cases msg with
        | request r => cases r <;> cases hk; rfl
        | response r => cases hk
      rw [handlerMove, handToChannel_open ho]
      refine hm.pass (k := k) nofun nofun ?_ (fun _ => callsAt_push) fun r hr hr' => ?_
      · have hafter : ((s.push tx (.request (.call k))).goto x (afterSends rest)).callsAt
            (.flush x) = rest.filterMap Packet.call? := by
          rw [callsAt_flush rfl, messages_afterSends]
        rw [hafter, callsAt, hx]
        rfl
      · exact callsAt_pushed (fun _ => hcall) (fun h => absurd h hr) fun h => absurd h hr'

theorem Mirrors.notSent {pc : HandlerPc} {site : SendSite} {tx : ClientSender} {msg : Packet}
    {p : Phase} (hm : Mirrors h s) (hL : Lifecycle s) (hx : s.phase x = .handling pc)
    (hp : pc.sends = some (site, tx, msg, p)) (ho : s.phase tx.channel = .ended) :
    Mirrors (fun r => (s.handlerMove x pc).at h r) (s.goto x p) := by
  obtain ⟨k, rfl, -, rfl, rfl⟩ | ⟨resp, rfl, -, rfl, rfl⟩ | ⟨event, rest, rfl, -, rfl, rfl⟩ |
    ⟨rest, rfl, -, rfl⟩ := HandlerPc.sends_cases hp
  · rw [handlerMove, handToChannel_ended ho]
    exact hm.callLost (k := k) (by rw [hx]; rfl) (by rw [hx]; rfl) rfl rfl rfl rfl rfl
  · exact hm.stay (callsAt_task rfl (by rw [hx]; rfl) (by rw [hx]; rfl) rfl rfl)
  · exact hm.stay (callsAt_task rfl (by rw [hx, call_next]; rfl) (by rw [hx, messages_next]; rfl)
      rfl rfl)
  · rw [hL.ownTx x tx msg rest hx, hx] at ho
    cases ho

theorem queuedCalls_cleanup {e : ServiceEntry} {activeCalls : CallId → Bool} :
    queuedCalls (some (cleanupService x activeCalls e)) =
      (queuedCalls (some e)).filter fun k => e.owner ≠ some x && activeCalls k.callId := by
  unfold cleanupService
  by_cases ho : e.owner = some x
  · simp [ho, queuedCalls]
  · simp only [ho, if_false, queuedCalls, Option.elim_some, ne_eq, not_false_eq_true, decide_true,
      Bool.true_and, List.filter_filterMap, List.filterMap_filter]
    refine List.filterMap_congr fun r _ => ?_
    cases r with
    | call k => by_cases hk : activeCalls k.callId = true <;> simp [keepPending, RpcRequest.call?, Option.filter, hk]
    | _ => simp [RpcRequest.call?]

theorem callsAt_write {msg : Packet} {rest : List Packet} (hc : s.channel x = msg :: rest)
    (hph : s'.phase = s.phase) (hserv : s'.services = s.services)
    (hchan : s'.channel = update s.channel x rest) :
    (s.callsAt (.channel x) = msg.call?.toList ++ s'.callsAt (.channel x)) ∧
      ∀ r, r ≠ .channel x → s'.callsAt r = s.callsAt r := by
  constructor
  · rw [callsAt, callsAt, hc, hchan, update_self]
    cases hm : msg.call? <;> simp [hm]
  · intro r hr
    refine callsAt_congr (fun _ _ => by rw [hph]) (fun _ _ => by rw [hph]) (fun _ _ => by rw [hserv])
      fun y hy => ?_
    have hne : y ≠ x := fun h => hr (h ▸ hy)
    rw [hchan, update_of_ne hne]

theorem Mirrors.written {msg : Packet} {rest : List Packet} (hm : Mirrors h s)
    (hc : s.channel x = msg :: rest) (hph : s'.phase = s.phase) (hserv : s'.services = s.services)
    (hchan : s'.channel = update s.channel x rest) :
    Mirrors (fun r => (if msg.call?.isSome then Move.pass (.channel x) (.worker x)
      else .stay).at h r) s' := by
  obtain ⟨hx, hr⟩ := callsAt_write hc hph hserv hchan
  cases hk : msg.call? with
  | none =>
    rw [hk] at hx
    refine hm.stay fun r => ?_
    by_cases h : r = .channel x
    · exact h ▸ hx.symm
    · exact hr r h
  | some k =>
    rw [hk] at hx
    exact hm.pass (k := k) nofun nofun hx (fun h => absurd rfl (h x)) fun r hp _ => hr r hp

theorem Mirrors.notWritten {msg : Packet} {rest : List Packet} (hm : Mirrors h s)
    (hc : s.channel x = msg :: rest) (hph : s'.phase = s.phase) (hserv : s'.services = s.services)
    (hchan : s'.channel = update s.channel x rest) :
    Mirrors (fun r => (if msg.call?.isSome then Move.lose (.channel x) else .stay).at h r) s' := by
  obtain ⟨hx, hr⟩ := callsAt_write hc hph hserv hchan
  cases hk : msg.call? with
  | none =>
    rw [hk] at hx
    refine hm.stay fun r => ?_
    by_cases h : r = .channel x
    · exact h ▸ hx.symm
    · exact hr r h
  | some k =>
    rw [hk] at hx
    exact hm.lose (fun _ => by rw [hx]; rfl) hr

theorem Mirrors.cleaned {active : CallId → Bool} (hm : Mirrors h s)
    (hx : s.phase x = .cleaning (.services active)) (hph : s'.phase = update s.phase x .cleaned)
    (hserv : s'.services = fun o => (s.services o).map (cleanupService x active))
    (hchan : s'.channel = s.channel) :
    Mirrors (fun r => (Move.keep (s.keepsHeld x active)).at h r) s' := by
  refine hm.keep (g := fun p k => match p with
    | .service o => (s.services o).any fun e => e.owner ≠ some x && active k.callId
    | _ => true) (fun p c => by cases p <;> rfl) fun r => ?_
  have hsame : (∀ o, r ≠ .service o) → s'.callsAt r = s.callsAt r := fun hr =>
    callsAt_moved hph (fun _ => by rw [hx]; rfl) (fun _ => by rw [hx]; rfl)
      (fun o ho => absurd ho (hr o)) fun _ _ => by rw [hchan]
  cases r with
  | service o =>
    simp only [callsAt, hserv]
    cases s.services o with
    | none => rfl
    | some e => exact queuedCalls_cleanup
  | _ =>
    rw [hsame (fun _ ho => by cases ho)]
    exact (List.filter_eq_self.mpr fun _ _ => rfl).symm

theorem handing_handler {pc : HandlerPc} {number : ClientId → Nat} (hx : s.phase x = .handling pc) :
    s.handing number (.handler x) = s.handlerMove x pc := by
  simp only [handing, hx]

theorem handing_cleanup {p : Phase} {number : ClientId → Nat} (hx : s.phase x = p)
    (hp : ∀ active, p ≠ .cleaning (.services active)) :
    s.handing number (.cleanup x) = .stay := by
  simp only [handing]
  split
  · next active hx' => exact absurd (hx.symm.trans hx') (hp active)
  · rfl

theorem Mirrors.received {pc : HandlerPc} {p : Packet} {number : ClientId → Nat} (hm : Mirrors h s)
    (hx : s.phase x = .reading) (hd : dispatch p = some pc) :
    Mirrors (fun r => (s.handing number (.receive x (some p))).at h r) (s.enter x pc) := by
  obtain ⟨r, rfl, rfl⟩ | ⟨resp, c, rfl, -, rfl⟩ := dispatch_cases hd
  · cases r with
    | call k =>
      refine hm.enter ?_ fun r hr => ?_
      · rw [callsAt_caller (p := .handling (handleRequest (.call k))) rfl, callsAt, hx]
        rfl
      · exact callsAt_moved rfl (fun h => absurd h hr) (fun _ => by rw [hx]; rfl) (fun _ _ => rfl)
          fun _ _ => rfl
    | _ => exact hm.stay (callsAt_task rfl (by rw [hx]; rfl) (by rw [hx]; rfl) rfl rfl)
  · exact hm.stay (callsAt_task rfl (by rw [hx]; rfl) (by rw [hx]; rfl) rfl rfl)

theorem Mirrors.connected (hm : Mirrors h s) (hx : s.phase x = .absent) :
    Mirrors (fun r => (Move.keep fun p _ => p ≠ Holder.channel x).at h r) (s.spawnClient x).1 := by
  refine hm.keep (g := fun p _ => p ≠ .channel x) (fun _ _ => rfl) fun r => ?_
  by_cases hr : r = .channel x
  · subst hr
    simp [callsAt, spawnClient]
  · have hsame : (s.spawnClient x).1.callsAt r = s.callsAt r := by
      refine callsAt_moved (x := x) (p := .reading) rfl (fun _ => by rw [hx]; rfl)
        (fun _ => by rw [hx]; rfl) (fun _ _ => rfl) fun y hy => ?_
      have hne : y ≠ x := fun h => hr (h ▸ hy)
      simp only [spawnClient, update_of_ne hne]
    rw [hsame]
    simp [hr]

theorem Mirrors.registered {o : String} {e : ServiceEntry} (hm : Mirrors h s)
    (hx : s.phase x = .handling (.registerServices o)) (he : s.services o = some e) :
    Mirrors (fun r => (Move.passAll (.service o) (.flush x)).at h r)
      ({ s with
        services := update s.services o (some { e with
          state := .running x, owner := some x, pendingCalls := [] }) }.sendAll x
        (e.pendingCalls.map Packet.request ++ [Packet.response (.registered o)])) := by
  refine hm.passAll (fun _ hp => by cases hp) (fun hp => by cases hp) ?_ ?_ fun r hr hr' => ?_
  · simp [callsAt, queuedCalls]
  · rw [callsAt_flush rfl, messages_afterSends, callsAt, callsAt, hx, he]
    simp [queuedCalls, Phase.messages, Packet.call?, List.filterMap_map, comp_def]
  · refine callsAt_moved rfl (fun _ => by rw [hx, call_afterSends]; rfl) (fun h => absurd h hr')
      (fun o' ho => ?_) fun _ _ => rfl
    have hne : o' ≠ o := fun h => hr (h ▸ ho)
    exact congrArg queuedCalls (update_of_ne hne _ _)

theorem Mirrors.registeredPlain {o : String} (hm : Mirrors h s)
    (hx : s.phase x = .handling (.registerServices o)) (he : s.services o = none) :
    Mirrors (fun r => (Move.passAll (.service o) (.flush x)).at h r)
      (s.sendAll x [.response (.registered o)]) := by
  have hnone : s.callsAt (.service o) = [] := by rw [callsAt, he]; rfl
  have hsame : ∀ r, (s.sendAll x [.response (.registered o)]).callsAt r = s.callsAt r :=
    callsAt_task rfl (by rw [hx]; rfl) (by rw [hx]; rfl) rfl rfl
  refine hm.passAll (fun _ hp => by cases hp) (fun hp => by cases hp) ?_ ?_ fun r _ _ => hsame r
  · rw [hsame]
    exact hnone
  · rw [hsame, hnone, List.append_nil]

theorem Mirrors.serviceRegistered {o name : String} (hm : Mirrors h s)
    (hx : s.phase x = .handling (.registerService o name)) :
    Mirrors (fun r => Move.stay.at h r)
      ({ s with
        services := update s.services o
          (some (handleRegisterService.entry x name (s.services o))) }.leave x) := by
  refine hm.stay fun r => callsAt_moved rfl (fun _ => by rw [hx]; rfl) (fun _ => by rw [hx]; rfl)
    (fun o' _ => ?_) fun _ _ => rfl
  by_cases ho : o' = o
  · subst ho
    show queuedCalls (update s.services o' _ o') = _
    rw [update_self]
    cases s.services o' <;> rfl
  · exact congrArg queuedCalls (update_of_ne ho _ _)

theorem handlerMove_sendLookup {msg : Packet} {rest : List Packet} {tx : ClientSender}
    (hc : s.clients x = some tx) : s.handlerMove x (.sendLookup msg rest) = .stay := by
  cases msg with
  | request r => cases r <;> simp [handlerMove, hc]
  | response r => rfl

theorem Transition.mirrors_handler (ht : Transition s (.handler x) s' es) (hL : Lifecycle s)
    (hm : Mirrors h s) (number : ClientId → Nat) :
    Mirrors (fun r => (s.handing number (.handler x)).at h r) s' := by
  cases ht with
  | registerServices hx hl he =>
    rw [handing_handler hx]
    exact hm.registered hx he
  | registerPlain hx hl he =>
    rw [handing_handler hx]
    exact hm.registeredPlain hx he
  | registerService hx hl =>
    rw [handing_handler hx]
    exact hm.serviceRegistered hx
  | callLookup hx hc =>
    rw [handing_handler hx, handlerMove, hc]
    exact hm.stay (callsAt_task rfl (by rw [hx]; rfl) (by rw [hx]; rfl) rfl rfl)
  | @callGone _ k hx hc =>
    rw [handing_handler hx, handlerMove, hc]
    exact hm.callLost (k := k) (by rw [hx]; rfl) (by rw [hx]; rfl) rfl rfl rfl rfl rfl
  | @callInsert _ k workerId workerTx tx hx =>
    rw [handing_handler hx]
    obtain ⟨w, tx', -, -, hroute⟩ | ⟨-, hroute⟩ := route_cases k workerId workerTx <;>
      exact hm.stay (callsAt_task rfl (by rw [hroute, hx]; rfl) (by rw [hroute, hx]; rfl) rfl rfl)
  | callStopped hx hl he hs | callStarting hx hl he hs =>
    simp only [handing_handler hx, handlerMove, he, Option.map_some, hs]
    exact hm.queued hx he rfl rfl rfl rfl rfl
  | @callRunning _ k e w hx hl he hs =>
    simp only [handing_handler hx, handlerMove, he, Option.map_some, hs]
    exact hm.callLost (k := k) (by rw [hx]; rfl) (by rw [hx]; rfl) rfl rfl rfl rfl rfl
  | @callUnknown _ k hx hl he =>
    simp only [handing_handler hx, handlerMove, he, Option.map_none]
    exact hm.callLost (k := k) (by rw [hx]; rfl) (by rw [hx]; rfl) rfl rfl rfl rfl rfl
  | responseTake hx | responseUnknown hx =>
    rw [handing_handler hx]
    exact hm.taken hx rfl rfl rfl rfl rfl
  | publishSenders hx =>
    rw [handing_handler hx]
    exact hm.stay (callsAt_task rfl (by rw [hx, call_next]; rfl) (by rw [hx, messages_next]; rfl)
      rfl rfl)
  | sendLookup hx hc =>
    rw [handing_handler hx, handlerMove_sendLookup hc]
    exact hm.stay (callsAt_task rfl (by rw [hx]; rfl) (by rw [hx]; rfl) rfl rfl)
  | sendLookupGone hx hc =>
    rw [hL.clients, hx] at hc
    cases hc
  | send hx hp ho =>
    rw [handing_handler hx]
    exact hm.sent hx hp ho
  | sendFailed hx hp ho =>
    rw [handing_handler hx]
    exact hm.notSent hL hx hp ho
  | registerObjects hx | callStart hx | subscribe hx | publishDone hx | hasObject hx =>
    rw [handing_handler hx]
    exact hm.stay (callsAt_task rfl (by rw [hx]; rfl) (by rw [hx]; rfl) rfl rfl)

theorem Transition.mirrors_cleanup (ht : Transition s (.cleanup x) s' es) (hm : Mirrors h s)
    (number : ClientId → Nat) : Mirrors (fun r => (s.handing number (.cleanup x)).at h r) s' := by
  cases ht with
  | cleanupServices hx hl =>
    simp only [handing, hx]
    exact hm.cleaned hx rfl rfl rfl
  | cleanupClients hx | cleanupObjects hx | cleanupSubscriptions hx | cleanupCalls hx
  | cleanupActiveCalls hx =>
    rw [handing_cleanup hx fun _ hp => by cases hp]
    exact hm.stay (callsAt_task rfl (by rw [hx]; rfl) (by rw [hx]; rfl) rfl rfl)

/-- Every step moves the calls of the state as it moves them in custody. -/
theorem Transition.mirrors (ht : Transition s a s' es) (hL : Lifecycle s) (hm : Mirrors h s)
    (number : ClientId → Nat) : Mirrors (fun r => (s.handing number a).at h r) s' := by
  cases a with
  | connect x =>
    cases ht with
    | connect hx => exact hm.connected hx
  | receive x p =>
    cases ht with
    | receive hx hd => exact hm.received hx hd
    | receiveInvalid => exact hm.stay fun _ => rfl
    | @receiveIdle _ p hx hd =>
      cases p with
      | request r => cases hd
      | response r => exact hm.stay fun _ => rfl
  | handler x => exact ht.mirrors_handler hL hm number
  | cleanup x => exact ht.mirrors_cleanup hm number
  | write x =>
    cases ht with
    | write hw hc =>
      simp only [handing, hc, List.head?_cons, Option.bind_some]
      exact hm.written hc rfl rfl rfl
  | writeError x =>
    cases ht with
    | writeError hw hc =>
      simp only [handing, hc, List.head?_cons, Option.bind_some]
      exact hm.notWritten hc rfl rfl rfl
  | stopWriter x =>
    cases ht with
    | stopWriter => exact hm.stay fun _ => rfl
  | spawnEnd task success =>
    cases ht with
    | spawnEnd => exact hm.stay fun _ => rfl
  | snapshot x subsList =>
    cases ht with
    | snapshotNone hx | snapshot hx =>
      exact hm.stay (callsAt_task rfl (by rw [hx]; rfl) (by rw [hx]; rfl) rfl rfl)
  | readError x =>
    cases ht with
    | readError hx => exact hm.stay (callsAt_task rfl (by rw [hx]; rfl) (by rw [hx]; rfl) rfl rfl)
  | finish x =>
    cases ht with
    | finish hx => exact hm.stay (callsAt_task rfl (by rw [hx]; rfl) (by rw [hx]; rfl) rfl rfl)

/-! Which action makes which move. -/

inductive HandlerMoves (x : ClientId) : HandlerPc → Move Holder SentCall → Prop
  | stay {pc : HandlerPc} : HandlerMoves x pc .stay
  | lose {pc : HandlerPc} {p : Holder} (hp : ∀ y, p ≠ .worker y) : HandlerMoves x pc (.lose p)
  | forward {k : Call} {tx : ClientSender} :
      HandlerMoves x (.callForward k tx) (.pass (.caller x) (.channel tx.channel))
  | queue {k : Call} :
      HandlerMoves x (.callServices k) (.pass (.caller x) (.service k.objectName))
  | take {o : String} : HandlerMoves x (.registerServices o) (.passAll (.service o) (.flush x))
  | flush {tx : ClientSender} {k : Call} {rest : List Packet} :
      HandlerMoves x (.sendAwait tx (.request (.call k)) rest) (.pass (.flush x) (.channel tx.channel))
  | answer {resp : RpcResponse} {c : CallId} :
      HandlerMoves x (.responseTake resp c) (.lose (.worker x))

theorem handToChannel_cases (s : Broker) (p : Holder) (tx : ClientSender) :
    s.handToChannel p tx = .lose p ∨ s.handToChannel p tx = .pass p (.channel tx.channel) := by
  unfold handToChannel
  split
  · exact .inl rfl
  · exact .inr rfl

theorem handlerMoves (s : Broker) (x : ClientId) (pc : HandlerPc) :
    HandlerMoves x pc (s.handlerMove x pc) := by
  unfold handlerMove
  split
  · split_ifs
    · exact .stay
    · exact .lose nofun
  · next k tx =>
    obtain h | h := s.handToChannel_cases (.caller x) tx <;> rw [h]
    · exact .lose nofun
    · exact .forward
  · split
    · exact .lose nofun
    · exact .lose nofun
    · exact .queue
  · exact .take
  · split_ifs
    · exact .stay
    · exact .lose nofun
  · next tx k rest =>
    obtain h | h := s.handToChannel_cases (.flush x) tx <;> rw [h]
    · exact .lose nofun
    · exact .flush
  · exact .answer
  · exact .stay

inductive Handing (s : Broker) (number : ClientId → Nat) : Action → Move Holder SentCall → Prop
  | stay {a : Action} : Handing s number a .stay
  | lose {a : Action} {p : Holder} (hp : ∀ y, p ≠ .worker y) : Handing s number a (.lose p)
  | keep {a : Action} {f : Holder → SentCall → Bool} (hf : ∀ y c, f (.worker y) c = true) :
      Handing s number a (.keep f)
  | enter {x : ClientId} {k : Call} : Handing s number (.receive x (some (.request (.call k))))
      (.enter (.caller x) ⟨x, number x, k⟩)
  | handler {x : ClientId} {pc : HandlerPc} {m : Move Holder SentCall}
      (hx : s.phase x = .handling pc) (hm : HandlerMoves x pc m) : Handing s number (.handler x) m
  | write {x : ClientId} : Handing s number (.write x) (.pass (.channel x) (.worker x))

theorem handing_cases (s : Broker) (number : ClientId → Nat) (a : Action) :
    Handing s number a (s.handing number a) := by
  unfold handing
  split
  · exact .keep fun _ _ => rfl
  · exact .enter
  · next x =>
    split
    · next pc hx => exact .handler hx (handlerMoves s x pc)
    · exact .stay
  · split_ifs
    · exact .write
    · exact .stay
  · split_ifs
    · exact .lose nofun
    · exact .stay
  · split
    · exact .keep fun _ _ => rfl
    · exact .stay
  · exact .stay

theorem handing_enter {number : ClientId → Nat} {c : SentCall}
    (hm : s.handing number a = .enter p c) : ∃ x k, a = .receive x (some (.request (.call k))) ∧
      p = .caller x ∧ c = ⟨x, number x, k⟩ := by
  have hc := handing_cases s number a
  rw [hm] at hc
  cases hc with
  | enter => exact ⟨_, _, rfl, rfl, rfl⟩
  | handler hx hm => cases hm

theorem handing_caller {number : ClientId → Nat} : s.handing number a ≠ .pass p (.caller x) ∧
    s.handing number a ≠ .passAll p (.caller x) := by
  have hc := handing_cases s number a
  constructor <;>
    · intro hm
      rw [hm] at hc
      cases hc with
      | handler hx hm => cases hm

theorem callsFrom_step (tr : List Event) (ht : Transition s a s' es) (x : ClientId) :
    (∃ k, a = .receive x (some (.request (.call k))) ∧ s.phase x = .reading ∧
      callsFrom (es ++ tr) x = callsFrom tr x ++ [k]) ∨
    (∀ k, a ≠ .receive x (some (.request (.call k)))) ∧
      callsFrom (es ++ tr) x = callsFrom tr x := by
  by_cases ha : ∃ k, a = .receive x (some (.request (.call k)))
  · obtain ⟨k, rfl⟩ := ha
    refine .inl ⟨k, rfl, ht.at_receive, ?_⟩
    rw [callsFrom, chronicle_append, ht.events_receive]
    simp [callsFrom, chronicle, Event.callFrom?, Packet.call?, RpcRequest.call?]
  · have hnone : ∀ e ∈ es, e.callFrom? x = none := by
      intro e he
      unfold Event.callFrom?
      split
      · next y p =>
        split_ifs with hy
        · obtain ⟨rfl, -⟩ := ht.received he
          subst hy
          cases p with
          | request r =>
            cases r with
            | call k => exact absurd ⟨k, rfl⟩ ha
            | _ => rfl
          | response r => rfl
        · rfl
      · rfl
    refine .inr ⟨fun k hk => ha ⟨k, hk⟩, ?_⟩
    rw [callsFrom, chronicle_append, chronicle_none hnone, List.append_nil]
    rfl

theorem callsFrom_kept {tr : List Event} {c : SentCall} (ht : Transition s a s' es)
    (hc : (callsFrom tr c.caller)[c.number]? = some c.call) :
    (callsFrom (es ++ tr) c.caller)[c.number]? = some c.call := by
  obtain ⟨k, -, -, hk⟩ | ⟨-, hk⟩ := callsFrom_step tr ht c.caller
  · rw [hk, List.getElem?_append_left (List.getElem?_eq_some_iff.mp hc).1]
    exact hc
  · exact hk.symm ▸ hc

/-! The calls in custody, over whole runs. -/

section Runs
variable {ok : World Broker BrokerStep → Action → Prop} {w : World Broker BrokerStep}

theorem custody_next {w' : World Broker BrokerStep} (hn : broker.recorded.next w a = some w') :
    ∃ es, Transition w.state a w'.state es ∧ w'.events.trace = es ++ w.events.trace ∧
      callCustody w'.trace = (w.state.handing
        (fun x => (callsFrom w.events.trace x).length) a).apply (callCustody w.trace) := by
  obtain ⟨es, hs, htr⟩ := System.recorded_next.mp hn
  refine ⟨es, step_transition hs, ?_, ?_⟩
  · simp only [World.events, htr, List.flatMap_cons]
  · rw [htr]
    rfl

theorem custody_mirrors (h : broker.recorded.RunWhere ok w) :
    Mirrors (fun p => held p (callCustody w.trace)) w.state := by
  refine h.invariant (I := fun w => Mirrors (fun p => held p (callCustody w.trace)) w.state) ?_ ?_
  · rintro _ ⟨items, rfl⟩ p hp
    cases p with
    | service o =>
      show [] = queuedCalls (loadServiceActivations items o)
      cases he : loadServiceActivations items o with
      | none => rfl
      | some e =>
        obtain ⟨name, rfl⟩ := loadServiceActivations_stopped items he
        rfl
    | worker x => exact absurd rfl (hp x)
    | _ => rfl
  · intro w a w' hr hI _ hn
    obtain ⟨es, ht, -, hcust⟩ := custody_next hn
    intro p hp
    simp only [hcust, held_apply]
    exact ht.mirrors (recorded_lifecycle hr) hI _ p hp

structure CallsNumbered (w : World Broker BrokerStep) : Prop where
  sent : ∀ p c, (p, c) ∈ callCustody w.trace →
    (callsFrom w.events.trace c.caller)[c.number]? = some c.call
  distinct : ((callCustody w.trace).map Prod.snd).Nodup
  caller : ∀ x c, (.caller x, c) ∈ callCustody w.trace →
    c.caller = x ∧ c.number + 1 = (callsFrom w.events.trace x).length

theorem callsNumbered (h : broker.recorded.RunWhere ok w) : CallsNumbered w := by
  refine h.invariant ?_ ?_
  · rintro _ ⟨items, rfl⟩
    exact ⟨fun _ _ hc => absurd hc List.not_mem_nil, List.nodup_nil,
      fun _ _ hc => absurd hc List.not_mem_nil⟩
  · intro w a w' hr hI _ hn
    obtain ⟨es, ht, hev, hcust⟩ := custody_next hn
    have hnew : ∀ {x k}, a = .receive x (some (.request (.call k))) →
        callsFrom w'.events.trace x = callsFrom w.events.trace x ++ [k] := by
      rintro x k rfl
      obtain ⟨k', hk, -, hnew⟩ | ⟨hne, -⟩ := callsFrom_step w.events.trace ht x
      · cases hk
        exact hev ▸ hnew
      · exact absurd rfl (hne k)
    refine ⟨fun p c hc => ?_, ?_, fun x c hc => ?_⟩
    · rw [hcust] at hc
      obtain hc | henter | ⟨q, -, hc⟩ := mem_apply hc
      · exact hev ▸ callsFrom_kept ht (hI.sent p c hc)
      · obtain ⟨x, k, ha, rfl, rfl⟩ := handing_enter henter
        rw [hnew ha]
        exact List.getElem?_concat_length
      · exact hev ▸ callsFrom_kept ht (hI.sent q c hc)
    · rw [hcust]
      by_cases henter : ∃ p c, w.state.handing
          (fun x => (callsFrom w.events.trace x).length) a = .enter p c
      · obtain ⟨p, c, henter⟩ := henter
        obtain ⟨x, k, -, -, rfl⟩ := handing_enter henter
        rw [henter, Move.apply, List.map_append, List.nodup_append_comm]
        refine List.nodup_cons.mpr ⟨fun hmem => ?_, hI.distinct⟩
        obtain ⟨⟨q, c⟩, hc, rfl⟩ := List.mem_map.mp hmem
        have hlt := (List.getElem?_eq_some_iff.mp (hI.sent q _ hc)).1
        exact Nat.lt_irrefl _ hlt
      · exact Move.nodup (fun p c h => henter ⟨p, c, h⟩) hI.distinct
    · rw [hcust] at hc
      obtain hold | henter | ⟨q, hq | hq, -⟩ := mem_apply hc
      · obtain ⟨k, rfl, hx, -⟩ | ⟨-, hsame⟩ := callsFrom_step w.events.trace ht x
        · -- a client whose call is read has no call in hand
          have hheld := custody_mirrors hr (.caller x) fun _ hp => by cases hp
          rw [callsAt, hx] at hheld
          have hnil : held (.caller x) (callCustody w.trace) = [] := List.map_eq_nil_iff.mp hheld
          have hmem := mem_held.mpr hold
          rw [hnil] at hmem
          cases hmem
        · rw [hev, hsame]
          exact hI.caller x c hold
      · obtain ⟨y, k, ha, hy, rfl⟩ := handing_enter henter
        cases hy
        rw [hnew ha, List.length_append]
        exact ⟨rfl, rfl⟩
      · exact absurd hq.1 handing_caller.1
      · exact absurd hq handing_caller.2

theorem held_caller (h : broker.recorded.RunWhere ok w)
    (hk : (w.state.phase x).call? = some k) :
    ∃ c, held (.caller x) (callCustody w.trace) = [c] ∧ c.caller = x ∧ c.call = k := by
  have hm : (held (.caller x) (callCustody w.trace)).map (·.call) = w.state.callsAt (.caller x) :=
    custody_mirrors h (.caller x) nofun
  rw [callsAt, hk] at hm
  obtain ⟨c, hheld, hcall⟩ := List.map_eq_singleton_iff.mp hm
  have hc : (.caller x, c) ∈ callCustody w.trace :=
    mem_held.mp (hheld ▸ List.mem_singleton_self c)
  exact ⟨c, hheld, ((callsNumbered h).caller x c hc).1, hcall⟩

end Runs

end Broker
end IpcBroker
