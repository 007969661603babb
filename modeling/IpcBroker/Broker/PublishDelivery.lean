import IpcBroker.Broker.PublishSources
import IpcBroker.Foundation.History

/-! Delivery of publications: the events of a publisher that are put on the channel of a connected
subscriber are those it is due, in the order published, and the one the publisher is at. -/

namespace IpcBroker
open Function Foundation

def snapshotOf? (p : ClientId) (st : BrokerStep) : Option Publication :=
  match st.action, st.before.phase p with
  | .snapshot x _, .handling (.publishSnapshot o topic args) =>
    if x = p then some ⟨o, topic, args⟩ else none
  | _, _ => none

/-- The publications of `p` to topics that `x` had been entered under before their subscribers
were taken. -/
def due (p x : ClientId) : List BrokerStep → List Publication
  | [] => []
  | st :: tr => due p x tr ++
      (snapshotOf? p st).toList.filter fun e => tr.any (inserts x e.objectName e.topic)

def Event.publishes? (p : ClientId) : Event → Option Publication
  | .received y (.request (.publish o topic args)) => if y = p then some ⟨o, topic, args⟩ else none
  | _ => none

def Event.publishedTo? (p x : ClientId) : Event → Option Publication
  | .enqueued _ y z m => if y = p ∧ z = x then m.publication? else none
  | _ => none

def published (p : ClientId) (tr : List BrokerStep) : List Publication :=
  chronicle (Event.publishes? p) (tr.flatMap (·.events))

def eventsTo (p x : ClientId) (tr : List BrokerStep) : List Publication :=
  chronicle (Event.publishedTo? p x) (tr.flatMap (·.events))

def Phase.awaitsSnapshot : Phase → List Publication
  | .handling (.publishSnapshot o topic args) => [⟨o, topic, args⟩]
  | _ => []

def toDeliver (s : Broker) (p x : ClientId) : List Publication :=
  match s.phase p with
  | .handling (.publishSenders event subsList) =>
    if x ∈ subsList ∧ (s.clients x).isSome then event.publication?.toList else []
  | .handling (.publishSend event senders) =>
    if ⟨x⟩ ∈ senders then event.publication?.toList else []
  | _ => []

variable {tr : List BrokerStep} {st : BrokerStep} {x y p : ClientId} {e : Publication}

theorem published_cons : published p (st :: tr) =
    published p tr ++ chronicle (Event.publishes? p) st.events := by
  rw [published, List.flatMap_cons, chronicle_append]
  rfl

theorem eventsTo_cons : eventsTo p x (st :: tr) =
    eventsTo p x tr ++ chronicle (Event.publishedTo? p x) st.events := by
  rw [eventsTo, List.flatMap_cons, chronicle_append]
  rfl

theorem snapshotOf_some : snapshotOf? p st = some e ↔ (∃ subsList, st.action = .snapshot p subsList) ∧
    st.before.phase p = .handling (.publishSnapshot e.objectName e.topic e.args) := by
  unfold snapshotOf?
  constructor
  · intro h
    split at h
    · next z subsList o topic args ha hp =>
      split_ifs at h with hz
      cases h
      exact ⟨⟨subsList, hz ▸ ha⟩, hp⟩
    · cases h
  · rintro ⟨⟨subsList, ha⟩, hp⟩
    simp only [ha, hp, if_true]

theorem callId_publication {r : RpcResponse} {c : CallId} (h : r.callId? = some c) :
    r.publication? = none := by
  cases r with
  | event => cases h
  | _ => rfl

namespace Broker
variable {s s' : Broker} {a : Action} {es : List Event} {w w' : World Broker BrokerStep}

theorem Transition.publishedTo {ev : Event} (h : Transition s a s' es)
    (hE : PhaseEvents tr p (s.phase p)) (hS : PhaseSourced (tr.flatMap (·.events)) p (s.phase p))
    (hev : ev ∈ es) (he : ev.publishedTo? p x = some e) :
    ∃ rest, a = .handler p ∧ s.phase p = .handling (.publishSend e.event (⟨x⟩ :: rest)) := by
  unfold Event.publishedTo? at he
  split at he
  · next site y z m =>
    split_ifs at he with hyz
    obtain ⟨rfl, rfl⟩ := hyz
    obtain ⟨pc, tx, q, rfl, hp, hs, rfl, -⟩ := h.sender hev
    rw [hp] at hE hS
    obtain ⟨k, rfl, -, rfl, -⟩ | ⟨resp, rfl, -, rfl, -⟩ | ⟨event, rest, rfl, -, rfl, -⟩ |
      ⟨rest, rfl, -, -⟩ := HandlerPc.sends_cases hs
    · cases he
    · obtain ⟨c, hc, -⟩ := hS
      cases (callId_publication hc).symm.trans he
    · cases eq_event he
      exact ⟨rest, rfl, hp⟩
    · cases (hE m List.mem_cons_self).symm.trans he
  · cases he

theorem Transition.entered_publishSend {event : RpcResponse} {senders : List ClientSender}
    (h : Transition s a s' es) (hp : s'.phase p = .handling (.publishSend event senders)) :
    s.phase p = .handling (.publishSend event senders) ∨ a = .handler p ∧
      ((∃ subsList, s.phase p = .handling (.publishSenders event subsList)) ∨
        ∃ tx, s.phase p = .handling (.publishSend event (tx :: senders))) := by
  by_cases hsame : s'.phase p = s.phase p
  · exact .inl (hsame ▸ hp)
  · have hmover := h.mover hsame
    have hafter : ∀ msgs, afterSends msgs ≠ .handling (.publishSend event senders) := by
      intro msgs
      cases msgs <;> nofun
    have hnext : ∀ {event' txs}, handlePublish.next event' txs = .handling (.publishSend event senders) →
        event' = event ∧ txs = senders := by
      intro event' txs hq
      cases txs <;> cases hq
      exact ⟨rfl, rfl⟩
    cases h with
    | receiveInvalid | receiveIdle | write | writeError | stopWriter | spawnEnd =>
      exact absurd rfl hsame
    | receive hx hd =>
      cases hmover
      cases (update_self ..).symm.trans hp
      obtain ⟨r, -, hpc⟩ | ⟨resp, c, -, -, hpc⟩ := dispatch_cases hd
      · cases r <;> cases hpc
      · cases hpc
    | registerServices | registerPlain | callGone | callUnknown | subscribe | hasObject
    | sendLookupGone =>
      cases hmover
      exact absurd ((update_self ..).symm.trans hp) (hafter _)
    | @callInsert x k workerId workerTx =>
      cases hmover
      have hq := (update_self ..).symm.trans hp
      obtain ⟨v, t, -, -, hroute⟩ | ⟨-, hroute⟩ := route_cases k workerId workerTx <;>
        · rw [hroute] at hq
          cases hq
    | publishSenders hx =>
      cases hmover
      obtain ⟨rfl, -⟩ := hnext ((update_self ..).symm.trans hp)
      exact .inr ⟨rfl, .inl ⟨_, hx⟩⟩
    | send hx hs | sendFailed hx hs =>
      cases hmover
      have hq := (update_self ..).symm.trans hp
      obtain ⟨k, rfl, -, -, rfl⟩ | ⟨resp, rfl, -, -, rfl⟩ | ⟨event', rest, rfl, -, -, rfl⟩ |
        ⟨rest, rfl, -, rfl⟩ := HandlerPc.sends_cases hs
      · cases hq
      · cases hq
      · obtain ⟨rfl, rfl⟩ := hnext hq
        exact .inr ⟨rfl, .inr ⟨_, hx⟩⟩
      · exact absurd hq (hafter rest)
    | _ =>
      cases hmover
      cases (update_self ..).symm.trans hp

theorem Transition.entered_publishSenders {event : RpcResponse} {subsList : List ClientId}
    (h : Transition s a s' es) (hp : s'.phase p = .handling (.publishSenders event subsList)) :
    s.phase p = .handling (.publishSenders event subsList) ∨ a = .snapshot p subsList := by
  obtain hq | he := h.entered rfl hp
  · exact .inl hq
  · generalize hp : Phase.handling (.publishSenders event subsList) = q at he
    cases he with
    | publishSenders =>
      cases hp
      exact .inr rfl
    | receive _ hd =>
      cases hp
      cases dispatch_later hd
    | callRoute => cases Phase.handling.inj hp ▸ route_later _ _ _
    | _ => cases hp

theorem toDeliver_senders {event : RpcResponse} {subsList : List ClientId}
    (hp : s.phase p = .handling (.publishSenders event subsList)) : toDeliver s p x =
      if x ∈ subsList ∧ (s.clients x).isSome then event.publication?.toList else [] := by
  rw [toDeliver, hp]

theorem toDeliver_send {event : RpcResponse} {senders : List ClientSender}
    (hp : s.phase p = .handling (.publishSend event senders)) :
    toDeliver s p x = if ⟨x⟩ ∈ senders then event.publication?.toList else [] := by
  rw [toDeliver, hp]

theorem toDeliver_nil (hn : ∀ event subsList, s.phase p ≠ .handling (.publishSenders event subsList))
    (hs : ∀ event senders, s.phase p ≠ .handling (.publishSend event senders)) :
    toDeliver s p x = [] := by
  unfold toDeliver
  split
  · next event subsList hp => exact absurd hp (hn event subsList)
  · next event senders hp => exact absurd hp (hs event senders)
  · rfl

theorem toDeliver_next {event : RpcResponse} {senders : List ClientSender}
    (hp : s.phase p = handlePublish.next event senders) :
    toDeliver s p x = if ⟨x⟩ ∈ senders then event.publication?.toList else [] := by
  cases senders with
  | nil =>
    rw [toDeliver, hp]
    rfl
  | cons tx rest => exact toDeliver_send hp

theorem sender_mem (hL : Lifecycle s) {subsList : List ClientId} :
    ⟨x⟩ ∈ subsList.filterMap s.clients ↔ x ∈ subsList ∧ (s.clients x).isSome := by
  constructor
  · intro h
    refine ⟨mem_senders hL h, ?_⟩
    obtain ⟨y, -, hy⟩ := List.mem_filterMap.mp h
    have hxy : y = x := by
      rw [hL.clients] at hy
      split_ifs at hy
      cases hy
      rfl
    rw [← hxy, hy]
    rfl
  · rintro ⟨hx, htx⟩
    obtain ⟨tx, htx⟩ := Option.isSome_iff_exists.mp htx
    refine List.mem_filterMap.mpr ⟨x, hx, ?_⟩
    rw [hL.clients] at htx ⊢
    split_ifs at htx ⊢
    rfl

def Delivers (tr : List BrokerStep) (p x : ClientId) (s : Broker) (a : Action) (es : List Event)
    (s' : Broker) : Prop :=
  let new := chronicle (Event.publishedTo? p x) es
  let add := (snapshotOf? p ⟨s, a, es, s'⟩).toList.filter fun e =>
    tr.any (inserts x e.objectName e.topic)
  ((s.phase x).rank ≤ 2 ∨ add = []) ∧ new ++ toDeliver s' p x = toDeliver s p x ++ add ∨
    2 < (s'.phase x).rank ∧ new ++ toDeliver s' p x <+: toDeliver s p x

theorem Delivers.of_eq (hsnap : snapshotOf? p ⟨s, a, es, s'⟩ = none)
    (h : chronicle (Event.publishedTo? p x) es ++ toDeliver s' p x = toDeliver s p x) :
    Delivers tr p x s a es s' := by
  simp only [Delivers, hsnap, Option.toList_none, List.filter_nil, List.append_nil, or_true,
    true_and]
  exact .inl h

theorem snapshotOf_none (ha : ∀ subsList, a ≠ .snapshot p subsList) :
    snapshotOf? p ⟨s, a, es, s'⟩ = none := by
  refine Option.eq_none_iff_forall_ne_some.mpr fun e he => ?_
  obtain ⟨⟨subsList, hsub⟩, -⟩ := snapshotOf_some.mp he
  exact ha subsList hsub

theorem clients_isSome (hL : Lifecycle s) :
    (s.clients x).isSome ↔ 1 ≤ (s.phase x).rank ∧ (s.phase x).rank ≤ 2 := by
  rw [hL.clients]
  split_ifs with h <;> simp [h]

theorem inserted_connected (hI : SubscriptionsInserted ⟨s, tr⟩) (hL : Lifecycle s)
    {o topic : String} (h : Inserted tr x o topic) : 1 ≤ (s.phase x).rank := by
  by_cases hle : (s.phase x).rank ≤ 2
  · exact (hL.subscriptions o topic x (hI.kept o topic x hle h)).1
  · omega

theorem Delivers.idle (h : Transition s a s' es) (hI : SubscriptionsInserted ⟨s, tr⟩)
    (hL : Lifecycle s) (hsame : s'.phase p = s.phase p)
    (hsnap : snapshotOf? p ⟨s, a, es, s'⟩ = none)
    (hnew : chronicle (Event.publishedTo? p x) es = []) : Delivers tr p x s a es s' := by
  have hL' := hL.step h
  have hE := hI.phase p
  by_cases hphase : ∃ event subsList, s.phase p = .handling (.publishSenders event subsList)
  · obtain ⟨event, subsList, hp⟩ := hphase
    have hT := toDeliver_senders (x := x) hp
    have hT' := toDeliver_senders (x := x) (hsame.trans hp)
    by_cases hx : x ∈ subsList ∧ (s.clients x).isSome
    · by_cases hx' : (s'.clients x).isSome
      · refine .of_eq hsnap ?_
        rw [hnew, hT, hT', if_pos hx, if_pos ⟨hx.1, hx'⟩]
        rfl
      · have hrank := ((clients_isSome hL).mp hx.2).1
        have hle := h.rank_le x
        rw [clients_isSome hL'] at hx'
        refine .inr ⟨by omega, ?_⟩
        rw [hnew, hT', if_neg (by rw [clients_isSome hL']; exact fun hc => hx' hc.2)]
        exact List.nil_prefix
    · -- who is not there now and was entered before has gone for good
      have hx' : ¬ (x ∈ subsList ∧ (s'.clients x).isSome) := by
        rintro ⟨hmem, hsome⟩
        have hgone : ¬ (s.clients x).isSome := fun hc => hx ⟨hmem, hc⟩
        simp only [hp] at hE
        obtain ⟨-, e, -, hsubs⟩ := hE
        have hrank := inserted_connected hI hL (hsubs x hmem)
        have hle := h.rank_le x
        rw [clients_isSome hL'] at hsome
        rw [clients_isSome hL] at hgone
        exact hgone ⟨hrank, by omega⟩
      refine .of_eq hsnap ?_
      rw [hnew, hT, hT', if_neg hx, if_neg hx']
      rfl
  · refine .of_eq hsnap ?_
    rw [hnew, List.nil_append, toDeliver, toDeliver, hsame]
    split
    · next event subsList hp => exact absurd ⟨event, subsList, hp⟩ hphase
    · rfl
    · rfl

theorem Delivers.snapshot {subsList : List ClientId}
    (hs : s.step (.snapshot p subsList) = some (s', es)) (hI : SubscriptionsInserted ⟨s, tr⟩)
    (hL : Lifecycle s) : Delivers tr p x s (.snapshot p subsList) es s' := by
  have h := step_transition hs
  obtain ⟨o, topic, args, hp⟩ := h.at_snapshot
  have hperm := Transition.snapshot_perm hs hp
  have hsnap : snapshotOf? p ⟨s, .snapshot p subsList, es, s'⟩ = some ⟨o, topic, args⟩ :=
    snapshotOf_some.mpr ⟨⟨subsList, rfl⟩, hp⟩
  have hT : toDeliver s p x = [] := toDeliver_nil (by simp [hp]) (by simp [hp])
  have hT' : es = [] ∧ toDeliver s' p x =
      if x ∈ subsList ∧ (s.clients x).isSome then [⟨o, topic, args⟩] else [] := by
    cases h with
    | snapshotNone =>
      refine ⟨rfl, ?_⟩
      rw [toDeliver_nil (by simp) (by simp)]
      simp
    | @snapshot _ o' topic' args' _ hp' =>
      cases hp.symm.trans hp'
      have hq : (s.enter p (.publishSenders (.event o topic args) subsList)).phase p =
          .handling (.publishSenders (.event o topic args) subsList) := update_self ..
      exact ⟨rfl, toDeliver_senders hq⟩
  obtain ⟨rfl, hT'⟩ := hT'
  simp only [Delivers, hsnap, hT, hT', chronicle_none, List.not_mem_nil, false_imp_iff,
    implies_true, List.nil_append, Option.toList_some]
  by_cases hle : (s.phase x).rank ≤ 2
  · refine .inl ⟨.inl hle, ?_⟩
    have hiff : x ∈ subsList ∧ (s.clients x).isSome ↔ tr.any (inserts x o topic) = true := by
      rw [hperm.mem_iff, clients_isSome hL]
      constructor
      · rintro ⟨hx, -⟩
        exact hI.inserted o topic x hx
      · intro hx
        exact ⟨hI.kept o topic x hle hx, inserted_connected hI hL hx, hle⟩
    simp only [hiff, List.filter_cons, List.filter_nil]
  · have hgone : ¬ (s.clients x).isSome := by
      rw [clients_isSome hL]
      exact fun hc => hle hc.2
    have hle' := h.rank_le x
    refine .inr ⟨by omega, ?_⟩
    split
    · next hc => exact absurd hc.2 hgone
    · exact List.nil_prefix

theorem Delivers.senders {event : RpcResponse} {subsList : List ClientId}
    (h : Transition s (.handler p) s' es) (hL : Lifecycle s)
    (hp : s.phase p = .handling (.publishSenders event subsList)) :
    Delivers tr p x s (.handler p) es s' := by
  obtain ⟨rfl, rfl⟩ := Prod.mk.inj (Option.some.inj (h.ran hp))
  refine .of_eq (snapshotOf_none nofun) ?_
  rw [chronicle_none nofun, List.nil_append, toDeliver_senders hp, toDeliver_next (update_self ..)]
  simp only [sender_mem hL]

theorem Delivers.send {event : RpcResponse} {senders : List ClientSender}
    (h : Transition s (.handler p) s' es) (hI : SubscriptionsInserted ⟨s, tr⟩)
    (hp : s.phase p = .handling (.publishSend event senders)) :
    Delivers tr p x s (.handler p) es s' := by
  have hsnap : snapshotOf? p ⟨s, .handler p, es, s'⟩ = none := snapshotOf_none nofun
  have hE := hI.phase p
  simp only [hp] at hE
  obtain ⟨hnodup, e, rfl, -⟩ := hE
  have hran : handlePublish.send s p e.event senders = some (s', es) := h.ran hp
  have hT := toDeliver_send (x := x) hp
  cases senders with
  | nil =>
    obtain ⟨rfl, rfl⟩ := Prod.mk.inj (Option.some.inj hran)
    refine .of_eq hsnap ?_
    rw [hT, chronicle_none nofun, toDeliver_nil (by simp) (by simp)]
    rfl
  | cons tx rest =>
    obtain ⟨hnot, -⟩ := List.nodup_cons.mp hnodup
    have hmem : ⟨x⟩ ∈ tx :: rest ↔ tx.channel = x ∨ ⟨x⟩ ∈ rest := by
      rw [List.mem_cons]
      refine or_congr_left ⟨fun h => congrArg ClientSender.channel h.symm, ?_⟩
      rintro rfl
      rfl
    have hrest : tx.channel = x → ⟨x⟩ ∉ rest := by
      rintro rfl
      exact hnot
    have hT' : ∀ st : Broker, st.phase p = handlePublish.next e.event rest →
        toDeliver st p x = if ⟨x⟩ ∈ rest then [e] else [] := fun _ => toDeliver_next
    simp only [publication_event, Option.toList_some, hmem] at hT
    simp only [handlePublish.send, Broker.send] at hran
    split at hran
    · next hended =>
      obtain ⟨rfl, rfl⟩ := Prod.mk.inj (Option.some.inj hran)
      have hphase : (s.goto p (handlePublish.next e.event rest)).phase p = _ := update_self ..
      have hnew : chronicle (Event.publishedTo? p x)
          [.sendFailed .handlePublish p tx.channel (.response e.event)] = [] := rfl
      by_cases hx : tx.channel = x
      · refine .inr ⟨?_, ?_⟩
        · subst hx
          have hle := h.rank_le tx.channel
          rw [hended] at hle
          exact Nat.lt_of_lt_of_le (by decide) hle
        · rw [hnew, hT' _ hphase, if_neg (hrest hx)]
          exact List.nil_prefix
      · refine .of_eq hsnap ?_
        rw [hnew, hT, hT' _ hphase]
        simp only [hx, false_or, List.nil_append]
    · split_ifs at hran with hroom
      obtain ⟨rfl, rfl⟩ := Prod.mk.inj (Option.some.inj hran)
      have hphase : ((s.push tx (.response e.event)).goto p (handlePublish.next e.event rest)).phase p = _ :=
        update_self ..
      have hnew : chronicle (Event.publishedTo? p x)
          [.enqueued .handlePublish p tx.channel (.response e.event)] =
          if tx.channel = x then [e] else [] := by
        by_cases hx : tx.channel = x <;>
          simp [chronicle, Event.publishedTo?, hx, Packet.publication?, publication_event]
      refine .of_eq hsnap ?_
      rw [hnew, hT, hT' _ hphase]
      by_cases hx : tx.channel = x
      · simp only [hx, hrest hx, if_true, if_false, true_or, List.append_nil]
      · simp only [hx, if_false, false_or, List.nil_append]

theorem Transition.delivers (hs : s.step a = some (s', es)) (hI : SubscriptionsInserted ⟨s, tr⟩)
    (hS : ∀ y, PhaseSourced (tr.flatMap (·.events)) y (s.phase y)) (hL : Lifecycle s) :
    Delivers tr p x s a es s' := by
  have h := step_transition hs
  by_cases hsnap : ∃ subsList, a = .snapshot p subsList
  · obtain ⟨subsList, rfl⟩ := hsnap
    exact .snapshot hs hI hL
  have hnone : snapshotOf? p ⟨s, a, es, s'⟩ = none :=
    snapshotOf_none fun subsList ha => hsnap ⟨subsList, ha⟩
  have hquiet : (∀ event senders, a = .handler p →
      s.phase p ≠ .handling (.publishSend event senders)) →
      chronicle (Event.publishedTo? p x) es = [] := by
    intro hno
    refine chronicle_none fun ev hev => Option.eq_none_iff_forall_ne_some.mpr fun e he => ?_
    obtain ⟨rest, ha, hp⟩ := h.publishedTo (hI.phase p) (hS p) hev he
    exact hno _ _ ha hp
  by_cases hrun : a = .handler p
  · subst hrun
    by_cases hsenders : ∃ event subsList, s.phase p = .handling (.publishSenders event subsList)
    · obtain ⟨event, subsList, hp⟩ := hsenders
      exact .senders h hL hp
    by_cases hsend : ∃ event senders, s.phase p = .handling (.publishSend event senders)
    · obtain ⟨event, senders, hp⟩ := hsend
      exact .send h hI hp
    -- the handler runs a section that has nothing to do with a publication
    refine .of_eq hnone ?_
    rw [hquiet fun event senders _ hp => hsend ⟨event, senders, hp⟩, List.nil_append,
      toDeliver_nil (fun event subsList hp => hsenders ⟨event, subsList, hp⟩)
        fun event senders hp => hsend ⟨event, senders, hp⟩]
    refine toDeliver_nil (fun event subsList hq => ?_) fun event senders hq => ?_
    · obtain hp | ha := h.entered_publishSenders hq
      · exact hsenders ⟨event, subsList, hp⟩
      · cases ha
    · obtain hp | ⟨-, ⟨subsList, hp⟩ | ⟨tx, hp⟩⟩ := h.entered_publishSend hq
      · exact hsend ⟨event, senders, hp⟩
      · exact hsenders ⟨event, subsList, hp⟩
      · exact hsend ⟨event, tx :: senders, hp⟩
  · have hno := hquiet fun _ _ ha _ => hrun ha
    by_cases hsame : s'.phase p = s.phase p
    · exact .idle h hI hL hsame hnone hno
    · -- `p` leaves a phase in which it is not publishing for another one
      have hbefore : ∀ pc, s.phase p ≠ .handling pc := fun pc hp =>
        hsame ((h.handling_kept hp hrun fun subsList ha => hsnap ⟨subsList, ha⟩).trans hp.symm)
      refine .of_eq hnone ?_
      rw [hno, List.nil_append, toDeliver_nil (fun _ _ => hbefore _) fun _ _ => hbefore _]
      refine toDeliver_nil (fun event subsList hq => ?_) fun event senders hq => ?_
      · obtain hp | ha := h.entered_publishSenders hq
        · exact hbefore _ hp
        · exact hsnap ⟨subsList, ha⟩
      · obtain hp | ⟨ha, -⟩ := h.entered_publishSend hq
        · exact hbefore _ hp
        · exact hrun ha

theorem due_cons : due p x (st :: tr) = due p x tr ++
    (snapshotOf? p st).toList.filter fun e => tr.any (inserts x e.objectName e.topic) := rfl

section Runs
variable {ok : World Broker BrokerStep → Action → Prop}

theorem recorded_sources (h : broker.recorded.RunWhere ok w) : Sources w.events :=
  sources h.run_events

theorem delivered_due (h : broker.recorded.RunWhere ok w) (p x : ClientId) :
    ((w.state.phase x).rank ≤ 2 →
      eventsTo p x w.trace ++ toDeliver w.state p x = due p x w.trace) ∧
    eventsTo p x w.trace ++ toDeliver w.state p x <+: due p x w.trace := by
  refine h.invariant (I := fun w => ((w.state.phase x).rank ≤ 2 →
      eventsTo p x w.trace ++ toDeliver w.state p x = due p x w.trace) ∧
    eventsTo p x w.trace ++ toDeliver w.state p x <+: due p x w.trace) ?_ ?_
  · rintro _ ⟨items, rfl⟩
    exact ⟨fun _ => rfl, List.prefix_rfl⟩
  · rintro w a w' hr ⟨heq, hpre⟩ - hn
    obtain ⟨es, hs, htr⟩ := System.recorded_next.mp hn
    have hle := (step_transition hs).rank_le x
    have hd : Delivers w.trace p x w.state a es w'.state :=
      Transition.delivers hs (subscriptionsInserted hr) (recorded_sources hr).phase
        (recorded_lifecycle hr)
    obtain ⟨hadd, hnew⟩ | ⟨hgone, hnew⟩ := hd
    · have hsame : eventsTo p x w'.trace ++ toDeliver w'.state p x =
          eventsTo p x w.trace ++ toDeliver w.state p x ++
            (snapshotOf? p ⟨w.state, a, es, w'.state⟩).toList.filter fun e =>
              w.trace.any (inserts x e.objectName e.topic) := by
        rw [htr, eventsTo_cons, List.append_assoc, hnew, List.append_assoc]
      rw [hsame, htr, due_cons]
      refine ⟨fun hrank => congrArg (· ++ _) (heq (Nat.le_trans hle hrank)), ?_⟩
      obtain hrank | hnil := hadd
      · refine ⟨[], ?_⟩
        rw [heq hrank, List.append_nil]
      · rw [hnil, List.append_nil, List.append_nil]
        exact hpre
    · refine ⟨fun hrank => absurd hrank (Nat.not_le_of_lt hgone), ?_⟩
      rw [htr, eventsTo_cons, due_cons, List.append_assoc]
      exact ((List.prefix_append_right_inj _).mpr hnew).trans (hpre.trans (List.prefix_append ..))

end Runs

/-! The order of publication, and who gets an event at all. -/

theorem publishes_some {ev : Event} (h : ev.publishes? p = some e) :
    ev = .received p (.request (.publish e.objectName e.topic e.args)) := by
  unfold Event.publishes? at h
  split at h
  · split_ifs at h with hy
    cases h
    rw [hy]
  · cases h

theorem Transition.entered_snapshot {o topic : String} {args : Value} (h : Transition s a s' es)
    (hp : s'.phase p = .handling (.publishSnapshot o topic args)) :
    s.phase p = .handling (.publishSnapshot o topic args) ∨
      es = [.received p (.request (.publish o topic args))] := by
  obtain hq | he := h.entered rfl hp
  · exact .inl hq
  · generalize hq : Phase.handling (.publishSnapshot o topic args) = q at he
    cases he with
    | receive _ hd =>
      cases hq
      obtain ⟨r, rfl, hr⟩ | ⟨resp, c, -, -, hr⟩ := dispatch_cases hd
      · cases r <;> cases hr
        exact .inr rfl
      · cases hr
    | @callRoute k workerId workerTx =>
      obtain ⟨v, t, -, -, hroute⟩ | ⟨-, hroute⟩ := route_cases k workerId workerTx <;>
        · rw [hroute] at hq
          cases hq
    | _ => cases hq

theorem Transition.awaits (h : Transition s a s' es) (p : ClientId) :
    (s.phase p).awaitsSnapshot ++ chronicle (Event.publishes? p) es =
      (snapshotOf? p ⟨s, a, es, s'⟩).toList ++ (s'.phase p).awaitsSnapshot := by
  have hnone : ∀ {q : Phase}, (∀ o topic args, q ≠ .handling (.publishSnapshot o topic args)) →
      q.awaitsSnapshot = [] := by
    intro q hq
    unfold Phase.awaitsSnapshot
    split
    · next o topic args => exact absurd rfl (hq o topic args)
    · rfl
  by_cases hp : ∃ o topic args, s.phase p = .handling (.publishSnapshot o topic args)
  · obtain ⟨o, topic, args, hp⟩ := hp
    have hquiet : chronicle (Event.publishes? p) es = [] := by
      refine chronicle_none fun ev hev => Option.eq_none_iff_forall_ne_some.mpr fun e he => ?_
      obtain ⟨-, -, hread⟩ := h.received (publishes_some he ▸ hev)
      cases hp.symm.trans hread
    by_cases hsnap : ∃ subsList, a = .snapshot p subsList
    · obtain ⟨subsList, rfl⟩ := hsnap
      have hafter : (s'.phase p).awaitsSnapshot = [] := by
        refine hnone fun o' topic' args' hq => ?_
        cases h with
        | snapshotNone | snapshot => cases (update_self ..).symm.trans hq
      have hsnap : snapshotOf? p ⟨s, .snapshot p subsList, es, s'⟩ = some ⟨o, topic, args⟩ :=
        snapshotOf_some.mpr ⟨⟨subsList, rfl⟩, hp⟩
      rw [hquiet, hafter, hsnap, hp]
      rfl
    · have ha : a ≠ .handler p := by
        rintro rfl
        have hran : none = some (s', es) := h.ran hp
        cases hran
      have hkept := h.handling_kept hp ha fun subsList ha => hsnap ⟨subsList, ha⟩
      rw [hquiet, hkept, hp, snapshotOf_none fun subsList ha => hsnap ⟨subsList, ha⟩]
      rfl
  · have hsnap : snapshotOf? p ⟨s, a, es, s'⟩ = none := by
      refine Option.eq_none_iff_forall_ne_some.mpr fun e he => ?_
      obtain ⟨-, hq⟩ := snapshotOf_some.mp he
      exact hp ⟨_, _, _, hq⟩
    rw [hnone fun o topic args hq => hp ⟨o, topic, args, hq⟩, hsnap]
    by_cases hread : ∃ e : Publication,
        Event.received p (.request (.publish e.objectName e.topic e.args)) ∈ es
    · obtain ⟨e, hev⟩ := hread
      obtain ⟨rfl, rfl, -⟩ := h.received hev
      rw [h.dispatched (p := .request (.publish e.objectName e.topic e.args)) rfl]
      simp [chronicle, Event.publishes?, Phase.awaitsSnapshot, handleRequest]
    · have hquiet : chronicle (Event.publishes? p) es = [] := by
        refine chronicle_none fun ev hev => Option.eq_none_iff_forall_ne_some.mpr fun e he => ?_
        exact hread ⟨e, publishes_some he ▸ hev⟩
      rw [hquiet, hnone fun o topic args hq => ?_]
      · rfl
      · obtain hq | rfl := h.entered_snapshot hq
        · exact hp ⟨o, topic, args, hq⟩
        · exact hread ⟨⟨o, topic, args⟩, List.mem_singleton_self _⟩

theorem published_order {ok : World Broker BrokerStep → Action → Prop}
    (h : broker.recorded.RunWhere ok w) (p : ClientId) :
    published p w.trace = chronicle (snapshotOf? p) w.trace ++ (w.state.phase p).awaitsSnapshot := by
  refine h.invariant (I := fun w => published p w.trace =
    chronicle (snapshotOf? p) w.trace ++ (w.state.phase p).awaitsSnapshot) ?_ ?_
  · rintro _ ⟨items, rfl⟩
    rfl
  · intro w a w' _ hI _ hn
    obtain ⟨es, hs, htr⟩ := System.recorded_next.mp hn
    have hcons : chronicle (snapshotOf? p) w'.trace = chronicle (snapshotOf? p) w.trace ++
        (snapshotOf? p ⟨w.state, a, es, w'.state⟩).toList := by
      rw [htr, ← List.singleton_append, chronicle_append]
      cases hsnap : snapshotOf? p ⟨w.state, a, es, w'.state⟩ <;> simp [chronicle, hsnap]
    rw [hcons, htr, published_cons, hI, List.append_assoc, List.append_assoc,
      (step_transition hs).awaits p]

theorem due_sublist (p x : ClientId) (tr : List BrokerStep) :
    (due p x tr).Sublist (chronicle (snapshotOf? p) tr) := by
  induction tr with
  | nil => exact List.nil_sublist _
  | cons st tr ih =>
    rw [← List.singleton_append, chronicle_append, List.singleton_append, due_cons]
    refine ih.append ?_
    cases hsnap : snapshotOf? p st with
    | none => exact List.nil_sublist _
    | some e =>
      simp only [chronicle, List.filterMap_cons, hsnap, Option.toList_some]
      exact List.filter_sublist

theorem inserted_subscribes {ok : World Broker BrokerStep → Action → Prop}
    (h : broker.recorded.RunWhere ok w) {o topic : String} (hi : Inserted w.trace x o topic) :
    Subscribes w.events.trace x o topic := by
  revert hi
  refine h.invariant (I := fun w => Inserted w.trace x o topic →
    Subscribes w.events.trace x o topic) nofun ?_
  intro w a w' hr hI _ hn hi
  obtain ⟨es, hs, htr⟩ := System.recorded_next.mp hn
  have hkeep : Subscribes w.events.trace x o topic → Subscribes w'.events.trace x o topic := by
    intro hsub
    rw [World.events, htr, List.flatMap_cons]
    exact List.mem_append_right _ hsub
  rw [htr, inserted_cons, inserts_iff] at hi
  obtain ⟨-, hx⟩ | hi := hi
  · have hsub := (subscriptionsInserted hr).phase x
    rw [hx] at hsub
    exact hkeep hsub
  · exact hkeep (hI hi)

theorem events_subscribed {w : World Broker Event} {tr : List Event} {site : SendSite}
    (h : broker.Run w)
    (he : Event.enqueued site p x (.response e.event) :: tr <:+ w.trace) :
    Subscribes tr x e.objectName e.topic := by
  obtain ⟨w₀, a, w₁, es₁, es₂, hr, -, -, hs, rfl, -⟩ := h.emitted he
  obtain ⟨u, hu, rfl⟩ := hr.exists_recorded
  have hI := subscriptionsInserted hu
  have hmem : Event.enqueued site p x (.response e.event) ∈
      es₁ ++ .enqueued site p x (.response e.event) :: es₂ :=
    List.mem_append_right _ List.mem_cons_self
  obtain ⟨rest, -, hp⟩ := (step_transition hs).publishedTo (hI.phase p)
    ((recorded_sources hu).phase p) hmem (show Event.publishedTo? p x _ = some e by
      simp [Event.publishedTo?, Packet.publication?, publication_event])
  have hsrc := hI.phase p
  simp only [World.events] at hp
  rw [hp] at hsrc
  obtain ⟨-, e', heq, htxs⟩ := hsrc
  have hsame : e = e' := Option.some.inj (congrArg RpcResponse.publication? heq)
  have hins := htxs ⟨x⟩ List.mem_cons_self
  rw [← hsame] at hins
  exact List.mem_append_right _ (inserted_subscribes hu hins)

/-- What a subscriber gets of a publisher: the events due to it, in the order published, all of
them while it is connected, and none of a topic it has not asked for. -/
structure PublishesDelivered (w : World Broker BrokerStep) (p x : ClientId) : Prop where
  inOrder : (due p x w.trace).Sublist (published p w.trace)
  whole : (w.state.clients x).isSome →
    eventsTo p x w.trace ++ toDeliver w.state p x = due p x w.trace
  first : eventsTo p x w.trace <+: due p x w.trace
  subscribed : ∀ site (e : Publication) tr,
    Event.enqueued site p x (.response e.event) :: tr <:+ w.events.trace →
      Subscribes tr x e.objectName e.topic

/-- Every publisher's events reach every subscriber exactly once and in order, for as long as the
subscriber is among the clients. -/
theorem publishes_delivered (h : broker.recorded.Run w) (p x : ClientId) :
    PublishesDelivered w p x := by
  obtain ⟨hexact, hprefix⟩ := delivered_due h p x
  refine ⟨?_, ?_, (List.prefix_append ..).trans hprefix, ?_⟩
  · rw [published_order h p]
    exact (due_sublist p x w.trace).trans (List.sublist_append_left ..)
  · intro hsome
    exact hexact ((clients_isSome (recorded_lifecycle h)).mp hsome).2
  · intro site e tr he
    exact events_subscribed h.run_events he

def subscribedTwice : List Action :=
  [.connect callerC, .connect callerD] ++ request callerC (.subscribe "o" "t") 3 ++
    request callerC (.subscribe "o" "t") 3 ++
    [.receive callerD (some (.request (.publish "o" "t" .null))), .snapshot callerD [callerC],
      .handler callerD, .handler callerD]

theorem publishes_delivered_once :
    ∃ w, broker.recorded.exec (fun _ _ => True) ⟨Broker.initial [], []⟩ subscribedTwice = some w ∧
      (eventsTo callerD callerC w.trace).length = 1 ∧ PublishesDelivered w callerD callerC := by
  obtain ⟨w, hr, he, ht⟩ := System.RunWhere.of_exec_any broker.recorded (fun _ _ => True)
    subscribedTwice (fun w => (eventsTo callerD callerC w.trace).length = 1) ⟨[], rfl⟩ (by decide)
  exact ⟨w, he, of_decide_eq_true ht, publishes_delivered hr callerD callerC⟩

end Broker
end IpcBroker
