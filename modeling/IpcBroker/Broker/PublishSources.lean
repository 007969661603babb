import Mathlib.Data.List.Nodup
import IpcBroker.Broker.MessageSources

/-! Where events come from: a client gets the events of the topics it has subscribed to, by a
publication that found it among the subscribers. -/

namespace IpcBroker
open Function Foundation

structure Publication where
  objectName : String
  topic : String
  args : Value

def Publication.event (e : Publication) : RpcResponse := .event e.objectName e.topic e.args

def RpcResponse.publication? : RpcResponse → Option Publication
  | .event o topic args => some ⟨o, topic, args⟩
  | _ => none

def Packet.publication? : Packet → Option Publication
  | .request _ => none
  | .response r => r.publication?

def inserts (x : ClientId) (o topic : String) (st : BrokerStep) : Bool :=
  match st.action, st.before.phase x with
  | .handler y, .handling (.subscribe o' topic') => y = x && o' = o && topic' = topic
  | _, _ => false

def Inserted (tr : List BrokerStep) (x : ClientId) (o topic : String) : Prop :=
  tr.any (inserts x o topic) = true

def Subscribes (tr : List Event) (x : ClientId) (o topic : String) : Prop :=
  Event.received x (.request (.subscribe o topic)) ∈ tr

variable {tr : List BrokerStep} {st : BrokerStep} {x y p : ClientId} {o topic : String}
  {e : Publication}

theorem publication_event : e.event.publication? = some e := rfl

theorem eq_event {r : RpcResponse} (h : r.publication? = some e) : r = e.event := by
  cases r with
  | event => cases h; rfl
  | _ => cases h

theorem inserts_iff : inserts x o topic st = true ↔
    st.action = .handler x ∧ st.before.phase x = .handling (.subscribe o topic) := by
  unfold inserts
  constructor
  · intro h
    split at h
    · next y o' topic' ha hp =>
      simp only [Bool.and_eq_true, decide_eq_true_eq] at h
      obtain ⟨⟨rfl, rfl⟩, rfl⟩ := h
      exact ⟨ha, hp⟩
    · cases h
  · rintro ⟨ha, hp⟩
    simp only [ha, hp, decide_true, Bool.and_self]

theorem inserted_cons : Inserted (st :: tr) x o topic ↔
    inserts x o topic st = true ∨ Inserted tr x o topic := by
  rw [Inserted, List.any_cons, Bool.or_eq_true, Inserted]

theorem Inserted.cons (h : Inserted tr x o topic) (st : BrokerStep) : Inserted (st :: tr) x o topic :=
  inserted_cons.mpr (.inr h)

def PhaseEvents (tr : List BrokerStep) (x : ClientId) : Phase → Prop
  | .handling (.subscribe o topic) => Subscribes (tr.flatMap (·.events)) x o topic
  | .handling (.publishSenders event subsList) =>
    subsList.Nodup ∧ ∃ e : Publication, event = e.event ∧
      ∀ y ∈ subsList, Inserted tr y e.objectName e.topic
  | .handling (.publishSend event senders) =>
    senders.Nodup ∧ ∃ e : Publication, event = e.event ∧
      ∀ tx ∈ senders, Inserted tr tx.channel e.objectName e.topic
  | .handling (.sendLookup msg rest) | .handling (.sendAwait _ msg rest) =>
    ∀ m ∈ msg :: rest, m.publication? = none
  | _ => True

theorem PhaseEvents.cons {q : Phase} (h : PhaseEvents tr x q) (st : BrokerStep) :
    PhaseEvents (st :: tr) x q := by
  unfold PhaseEvents at h ⊢
  split at h
  · rw [List.flatMap_cons]
    exact List.mem_append_right _ h
  · obtain ⟨hnodup, e, he, hsubs⟩ := h
    exact ⟨hnodup, e, he, fun y hy => (hsubs y hy).cons st⟩
  · obtain ⟨hnodup, e, he, htxs⟩ := h
    exact ⟨hnodup, e, he, fun tx htx => (htxs tx htx).cons st⟩
  · exact h
  · exact h
  · trivial

namespace Broker
variable {s s' : Broker} {a : Action} {es : List Event} {w w' : World Broker BrokerStep}

theorem events_afterSends {msgs : List Packet} (h : ∀ m ∈ msgs, m.publication? = none) :
    PhaseEvents tr x (afterSends msgs) := by
  cases msgs with
  | nil => trivial
  | cons msg rest => exact h

theorem events_response {r : RpcResponse} (h : r.publication? = none) :
    PhaseEvents tr x (afterSends [.response r]) := by
  refine events_afterSends fun m hm => ?_
  cases List.mem_singleton.mp hm
  exact h

theorem events_next {senders : List ClientSender} (hnodup : senders.Nodup)
    (h : ∀ tx ∈ senders, Inserted tr tx.channel e.objectName e.topic) :
    PhaseEvents tr x (handlePublish.next e.event senders) := by
  cases senders with
  | nil => trivial
  | cons tx rest => exact ⟨hnodup, e, rfl, h⟩

structure SubscriptionsInserted (w : World Broker BrokerStep) : Prop where
  nodup : ∀ o topic, (w.state.subscriptions o topic).Nodup
  inserted : ∀ o topic x, x ∈ w.state.subscriptions o topic → Inserted w.trace x o topic
  kept : ∀ o topic x, (w.state.phase x).rank ≤ 2 → Inserted w.trace x o topic →
    x ∈ w.state.subscriptions o topic
  phase : ∀ x, PhaseEvents w.trace x (w.state.phase x)

theorem Transition.snapshot_perm {subsList : List ClientId}
    (hs : s.step (.snapshot x subsList) = some (s', es)) {args : Value}
    (hx : s.phase x = .handling (.publishSnapshot o topic args)) :
    subsList.Perm (s.subscriptions o topic) := by
  simp only [step, hx, handlePublish] at hs
  split_ifs at hs with hperm
  all_goals exact hperm

theorem nodup_senders (hL : Lifecycle s) {subsList : List ClientId} (h : subsList.Nodup) :
    (subsList.filterMap s.clients).Nodup := by
  refine List.Nodup.filterMap (fun y z tx hy hz => ?_) h
  rw [Option.mem_def, hL.clients] at hy hz
  split_ifs at hy hz
  exact (congrArg ClientSender.channel ((Option.some.inj hy).trans (Option.some.inj hz).symm))

theorem mem_senders (hL : Lifecycle s) {subsList : List ClientId} {tx : ClientSender}
    (h : tx ∈ subsList.filterMap s.clients) : tx.channel ∈ subsList := by
  obtain ⟨y, hy, htx⟩ := List.mem_filterMap.mp h
  rw [hL.clients] at htx
  split_ifs at htx
  exact Option.some.inj htx ▸ hy

theorem Transition.phaseEvents (h : Transition s a s' es)
    (hI : SubscriptionsInserted ⟨s, tr⟩) (hL : Lifecycle s) :
    ∀ y, PhaseEvents (⟨s, a, es, s'⟩ :: tr) y (s'.phase y) := by
  have hkeep : ∀ {x q}, PhaseEvents (⟨s, a, es, s'⟩ :: tr) x q → ∀ y,
      PhaseEvents (⟨s, a, es, s'⟩ :: tr) y (update s.phase x q y) := by
    intro x q hq y
    by_cases hy : y = x
    · subst hy
      rw [update_self]
      exact hq
    · rw [update_of_ne hy]
      exact (hI.phase y).cons _
  cases h with
  | receiveInvalid | receiveIdle | write | writeError | stopWriter | spawnEnd =>
    exact fun y => (hI.phase y).cons _
  | @receive x p pc hx hd =>
    refine hkeep ?_
    obtain ⟨r, rfl, rfl⟩ | ⟨resp, c, rfl, hc, rfl⟩ := dispatch_cases hd
    · cases r with
      | subscribe o topic =>
        simp only [handleRequest, PhaseEvents, Subscribes, List.flatMap_cons]
        exact List.mem_append_left _ List.mem_cons_self
      | _ => trivial
    · trivial
  | @registerServices x o e hx =>
    refine hkeep (events_afterSends fun m hm => ?_)
    obtain hm | hm := List.mem_append.mp hm
    · obtain ⟨r, -, rfl⟩ := List.mem_map.mp hm
      rfl
    · cases List.mem_singleton.mp hm
      rfl
  | registerPlain | callGone | callUnknown | subscribe | hasObject =>
    exact hkeep (events_response rfl)
  | @callInsert x k workerId workerTx =>
    refine hkeep ?_
    obtain ⟨v, t, -, -, hroute⟩ | ⟨-, hroute⟩ := route_cases k workerId workerTx <;>
      · rw [hroute]
        trivial
  | @snapshot x o topic args subsList hx hperm =>
    refine hkeep ⟨hperm.nodup_iff.mpr (hI.nodup o topic), ⟨o, topic, args⟩, rfl, fun y hy => ?_⟩
    exact (hI.inserted o topic y (hperm.mem_iff.mp hy)).cons _
  | @publishSenders x event subsList hx =>
    have hsrc := hI.phase x
    simp only [hx] at hsrc
    obtain ⟨hnodup, e, rfl, hsubs⟩ := hsrc
    refine hkeep (events_next (nodup_senders hL hnodup) fun tx htx => ?_)
    exact (hsubs _ (mem_senders hL htx)).cons _
  | @sendLookup x msg rest tx hx =>
    have hsrc := hI.phase x
    simp only [hx] at hsrc
    exact hkeep hsrc
  | @sendLookupGone x msg rest hx =>
    have hsrc := hI.phase x
    simp only [hx] at hsrc
    exact hkeep (events_afterSends fun m hm => hsrc m (List.mem_cons_of_mem _ hm))
  | @send x pc site tx msg q hx hs | @sendFailed x pc site tx msg q hx hs =>
    have hsrc := hI.phase x
    simp only [hx] at hsrc
    refine hkeep ?_
    obtain ⟨k, rfl, -, rfl, rfl⟩ | ⟨resp, rfl, -, rfl, rfl⟩ | ⟨event, rest, rfl, -, rfl, rfl⟩ |
      ⟨rest, rfl, -, rfl⟩ := HandlerPc.sends_cases hs
    · trivial
    · trivial
    · obtain ⟨hnodup, e, rfl, htxs⟩ := hsrc
      refine events_next (List.nodup_cons.mp hnodup).2 fun t ht => ?_
      exact (htxs t (List.mem_cons_of_mem _ ht)).cons _
    · exact events_afterSends fun m hm => hsrc m (List.mem_cons_of_mem _ hm)
  | _ => exact hkeep trivial

theorem Transition.subscribed (h : Transition s a s' es) :
    (∃ x o topic, a = .handler x ∧ s.phase x = .handling (.subscribe o topic) ∧
      s'.subscriptions = update s.subscriptions o
        (update (s.subscriptions o) topic ((s.subscriptions o topic).insert x))) ∨
    (∀ x o topic, a = .handler x → s.phase x ≠ .handling (.subscribe o topic)) ∧
      (s'.subscriptions = s.subscriptions ∨ ∃ z, s.phase z = .cleaning .subscriptions ∧
        s'.subscriptions = fun o topic => (s.subscriptions o topic).filter (· ≠ z)) := by
  obtain ⟨hsame, -⟩ | ⟨x, o, topic, ha, hx, hsubs⟩ | ⟨z, rfl, hz, hsubs⟩ := h.subscriptions
  · by_cases hsub : ∃ x o topic, a = .handler x ∧ s.phase x = .handling (.subscribe o topic)
    · obtain ⟨x, o, topic, rfl, hx⟩ := hsub
      obtain ⟨rfl, -⟩ := Prod.mk.inj (Option.some.inj (h.ran hx))
      exact .inl ⟨x, o, topic, rfl, hx, rfl⟩
    · exact .inr ⟨fun x o topic ha hx => hsub ⟨x, o, topic, ha, hx⟩, .inl hsame⟩
  · exact .inl ⟨x, o, topic, ha, hx, hsubs⟩
  · exact .inr ⟨nofun, .inr ⟨z, hz, hsubs⟩⟩

theorem mem_subscribed {subs : String → String → List ClientId} {o' topic' : String} :
    y ∈ update subs o (update (subs o) topic ((subs o topic).insert x)) o' topic' ↔
      (y = x ∧ o' = o ∧ topic' = topic) ∨ y ∈ subs o' topic' := by
  by_cases ho : o' = o
  · subst ho
    rw [update_self]
    by_cases ht : topic' = topic
    · subst ht
      rw [update_self, List.mem_insert_iff]
      simp
    · rw [update_of_ne ht]
      simp [ht]
  · rw [update_of_ne ho]
    simp [ho]

theorem nodup_subscribed {subs : String → String → List ClientId} {o' topic' : String}
    (h : ∀ o topic, (subs o topic).Nodup) :
    (update subs o (update (subs o) topic ((subs o topic).insert x)) o' topic').Nodup := by
  by_cases ho : o' = o
  · subst ho
    rw [update_self]
    by_cases ht : topic' = topic
    · subst ht
      rw [update_self]
      exact (h o' topic').insert
    · rw [update_of_ne ht]
      exact h o' topic'
  · rw [update_of_ne ho]
    exact h o' topic'

theorem Transition.rank_le (h : Transition s a s' es) (y : ClientId) :
    (s.phase y).rank ≤ (s'.phase y).rank := by
  rw [h.rank y]
  exact Nat.le_add_right _ _

theorem SubscriptionsInserted.next (hI : SubscriptionsInserted w) (hL : Lifecycle w.state)
    (hn : broker.recorded.next w a = some w') : SubscriptionsInserted w' := by
  obtain ⟨es, hs, htr⟩ := System.recorded_next.mp hn
  have h := step_transition hs
  have hphase : ∀ y, PhaseEvents (⟨w.state, a, es, w'.state⟩ :: w.trace) y (w'.state.phase y) :=
    h.phaseEvents hI hL
  rw [← htr] at hphase
  have hrank : ∀ {y}, (w'.state.phase y).rank ≤ 2 → (w.state.phase y).rank ≤ 2 :=
    fun {y} hy => Nat.le_trans (h.rank_le y) hy
  obtain ⟨x, o, topic, rfl, hx, hsubs⟩ | ⟨hno, hsubs⟩ := h.subscribed
  · have hins : ∀ {o' topic' y}, Inserted w'.trace y o' topic' ↔
        (y = x ∧ o' = o ∧ topic' = topic) ∨ Inserted w.trace y o' topic' := by
      intro o' topic' y
      rw [htr, inserted_cons, inserts_iff]
      refine or_congr_left ⟨?_, ?_⟩
      · rintro ⟨ha, hy⟩
        cases ha
        cases hx.symm.trans hy
        exact ⟨rfl, rfl, rfl⟩
      · rintro ⟨rfl, rfl, rfl⟩
        exact ⟨rfl, hx⟩
    refine ⟨?_, ?_, ?_, hphase⟩
    · intro o' topic'
      rw [hsubs]
      exact nodup_subscribed hI.nodup
    · intro o' topic' y hy
      rw [hsubs, mem_subscribed] at hy
      exact hins.mpr (hy.imp_right (hI.inserted o' topic' y))
    · intro o' topic' y hy hi
      rw [hsubs, mem_subscribed]
      exact (hins.mp hi).imp_right (hI.kept o' topic' y (hrank hy))
  · have hins : ∀ {o' topic' y}, Inserted w'.trace y o' topic' ↔ Inserted w.trace y o' topic' := by
      intro o' topic' y
      rw [htr, inserted_cons, inserts_iff]
      refine or_iff_right ?_
      rintro ⟨ha, hy⟩
      exact hno y o' topic' ha hy
    obtain hsubs | ⟨z, hz, hsubs⟩ := hsubs
    · refine ⟨?_, ?_, ?_, hphase⟩
      · rw [hsubs]
        exact hI.nodup
      · intro o' topic' y hy
        rw [hsubs] at hy
        exact hins.mpr (hI.inserted o' topic' y hy)
      · intro o' topic' y hy hi
        rw [hsubs]
        exact hI.kept o' topic' y (hrank hy) (hins.mp hi)
    · refine ⟨?_, ?_, ?_, hphase⟩
      · intro o' topic'
        rw [hsubs]
        exact (hI.nodup o' topic').filter _
      · intro o' topic' y hy
        rw [hsubs] at hy
        exact hins.mpr (hI.inserted o' topic' y (List.mem_of_mem_filter hy))
      · intro o' topic' y hy hi
        rw [hsubs]
        -- the client whose cleanup this is has been removed from `clients` before
        have hyz : y ≠ z := by
          rintro rfl
          have hle := hrank hy
          rw [hz] at hle
          exact absurd hle (by decide)
        exact List.mem_filter.mpr ⟨hI.kept o' topic' y (hrank hy) (hins.mp hi), decide_eq_true hyz⟩

section Runs
variable {ok : World Broker BrokerStep → Action → Prop}

theorem subscriptionsInserted (h : broker.recorded.RunWhere ok w) : SubscriptionsInserted w := by
  refine h.invariant ?_ ?_
  · rintro _ ⟨items, rfl⟩
    exact ⟨fun _ _ => List.nodup_nil, nofun, nofun, fun _ => trivial⟩
  · intro w a w' hr hI _ hn
    exact hI.next (recorded_lifecycle hr) hn

end Runs

end Broker
end IpcBroker
