import IpcBroker.Broker.CallCopies
import IpcBroker.Broker.CallHistory

/-! A queued call stays in its queue until a registration of the object takes it out and sends
it, once, to the client that registered, or until its caller leaves; unless the cleanup of
another client meets a queued call it does not know, or in a service it owned. -/

namespace IpcBroker
open Function Foundation

/-- Client `z` is handling its registration of the object of `k`, and has taken `k` from the
queue by it. -/
def Flushes (tr : List Event) (z : ClientId) (k : Call) : Prop :=
  ∃ seg flushed, handled z tr = some (.request (.registerObject k.objectName), seg) ∧
    Event.running z k.objectName flushed ∈ seg ∧ RpcRequest.call k ∈ flushed

theorem Flushes.append {es tr : List Event} {z : ClientId} {k : Call} (h : Flushes tr z k)
    (hes : ∀ e ∈ es, e.packetOf? z = none) :
    Flushes (es ++ tr) z k := by
  obtain ⟨seg, flushed, hh, hrun, hk⟩ := h
  refine ⟨es ++ seg, flushed, ?_, List.mem_append_right _ hrun, hk⟩
  rw [handled, lastOf_append hes, ← handled, hh]
  rfl

namespace Broker

/-- A cleanup at its service section knows every queued call of a client that is connected, and
did not own the service that holds it. -/
def leaverKeeps (w : World Broker Event) : Action → Bool
  | .cleanup x =>
    match w.state.phase x with
    | .cleaning (.services activeCalls) =>
      w.trace.all fun
        | .queued y k _ =>
          !(w.state.phase y).connected || (w.state.services k.objectName).all fun e =>
            !(e.pendingCalls.any fun r => (Packet.request r).calls k.callId) ||
              (e.owner ≠ some x && activeCalls k.callId)
        | _ => true
    | _ => true
  | _ => true

/-- Where a call `k` of `x` is that has been queued. -/
inductive QueuedPlace (w : World Broker Event) (x : ClientId) (k : Call) : Prop
  | callerLeft (h : (w.state.phase x).connected = false)
  | waiting (hq : callCopies w k.callId (.queue k.objectName) = 1)
      (hs : callCopies w k.callId .sent = 0)
  | flushing (z : ClientId) (hz : Flushes w.trace z k)
      (hq : callCopies w k.callId (.queue k.objectName) = 0)
      (hm : callCopies w k.callId (.task z) = 1) (hs : callCopies w k.callId .sent = 0)
  | sent (z : ClientId) (tr : List Event)
      (he : Event.enqueued .sendToClient z z (.request (.call k)) :: tr <:+ w.trace)
      (hz : Flushes tr z k) (hq : callCopies w k.callId (.queue k.objectName) = 0)
      (hs : callCopies w k.callId .sent = 1)

variable {s s' : Broker} {a : Action} {es tr : List Event} {x y z : ClientId} {k : Call}
  {w w' : World Broker Event}

/-- Where a queued call is, told by what holds it; that it is there only once comes from the
count of its copies. -/
inductive QueuedHolder (w : World Broker Event) (x : ClientId) (k : Call) : Prop
  | callerLeft (h : 2 ≤ (w.state.phase x).rank)
  | waiting (e : ServiceEntry) (he : w.state.services k.objectName = some e)
      (hk : RpcRequest.call k ∈ e.pendingCalls)
  | flushing (z : ClientId) (hz : Flushes w.trace z k)
      (hm : Packet.request (.call k) ∈ (w.state.phase z).messages)
  | sent (z : ClientId) (tr : List Event)
      (he : Event.enqueued .sendToClient z z (.request (.call k)) :: tr <:+ w.trace)
      (hz : Flushes tr z k)

def RegistrationSent (w : World Broker Event) : Prop :=
  ∀ z o, w.state.phase z = .handling (.registerObjects o) ∨
      w.state.phase z = .handling (.registerServices o) →
    ∃ seg, handled z w.trace = some (.request (.registerObject o), seg)

theorem handled_kept {p : Packet} {seg : List Event} (h : Transition s a s' es)
    (hnr : s.phase z ≠ .reading) (hh : handled z tr = some (p, seg)) : handled z (es ++ tr) = some (p, es ++ seg) := by
  rw [handled, lastOf_append (h.packetOf fun p hp => ?_), ← handled, hh]
  · rfl
  · subst hp
    exact hnr h.at_receive

theorem registrationSent {ok : World Broker Event → Action → Prop} (h : broker.RunWhere ok w) :
    RegistrationSent w := by
  refine h.invariant ?_ ?_
  · rintro _ ⟨items, rfl⟩ z o hz
    obtain hz | hz := hz <;> cases hz
  · intro w a w' hr hI _ hn z o hz
    obtain ⟨es, ht, htr⟩ := next_transition hn
    have hold : w.state.phase z = .handling (.registerObjects o) ∨
        w.state.phase z = .handling (.registerServices o) →
        ∃ seg, handled z w'.trace = some (.request (.registerObject o), seg) := by
      intro hp
      obtain ⟨seg, hh⟩ := hI z o hp
      have hnr : w.state.phase z ≠ .reading := by
        obtain hp | hp := hp <;> rw [hp] <;> nofun
      exact ⟨es ++ seg, htr ▸ handled_kept ht hnr hh⟩
    obtain hz | hz := hz
    · obtain hp | hby := ht.entered rfl hz
      · exact hold (.inl hp)
      · generalize hp : Phase.handling (.registerObjects o) = p at hby
        cases hby with
        | receive hrd hd =>
          cases hp
          obtain ⟨r, rfl, hpc⟩ | ⟨resp, c, -, -, hpc⟩ := dispatch_cases hd
          · cases r <;> cases hpc
            refine ⟨[], ?_⟩
            rw [htr]
            exact lastOf_cons_some (if_pos rfl)
          · cases hpc
        | @callRoute k' workerId' workerTx' =>
          obtain ⟨w, tx, -, -, hroute⟩ | ⟨-, hroute⟩ := route_cases k' workerId' workerTx' <;>
            rw [hroute] at hp <;> cases hp
        | _ => cases hp
    · obtain hp | ⟨hp, -⟩ := ht.entered_registerServices hz
      · exact hold (.inr hp)
      · exact hold (.inl hp)

theorem messages_step {m : Packet} (hL : Lifecycle s) (h : Transition s a s' es)
    (hm : m ∈ (s.phase z).messages) :
    m ∈ (s'.phase z).messages ∨ es = [.enqueued .sendToClient z z m] := by
  by_cases hsame : s'.phase z = s.phase z
  · exact .inl (hsame ▸ hm)
  · have hmover := h.mover hsame
    have hpc : ∃ msg rest, m ∈ msg :: rest ∧ (s.phase z = .handling (.sendLookup msg rest) ∨
        ∃ tx, s.phase z = .handling (.sendAwait tx msg rest)) := by
      unfold Phase.messages at hm
      split at hm
      · next msg rest hp => exact ⟨msg, rest, hm, .inl hp⟩
      · next tx msg rest hp => exact ⟨msg, rest, hm, .inr ⟨tx, hp⟩⟩
      · cases hm
    obtain ⟨msg, rest, hm, hp⟩ := hpc
    cases h with
    | sendLookup hx hc =>
      cases hmover
      obtain hp | ⟨tx, hp⟩ := hp <;> cases hp.symm.trans hx
      left
      rw [goto_phase, update_self]
      exact hm
    | sendLookupGone hx hc =>
      cases hmover
      rw [hL.clients z, hx] at hc
      cases hc
    | send hx hs =>
      cases hmover
      obtain hp | ⟨tx, hp⟩ := hp <;> cases hp.symm.trans hx <;> cases hs
      obtain rfl | hm := List.mem_cons.mp hm
      · right
        rw [hL.ownTx z _ _ _ hx]
      · left
        rw [goto_phase, update_self, messages_afterSends]
        exact hm
    | sendFailed hx hs hended =>
      cases hmover
      obtain hp | ⟨tx, hp⟩ := hp <;> cases hp.symm.trans hx <;> cases hs
      rw [hL.ownTx z _ _ _ hx, hx] at hended
      cases hended
    | receiveInvalid | receiveIdle | write | writeError | stopWriter | spawnEnd =>
      exact absurd rfl hsame
    | _ =>
      have hx := ‹s.phase _ = _›
      cases hmover
      obtain hp | ⟨tx, hp⟩ := hp <;> cases hp.symm.trans hx

theorem queue_step {o : String} {e : ServiceEntry} {r : RpcRequest} (h : Transition s a s' es)
    (he : s.services o = some e) (hr : r ∈ e.pendingCalls) :
    (∃ e', s'.services o = some e' ∧ r ∈ e'.pendingCalls) ∨
      (∃ z flushed, s.phase z = .handling (.registerServices o) ∧
        es = [.running z o flushed] ∧ r ∈ flushed ∧ Packet.request r ∈ (s'.phase z).messages) ∨
      ∃ z activeCalls, a = .cleanup z ∧ s.phase z = .cleaning (.services activeCalls) ∧
        (e.owner = some z ∨ keepPending activeCalls r = false) := by
  obtain ⟨hsame, -⟩ | ⟨z, p, hs, hp⟩ := h.services o
  · exact .inl ⟨e, hsame.trans he, hr⟩
  · generalize s'.services o = v at hs
    cases hs with
    | registered hz he' =>
      cases he.symm.trans he'
      refine .inr (.inl ⟨z, e.pendingCalls, hz, rfl, hr, ?_⟩)
      rw [hp, update_self, messages_afterSends]
      exact List.mem_append_left _ (List.mem_map_of_mem hr)
    | configured hz =>
      left
      rw [he]
      exact ⟨_, rfl, hr⟩
    | stopped hz ho he' hst | starting hz ho he' hst =>
      cases he.symm.trans he'
      exact .inl ⟨_, rfl, List.mem_append_left _ hr⟩
    | cleaned hz =>
      by_cases hown : e.owner = some z
      · exact .inr (.inr ⟨z, _, rfl, hz, .inl hown⟩)
      · cases hkeep : keepPending _ r with
        | false => exact .inr (.inr ⟨z, _, rfl, hz, .inr hkeep⟩)
        | true =>
          left
          refine ⟨cleanupService z _ e, by rw [he]; rfl, ?_⟩
          unfold cleanupService
          rw [if_neg hown]
          exact List.mem_filter.mpr ⟨hr, hkeep⟩

theorem leaverKeeps_spec {active : CallId → Bool} {left : ServiceState} {e : ServiceEntry}
    (h : leaverKeeps w (.cleanup z) = true) (hz : w.state.phase z = .cleaning (.services active))
    (hq : Event.queued x k left ∈ w.trace) (hx : (w.state.phase x).connected = true)
    (he : w.state.services k.objectName = some e) (hk : RpcRequest.call k ∈ e.pendingCalls) :
    e.owner ≠ some z ∧ active k.callId = true := by
  simp only [leaverKeeps, hz, List.all_eq_true] at h
  have hthis := h _ hq
  have hany : (e.pendingCalls.any fun r => (Packet.request r).calls k.callId) = true :=
    List.any_eq_true.mpr ⟨_, hk, calls_self k⟩
  simpa [hx, he, hany] using hthis

theorem QueuedHolder.step {left : ServiceState} (hI : QueuedHolder w x k) (hL : Lifecycle w.state)
    (hR : RegistrationSent w) (hq : Event.queued x k left ∈ w.trace)
    (hx : 1 ≤ (w.state.phase x).rank) (hok : leaverKeeps w a = true)
    (h : Transition w.state a w'.state es) (htr : w'.trace = es ++ w.trace) :
    QueuedHolder w' x k := by
  by_cases hleft : 2 ≤ (w.state.phase x).rank
  · refine .callerLeft ?_
    have hrank := h.rank x
    omega
  · cases hI with
    | callerLeft h => exact absurd h hleft
    | waiting e he hk =>
      obtain ⟨e', he', hk'⟩ | ⟨z, flushed, hz, rfl, hk', hm⟩ | ⟨z, active, rfl, hz, hdrop⟩ :=
        queue_step h he hk
      · exact .waiting e' he' hk'
      · obtain ⟨seg, hh⟩ := hR z k.objectName (.inr hz)
        refine .flushing z ⟨[.running z k.objectName flushed] ++ seg, flushed, ?_, ?_, hk'⟩ hm
        · rw [htr]
          exact handled_kept h (by rw [hz]; nofun) hh
        · exact List.mem_cons_self
      · have hconnected := connected_iff.mpr (show (w.state.phase x).rank = 1 by omega)
        obtain ⟨hown, hactive⟩ := leaverKeeps_spec hok hz hq hconnected he hk
        obtain hdrop | hdrop := hdrop
        · exact absurd hdrop hown
        · cases hactive.symm.trans hdrop
    | flushing z hz hm =>
      have hnr : w.state.phase z ≠ .reading := by
        intro hr
        rw [hr] at hm
        cases hm
      have hpk : ∀ e ∈ es, e.packetOf? z = none := h.packetOf fun p hp => by
        subst hp
        exact hnr h.at_receive
      obtain hm | rfl := messages_step hL h hm
      · exact .flushing z (htr ▸ hz.append hpk) hm
      · refine .sent z w.trace ?_ hz
        rw [htr]
        exact List.suffix_rfl
    | sent z tr he hz =>
      refine .sent z tr (he.trans ?_) hz
      rw [htr]
      exact List.suffix_append ..

section Kept
variable {ok : World Broker Event → Action → Prop}

theorem queuedHolder (hkeeps : ∀ w a, ok w a → leaverKeeps w a = true)
    (h : broker.RunWhere ok w) {left : ServiceState} (hq : Event.queued x k left ∈ w.trace) :
    QueuedHolder w x k := by
  revert x k left
  refine h.invariant (I := fun w => ∀ {x k left}, Event.queued x k left ∈ w.trace →
    QueuedHolder w x k) nofun ?_
  intro w a w' hr hI hok hn x k left hq
  obtain ⟨es, ht, htr⟩ := next_transition hn
  rw [htr, List.mem_append] at hq
  obtain hq | hq := hq
  · obtain ⟨-, -, -, -, e, he, -, hk⟩ := ht.queued hq
    exact .waiting e he hk
  · exact (hI hq).step (lifecycle hr) (registrationSent hr) hq (queued_rank hr hq)
      (hkeeps w a hok) ht htr

end Kept

/-- Call ids are distinct, and the cleanups know the queued calls. -/
def queuesKept (w : World Broker Event) (a : Action) : Bool := freshCall w a && leaverKeeps w a

theorem queueCopies_pos {e : ServiceEntry} (hk : RpcRequest.call k ∈ e.pendingCalls) :
    0 < queueCopies k.callId (some e) :=
  List.countP_pos_iff.mpr ⟨_, hk, calls_self k⟩

theorem eq_one {n : Nat} (h₁ : n ≤ 1) (h₂ : 0 < n) : n = 1 := by omega

/-- A call that has been queued is in one place: still in the queue, or with the handler of a
client that has just registered the object and has it to send, or sent by such a handler, once;
unless its caller has left. -/
theorem queued_conserved (h : broker.RunWhere (fun w a => queuesKept w a = true) w)
    {left : ServiceState} (hq : Event.queued x k left ∈ w.trace) : QueuedPlace w x k := by
  have hfresh : ∀ w a, queuesKept w a = true → freshCall w a = true := fun w a hok =>
    ((Bool.and_eq_true _ _).mp hok).1
  have hkeeps : ∀ w a, queuesKept w a = true → leaverKeeps w a = true := fun w a hok =>
    ((Bool.and_eq_true _ _).mp hok).2
  have hone := callCopies_atMostOne hfresh h k.callId
  have hholder := queuedHolder hkeeps h hq
  cases hholder with
  | callerLeft hx =>
    refine .callerLeft (Bool.eq_false_iff.mpr fun hc => ?_)
    have := connected_iff.mp hc
    omega
  | waiting e he hk =>
    have hpos : 0 < callCopies w k.callId (.queue k.objectName) := by
      simp only [callCopies, he]
      exact queueCopies_pos hk
    have hsent : CallPlace.sent ≠ .queue k.objectName := fun h => by cases h
    exact .waiting (eq_one (hone.le_one _) hpos) (hone.eq_zero hpos hsent)
  | flushing z hz hm =>
    have hpos : 0 < callCopies w k.callId (.task z) :=
      Nat.lt_of_lt_of_le (List.countP_pos_iff.mpr ⟨_, hm, calls_self k⟩) (Nat.le_add_left _ _)
    have hqueue : CallPlace.queue k.objectName ≠ .task z := fun h => by cases h
    have hsent : CallPlace.sent ≠ .task z := fun h => by cases h
    exact .flushing z hz (hone.eq_zero hpos hqueue) (eq_one (hone.le_one _) hpos)
      (hone.eq_zero hpos hsent)
  | sent z tr he hz =>
    have hpos : 0 < callCopies w k.callId .sent :=
      List.countP_pos_iff.mpr ⟨_, he.subset List.mem_cons_self, calls_self k⟩
    have hqueue : CallPlace.queue k.objectName ≠ .sent := fun h => by cases h
    exact .sent z tr he hz (hone.eq_zero hpos hqueue) (eq_one (hone.le_one _) hpos)

def queues (x : ClientId) (c : CallId) : Event → Bool
  | .queued y k _ => y = x && k.callId = c
  | _ => false

theorem queued_of_any {c : CallId} (h : tr.any (queues x c) = true) :
    ∃ k left, Event.queued x k left ∈ tr ∧ k.callId = c := by
  obtain ⟨e, he, hq⟩ := List.any_eq_true.mp h
  unfold queues at hq
  split at hq
  · next y k left =>
    rw [Bool.and_eq_true, decide_eq_true_eq, decide_eq_true_eq] at hq
    obtain ⟨rfl, hid⟩ := hq
    exact ⟨k, left, he, hid⟩
  · cases hq

def queuedThenRegistered : List Action :=
  [.connect workerA, .connect workerB, .connect callerC] ++
    request callerC (.call (callOf "1" "o")) 4 ++ disconnect workerB ++
    request workerA (.registerObject "o") 6

theorem queued_conserved_registered :
    ∃ w k, broker.exec (fun w a => queuesKept w a = true) ⟨Broker.initial (activationOf "o"), []⟩
        queuedThenRegistered = some w ∧
      callCopies w k.callId .sent = 1 ∧ QueuedPlace w callerC k := by
  obtain ⟨w, hr, he, ht⟩ := System.RunWhere.of_exec_any broker
    (fun w a => queuesKept w a = true) queuedThenRegistered
    (fun w => w.trace.any (queues callerC ⟨"1"⟩) && callCopies w ⟨"1"⟩ .sent = 1)
    ⟨activationOf "o", rfl⟩ (by decide)
  rw [Bool.and_eq_true, decide_eq_true_eq] at ht
  obtain ⟨k, left, hq, hid⟩ := queued_of_any ht.1
  exact ⟨w, k, he, hid ▸ ht.2, queued_conserved hr hq⟩

/-- A call is recorded and queued while another client is between its snapshot of `calls` and
its service section. -/
def queuedPastSnapshot : List Action :=
  [.connect workerB, .connect callerD, .readError workerB, .stopWriter workerB] ++
    List.replicate 5 (.cleanup workerB) ++ request callerD (.call (callOf "1" "o")) 4 ++
    [.cleanup workerB]

theorem queued_past_snapshot_discarded :
    ¬ ∀ w x k left, broker.RunWhere (fun w a => freshCall w a = true) w →
      Event.queued x k left ∈ w.trace → QueuedPlace w x k := by
  intro hall
  obtain ⟨w, hr, -, ht⟩ := System.RunWhere.of_exec_any broker
    (fun w a => freshCall w a = true) queuedPastSnapshot
    (fun w => w.trace.any (queues callerD ⟨"1"⟩) && (w.state.phase callerD).connected &&
      callCopies w ⟨"1"⟩ (.queue "o") = 0 && callCopies w ⟨"1"⟩ .sent = 0 && w.trace.all fun
        | .queued _ k _ => k.objectName = "o"
        | .running _ _ _ => false
        | _ => true)
    ⟨activationOf "o", rfl⟩ (by decide)
  simp only [Bool.and_eq_true, decide_eq_true_eq, List.all_eq_true] at ht
  obtain ⟨⟨⟨⟨hany, hconnected⟩, hqueue⟩, hsent⟩, hevents⟩ := ht
  obtain ⟨k, left, hq, hid⟩ := queued_of_any hany
  have ho : k.objectName = "o" := of_decide_eq_true (hevents _ hq)
  cases hall w callerD k left hr hq with
  | callerLeft hx => cases hconnected.symm.trans hx
  | waiting hone hs =>
    rw [hid, ho, hqueue] at hone
    cases hone
  | flushing z hz _ _ _ =>
    obtain ⟨seg, flushed, hh, hrun, -⟩ := hz
    cases hevents _ (lastOf_subset hh hrun)
  | sent z tr he hz _ hone =>
    rw [hid, hsent] at hone
    cases hone

end Broker
end IpcBroker
