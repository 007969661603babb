import IpcBroker.Broker.DeliveredOnce
import IpcBroker.Deployment.Links
import IpcBroker.Foundation.RemoteCalls

/-! The broker and its workers as a service of remote calls: whatever the order of their steps, a call
is executed at most once, its caller gets at most one answer, and the answer is the value that the
call was executed with or the error of a call that never is. -/

namespace IpcBroker.Deployment
open Function Foundation

abbrev RemoteEvent : Type := CallEvent ClientId CallId Call Value

/-- What the broker does for a call: it reads the call, and writes the answer to the connection of
the caller. -/
def remoteOf? : IpcBroker.Event → Option RemoteEvent
  | .received x (.request (.call k)) => some (.made x k.callId k)
  | .delivered x (.response (.result c _ v)) => some (.returned x c v)
  | .delivered x (.response (.error (some c) _ _)) => some (.refused x c)
  | _ => none

def Event.remote? : Event → Option RemoteEvent
  | .broker e => remoteOf? e
  | .executed x k v => some (.executed x k.callId k v)

variable {T : Setup} {s s' : Deployment} {a : Action} {es tr : List Event} {x y z : ClientId}
  {k k' : Call} {c : CallId} {v u : Value} {w w' : World Deployment Event}

/-! Runs with the calls and answers in them. -/

theorem calls_once (h : (deployment T).RunWhere (Orderly T) w) (c : CallId) :
    (brokerWorld w).trace.countP (IpcBroker.Event.enqueues (Packet.calls c)) ≤ 1 :=
  (Broker.callCopies_atMostOne Broker.honestRun_fresh (honest_run h) c).le_one .sent

theorem answers_once (h : (deployment T).RunWhere (Orderly T) w) (c : CallId) :
    (brokerWorld w).trace.countP (IpcBroker.Event.enqueues (Packet.answers c)) ≤ 1 :=
  (Broker.answerCopies_atMostOne Broker.honestRun_fresh Broker.honestRun_answers (honest_run h)
    c).le_one .answered

theorem executed_delivered (h : (deployment T).RunWhere (Orderly T) w)
    (he : Event.executed x k v ∈ w.trace) :
    IpcBroker.Event.delivered x (.request (.call k)) ∈ (brokerWorld w).trace :=
  mem_broker.mpr ((linksInv h).executed x k v he)

theorem executed_unique (h : (deployment T).RunWhere (Orderly T) w)
    (hx : Event.executed x k v ∈ w.trace) (hz : Event.executed z k' u ∈ w.trace)
    (hid : k.callId = k'.callId) : x = z ∧ k = k' := by
  obtain ⟨rfl, hk⟩ := Broker.delivered_unique (honest_run h) (calls_once h k.callId)
    (executed_delivered h hx) (executed_delivered h hz) (Broker.calls_self k)
    (hid ▸ Broker.calls_self k')
  cases hk
  exact ⟨rfl, rfl⟩

theorem executed_once (h : (deployment T).RunWhere (Orderly T) w) (x : ClientId) (c : CallId) :
    w.trace.countP (Event.executes x c) ≤ 1 :=
  calc w.trace.countP (Event.executes x c)
      ≤ (deliveredTo (brokerWorld w).trace x).countP (Packet.calls c) :=
        (Nat.le_add_right _ _).trans ((linksInv h).once x c)
    _ ≤ (brokerWorld w).trace.countP (IpcBroker.Event.enqueues (Packet.calls c)) :=
        Broker.countP_deliveredTo_le (honest_run h) x
    _ ≤ 1 := calls_once h c

theorem result_executed (h : (deployment T).RunWhere (Orderly T) w) {o : String}
    (hd : IpcBroker.Event.delivered y (.response (.result c o v)) ∈ (brokerWorld w).trace) :
    ∃ z k, Event.executed z k v ∈ w.trace ∧ k.callId = c ∧ k.objectName = o ∧
      Issued (brokerWorld w).trace y k := by
  have hr := honest_run h
  have hS := Broker.sources hr
  obtain ⟨site, z, he⟩ := hS.delivered y _ hd
  obtain rfl := Broker.result_forwarded hr he
  obtain ⟨⟨k₀, hk₀, hid₀⟩, ⟨-, hrec⟩ | ⟨hsite, -⟩⟩ := hS.enqueued _ z y _ he c rfl
  swap
  · cases hsite
  obtain ⟨k, v', heq, hexec⟩ := (linksInv h).received z _ (mem_broker.mp hrec)
  cases heq
  obtain ⟨site', z', he'⟩ := hS.delivered z _ (executed_delivered h hexec)
  obtain ⟨x, k', hkk, hk'⟩ := hS.enqueued site' z' z _ he'
  cases hkk
  obtain ⟨rfl, rfl⟩ := Broker.issued_unique Broker.honestRun_fresh hr hk' hk₀ hid₀.symm
  exact ⟨z, _, hexec, rfl, rfl, hk₀⟩

theorem error_refused (h : (deployment T).RunWhere (Orderly T) w) {o message : String}
    (hd : IpcBroker.Event.delivered y (.response (.error (some c) o message)) ∈
      (brokerWorld w).trace) :
    ForCaller (brokerWorld w).trace y c ∧ RefusedCall (brokerWorld w).trace y c := by
  have hS := Broker.sources (honest_run h)
  obtain ⟨site, z, he⟩ := hS.delivered y _ hd
  obtain ⟨hcaller, ⟨-, hrec⟩ | ⟨-, href⟩⟩ := hS.enqueued _ z y _ he c rfl
  · obtain ⟨k, v, heq, -⟩ := (linksInv h).received z _ (mem_broker.mp hrec)
    cases heq
  · exact ⟨hcaller, href⟩

theorem refused_not_executed (h : (deployment T).RunWhere (Orderly T) w)
    (href : RefusedCall (brokerWorld w).trace y k.callId) : Event.executed x k v ∉ w.trace := by
  intro hexec
  obtain ⟨k', hid, hk'⟩ := href
  have hone := Broker.callCopies_atMostOne Broker.honestRun_fresh (honest_run h) k.callId
  have hrefused : 0 < callCopies (brokerWorld w) k.callId .refused :=
    List.countP_pos_iff.mpr ⟨_, hk', decide_eq_true hid⟩
  have hzero := hone.eq_zero hrefused (q := .sent) nofun
  have hsent := Broker.sent_of_delivered (Broker.sources (honest_run h)) rfl (executed_delivered h hexec)
  simp only [callCopies] at hzero
  omega

/-! The refinement. -/

theorem mem_remote {e : RemoteEvent} :
    e ∈ tr.filterMap Event.remote? ↔ ∃ e' ∈ tr, e'.remote? = some e := List.mem_filterMap

theorem made_iff : .made x c k ∈ tr.filterMap Event.remote? ↔
    c = k.callId ∧ Event.broker (.received x (.request (.call k))) ∈ tr := by
  rw [mem_remote]
  constructor
  · rintro ⟨e, he, hr⟩
    unfold Event.remote? remoteOf? at hr
    split at hr
    · split at hr <;> cases hr
      exact ⟨rfl, he⟩
    · cases hr
  · rintro ⟨rfl, he⟩
    exact ⟨_, he, rfl⟩

theorem executed_iff : .executed z c k v ∈ tr.filterMap Event.remote? ↔
    c = k.callId ∧ Event.executed z k v ∈ tr := by
  rw [mem_remote]
  constructor
  · rintro ⟨e, he, hr⟩
    unfold Event.remote? remoteOf? at hr
    split at hr
    · split at hr <;> cases hr
    · cases hr
      exact ⟨rfl, he⟩
  · rintro ⟨rfl, he⟩
    exact ⟨_, he, rfl⟩

theorem returned_iff : .returned x c v ∈ tr.filterMap Event.remote? ↔
    ∃ o, Event.broker (.delivered x (.response (.result c o v))) ∈ tr := by
  rw [mem_remote]
  constructor
  · rintro ⟨e, he, hr⟩
    unfold Event.remote? remoteOf? at hr
    split at hr
    · split at hr <;> cases hr
      exact ⟨_, he⟩
    · cases hr
  · rintro ⟨o, he⟩
    exact ⟨_, he, rfl⟩

theorem refused_iff : .refused x c ∈ tr.filterMap Event.remote? ↔
    ∃ o message, Event.broker (.delivered x (.response (.error (some c) o message))) ∈ tr := by
  rw [mem_remote]
  constructor
  · rintro ⟨e, he, hr⟩
    unfold Event.remote? remoteOf? at hr
    split at hr
    · split at hr <;> cases hr
      exact ⟨_, _, he⟩
    · cases hr
  · rintro ⟨o, message, he⟩
    exact ⟨_, he, rfl⟩

theorem broker_one {b b' : Broker} {act : IpcBroker.Action} {es : List IpcBroker.Event}
    {e : IpcBroker.Event} {r : RemoteEvent} (h : Broker.Transition b act b' es) (he : e ∈ es)
    (hr : remoteOf? e = some r) : es = [e] := by
  unfold remoteOf? at hr
  split at hr
  · exact (h.received he).2.1
  · exact h.written he
  · exact h.written he
  · cases hr

theorem Transition.remote_one (h : Transition T s a s' es) :
    es.filterMap Event.remote? = [] ∨ ∃ r, es.filterMap Event.remote? = [r] := by
  have hbroker : ∀ {act b es'}, s.broker.step act = some (b, es') →
      (es'.map Event.broker).filterMap Event.remote? = [] ∨
        ∃ r, (es'.map Event.broker).filterMap Event.remote? = [r] := by
    intro act b es' hb
    rw [List.filterMap_map]
    by_cases hex : ∃ e ∈ es', ∃ r, remoteOf? e = some r
    · obtain ⟨e, he, r, hr⟩ := hex
      rw [broker_one (Broker.step_transition hb) he hr]
      exact .inr ⟨r, by simp [Event.remote?, hr]⟩
    · refine .inl (List.filterMap_eq_nil_iff.mpr fun e he => ?_)
      exact Option.eq_none_iff_forall_ne_some.mpr fun r hr => hex ⟨e, he, r, hr⟩
  cases h with
  | broker ha hb | readerLoop hd hb | writerLoop hm hb => exact hbroker hb
  | @work x value fault objects data =>
    cases Worker.knownCall T.text.worker objects data with
    | none => exact .inl rfl
    | some k => exact .inr ⟨_, rfl⟩
  | _ => exact .inl rfl

theorem executed_new (h : (deployment T).RunWhere (Orderly T) w) (htr : w.trace = es ++ tr)
    (he : Event.executed x k v ∈ es) (z : ClientId) (k' : Call) (u : Value)
    (hid : k'.callId = k.callId) : Event.executed z k' u ∉ tr := by
  intro hold
  obtain ⟨rfl, rfl⟩ := executed_unique h (htr ▸ List.mem_append_left tr he)
    (htr ▸ List.mem_append_right es hold) hid.symm
  have hone := executed_once h x k.callId
  have hes : 0 < es.countP (Event.executes x k.callId) :=
    List.countP_pos_iff.mpr ⟨_, he, executes_iff.mpr ⟨k, v, rfl, rfl⟩⟩
  have hbefore : 0 < tr.countP (Event.executes x k.callId) :=
    List.countP_pos_iff.mpr ⟨_, hold, executes_iff.mpr ⟨k, u, rfl, rfl⟩⟩
  rw [htr, List.countP_append] at hone
  omega

theorem answered_new (h : (deployment T).RunWhere (Orderly T) w) (htr : w.trace = es ++ tr)
    {resp resp' : RpcResponse} (he : Event.broker (.delivered x (.response resp)) ∈ es)
    (hc : resp.callId? = some c) (hc' : resp'.callId? = some c) :
    Event.broker (.delivered y (.response resp')) ∉ tr := by
  intro hold
  have hone := Broker.delivered_once (honest_run h) (answers_once h c)
  have hes : 0 < (es.filterMap Event.broker?).countP (IpcBroker.Event.delivers (Packet.answers c)) :=
    List.countP_pos_iff.mpr ⟨_, mem_broker.mpr he, decide_eq_true hc⟩
  have hbefore : 0 < (tr.filterMap Event.broker?).countP (IpcBroker.Event.delivers (Packet.answers c)) :=
    List.countP_pos_iff.mpr ⟨_, mem_broker.mpr hold, decide_eq_true hc'⟩
  rw [brokerWorld, htr, List.filterMap_append, List.countP_append] at hone
  omega

section Next
variable {t : World (CallId → Option (CallStatus ClientId Call Value)) RemoteEvent}

theorem made_before {r : RemoteEvent} (htr : w.trace = es ++ tr)
    (hes : es.filterMap Event.remote? = [r]) (hr : r ≠ .made x k.callId k)
    (hk : Issued (brokerWorld w).trace x k) :
    .made x k.callId k ∈ tr.filterMap Event.remote? := by
  refine made_iff.mpr ⟨rfl, ?_⟩
  have hin := mem_broker.mp hk
  rw [htr] at hin
  obtain hin | hin := List.mem_append.mp hin
  · have hshown : .made x k.callId k ∈ es.filterMap Event.remote? := made_iff.mpr ⟨rfl, hin⟩
    rw [hes] at hshown
    exact absurd (List.mem_singleton.mp hshown).symm hr
  · exact hin

theorem made_next (hfresh : k.callId ∉ callIds (tr.filterMap Event.broker?))
    (ht : (remoteCalls ClientId CallId Call Value).Run t)
    (hR : t.trace = tr.filterMap Event.remote?) :
    CallStatus.next (t.state k.callId) (.made x k.callId k) = some (.made x k) := by
  have hnone : t.state k.callId = none := by
    refine status_none ht fun y k' hold => ?_
    rw [hR] at hold
    obtain ⟨hid, hold⟩ := made_iff.mp hold
    exact hfresh (hid ▸ Issued.mem_callIds (mem_broker.mpr hold))
  simp only [hnone, CallStatus.next]

theorem executed_next (h : (deployment T).RunWhere (Orderly T) w) (htr : w.trace = es ++ tr)
    (ht : (remoteCalls ClientId CallId Call Value).Run t)
    (hR : t.trace = tr.filterMap Event.remote?)
    (hes : es.filterMap Event.remote? = [.executed z k.callId k v])
    (he : Event.executed z k v ∈ es) :
    ∃ x, CallStatus.next (t.state k.callId) (.executed z k.callId k v) = some (.executed x k z v) := by
  obtain ⟨site, y, henq⟩ := Broker.delivered_enqueued (honest_run h)
    (executed_delivered h (htr ▸ List.mem_append_left tr he))
  obtain ⟨x, k', hkk, hissued⟩ := (Broker.sources (honest_run h)).enqueued site y z _ henq
  cases hkk
  have hmade := made_before htr hes (fun h => by cases h) hissued
  have hstatus : t.state k.callId = some (.made x k) := by
    refine status_made ht (hR ▸ hmade) ?_ ?_
    · intro z' k' u hold
      rw [hR] at hold
      obtain ⟨hid, hold⟩ := executed_iff.mp hold
      exact executed_new h htr he z' k' u hid.symm hold
    · intro y hold
      rw [hR] at hold
      obtain ⟨o, message, hold⟩ := refused_iff.mp hold
      have hin : Event.broker (.delivered y (.response (.error (some k.callId) o message))) ∈
          w.trace := htr ▸ List.mem_append_right es hold
      exact refused_not_executed h (error_refused h (mem_broker.mpr hin)).2
        (htr ▸ List.mem_append_left tr he)
  exact ⟨x, by simp only [hstatus, CallStatus.next, if_true]⟩

theorem returned_next {o : String} (h : (deployment T).RunWhere (Orderly T) w)
    (htr : w.trace = es ++ tr) (ht : (remoteCalls ClientId CallId Call Value).Run t)
    (hR : t.trace = tr.filterMap Event.remote?)
    (hes : es.filterMap Event.remote? = [.returned y c v])
    (he : Event.broker (.delivered y (.response (.result c o v))) ∈ es) :
    ∃ z k, CallStatus.next (t.state c) (.returned y c v) = some (.returned y k z v) := by
  have hin : Event.broker (.delivered y (.response (.result c o v))) ∈ w.trace :=
    htr ▸ List.mem_append_left tr he
  obtain ⟨z, k, hexec, rfl, -, hissued⟩ := result_executed h (mem_broker.mpr hin)
  have hold : Event.executed z k v ∈ tr := by
    rw [htr] at hexec
    obtain hexec | hexec := List.mem_append.mp hexec
    · have hshown : .executed z k.callId k v ∈ es.filterMap Event.remote? :=
        executed_iff.mpr ⟨rfl, hexec⟩
      rw [hes] at hshown
      cases List.mem_singleton.mp hshown
    · exact hexec
  have hret : ∀ x u, .returned x k.callId u ∉ t.trace := by
    intro x u hret
    rw [hR] at hret
    obtain ⟨o', hret⟩ := returned_iff.mp hret
    exact answered_new h htr he rfl rfl hret
  obtain ⟨x, hmade, hstatus⟩ := status_executed ht (hR ▸ executed_iff.mpr ⟨rfl, hold⟩) hret
  rw [hR] at hmade
  have hmade : Issued (brokerWorld w).trace x k :=
    mem_broker.mpr (htr ▸ List.mem_append_right es (made_iff.mp hmade).2)
  obtain ⟨rfl, -⟩ := Broker.issued_unique Broker.honestRun_fresh (honest_run h) hmade hissued rfl
  exact ⟨z, k, by simp only [hstatus, CallStatus.next, and_self, if_true]⟩

theorem refused_next {o message : String} (h : (deployment T).RunWhere (Orderly T) w)
    (htr : w.trace = es ++ tr) (ht : (remoteCalls ClientId CallId Call Value).Run t)
    (hR : t.trace = tr.filterMap Event.remote?)
    (hes : es.filterMap Event.remote? = [.refused y c])
    (he : Event.broker (.delivered y (.response (.error (some c) o message))) ∈ es) :
    ∃ k, CallStatus.next (t.state c) (.refused y c) = some (.refused y k) := by
  have hin : Event.broker (.delivered y (.response (.error (some c) o message))) ∈ w.trace :=
    htr ▸ List.mem_append_left tr he
  obtain ⟨⟨k, hissued, rfl⟩, href⟩ := error_refused h (mem_broker.mpr hin)
  have hmade := made_before htr hes (fun h => by cases h) hissued
  have hstatus : t.state k.callId = some (.made y k) := by
    refine status_made ht (hR ▸ hmade) ?_ ?_
    · intro z k' u hold
      rw [hR] at hold
      obtain ⟨hid, hold⟩ := executed_iff.mp hold
      exact refused_not_executed h (hid ▸ href) (htr ▸ List.mem_append_right es hold)
    · intro x hold
      rw [hR] at hold
      obtain ⟨o', message', hold⟩ := refused_iff.mp hold
      exact answered_new h htr he rfl rfl hold
  exact ⟨k, by simp only [hstatus, CallStatus.next, if_true]⟩

theorem remote_next {r : RemoteEvent} (h : (deployment T).RunWhere (Orderly T) w)
    (htr : w.trace = es ++ tr)
    (hfresh : ∀ x k, Event.broker (.received x (.request (.call k))) ∈ es →
      k.callId ∉ callIds (tr.filterMap Event.broker?))
    (ht : (remoteCalls ClientId CallId Call Value).Run t)
    (hR : t.trace = tr.filterMap Event.remote?) (hes : es.filterMap Event.remote? = [r]) :
    ∃ st, CallStatus.next (t.state r.id) r = some st := by
  have hmem : r ∈ es.filterMap Event.remote? := hes ▸ List.mem_singleton_self r
  cases r with
  | made x c k =>
    obtain ⟨rfl, he⟩ := made_iff.mp hmem
    exact ⟨_, made_next (hfresh x k he) ht hR⟩
  | executed z c k v =>
    obtain ⟨rfl, he⟩ := executed_iff.mp hmem
    obtain ⟨x, hnext⟩ := executed_next h htr ht hR hes he
    exact ⟨_, hnext⟩
  | returned y c v =>
    obtain ⟨o, he⟩ := returned_iff.mp hmem
    obtain ⟨z, k, hnext⟩ := returned_next h htr ht hR hes he
    exact ⟨_, hnext⟩
  | refused y c =>
    obtain ⟨o, message, he⟩ := refused_iff.mp hmem
    obtain ⟨k, hnext⟩ := refused_next h htr ht hR hes he
    exact ⟨_, hnext⟩

end Next

theorem exists_remote (h : (deployment T).RunWhere (Orderly T) w) :
    ∃ t, (remoteCalls ClientId CallId Call Value).Run t ∧
      t.trace = w.trace.filterMap Event.remote? := by
  refine h.simulated (N := remoteCalls ClientId CallId Call Value) (C := fun _ _ => True)
    (R := fun w t => t.trace = w.trace.filterMap Event.remote?) ?_ ?_
  · rintro _ -
    exact ⟨_, rfl, rfl⟩
  · intro w a w' t hr ht hR hok hn
    obtain ⟨es, hstep, htr⟩ := next_transition hn
    obtain hes | ⟨r, hes⟩ := hstep.remote_one
    · exact ⟨t, .stay, by rw [htr, List.filterMap_append, hes]; exact hR⟩
    · have hfresh : ∀ x k, Event.broker (.received x (.request (.call k))) ∈ es →
          k.callId ∉ callIds (w.trace.filterMap Event.broker?) := by
        intro x k he
        obtain ⟨-, hnil⟩ | ⟨b, hact, hb⟩ := hstep.brokerStep
        · exact absurd (mem_broker.mpr he) (hnil ▸ List.not_mem_nil)
        · obtain ⟨rfl, -, -⟩ := (Broker.step_transition hb).received (mem_broker.mpr he)
          exact of_decide_eq_true (hok.fresh _ hact)
      obtain ⟨st, hst⟩ := remote_next (.step hr hok hn) htr hfresh ht hR hes
      refine ⟨_, .step trivial (remoteCalls_next hst), ?_⟩
      rw [htr, List.filterMap_append, hes, hR]
      rfl

/-- Every run of the broker with its workers, in which call ids are distinct and `serde_json` reads
what it writes, shows a run of the service of remote calls: what happens to each call is the course
of one of its states there. -/
theorem remote_calls_refined (h : (deployment T).RunWhere (Orderly T) w) :
    ∃ t, (remoteCalls ClientId CallId Call Value).Run t ∧
      t.trace = w.trace.filterMap Event.remote? ∧
      ∀ c, callCourse c (w.trace.filterMap Event.remote?) = CallStatus.course c (t.state c) := by
  obtain ⟨t, ht, htr⟩ := exists_remote h
  exact ⟨t, ht, htr, fun c => htr ▸ course_eq ht c⟩

/-! A worker is asked once, and answers. -/

def messages : List Packet :=
  [.request (.registerObject "o"), .response (.registered "o"),
    .request (.call (Broker.callOf "1" "o")), .response (.result ⟨"1"⟩ "o" (.bool true))]

def known : Packet → Bool
  | .request (.registerObject "o") | .response (.registered "o")
  | .request (.call ⟨⟨"1"⟩, "o", "method", .null⟩)
  | .response (.result ⟨"1"⟩ "o" (.bool true)) => true
  | _ => false

def oneWorker : Setup where
  text := compactJson (fun _ => []) fun data =>
    (messages.map Packet.serialize).find? fun v => v.text (fun _ => []) = data
  objects x := if x = Broker.workerA then some ["o"] else none

theorem known_inverts {p : Packet} (h : known p = true) : oneWorker.text.Inverts p := by
  unfold known at h
  split at h
  · rfl
  · rfl
  · rfl
  · rfl
  · cases h

def orderlyTest (w : World Deployment Event) (a : Action) : Bool :=
  (wire oneWorker w.state a).all known &&
    (brokerAction? oneWorker w.state a).all (Broker.freshCall (brokerWorld w))

theorem orderly_of_test (w : World Deployment Event) (a : Action) (h : orderlyTest w a = true) :
    Orderly oneWorker w a := by
  obtain ⟨hknown, hfresh⟩ := (Bool.and_eq_true _ _).mp h
  refine ⟨fun p hp => known_inverts (List.all_eq_true.mp hknown p hp), fun b hb => ?_⟩
  rw [hb] at hfresh
  exact hfresh

def handlers (x : ClientId) (n : Nat) : List Action := List.replicate n (.broker (.handler x))

def callServed : List Action :=
  [.broker (.connect Broker.workerA), .broker (.connect Broker.callerC),
    .register Broker.workerA none, .readerLoop Broker.workerA] ++ handlers Broker.workerA 4 ++
    [.request Broker.callerC (.call (Broker.callOf "1" "o")), .readerLoop Broker.callerC] ++
    handlers Broker.callerC 3 ++ [.writerLoop Broker.workerA, .work Broker.workerA .null none,
    .writerLoop Broker.workerA, .work Broker.workerA (.bool true) none,
    .readerLoop Broker.workerA] ++ handlers Broker.workerA 2 ++ [.writerLoop Broker.callerC]

def returnsTo (x : ClientId) (c : CallId) : Event → Bool
  | .broker (.delivered y (.response (.result c' _ (.bool true)))) => y = x && c' = c
  | _ => false

theorem returned_of_any (h : tr.any (returnsTo x c) = true) :
    .returned x c (.bool true) ∈ tr.filterMap Event.remote? := by
  obtain ⟨e, he, hret⟩ := List.any_eq_true.mp h
  unfold returnsTo at hret
  split at hret
  · next y c' o =>
    rw [Bool.and_eq_true, decide_eq_true_eq, decide_eq_true_eq] at hret
    obtain ⟨rfl, rfl⟩ := hret
    exact returned_iff.mpr ⟨o, he⟩
  · cases hret

theorem remote_calls_refined_callServed :
    ∃ w t, (deployment oneWorker).exec (fun w a => orderlyTest w a = true)
        ⟨initial oneWorker [], []⟩ callServed = some w ∧
      (remoteCalls ClientId CallId Call Value).Run t ∧
      t.trace = w.trace.filterMap Event.remote? ∧
      .returned Broker.callerC ⟨"1"⟩ (.bool true) ∈ t.trace := by
  obtain ⟨w, hr, he, ht⟩ := System.RunWhere.of_exec_any (deployment oneWorker)
    (fun w a => orderlyTest w a = true) callServed
    (fun w => w.trace.any (returnsTo Broker.callerC ⟨"1"⟩)) ⟨[], rfl⟩ (by decide)
  obtain ⟨t, hrun, htr, -⟩ := remote_calls_refined (hr.mono orderly_of_test)
  exact ⟨w, t, he, hrun, htr, htr ▸ returned_of_any ht⟩

end IpcBroker.Deployment
