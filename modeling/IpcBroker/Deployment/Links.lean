import IpcBroker.Broker.ChannelOrder
import IpcBroker.Broker.ResponseRouting
import IpcBroker.Deployment.Deployment

/-! What is between the two ends of a connection. A worker sends the values that its objects returned
for the calls written to it, one for each: it is as honest as the routing of responses asks. -/

namespace IpcBroker.Deployment
open Function Foundation

/-- What a client sends: requests, and as a worker what its objects returned. -/
def Genuine (tr : List Event) (x : ClientId) : Packet → Prop
  | .request _ => True
  | .response r => ∃ k v, r = .result k.callId k.objectName v ∧ Event.executed x k v ∈ tr

def Event.executes (x : ClientId) (c : CallId) : Event → Bool
  | .executed y k _ => y = x && k.callId = c
  | .broker _ => false

def wire (T : Setup) (s : Deployment) : Action → List Packet
  | .request _ r => [.request r]
  | .register x _ => (s.unregistered x).head?.toList.map fun name => .request (.registerObject name)
  | .work x value fault =>
    match T.objects x, s.toClient x with
    | some objects, data :: _ =>
      (Worker.handle T.text.worker objects data value fault).1.map .response
    | _, _ => []
  | .writerLoop x => (s.broker.channel x).head?.toList
  | _ => []

/-- What is written can be read, and a call that the broker reads has a new id. -/
structure Orderly (T : Setup) (w : World Deployment Event) (a : Action) : Prop where
  inverts : ∀ p ∈ wire T w.state a, T.text.Inverts p
  fresh : ∀ b, brokerAction? T w.state a = some b → Broker.freshCall (brokerWorld w) b = true

def unread (T : Setup) (s : Deployment) (x : ClientId) : List Packet :=
  (s.toClient x).filterMap T.text.decode

/-- Where packets and values come from; a call written to a client is executed there once at
most. -/
structure LinksInv (T : Setup) (w : World Deployment Event) : Prop where
  sent : ∀ x, ∀ data ∈ w.state.toBroker x, ∀ p, T.text.decode data = some p → Genuine w.trace x p
  received : ∀ x p, Event.broker (.received x p) ∈ w.trace → Genuine w.trace x p
  arriving : ∀ x, ∀ p ∈ unread T w.state x, Event.broker (.delivered x p) ∈ w.trace
  executed : ∀ x k v, Event.executed x k v ∈ w.trace →
    Event.broker (.delivered x (.request (.call k))) ∈ w.trace
  once : ∀ x c, w.trace.countP (Event.executes x c) +
    (unread T w.state x).countP (Packet.calls c) ≤
      (deliveredTo (brokerWorld w).trace x).countP (Packet.calls c)

variable {T : Setup} {s s' : Deployment} {a : Action} {es tr : List Event} {x y : ClientId}
  {k : Call} {c : CallId} {w w' : World Deployment Event}

theorem Genuine.append {p : Packet} (h : Genuine tr x p) (es : List Event) :
    Genuine (es ++ tr) x p := by
  cases p with
  | request r => trivial
  | response r =>
    obtain ⟨k, v, hr, he⟩ := h
    exact ⟨k, v, hr, List.mem_append_right es he⟩

/-! The turn of a worker. -/

theorem decode_call {data : List UInt8} {objects : List String}
    (h : Worker.knownCall T.text.worker objects data = some k) :
    T.text.decode data = some (.request (.call k)) := by
  unfold Worker.knownCall at h
  split at h
  · next k' hk' =>
    split_ifs at h
    cases h
    have hreq : (T.text.fromSlice data).bind RpcRequest.deserialize = some (.call k) := hk'
    rw [JsonText.decode, hreq]
  · cases h

theorem handle_result {data : List UInt8} {objects : List String} {value : Value}
    {fault : Option String} {resp : RpcResponse}
    (h : resp ∈ (Worker.handle T.text.worker objects data value fault).1) :
    ∃ k, Worker.knownCall T.text.worker objects data = some k ∧
      resp = .result k.callId k.objectName value := by
  unfold Worker.handle at h
  split at h
  · next k hk =>
    split_ifs at h with hobject
    · have hknown : Worker.knownCall T.text.worker objects data = some k := by
        rw [Worker.knownCall, hk]
        exact if_pos hobject
      simp only at h
      split at h
      · cases h
      · split at h
        · cases h
        · exact ⟨k, hknown, List.mem_singleton.mp h⟩
    · cases h
  · cases h

/-! One step. -/

theorem alone_received {b b' : Broker} {act : IpcBroker.Action} {es : List IpcBroker.Event}
    {p : Packet} (ha : brokerAlone act = true) (h : b.step act = some (b', es)) :
    IpcBroker.Event.received x p ∉ es := by
  intro he
  obtain ⟨rfl, -, -⟩ := (Broker.step_transition h).received he
  cases ha

theorem LinksInv.step_sent (hI : LinksInv T w) (hok : Orderly T w a)
    (h : Transition T w.state a s' es) (x : ClientId) :
    ∀ data ∈ s'.toBroker x, ∀ p, T.text.decode data = some p → Genuine (es ++ w.trace) x p := by
  have hold : ∀ data ∈ w.state.toBroker x, ∀ p, T.text.decode data = some p →
      Genuine (es ++ w.trace) x p := fun data hd p hp => (hI.sent x data hd p hp).append es
  have hnew : ∀ r y, T.text.Inverts (.request r) → ∀ data ∈ update w.state.toBroker y
      (w.state.toBroker y ++ [T.text.encode (.request r)]) x, ∀ p, T.text.decode data = some p →
      Genuine (es ++ w.trace) x p := by
    intro r y hinv data hd p hp
    by_cases hy : x = y
    · subst hy
      rw [update_self] at hd
      obtain hd | hd := List.mem_append.mp hd
      · exact hold data hd p hp
      · rw [List.mem_singleton.mp hd, hinv.decode_encode] at hp
        cases hp
        trivial
    · rw [update_of_ne hy] at hd
      exact hold data hd p hp
  cases h with
  | broker | read | registerFailed | stop | writerLoop => exact hold
  | request => exact hnew _ _ (hok.inverts _ (List.mem_singleton_self _))
  | register hs hn hw =>
    refine hnew _ _ (hok.inverts _ ?_)
    rw [wire, hn]
    exact List.mem_singleton_self _
  | @work y value fault objects data' rest hx hs hn hd =>
    intro data hdata p hp
    by_cases hy : x = y
    · subst hy
      simp only [update_self] at hdata
      obtain hdata | hdata := List.mem_append.mp hdata
      · exact hold data hdata p hp
      · obtain ⟨resp, hresp, rfl⟩ := List.mem_map.mp hdata
        obtain ⟨k, hk, rfl⟩ := handle_result hresp
        have hinv : T.text.Inverts (.response (.result k.callId k.objectName value)) := by
          refine hok.inverts _ ?_
          rw [wire, hx, hd]
          exact List.mem_map_of_mem hresp
        rw [hinv.decode_encode] at hp
        cases hp
        refine ⟨k, value, rfl, List.mem_append_left _ ?_⟩
        rw [hk]
        exact List.mem_singleton_self _
    · simp only [update_of_ne hy] at hdata
      exact hold data hdata p hp
  | @readerLoop y data' rest b es hd hb =>
    intro data hdata p hp
    by_cases hy : x = y
    · subst hy
      simp only [update_self] at hdata
      exact hold data (hd ▸ List.mem_cons_of_mem data' hdata) p hp
    · simp only [update_of_ne hy] at hdata
      exact hold data hdata p hp

theorem LinksInv.step_received (hI : LinksInv T w) (h : Transition T w.state a s' es)
    (x : ClientId) (p : Packet) (he : Event.broker (.received x p) ∈ es) :
    Genuine (es ++ w.trace) x p := by
  cases h with
  | broker ha hb =>
    obtain ⟨e, he', heq⟩ := List.mem_map.mp he
    cases heq
    exact absurd he' (alone_received ha hb)
  | readerLoop hd hb =>
    obtain ⟨e, he', heq⟩ := List.mem_map.mp he
    cases heq
    obtain ⟨hact, -, -⟩ := (Broker.step_transition hb).received he'
    obtain ⟨rfl, hp⟩ := IpcBroker.Action.receive.inj hact
    exact (hI.sent _ _ (hd ▸ List.mem_cons_self) p hp).append _
  | writerLoop hm hb =>
    rw [Broker.write_events hm hb] at he
    simp at he
  | work =>
    obtain ⟨k, -, heq⟩ := List.mem_map.mp he
    cases heq
  | _ => simp at he

theorem unread_sublist (h : (s'.toClient x).Sublist (s.toClient x)) :
    (unread T s' x).Sublist (unread T s x) := h.filterMap _

theorem unread_step (h : Transition T s a s' es) (hinv : ∀ p ∈ wire T s a, T.text.Inverts p)
    (x : ClientId) :
    (unread T s' x).Sublist (unread T s x) ∨
      ∃ msg, unread T s' x = unread T s x ++ [msg] ∧ es = [.broker (.delivered x msg)] := by
  cases h with
  | @read y hx =>
    by_cases hy : x = y
    · subst hy
      exact .inl (unread_sublist (by simp only [update_self]; exact List.tail_sublist _))
    · exact .inl (unread_sublist (by simp only [update_of_ne hy]; exact List.Sublist.refl _))
  | @work y value fault objects data rest hx hs hn hd =>
    by_cases hy : x = y
    · subst hy
      exact .inl (unread_sublist (by simp only [update_self, hd]; exact List.sublist_cons_self _ _))
    · exact .inl (unread_sublist (by simp only [update_of_ne hy]; exact List.Sublist.refl _))
  | @writerLoop y msg rest b es hm hb =>
    by_cases hy : x = y
    · subst hy
      have hmsg : T.text.Inverts msg := by
        refine hinv msg ?_
        rw [wire, hm]
        exact List.mem_singleton_self _
      refine .inr ⟨msg, ?_, by rw [Broker.write_events hm hb]; rfl⟩
      simp only [unread, update_self, List.filterMap_append]
      simp [hmsg.decode_encode]
    · exact .inl (unread_sublist (by simp only [update_of_ne hy]; exact List.Sublist.refl _))
  | _ => exact .inl (List.Sublist.refl _)

theorem LinksInv.step_arriving (hI : LinksInv T w) (hok : Orderly T w a)
    (h : Transition T w.state a s' es) (x : ClientId) (p : Packet) (hp : p ∈ unread T s' x) :
    Event.broker (.delivered x p) ∈ es ++ w.trace := by
  obtain hsub | ⟨msg, hnew, hes⟩ := unread_step h hok.inverts x
  · exact List.mem_append_right es (hI.arriving x p (hsub.subset hp))
  · rw [hnew] at hp
    obtain hp | hp := List.mem_append.mp hp
    · exact List.mem_append_right es (hI.arriving x p hp)
    · rw [List.mem_singleton.mp hp, hes]
      exact List.mem_cons_self

theorem Transition.executed {v : Value} (h : Transition T s a s' es)
    (he : Event.executed x k v ∈ es) :
    es = [.executed x k v] ∧ unread T s x = .request (.call k) :: unread T s' x := by
  cases h with
  | @work y value fault objects data rest hx hs hn hd =>
    cases hk : Worker.knownCall T.text.worker objects data with
    | none =>
      rw [hk] at he
      cases he
    | some k' =>
      rw [hk] at he
      cases List.mem_singleton.mp he
      refine ⟨rfl, ?_⟩
      simp only [unread, hd, List.filterMap_cons, decode_call hk, update_self]
  | broker | readerLoop | writerLoop =>
    obtain ⟨e, -, heq⟩ := List.mem_map.mp he
    cases heq
  | _ => cases he

theorem LinksInv.step_executed (hI : LinksInv T w) (h : Transition T w.state a s' es)
    (x : ClientId) (k : Call) (v : Value) (he : Event.executed x k v ∈ es) :
    Event.broker (.delivered x (.request (.call k))) ∈ es ++ w.trace := by
  obtain ⟨-, hread⟩ := h.executed he
  exact List.mem_append_right es (hI.arriving x _ (hread ▸ List.mem_cons_self))

theorem executes_iff {e : Event} : e.executes x c = true ↔ ∃ k v, e = .executed x k v ∧ k.callId = c := by
  cases e with
  | broker => simp [Event.executes]
  | executed y k v =>
    simp only [Event.executes, Bool.and_eq_true, decide_eq_true_eq, Event.executed.injEq]
    constructor
    · rintro ⟨rfl, rfl⟩
      exact ⟨k, v, ⟨rfl, rfl, rfl⟩, rfl⟩
    · rintro ⟨k', v', ⟨rfl, rfl, rfl⟩, rfl⟩
      exact ⟨rfl, rfl⟩

theorem LinksInv.step_once (hI : LinksInv T w) (hok : Orderly T w a)
    (h : Transition T w.state a s' es) (x : ClientId) (c : CallId) :
    (es ++ w.trace).countP (Event.executes x c) + (unread T s' x).countP (Packet.calls c) ≤
      (deliveredTo ((es ++ w.trace).filterMap Event.broker?) x).countP (Packet.calls c) := by
  have hold := hI.once x c
  rw [List.filterMap_append, Broker.deliveredTo_append, List.countP_append, List.countP_append]
  simp only [brokerWorld] at hold
  by_cases he : es.countP (Event.executes x c) = 0
  · rw [he, Nat.zero_add]
    obtain hsub | ⟨msg, hnew, hes⟩ := unread_step h hok.inverts x
    · have hle := hsub.countP_le (p := Packet.calls c)
      omega
    · -- a message that is written can be read once
      have hone : deliveredTo (es.filterMap Event.broker?) x = [msg] := by
        rw [hes]
        simp [deliveredTo, chronicle, Event.broker?, Event.deliveredTo?]
      rw [hone, hnew, List.countP_append]
      omega
  · obtain ⟨e, hmem, hex⟩ := List.countP_pos_iff.mp (Nat.pos_of_ne_zero he)
    obtain ⟨k, v, rfl, rfl⟩ := executes_iff.mp hex
    obtain ⟨rfl, hread⟩ := h.executed hmem
    rw [hread, List.countP_cons_of_pos (Broker.calls_self k)] at hold
    have hone : [Event.executed x k v].countP (Event.executes x k.callId) ≤ 1 :=
      List.countP_le_length
    omega

theorem linksInv (h : (deployment T).RunWhere (Orderly T) w) : LinksInv T w := by
  refine h.invariant ?_ ?_
  · rintro _ ⟨items, rfl⟩
    exact ⟨nofun, nofun, nofun, nofun, fun _ _ => Nat.le_refl 0⟩
  · intro w a w' hr hI hok hn
    obtain ⟨es, ht, htr⟩ := next_transition hn
    obtain ⟨s', tr'⟩ := w'
    obtain rfl : tr' = es ++ w.trace := htr
    refine ⟨hI.step_sent hok ht, ?_, hI.step_arriving hok ht, ?_, hI.step_once hok ht⟩
    · intro x p he
      obtain he | he := List.mem_append.mp he
      · exact hI.step_received ht x p he
      · exact (hI.received x p he).append es
    · intro x k v he
      obtain he | he := List.mem_append.mp he
      · exact hI.step_executed ht x k v he
      · exact List.mem_append_right es (hI.executed x k v he)

theorem honest_step (hr : (deployment T).RunWhere (Orderly T) w) (hok : Orderly T w a)
    {b : IpcBroker.Action} (hact : brokerAction? T w.state a = some b) :
    Broker.honestRun (brokerWorld w) b = true := by
  refine (Bool.and_eq_true _ _).mpr ⟨hok.fresh b hact, ?_⟩
  have hI := linksInv hr
  cases a with
  | broker b' =>
    simp only [brokerAction?] at hact
    split_ifs at hact with ha
    cases hact
    cases b <;> first | rfl | cases ha
  | writerLoop x =>
    cases hact
    rfl
  | readerLoop x =>
    obtain ⟨data, hd, rfl⟩ := Option.map_eq_some_iff.mp hact
    obtain ⟨rest, hrest⟩ := List.head?_eq_some_iff.mp hd
    cases hp : T.text.decode data with
    | none => rfl
    | some p =>
      cases p with
      | request r => rfl
      | response r =>
        obtain ⟨k, v, rfl, he⟩ := hI.sent x data (hrest ▸ List.mem_cons_self) _ hp
        have hdel := hI.executed x k v he
        simp only [Broker.answersReceived, RpcResponse.callId?, Option.all_some, List.any_eq_true]
        refine ⟨_, mem_broker.mpr hdel, ?_⟩
        simp only [Broker.calls_self, decide_true, Bool.and_self]
  | _ => cases hact

theorem honest_run (h : (deployment T).RunWhere (Orderly T) w) :
    IpcBroker.broker.RunWhere (fun w a => Broker.honestRun w a = true) (brokerWorld w) :=
  broker_run (fun _ _ _ hr _ hok hact => honest_step hr hok hact) h

end IpcBroker.Deployment
