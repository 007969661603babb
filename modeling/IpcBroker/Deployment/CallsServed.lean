import IpcBroker.Broker.AnswersForwarded
import IpcBroker.Deployment.RemoteCalls

/-! Nothing is lost between the broker and a worker that serves: when there is nothing on its way any
more, every call that was sent to the worker has been executed, and its caller has the value. -/

namespace IpcBroker.Deployment
open Function Foundation

def underway (T : Setup) (s : Deployment) (x : ClientId) : List Packet :=
  (s.toBroker x).filterMap T.text.decode

def Event.respondsAt (x : ClientId) (c : CallId) : Event → Bool
  | .broker (.received y (.response r)) => y = x && r.callId? = some c
  | _ => false

inductive UnderwayStep (T : Setup) (s s' : Deployment) (x : ClientId) : List Event → Prop
  | same {es} (h : underway T s' x = underway T s x)
      (hr : ∀ p, Event.broker (.received x p) ∉ es)
      (he : ∀ k v, Event.executed x k v ∈ es → s'.stopped x = true) : UnderwayStep T s s' x es
  | read {p} (h : underway T s x = p :: underway T s' x) :
      UnderwayStep T s s' x [.broker (.received x p)]
  | sent {r} (h : underway T s' x = underway T s x ++ [.request r])
      (hr : ∀ objects, T.objects x = some objects →
        ∃ name ∈ s.unregistered x, r = .registerObject name) : UnderwayStep T s s' x []
  | answered {k v}
      (h : underway T s' x = underway T s x ++ [.response (.result k.callId k.objectName v)]) :
      UnderwayStep T s s' x [.executed x k v]

variable {T : Setup} {s s' : Deployment} {a : Action} {es tr : List Event} {x y z : ClientId}
  {k : Call} {c : CallId} {v : Value} {w w' : World Deployment Event} {objects : List String}

theorem handle_cases (T : Setup) (objects : List String) (data : List UInt8) (value : Value)
    (fault : Option String) :
    (Worker.knownCall T.text.worker objects data = none ∧
      Worker.handle T.text.worker objects data value fault = ([], .serving)) ∨
    ∃ k, Worker.knownCall T.text.worker objects data = some k ∧
      (Worker.handle T.text.worker objects data value fault =
          ([.result k.callId k.objectName value], .serving) ∨
        ∃ e, Worker.handle T.text.worker objects data value fault = ([], .ended e)) := by
  unfold Worker.knownCall Worker.handle
  split
  · next k hk =>
    by_cases hobject : k.objectName ∈ objects
    · refine .inr ⟨k, if_pos hobject, ?_⟩
      rw [if_pos hobject]
      simp only [JsonText.worker]
      cases writePacket (T.text.encode (.response (.result k.callId k.objectName value))) fault with
      | error e => exact .inr ⟨_, rfl⟩
      | ok bytes => exact .inl rfl
    · exact .inl ⟨if_neg hobject, by rw [if_neg hobject]⟩
  · exact .inl ⟨rfl, rfl⟩

theorem read_events {b b' : Broker} {p : Option Packet} {es : List IpcBroker.Event}
    (h : b.step (.receive x p) = some (b', es)) :
    es = (p.map (IpcBroker.Event.received x)).toList := by
  cases Broker.step_transition h <;> rfl

theorem UnderwayStep.quiet (h : underway T s' x = underway T s x) : UnderwayStep T s s' x [] :=
  .same h (fun _ => List.not_mem_nil) fun _ _ he => absurd he List.not_mem_nil

theorem underway_other {l : ClientId → List (List UInt8)} {d : List (List UInt8)} (hy : x ≠ y)
    (h : s'.toBroker = update l y d) (hl : l = s.toBroker) : underway T s' x = underway T s x := by
  rw [underway, h, update_of_ne hy, hl]
  rfl

theorem underway_sent {p : Packet} (hp : T.text.Inverts p)
    (h : s'.toBroker = update s.toBroker x (s.toBroker x ++ [T.text.encode p])) :
    underway T s' x = underway T s x ++ [p] := by
  rw [underway, h, update_self, List.filterMap_append]
  simp [underway, hp.decode_encode]

theorem Transition.underwayStep (h : Transition T s a s' es)
    (hinv : ∀ p ∈ wire T s a, T.text.Inverts p) (x : ClientId) : UnderwayStep T s s' x es := by
  cases h with
  | @broker act b es' ha hb =>
    refine .same rfl (fun p he => ?_) fun k v he => ?_
    · obtain ⟨e, he', heq⟩ := List.mem_map.mp he
      cases heq
      exact alone_received ha hb he'
    · obtain ⟨e, -, heq⟩ := List.mem_map.mp he
      cases heq
  | @request y r hy hsize =>
    by_cases hxy : x = y
    · subst hxy
      refine .sent (underway_sent (hinv _ (List.mem_singleton_self _)) rfl) fun objects hx => ?_
      cases hy.symm.trans hx
    · exact .quiet (underway_other hxy rfl rfl)
  | @register y fault name names bytes hs hn hw =>
    by_cases hxy : x = y
    · subst hxy
      refine .sent (underway_sent (hinv _ ?_) rfl) fun objects _ => ?_
      · rw [wire, hn]
        exact List.mem_singleton_self _
      · exact ⟨name, hn ▸ List.mem_cons_self, rfl⟩
    · exact .quiet (underway_other hxy rfl rfl)
  | @work y value fault objects data rest hx hs hn hd =>
    by_cases hxy : x = y
    · subst hxy
      obtain ⟨hk, hout⟩ | ⟨k, hk, hout | ⟨e, hout⟩⟩ := handle_cases T objects data value fault
      · refine .same ?_ ?_ ?_
        · simp [underway, hout]
        · simp [hk]
        · simp [hk]
      · have hresult : T.text.Inverts (.response (.result k.callId k.objectName value)) := by
          refine hinv _ ?_
          rw [wire, hx, hd]
          simp [hout]
        rw [hk]
        exact .answered (underway_sent hresult (by simp [hout]))
      · refine .same ?_ ?_ ?_
        · simp [underway, hout]
        · simp [hk]
        · intro k' v he
          simp [hout, Worker.Outcome.isEnded]
    · refine .same (underway_other hxy rfl rfl) (fun p he => ?_) fun k v he => ?_
      · obtain ⟨k, -, heq⟩ := List.mem_map.mp he
        cases heq
      · obtain ⟨k', -, heq⟩ := List.mem_map.mp he
        cases heq
        exact absurd rfl hxy
  | @readerLoop y data rest b es' hd hb =>
    have hexec : ∀ k v, Event.executed x k v ∈ es'.map Event.broker → s.stopped x = true := by
      intro k v he
      obtain ⟨e, -, heq⟩ := List.mem_map.mp he
      cases heq
    have hevents := read_events hb
    cases hp : T.text.decode data with
    | none =>
      rw [hp] at hevents
      subst hevents
      refine .quiet ?_
      by_cases hxy : x = y
      · subst hxy
        simp [underway, hd, hp]
      · exact underway_other hxy rfl rfl
    | some p =>
      rw [hp] at hevents
      subst hevents
      by_cases hxy : x = y
      · subst hxy
        exact .read (by simp [underway, hd, hp])
      · refine .same (underway_other hxy rfl rfl) (fun q he => ?_) hexec
        cases List.mem_singleton.mp he
        exact hxy rfl
  | writerLoop hm hb =>
    rw [Broker.write_events hm hb]
    exact .same rfl (by simp) (by simp)
  | _ => exact .quiet rfl

theorem Transition.stopped_kept (h : Transition T s a s' es) (hx : s.stopped x = true) :
    s'.stopped x = true := by
  have hupdate : ∀ {y b}, s.stopped y = false ∨ b = true → update s.stopped y b x = true := by
    intro y b hb
    by_cases hxy : x = y
    · subst hxy
      rw [update_self]
      exact hb.resolve_left (hx ▸ Bool.noConfusion)
    · rwa [update_of_ne hxy]
  cases h with
  | registerFailed | stop => exact hupdate (.inr rfl)
  | work hx hs => exact hupdate (.inl hs)
  | _ => exact hx

theorem Transition.unregistered_subset (h : Transition T s a s' es) (x : ClientId) :
    s'.unregistered x ⊆ s.unregistered x := by
  cases h with
  | @register y fault name names bytes hs hn hw =>
    intro o ho
    by_cases hxy : x = y
    · subst hxy
      simp only [update_self] at ho
      exact hn ▸ List.mem_cons_of_mem name ho
    · simpa only [update_of_ne hxy] using ho
  | _ => exact fun _ ho => ho

theorem decode_request {data : List UInt8} {r : RpcRequest}
    (h : T.text.decode data = some (.request r)) : T.text.worker.fromSlice data = some r := by
  unfold JsonText.decode at h
  split at h
  · next r' hr =>
    cases h
    exact hr
  · obtain ⟨r', -, hr⟩ := Option.map_eq_some_iff.mp h
    cases hr

theorem Transition.unread_taken (h : Transition T s a s' es) (hz : T.objects z = some objects)
    (hk : k.objectName ∈ objects) (hp : Packet.request (.call k) ∈ unread T s z) :
    Packet.request (.call k) ∈ unread T s' z ∨ ∃ v, Event.executed z k v ∈ es := by
  cases h with
  | @read y hy =>
    have hzy : z ≠ y := by
      rintro rfl
      cases hy.symm.trans hz
    refine .inl ?_
    simpa only [unread, update_of_ne hzy] using hp
  | @work y value fault objects' data rest hy hs hn hd =>
    by_cases hzy : z = y
    · subst hzy
      cases hy.symm.trans hz
      simp only [unread, hd, List.filterMap_cons] at hp
      cases hdata : T.text.decode data with
      | none =>
        rw [hdata] at hp
        exact .inl (by simpa only [unread, update_self] using hp)
      | some p =>
        rw [hdata] at hp
        obtain rfl | hp := List.mem_cons.mp hp
        · have hknown : Worker.knownCall T.text.worker objects data = some k := by
            have hreq := decode_request hdata
            rw [Worker.knownCall, hreq]
            exact if_pos hk
          exact .inr ⟨value, by rw [hknown]; exact List.mem_singleton_self _⟩
        · exact .inl (by simpa only [unread, update_self] using hp)
    · exact .inl (by simpa only [unread, update_of_ne hzy] using hp)
  | @writerLoop y msg rest b es hm hb =>
    refine .inl ?_
    by_cases hzy : z = y
    · subst hzy
      simp only [unread, update_self, List.filterMap_append]
      exact List.mem_append_left _ hp
    · simpa only [unread, update_of_ne hzy] using hp
  | _ => exact .inl hp

structure ServedInv (T : Setup) (w : World Deployment Event) : Prop where
  taken : ∀ z objects k, T.objects z = some objects → k.objectName ∈ objects →
    Event.broker (.delivered z (.request (.call k))) ∈ w.trace →
      Packet.request (.call k) ∈ unread T w.state z ∨ ∃ v, Event.executed z k v ∈ w.trace
  answered : ∀ z k v, Event.executed z k v ∈ w.trace → w.state.stopped z = false →
    .response (.result k.callId k.objectName v) ∈ underway T w.state z ∨
      Event.broker (.received z (.response (.result k.callId k.objectName v))) ∈ w.trace
  answers : ∀ z c, w.trace.countP (Event.respondsAt z c) +
    (underway T w.state z).countP (Packet.answers c) ≤ w.trace.countP (Event.executes z c)
  registers : ∀ z objects, T.objects z = some objects → w.state.unregistered z ⊆ objects ∧
    ∀ r, Packet.request r ∈ underway T w.state z ∨
      Event.broker (.received z (.request r)) ∈ w.trace → ∃ o ∈ objects, r = .registerObject o

theorem respondsAt_none (h : ∀ p, Event.broker (.received x p) ∉ es) :
    es.countP (Event.respondsAt x c) = 0 := by
  refine List.countP_eq_zero.mpr fun e he hresp => ?_
  unfold Event.respondsAt at hresp
  split at hresp
  · next y r =>
    obtain ⟨hy, -⟩ := (Bool.and_eq_true _ _).mp hresp
    exact h _ (of_decide_eq_true hy ▸ he)
  · cases hresp

theorem ServedInv.step_taken (hI : ServedInv T w) (hok : Orderly T w a)
    (h : Transition T w.state a s' es) (hz : T.objects z = some objects)
    (hk : k.objectName ∈ objects)
    (hd : Event.broker (.delivered z (.request (.call k))) ∈ es ++ w.trace) :
    Packet.request (.call k) ∈ unread T s' z ∨ ∃ v, Event.executed z k v ∈ es ++ w.trace := by
  obtain hd | hd := List.mem_append.mp hd
  · have hnew : Packet.request (.call k) ∈ unread T s' z := by
      cases h with
      | @writerLoop y msg rest b es' hm hb =>
        rw [Broker.write_events hm hb] at hd
        cases List.mem_singleton.mp hd
        have hmsg : T.text.Inverts (.request (.call k)) := by
          refine hok.inverts _ ?_
          rw [wire, hm]
          exact List.mem_singleton_self _
        simp [unread, hmsg.decode_encode]
      | @broker act b es' ha hb =>
        obtain ⟨e, he, heq⟩ := List.mem_map.mp hd
        cases heq
        cases Broker.step_transition hb with
        | write => cases ha
        | _ => simp at he
      | @readerLoop y data rest b es' hdata hb =>
        obtain ⟨e, he, heq⟩ := List.mem_map.mp hd
        cases heq
        have hevents := read_events hb
        rw [(Broker.step_transition hb).written he] at hevents
        generalize T.text.decode data = p at hevents
        cases p <;> cases hevents
      | work =>
        obtain ⟨k', -, heq⟩ := List.mem_map.mp hd
        cases heq
      | _ => cases hd
    exact .inl hnew
  · obtain hp | ⟨v, he⟩ := hI.taken z objects k hz hk hd
    · obtain hp | ⟨v, he⟩ := h.unread_taken hz hk hp
      · exact .inl hp
      · exact .inr ⟨v, List.mem_append_left _ he⟩
    · exact .inr ⟨v, List.mem_append_right es he⟩

theorem ServedInv.step_answered (hI : ServedInv T w) (hok : Orderly T w a)
    (h : Transition T w.state a s' es) (he : Event.executed z k v ∈ es ++ w.trace)
    (hs : s'.stopped z = false) :
    .response (.result k.callId k.objectName v) ∈ underway T s' z ∨
      Event.broker (.received z (.response (.result k.callId k.objectName v))) ∈
        es ++ w.trace := by
  have hbefore : w.state.stopped z = false := by
    by_contra hstopped
    have hkept := h.stopped_kept (Bool.not_eq_false _ ▸ hstopped)
    cases hs.symm.trans hkept
  have hstep := h.underwayStep hok.inverts z
  obtain he | he := List.mem_append.mp he
  · cases hstep with
    | same _ _ hstop => cases hs.symm.trans (hstop k v he)
    | answered hnew =>
      cases List.mem_singleton.mp he
      exact .inl (hnew ▸ List.mem_append_right _ (List.mem_singleton_self _))
    | read => cases List.mem_singleton.mp he
    | sent => cases he
  · obtain hp | hp := hI.answered z k v he hbefore
    · cases hstep with
      | same hsame => exact .inl (hsame ▸ hp)
      | read hread =>
        rw [hread] at hp
        obtain rfl | hp := List.mem_cons.mp hp
        · exact .inr List.mem_cons_self
        · exact .inl hp
      | sent hnew | answered hnew => exact .inl (hnew ▸ List.mem_append_left _ hp)
    · exact .inr (List.mem_append_right es hp)

theorem ServedInv.step_answers (hI : ServedInv T w) (hok : Orderly T w a)
    (h : Transition T w.state a s' es) (z : ClientId) (c : CallId) :
    (es ++ w.trace).countP (Event.respondsAt z c) +
      (underway T s' z).countP (Packet.answers c) ≤
        (es ++ w.trace).countP (Event.executes z c) := by
  have hold := hI.answers z c
  rw [List.countP_append, List.countP_append]
  cases h.underwayStep hok.inverts z with
  | same hsame hr =>
    rw [respondsAt_none hr, hsame]
    omega
  | @read p hread =>
    rw [hread, List.countP_cons] at hold
    have hone : [Event.broker (.received z p)].countP (Event.respondsAt z c) ≤
        if p.answers c = true then 1 else 0 := by
      cases p with
      | request r => exact Nat.zero_le _
      | response r =>
        have hsame : (Event.broker (.received z (.response r))).respondsAt z c =
            (Packet.response r).answers c := by
          simp only [Event.respondsAt, decide_true, Bool.true_and]
          exact decide_eq_decide.mpr Iff.rfl
        rw [List.countP_singleton, hsame]
    omega
  | sent hnew =>
    rw [hnew, List.countP_append]
    simp only [List.countP_nil, List.countP_singleton, Broker.answers_request]
    simpa using hold
  | @answered k v hnew =>
    rw [hnew, List.countP_append]
    have hone : [Packet.response (.result k.callId k.objectName v)].countP (Packet.answers c) ≤
        [Event.executed z k v].countP (Event.executes z c) := by
      simp [List.countP_cons, Event.executes, Packet.answers, Packet.terminal?, RpcResponse.callId?]
    have hzero : [Event.executed z k v].countP (Event.respondsAt z c) = 0 := rfl
    omega

theorem ServedInv.step_registers (hI : ServedInv T w) (hok : Orderly T w a)
    (h : Transition T w.state a s' es) (hz : T.objects z = some objects) {r : RpcRequest}
    (hr : Packet.request r ∈ underway T s' z ∨
      Event.broker (.received z (.request r)) ∈ es ++ w.trace) :
    ∃ o ∈ objects, r = .registerObject o := by
  obtain ⟨hnames, hold⟩ := hI.registers z objects hz
  cases h.underwayStep hok.inverts z with
  | same hsame hnone =>
    obtain hr | hr := hr
    · exact hold r (.inl (hsame ▸ hr))
    · exact hold r (.inr ((List.mem_append.mp hr).resolve_left (hnone _)))
  | read hread =>
    obtain hr | hr := hr
    · exact hold r (.inl (hread ▸ List.mem_cons_of_mem _ hr))
    · obtain hr | hr := List.mem_append.mp hr
      · cases List.mem_singleton.mp hr
        exact hold r (.inl (hread ▸ List.mem_cons_self))
      · exact hold r (.inr hr)
  | sent hnew hname =>
    obtain hr | hr := hr
    · rw [hnew] at hr
      obtain hr | hr := List.mem_append.mp hr
      · exact hold r (.inl hr)
      · obtain ⟨name, hmem, hreg⟩ := hname objects hz
        cases List.mem_singleton.mp hr
        exact ⟨name, hnames hmem, hreg⟩
    · exact hold r (.inr hr)
  | answered hnew =>
    obtain hr | hr := hr
    · rw [hnew] at hr
      obtain hr | hr := List.mem_append.mp hr
      · exact hold r (.inl hr)
      · cases List.mem_singleton.mp hr
    · exact hold r (.inr ((List.mem_append.mp hr).resolve_left (by simp)))

theorem servedInv (h : (deployment T).RunWhere (Orderly T) w) : ServedInv T w := by
  refine h.invariant ?_ ?_
  · rintro _ ⟨items, rfl⟩
    refine ⟨nofun, nofun, fun _ _ => Nat.le_refl 0, fun z objects hz => ⟨?_, ?_⟩⟩
    · simp [initial, hz]
    · rintro r (hr | hr) <;> cases hr
  · intro w a w' hr hI hok hn
    obtain ⟨es, ht, htr⟩ := next_transition hn
    obtain ⟨s', tr'⟩ := w'
    obtain rfl : tr' = es ++ w.trace := htr
    refine ⟨fun z objects k hz hk hd => hI.step_taken hok ht hz hk hd,
      fun z k v he hs => hI.step_answered hok ht he hs, hI.step_answers hok ht,
      fun z objects hz => ⟨?_, fun r hreq => hI.step_registers hok ht hz hreq⟩⟩
    exact List.Subset.trans (ht.unregistered_subset z) (hI.registers z objects hz).1

theorem answersOnce_step (hr : (deployment T).RunWhere (Orderly T) w)
    {b : IpcBroker.Action} (hact : brokerAction? T w.state a = some b) :
    Broker.answersOnce (brokerWorld w) b = true := by
  cases a with
  | broker b' =>
    simp only [brokerAction?] at hact
    split_ifs at hact with ha
    cases hact
    cases b <;> first | rfl | cases ha
  | writerLoop x =>
    cases hact
    rfl
  | readerLoop x =>
    obtain ⟨data, hd, rfl⟩ := Option.map_eq_some_iff.mp hact
    obtain ⟨rest, hrest⟩ := List.head?_eq_some_iff.mp hd
    cases hp : T.text.decode data with
    | none => rfl
    | some p =>
      cases p with
      | request r => rfl
      | response r =>
        cases hc : r.callId? with
        | none => simp [Broker.answersOnce, hc]
        | some c =>
          simp only [Broker.answersOnce, hc, Option.all_some, Bool.not_eq_true', List.any_eq_false]
          intro e he hresp
          obtain ⟨y, r', rfl, hc'⟩ := Broker.responds_iff.mp hresp
          have hrec := mem_broker.mp he
          have hI := linksInv hr
          obtain ⟨k, v, rfl, hexec⟩ := hI.sent x data (hrest ▸ List.mem_cons_self) _ hp
          obtain ⟨k', u, rfl, hexec'⟩ := hI.received y _ hrec
          cases hc
          obtain ⟨rfl, rfl⟩ := executed_unique hr hexec hexec' (Option.some.inj hc').symm
          -- the value is executed once, but there are two answers
          have hone := executed_once hr x k.callId
          have hanswers := (servedInv hr).answers x k.callId
          have hread : 0 < w.trace.countP (Event.respondsAt x k.callId) :=
            List.countP_pos_iff.mpr ⟨_, hrec, by simp [Event.respondsAt, RpcResponse.callId?]⟩
          have hnext : 0 < (underway T w.state x).countP (Packet.answers k.callId) :=
            List.countP_pos_iff.mpr ⟨_, List.mem_filterMap.mpr ⟨data, hrest ▸ List.mem_cons_self, hp⟩,
              by simp [Packet.answers, Packet.terminal?, RpcResponse.callId?]⟩
          omega
  | _ => cases hact

theorem answering_run (h : (deployment T).RunWhere (Orderly T) w) :
    IpcBroker.broker.RunWhere (fun w a => Broker.honestRun w a = true ∧
      Broker.answersOnce w a = true) (brokerWorld w) :=
  broker_run (fun _ _ _ hr _ hok hact => ⟨honest_step hr hok hact, answersOnce_step hr hact⟩) h

theorem sent_shared (h : (deployment T).RunWhere (Orderly T) w) {site : SendSite}
    (hz : T.objects z = some objects)
    (he : Event.broker (.enqueued site y z (.request (.call k))) ∈ w.trace) :
    k.objectName ∈ objects := by
  have hr := honest_run h
  have hreg : Registers (brokerWorld w).trace z k.objectName :=
    Broker.enqueued_registers hr (mem_broker.mpr he)
  obtain ⟨o, ho, heq⟩ := ((servedInv h).registers z objects hz).2 _ (.inr (mem_broker.mp hreg))
  cases heq
  exact ho

/-- The connection of a client is there, and its writer loop has nothing left to write. -/
structure Written (s : Deployment) (x : ClientId) : Prop where
  connected : (s.broker.phase x).connected = true
  writing : s.broker.writing x = true
  channel : s.broker.channel x = []

/-- A worker serves, and there is nothing on its way between it and the broker. -/
structure Served (s : Deployment) (z : ClientId) : Prop extends Written s z where
  serving : s.stopped z = false
  reading : s.broker.phase z = .reading
  toClient : s.toClient z = []
  toBroker : s.toBroker z = []

theorem written_delivered (h : (deployment T).RunWhere (Orderly T) w) (hx : Written w.state x)
    {site : SendSite} {m : Packet} (he : Event.broker (.enqueued site y x m) ∈ w.trace) :
    Event.broker (.delivered x m) ∈ w.trace := by
  have hr := honest_run h
  obtain ⟨u, hu, heq⟩ := hr.exists_recorded
  have hstate : u.state = w.state.broker := congrArg World.state heq
  have horder := Broker.channel_inOrder hu (y := x) (hstate ▸ hx.writing)
  rw [heq, hstate, hx.channel, List.append_nil] at horder
  have hmem : m ∈ enqueuedOn (brokerWorld w).trace x :=
    Broker.mem_enqueuedOn.mpr ⟨site, y, mem_broker.mpr he⟩
  rw [horder] at hmem
  exact mem_broker.mp (Broker.mem_deliveredTo.mp hmem)

/-- Every call of a connected client that was sent to a worker which serves is executed there exactly
once, and the client has the value, as its only answer, when nothing is on its way any more. -/
theorem calls_served (h : (deployment T).RunWhere (Orderly T) w) (hz : T.objects z = some objects)
    (hserved : Served w.state z) (hx : Written w.state x) {site : SendSite}
    (hk : Event.broker (.received x (.request (.call k))) ∈ w.trace)
    (he : Event.broker (.enqueued site y z (.request (.call k))) ∈ w.trace) :
    ∃ v, Event.executed z k v ∈ w.trace ∧ w.trace.countP (Event.executes z k.callId) = 1 ∧
      Event.broker (.delivered x (.response (.result k.callId k.objectName v))) ∈ w.trace ∧
      (brokerWorld w).trace.countP (IpcBroker.Event.delivers (Packet.answers k.callId)) = 1 := by
  have hI := servedInv h
  have hr := answering_run h
  have hdel := written_delivered h hserved.toWritten he
  obtain hread | ⟨v, hexec⟩ := hI.taken z objects k hz (sent_shared h hz he) hdel
  · simp [unread, hserved.toClient] at hread
  obtain hsent | hrec := hI.answered z k v hexec hserved.serving
  · simp [underway, hserved.toBroker] at hsent
  have hfollowed := Broker.answers_followed (fun _ _ hok => Broker.honestRun_fresh _ _ hok.1)
    (fun _ _ hok => Broker.honestRun_answers _ _ hok.1) (fun _ _ hok => hok.2) hr
    (mem_broker.mpr hk) (Broker.connected_iff.mp hx.connected) (mem_broker.mpr hrec) rfl
  obtain ⟨hphase, -⟩ | hphase | hforwarded := hfollowed
  · cases hserved.reading.symm.trans hphase
  · cases hserved.reading.symm.trans hphase
  have hreturned := written_delivered h hx (mem_broker.mp hforwarded)
  refine ⟨v, hexec, ?_, hreturned, ?_⟩
  · have hpos : 0 < w.trace.countP (Event.executes z k.callId) :=
      List.countP_pos_iff.mpr ⟨_, hexec, executes_iff.mpr ⟨k, v, rfl, rfl⟩⟩
    have hone := executed_once h z k.callId
    omega
  · have hpos : 0 < (brokerWorld w).trace.countP
        (IpcBroker.Event.delivers (Packet.answers k.callId)) :=
      List.countP_pos_iff.mpr ⟨_, mem_broker.mpr hreturned, decide_eq_true rfl⟩
    have hone := Broker.delivered_once (honest_run h) (answers_once h k.callId)
    omega

/-! The run with one call, after which nothing is on its way. -/

def isReading : Phase → Bool
  | .reading => true
  | _ => false

def writtenTest (s : Deployment) (x : ClientId) : Bool :=
  (s.broker.phase x).connected && s.broker.writing x && (s.broker.channel x).isEmpty

def servedTest (s : Deployment) (z : ClientId) : Bool :=
  writtenTest s z && !s.stopped z && isReading (s.broker.phase z) && (s.toClient z).isEmpty &&
    (s.toBroker z).isEmpty

theorem written_of_test (h : writtenTest s x = true) : Written s x := by
  simp only [writtenTest, Bool.and_eq_true, List.isEmpty_iff] at h
  exact ⟨h.1.1, h.1.2, h.2⟩

theorem served_of_test (h : servedTest s z = true) : Served s z := by
  simp only [servedTest, Bool.and_eq_true, Bool.not_eq_true', List.isEmpty_iff] at h
  obtain ⟨⟨⟨⟨hw, hs⟩, hp⟩, hc⟩, hb⟩ := h
  refine ⟨written_of_test hw, hs, ?_, hc, hb⟩
  unfold isReading at hp
  split at hp
  · assumption
  · cases hp

theorem calls_served_callServed :
    ∃ w k, (deployment oneWorker).exec (fun w a => orderlyTest w a = true)
        ⟨initial oneWorker [], []⟩ callServed = some w ∧
      ∃ v, Event.executed Broker.workerA k v ∈ w.trace ∧
        w.trace.countP (Event.executes Broker.workerA k.callId) = 1 ∧
        Event.broker (.delivered Broker.callerC (.response (.result k.callId k.objectName v))) ∈
          w.trace ∧
        (brokerWorld w).trace.countP
          (IpcBroker.Event.delivers (Packet.answers k.callId)) = 1 := by
  obtain ⟨w, hr, he, ht⟩ := System.RunWhere.of_exec_any (deployment oneWorker)
    (fun w a => orderlyTest w a = true) callServed
    (fun w => servedTest w.state Broker.workerA && writtenTest w.state Broker.callerC &&
      (brokerWorld w).trace.any (Broker.sendsTo Broker.workerA ⟨"1"⟩) &&
      (brokerWorld w).trace.any (IpcBroker.Event.reads Broker.callerC ⟨"1"⟩)) ⟨[], rfl⟩ (by decide)
  simp only [Bool.and_eq_true] at ht
  obtain ⟨⟨⟨hserved, hwritten⟩, hsent⟩, hreads⟩ := ht
  have hrun := hr.mono orderly_of_test
  obtain ⟨site, y, k, hk, hid⟩ := Broker.sent_of_any hsent
  obtain ⟨k', hissued, hid'⟩ := issued_of_reads hreads
  obtain ⟨x, j, hj, hissued'⟩ := (Broker.sources (honest_run hrun)).enqueued site y _ _ hk
  cases hj
  obtain ⟨rfl, rfl⟩ := Broker.issued_unique Broker.honestRun_fresh (honest_run hrun) hissued
    hissued' (hid'.trans hid.symm)
  exact ⟨w, k', he, calls_served hrun rfl (served_of_test hserved) (written_of_test hwritten)
    (mem_broker.mp hissued) (mem_broker.mp hk)⟩

end IpcBroker.Deployment
