import IpcBroker.Client.IpcClient
import IpcBroker.Foundation.History
import IpcBroker.Foundation.StepHistory

/-! The steps of the client actor, its handles, the broker's end of the connection and the stream
between them, in any order; and the inversion of the step function. -/

namespace IpcBroker.IpcClient
open Function Foundation

/-- `take` and `poll` are the two branches of `select!`, `poll` also the read after a request;
`write` is a `write_packet` of the broker, and `arrive` brings the next `n` bytes. -/
inductive Action
  | issue (op : Operation)
  | dropHandles
  | take (fault : Option String)
  | poll
  | exit
  | write (payload : List UInt8)
  | arrive (n : Nat)
  | hangUp (message : String) (n : Nat)
  | receive (updates : Nat)
  | dropReceiver (updates : Nat)

def step (json : SerdeJson) (s : IpcClient) : Action → Option (IpcClient × List Event)
  | .issue op => s.issue op
  | .dropHandles => some ({ s with handles := false }, [])
  | .take fault =>
    match s.phase, s.mailbox with
    | .selecting _, msg :: rest => some ({ s with mailbox := rest }.takeMsg json fault msg)
    | _, _ => none
  | .poll => s.poll json
  | .exit =>
    match s.phase, s.mailbox, s.handles with
    | .selecting none, [], false => some s.exit
    | _, _, _ => none
  | .write payload =>
    match s.hungUp with
    | none =>
      if payload.length ≤ bufSize then
        some ({ s with coming := s.coming ++ frame payload }, [.incoming payload])
      else none
    | some _ => none
  | .arrive n =>
    some ({ s with arrived := s.arrived ++ s.coming.take n, coming := s.coming.drop n }, [])
  | .hangUp message n =>
    match s.hungUp with
    | none => some ({ s with coming := s.coming.take n, hungUp := some message }, [])
    | some _ => none
  | .receive c =>
    some ({ s with receivers := update s.receivers c (s.receivers c).recv }, [])
  | .dropReceiver c =>
    some ({ s with receivers := update s.receivers c ⟨[], true⟩ }, [])

def client (json : SerdeJson) : System IpcClient Action Event where
  initial s := s = initial
  step := step json

abbrev ClientStep : Type := Taken IpcClient Action Event

inductive Transition (json : SerdeJson) (s : IpcClient) : Action → IpcClient → List Event → Prop
  | issue {op} (h : s.phase ≠ .ended) (hroom : s.mailbox.length < mailboxCapacity) :
      Transition json s (.issue op)
        { s with
          mailbox := s.mailbox ++ [op.msg s.nextChannel]
          nextChannel := s.nextChannel + 1 } [.issued (op.msg s.nextChannel)]
  | issueEnded {op} (h : s.phase = .ended) :
      Transition json s (.issue op) { s with nextChannel := s.nextChannel + 1 }
        ((op.msg s.nextChannel).abandon .actorDropped).toList
  | dropHandles : Transition json s .dropHandles { s with handles := false } []
  | requestFailed {fault reading req respTx rest e} (h : s.phase = .selecting reading)
      (hm : s.mailbox = .request req respTx :: rest)
      (hw : writePacket (json.toVec req) fault = .error e) :
      Transition json s (.take fault) { s with mailbox := rest }.select
        [.replied req respTx (.received (.error e))]
  | requestAwaits {fault reading req respTx rest bytes} (h : s.phase = .selecting reading)
      (hm : s.mailbox = .request req respTx :: rest)
      (hw : writePacket (json.toVec req) fault = .ok bytes) (he : expectsResponse req = true) :
      Transition json s (.take fault)
        { s with mailbox := rest, phase := .awaiting req respTx .start } [.sent req]
  | requestDone {fault reading req respTx rest bytes} (h : s.phase = .selecting reading)
      (hm : s.mailbox = .request req respTx :: rest)
      (hw : writePacket (json.toVec req) fault = .ok bytes) (he : expectsResponse req = false) :
      Transition json s (.take fault) { s with mailbox := rest }.select
        [.replied req respTx (.received (.ok (.event "" "" .null))), .sent req]
  | subscribe {fault reading o topic updates rest} (h : s.phase = .selecting reading)
      (hm : s.mailbox = .subscribe o topic updates :: rest) :
      Transition json s (.take fault)
        ({ s with mailbox := rest }.subscribe json o topic updates fault).1
        ({ s with mailbox := rest }.subscribe json o topic updates fault).2
  | pollPending {reading reading'} (h : s.phase = .selecting (some reading))
      (hr : s.read reading = .pending reading') :
      Transition json s .poll
        { s with phase := .selecting (some reading'), arrived := [] } []
  | pollPacket {reading data rest} (h : s.phase = .selecting (some reading))
      (hr : s.read reading = .ready (.ok data) rest) :
      Transition json s .poll ({ s with arrived := rest }.readArm json data).1
        (({ s with arrived := rest }.readArm json data).2 ++ [.returned data])
  | pollFailed {reading e rest} (h : s.phase = .selecting (some reading))
      (hr : s.read reading = .ready (.error e) rest) :
      Transition json s .poll { s with phase := .selecting none, arrived := rest } []
  | awaitPending {req respTx reading reading'} (h : s.phase = .awaiting req respTx reading)
      (hr : s.read reading = .pending reading') :
      Transition json s .poll
        { s with phase := .awaiting req respTx reading', arrived := [] } []
  | awaitPacket {req respTx reading data rest} (h : s.phase = .awaiting req respTx reading)
      (hr : s.read reading = .ready (.ok data) rest) :
      Transition json s .poll { s with arrived := rest }.select
        [.replied req respTx (replyOf json data), .returned data]
  | awaitFailed {req respTx reading e rest} (h : s.phase = .awaiting req respTx reading)
      (hr : s.read reading = .ready (.error e) rest) :
      Transition json s .poll { s with arrived := rest }.select
        [.replied req respTx (.received (.error e))]
  | exit (h : s.phase = .selecting none) (hm : s.mailbox = []) (hh : s.handles = false) :
      Transition json s .exit s.exit.1 s.exit.2
  | write {payload} (h : s.hungUp = none) (hsize : payload.length ≤ bufSize) :
      Transition json s (.write payload) { s with coming := s.coming ++ frame payload }
        [.incoming payload]
  | arrive {n} :
      Transition json s (.arrive n)
        { s with arrived := s.arrived ++ s.coming.take n, coming := s.coming.drop n } []
  | hangUp {message n} (h : s.hungUp = none) :
      Transition json s (.hangUp message n)
        { s with coming := s.coming.take n, hungUp := some message } []
  | receive {c} :
      Transition json s (.receive c)
        { s with receivers := update s.receivers c (s.receivers c).recv } []
  | dropReceiver {c} :
      Transition json s (.dropReceiver c)
        { s with receivers := update s.receivers c ⟨[], true⟩ } []

variable {json : SerdeJson} {s s' : IpcClient} {a : Action} {es : List Event}

theorem take_transition {msg : ClientMsg} {rest : List ClientMsg} {reading : Option ReadPacket}
    {fault : Option String} (hp : s.phase = .selecting reading) (hm : s.mailbox = msg :: rest)
    (h : { s with mailbox := rest }.takeMsg json fault msg = (s', es)) :
    Transition json s (.take fault) s' es := by
  cases msg with
  | request req respTx =>
    simp only [takeMsg, request] at h
    split at h
    · next e hw =>
      obtain ⟨rfl, rfl⟩ := Prod.mk.inj h
      exact .requestFailed hp hm hw
    · next bytes hw =>
      split_ifs at h with he
      · obtain ⟨rfl, rfl⟩ := Prod.mk.inj h
        exact .requestAwaits hp hm hw he
      · obtain ⟨rfl, rfl⟩ := Prod.mk.inj h
        exact .requestDone hp hm hw (Bool.eq_false_iff.mpr he)
  | subscribe o topic updates =>
    obtain ⟨rfl, rfl⟩ := Prod.mk.inj h
    exact .subscribe hp hm

theorem poll_transition (h : s.poll json = some (s', es)) : Transition json s .poll s' es := by
  unfold poll at h
  split at h
  · next reading hp =>
    split at h
    · next reading' hr =>
      obtain ⟨rfl, rfl⟩ := Prod.mk.inj (Option.some.inj h)
      exact .pollPending hp hr
    · next data rest hr =>
      obtain ⟨rfl, rfl⟩ := Prod.mk.inj (Option.some.inj h)
      exact .pollPacket hp hr
    · next e rest hr =>
      obtain ⟨rfl, rfl⟩ := Prod.mk.inj (Option.some.inj h)
      exact .pollFailed hp hr
  · next req respTx reading hp =>
    split at h
    · next reading' hr =>
      obtain ⟨rfl, rfl⟩ := Prod.mk.inj (Option.some.inj h)
      exact .awaitPending hp hr
    · next data rest hr =>
      obtain ⟨rfl, rfl⟩ := Prod.mk.inj (Option.some.inj h)
      exact .awaitPacket hp hr
    · next e rest hr =>
      obtain ⟨rfl, rfl⟩ := Prod.mk.inj (Option.some.inj h)
      exact .awaitFailed hp hr
  · cases h

theorem issue_transition {op : Operation} (h : s.issue op = some (s', es)) :
    Transition json s (.issue op) s' es := by
  unfold issue at h
  split at h
  · cases h
  · next hp =>
    obtain ⟨rfl, rfl⟩ := Prod.mk.inj (Option.some.inj h)
    exact .issueEnded hp
  · next hp =>
    split_ifs at h with hroom
    obtain ⟨rfl, rfl⟩ := Prod.mk.inj (Option.some.inj h)
    exact .issue hp hroom

theorem step_transition (h : s.step json a = some (s', es)) : Transition json s a s' es := by
  cases a with
  | issue op => exact issue_transition h
  | dropHandles =>
    obtain ⟨rfl, rfl⟩ := Prod.mk.inj (Option.some.inj h)
    exact .dropHandles
  | take fault =>
    simp only [step] at h
    split at h
    · next reading msg rest hp hm => exact take_transition hp hm (Option.some.inj h)
    · cases h
  | poll => exact poll_transition h
  | exit =>
    simp only [step] at h
    split at h
    · next hp hm hh =>
      obtain ⟨rfl, rfl⟩ := Prod.mk.inj (Option.some.inj h)
      exact .exit hp hm hh
    · cases h
  | write payload =>
    simp only [step] at h
    split at h
    · next hup =>
      split_ifs at h with hsize
      obtain ⟨rfl, rfl⟩ := Prod.mk.inj (Option.some.inj h)
      exact .write hup hsize
    · cases h
  | arrive n =>
    obtain ⟨rfl, rfl⟩ := Prod.mk.inj (Option.some.inj h)
    exact .arrive
  | hangUp message n =>
    simp only [step] at h
    split at h
    · next hup =>
      obtain ⟨rfl, rfl⟩ := Prod.mk.inj (Option.some.inj h)
      exact .hangUp hup
    · cases h
  | receive c =>
    obtain ⟨rfl, rfl⟩ := Prod.mk.inj (Option.some.inj h)
    exact .receive
  | dropReceiver c =>
    obtain ⟨rfl, rfl⟩ := Prod.mk.inj (Option.some.inj h)
    exact .dropReceiver

theorem next_transition {w w' : World IpcClient Event} (h : (client json).next w a = some w') :
    ∃ es, Transition json w.state a w'.state es ∧ w'.trace = es ++ w.trace := by
  obtain ⟨es, hs, htr⟩ := System.next_eq_some.mp h
  exact ⟨es, step_transition hs, htr⟩

theorem taken_transition {ok : World IpcClient ClientStep → Action → Prop}
    {w : World IpcClient ClientStep} (h : (client json).recorded.RunWhere ok w) {st : ClientStep} {tr : List ClientStep}
    (ht : st :: tr <:+ w.trace) : Transition json st.before st.action st.after st.events := by
  obtain ⟨-, -, -, hs⟩ := h.taken ht
  exact step_transition hs

/-! What the arms of the loop show. -/

variable {e : Event} {data : List UInt8}

theorem abandon_event {reply : Reply} {msg : ClientMsg} (h : msg.abandon reply = some e) :
    ∃ req respTx, e = .replied req respTx reply := by
  cases msg with
  | request req respTx =>
    cases h
    exact ⟨req, respTx, rfl⟩
  | subscribe => cases h

theorem exit_event (h : e ∈ s.exit.2) : ∃ req respTx, e = .replied req respTx .actorEnded := by
  obtain ⟨msg, -, hmsg⟩ := List.mem_filterMap.mp (List.mem_reverse.mp h)
  exact abandon_event hmsg

theorem readArm_event (h : e ∈ (s.readArm json data).2) :
    (∃ req respTx, e = .replied req respTx .actorEnded) ∨
      (∃ c args, e = .delivered c args) ∨ ∃ c, e = .pruned c := by
  unfold readArm at h
  split_ifs at h
  · exact .inl (exit_event h)
  · split at h
    · next o topic args _ =>
      obtain ⟨c, -, rfl⟩ := List.mem_map.mp (List.mem_reverse.mp h)
      split_ifs
      · exact .inr (.inl ⟨c, args, rfl⟩)
      · exact .inr (.inr ⟨c, rfl⟩)
    · cases h

theorem readArm_phase (json : SerdeJson) (s : IpcClient) (data : List UInt8) :
    (s.readArm json data).1.phase = .ended ∨
      (s.readArm json data).1.phase = .selecting (some .start) := by
  unfold readArm
  split_ifs
  · exact .inl rfl
  · split <;> exact .inr rfl

theorem readArm_stream (json : SerdeJson) (s : IpcClient) (data : List UInt8) :
    (s.readArm json data).1.arrived = s.arrived ∧ (s.readArm json data).1.coming = s.coming ∧
      (s.readArm json data).1.hungUp = s.hungUp := by
  unfold readArm
  split_ifs
  · exact ⟨rfl, rfl, rfl⟩
  · split <;> exact ⟨rfl, rfl, rfl⟩

theorem subscribe_event {o topic : String} {updates : Nat} {fault : Option String}
    (h : e ∈ (s.subscribe json o topic updates fault).2) :
    e = .sent (.subscribe o topic) ∨ e = .registered o topic updates := by
  obtain h | h := List.mem_append.mp h
  · split at h
    · exact .inl (List.mem_singleton.mp h)
    · cases h
  · exact .inr (List.mem_singleton.mp h)

/-! The messages that the concrete runs are about, with their JSON texts. -/

def textBytes (text : String) : List UInt8 := text.toList.map fun c => UInt8.ofNat c.toNat

def callOf (id : String) : Call := ⟨⟨id⟩, "o", "m", .null⟩

def eventText : List UInt8 :=
  textBytes "\x7b\"Event\":\x7b\"object_name\":\"o\",\"topic\":\"t\",\"args\":null\x7d\x7d"

def subscribedText : List UInt8 :=
  textBytes "\x7b\"Subscribed\":\x7b\"object_name\":\"o\",\"topic\":\"t\"\x7d\x7d"

def resultText : List UInt8 :=
  textBytes "\x7b\"Result\":\x7b\"call_id\":\"1\",\"object_name\":\"o\",\"value\":null\x7d\x7d"

def textJson : SerdeJson where
  toVec
    | .publish _ _ _ =>
      textBytes "\x7b\"Publish\":\x7b\"object_name\":\"o\",\"topic\":\"t\",\"args\":null\x7d\x7d"
    | .subscribe _ _ =>
      textBytes "\x7b\"Subscribe\":\x7b\"object_name\":\"o\",\"topic\":\"t\"\x7d\x7d"
    | .call k =>
      textBytes "\x7b\"Call\":\x7b\"call_id\":\"" ++ textBytes k.callId.id ++
        textBytes "\",\"object_name\":\"o\",\"method\":\"m\",\"args\":null\x7d\x7d"
    | _ => []
  fromSlice data :=
    if data = eventText then .ok (.event "o" "t" .null)
    else if data = subscribedText then .ok (.subscribed "o" "t")
    else if data = resultText then .ok (.result ⟨"1"⟩ "o" .null)
    else .error "expected value"

end IpcBroker.IpcClient
