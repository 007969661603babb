import IpcBroker.Client.FrameIntegrity

/-! Which packet the client actor takes for the answer to a request: as long as a request that is
answered is taken only when no earlier answer is still to come, it is the request's own answer or
none. -/

namespace IpcBroker

/-- What ties an answer to its request. -/
inductive AnswerKey
  | call (callId : Option CallId)
  | object (objectName : String)
deriving DecidableEq

def RpcRequest.answerKey? : RpcRequest → Option AnswerKey
  | .call k => some (.call (some k.callId))
  | .hasObject o => some (.object o)
  | _ => none

def RpcResponse.answerKey? : RpcResponse → Option AnswerKey
  | .result c _ _ => some (.call (some c))
  | .error c _ _ => some (.call c)
  | .hasObjectResult o _ => some (.object o)
  | _ => none

namespace IpcClient
open Function Foundation

def Event.sentKey? : Event → Option AnswerKey
  | .sent req => req.answerKey?
  | _ => none

def keyOf (json : SerdeJson) (data : List UInt8) : Option AnswerKey :=
  match json.fromSlice data with
  | .ok resp => resp.answerKey?
  | .error _ => none

def sentKeys (tr : List Event) : List AnswerKey := chronicle Event.sentKey? tr

def writtenKeys (json : SerdeJson) (tr : List Event) : List AnswerKey :=
  (written tr).filterMap (keyOf json)

def returnedKeys (json : SerdeJson) (tr : List Event) : List AnswerKey :=
  (returned tr).filterMap (keyOf json)

/-- The broker writes an answer only to a request that has been sent and not answered yet. -/
def brokerAnswers (json : SerdeJson) (w : World IpcClient Event) : Action → Bool
  | .write payload =>
    (keyOf json payload).all fun key =>
      (writtenKeys json w.trace).count key < (sentKeys w.trace).count key
  | _ => true

def drained (s : IpcClient) : Bool := s.hungUp.isSome && s.arrived.isEmpty && s.coming.isEmpty

/-- A request that is answered is taken only when the answer to every request sent before it has
been read, or nothing can be read any more. -/
def takesInTurn (json : SerdeJson) (w : World IpcClient Event) : Action → Bool
  | .take _ =>
    match w.state.mailbox with
    | .request req _ :: _ =>
      req.answerKey? = none || w.state.drained || (sentKeys w.trace).all fun key =>
        (sentKeys w.trace).count key ≤ (returnedKeys json w.trace).count key
    | _ => true
  | _ => true

def inTurn (json : SerdeJson) (w : World IpcClient Event) (a : Action) : Bool :=
  brokerAnswers json w a && readUntouched w a && takesInTurn json w a

/-- What the callers get from the replies. -/
structure Correlated (json : SerdeJson) (tr : List Event) : Prop where
  result : ∀ (T : Type) (fromValue : Value → Except String T) k respTx reply v,
    Event.replied (.call k) respTx reply ∈ tr → remoteCall fromValue reply = .ok v →
    ∃ data ∈ written tr, ∃ o value, json.fromSlice data = .ok (.result k.callId o value) ∧
      fromValue value = .ok v
  error : ∀ (T : Type) (fromValue : Value → Except String T) k respTx reply message,
    Event.replied (.call k) respTx reply ∈ tr →
    remoteCall fromValue reply = .error (.custom .other ("Remote error: " ++ message)) →
    ∃ data ∈ written tr, ∃ o, json.fromSlice data = .ok (.error (some k.callId) o message)
  object : ∀ o respTx reply b, Event.replied (.hasObject o) respTx reply ∈ tr →
    hasObject reply = .ok b →
    ∃ data ∈ written tr, json.fromSlice data = .ok (.hasObjectResult o b)

/-- A reply to a request with the key `key` has the request's own answer, or none. -/
def Answers (json : SerdeJson) (tr : List Event) (key : AnswerKey) : Reply → Prop
  | .received (.ok resp) =>
    (∃ data ∈ written tr, json.fromSlice data = .ok resp) ∧
      ∀ key', resp.answerKey? = some key' → key' = key
  | .received (.error e) => ∀ message, e ≠ .custom .other message
  | _ => True

variable {json : SerdeJson} {s s' : IpcClient} {a : Action} {es tr : List Event}
  {req : RpcRequest} {respTx : Nat} {reply : Reply} {key : AnswerKey} {w w' : World IpcClient Event}

theorem drained_iff : s.drained = true ↔ s.hungUp ≠ none ∧ s.arrived = [] ∧ s.coming = [] := by
  simp only [drained, Bool.and_eq_true, List.isEmpty_iff, Option.isSome_iff_ne_none, and_assoc]

theorem read_error_kind {r : ReadPacket} {e : IoError} {rest : List UInt8}
    (h : s.read r = .ready (.error e) rest) (message : String) : e ≠ .custom .other message := by
  unfold read at h
  split at h
  · cases h
    nofun
  · exact ReadPacket.poll_error_kind h message

theorem sentKeys_append : sentKeys (es ++ tr) = sentKeys tr ++ sentKeys es := chronicle_append

theorem writtenKeys_append :
    writtenKeys json (es ++ tr) = writtenKeys json tr ++ writtenKeys json es := by
  rw [writtenKeys, written_append, List.filterMap_append]
  rfl

theorem returnedKeys_append :
    returnedKeys json (es ++ tr) = returnedKeys json tr ++ returnedKeys json es := by
  rw [returnedKeys, returned_append, List.filterMap_append]
  rfl

theorem Answers.append (h : Answers json tr key reply) (es : List Event) :
    Answers json (es ++ tr) key reply := by
  cases reply with
  | received result =>
    cases result with
    | ok resp =>
      obtain ⟨⟨data, hdata, hresp⟩, hkey⟩ := h
      refine ⟨⟨data, ?_, hresp⟩, hkey⟩
      rw [written_append]
      exact List.mem_append_left _ hdata
    | error e => exact h
  | _ => trivial

theorem expects_of_key (h : req.answerKey? = some key) : expectsResponse req = true := by
  cases req with
  | call | hasObject => rfl
  | _ => cases h

theorem sentKeys_calm (h : ∀ e ∈ es, e.sentKey? = none) : sentKeys es = [] := chronicle_none h

theorem Transition.sent (h : Transition json s a s' es) :
    sentKeys es = [] ∨ ∃ fault req respTx rest key, a = .take fault ∧
      s.mailbox = .request req respTx :: rest ∧ req.answerKey? = some key ∧
      s'.phase = .awaiting req respTx .start ∧ es = [.sent req] := by
  cases h with
  | @requestAwaits fault reading req respTx rest bytes hp hm hw he =>
    cases hk : req.answerKey? with
    | none => exact .inl (sentKeys_calm (by simpa [Event.sentKey?] using hk))
    | some key => exact .inr ⟨fault, req, respTx, rest, key, rfl, hm, hk, rfl, rfl⟩
  | @requestDone fault reading req respTx rest bytes hp hm hw he =>
    left
    cases hk : req.answerKey? with
    | none => exact sentKeys_calm (by simpa [Event.sentKey?] using hk)
    | some key => cases he.symm.trans (expects_of_key hk)
  | issueEnded =>
    refine .inl (sentKeys_calm fun e he => ?_)
    obtain ⟨req, respTx, rfl⟩ := abandon_event (Option.mem_toList.mp he)
    rfl
  | exit =>
    refine .inl (sentKeys_calm fun e he => ?_)
    obtain ⟨req, respTx, rfl⟩ := exit_event he
    rfl
  | pollPacket =>
    refine .inl (sentKeys_calm fun e he => ?_)
    obtain he | he := List.mem_append.mp he
    · obtain ⟨req, respTx, rfl⟩ | ⟨c, args, rfl⟩ | ⟨c, rfl⟩ := readArm_event he <;> rfl
    · cases List.mem_singleton.mp he
      rfl
  | subscribe =>
    refine .inl (sentKeys_calm fun e he => ?_)
    obtain rfl | rfl := subscribe_event he <;> rfl
  | _ => exact .inl (sentKeys_calm (by simp [Event.sentKey?]))

theorem Transition.written (h : Transition json s a s' es) :
    written es = [] ∨ ∃ payload, a = .write payload ∧ es = [.incoming payload] := by
  cases h with
  | write => exact .inr ⟨_, rfl, rfl⟩
  | issueEnded =>
    refine .inl (written_calm fun e he => ?_)
    obtain ⟨req, respTx, rfl⟩ := abandon_event (Option.mem_toList.mp he)
    rfl
  | exit => exact .inl (written_calm exit_calm)
  | pollPacket =>
    left
    rw [written_append, written_calm readArm_calm, List.append_nil]
    rfl
  | subscribe => exact .inl (written_calm subscribe_calm)
  | _ => exact .inl rfl

theorem Transition.awaiting {reading : ReadPacket} (h : Transition json s a s' es)
    (hp : s'.phase = .awaiting req respTx reading) :
    (∃ reading', s.phase = .awaiting req respTx reading' ∧ (∀ fault, a ≠ .take fault) ∧
      (s.drained = true → reading'.held = [] → s'.drained = true ∧ reading.held = [])) ∨
    ∃ fault rest, a = .take fault ∧ s.mailbox = .request req respTx :: rest ∧
      es = [.sent req] ∧ s'.drained = s.drained ∧ reading = .start := by
  cases h with
  | requestAwaits hp' hm =>
    cases hp
    exact .inr ⟨_, _, rfl, hm, rfl, rfl, rfl⟩
  | awaitPending hp' hr =>
    cases hp
    refine .inl ⟨_, hp', nofun, fun hd hheld => ?_⟩
    obtain ⟨hup, harr, hcom⟩ := drained_iff.mp hd
    exact ⟨drained_iff.mpr ⟨hup, rfl, hcom⟩, by rw [read_pending hr, hheld, harr]; rfl⟩
  | pollPacket hp' =>
    obtain hp'' | hp'' := readArm_phase json _ _ <;> cases hp''.symm.trans hp
  | arrive =>
    refine .inl ⟨_, hp, nofun, fun hd hheld => ⟨?_, hheld⟩⟩
    obtain ⟨hup, harr, hcom⟩ := drained_iff.mp hd
    refine drained_iff.mpr ⟨hup, ?_, ?_⟩
    · rw [harr, hcom, List.take_nil]
      rfl
    · rw [hcom, List.drop_nil]
  | write hup | hangUp hup =>
    refine .inl ⟨_, hp, nofun, fun hd => ?_⟩
    exact absurd hup (drained_iff.mp hd).1
  | issue | issueEnded | dropHandles | receive | dropReceiver =>
    exact .inl ⟨_, hp, nofun, fun hd hheld => ⟨hd, hheld⟩⟩
  | _ => cases hp

theorem Transition.replied (h : Transition json s a s' es)
    (hm : Event.replied req respTx reply ∈ es) (hk : req.answerKey? = some key) :
    (∀ tr, Answers json tr key reply) ∨ ∃ reading data rest,
      s.phase = .awaiting req respTx reading ∧ s.read reading = .ready (.ok data) rest ∧
        reply = replyOf json data ∧ es = [.replied req respTx reply, .returned data] := by
  cases h with
  | issueEnded =>
    obtain ⟨req', respTx', heq⟩ := abandon_event (Option.mem_toList.mp hm)
    cases heq
    exact .inl fun _ => trivial
  | requestFailed hp hmail hw =>
    cases List.mem_singleton.mp hm
    exact .inl fun _ => writePacket_error hw
  | requestDone hp hmail hw he =>
    -- a request with an answer is none of these
    obtain hm | hm := List.mem_cons.mp hm
    · cases hm
      cases he.symm.trans (expects_of_key hk)
    · cases List.mem_singleton.mp hm
  | subscribe => obtain hm | hm := subscribe_event hm <;> cases hm
  | pollPacket =>
    obtain hm | hm := List.mem_append.mp hm
    · obtain ⟨req', respTx', heq⟩ | ⟨c, args, heq⟩ | ⟨c, heq⟩ := readArm_event hm <;> cases heq
      exact .inl fun _ => trivial
    · cases List.mem_singleton.mp hm
  | awaitPacket hp hr =>
    obtain hm | hm := List.mem_cons.mp hm
    · cases hm
      exact .inr ⟨_, _, _, hp, hr, rfl, rfl⟩
    · cases List.mem_singleton.mp hm
  | awaitFailed hp hr =>
    cases List.mem_singleton.mp hm
    exact .inl fun _ => read_error_kind hr
  | exit =>
    obtain ⟨req', respTx', heq⟩ := exit_event hm
    cases heq
    exact .inl fun _ => trivial
  | _ => simp at hm

/-- Every answer belongs to a request sent, and while a request with an answer waits for its
packet, no other answer is still to come. -/
structure CorrelationInv (json : SerdeJson) (w : World IpcClient Event) : Prop where
  answered : ∀ key, (writtenKeys json w.trace).count key ≤ (sentKeys w.trace).count key
  waiting : ∀ req respTx reading key, w.state.phase = .awaiting req respTx reading →
    req.answerKey? = some key → (w.state.drained = true ∧ reading.held = []) ∨
      ∀ key', key' ≠ key →
        (sentKeys w.trace).count key' ≤ (returnedKeys json w.trace).count key'
  replies : ∀ req respTx reply key, Event.replied req respTx reply ∈ w.trace →
    req.answerKey? = some key → Answers json w.trace key reply

theorem answered_step (hok : brokerAnswers json w a = true) (h : Transition json w.state a s' es)
    (hI : ∀ key, (writtenKeys json w.trace).count key ≤ (sentKeys w.trace).count key)
    (key : AnswerKey) :
    (writtenKeys json (es ++ w.trace)).count key ≤ (sentKeys (es ++ w.trace)).count key := by
  rw [writtenKeys_append, sentKeys_append, List.count_append, List.count_append]
  have hle := hI key
  obtain hnone | ⟨payload, rfl, rfl⟩ := h.written
  · have hnew : writtenKeys json es = [] := by
      rw [writtenKeys, hnone]
      rfl
    rw [hnew]
    exact Nat.le_add_right_of_le hle
  · cases hk : keyOf json payload with
    | none =>
      have hnew : writtenKeys json [.incoming payload] = [] := List.filterMap_cons_none hk
      rw [hnew]
      exact Nat.le_add_right_of_le hle
    | some key' =>
      have hnew : writtenKeys json [.incoming payload] = [key'] := List.filterMap_cons_some hk
      rw [hnew]
      by_cases hkey : key' = key
      · subst hkey
        simp only [brokerAnswers, hk, Option.all_some, decide_eq_true_eq] at hok
        rw [List.count_singleton_self]
        exact Nat.le_add_right_of_le hok
      · rw [List.count_singleton, if_neg (by simpa using hkey)]
        exact Nat.le_add_right_of_le hle

theorem waiting_step (hI : CorrelationInv json w) (hok : takesInTurn json w a = true)
    (h : Transition json w.state a s' es) {reading : ReadPacket}
    (hp : s'.phase = .awaiting req respTx reading) (hk : req.answerKey? = some key) :
    (s'.drained = true ∧ reading.held = []) ∨ ∀ key', key' ≠ key →
      (sentKeys (es ++ w.trace)).count key' ≤ (returnedKeys json (es ++ w.trace)).count key' := by
  simp only [sentKeys_append, returnedKeys_append, List.count_append]
  obtain ⟨reading', hp', hnt, hkeep⟩ | ⟨fault, rest, rfl, hm, rfl, hd, rfl⟩ := h.awaiting hp
  · obtain ⟨hd, hheld⟩ | hle := hI.waiting req respTx reading' key hp' hk
    · exact .inl (hkeep hd hheld)
    · right
      intro key' hne
      obtain hsent | ⟨fault, req', respTx', rest, key'', ha, -⟩ := h.sent
      · rw [hsent]
        exact Nat.le_add_right_of_le (hle key' hne)
      · exact absurd ha (hnt fault)
  · simp only [takesInTurn, hm, hk, reduceCtorEq, decide_false, Bool.false_or, Bool.or_eq_true] at hok
    obtain hdrained | hall := hok
    · exact .inl ⟨hd ▸ hdrained, rfl⟩
    · right
      intro key' hne
      have hnew : (sentKeys [.sent req]).count key' = 0 := by
        have hkeys : sentKeys [.sent req] = [key] := by
          have hkey : Event.sentKey? (.sent req) = some key := hk
          rw [sentKeys, chronicle, List.filterMap_cons_some hkey]
          rfl
        rw [hkeys, List.count_singleton, if_neg (by simpa using hne.symm)]
      rw [hnew]
      refine Nat.le_add_right_of_le ?_
      by_cases hmem : key' ∈ sentKeys w.trace
      · exact of_decide_eq_true (List.all_eq_true.mp hall key' hmem)
      · rw [List.count_eq_zero_of_not_mem hmem]
        exact Nat.zero_le _

theorem key_of_packet (hI : CorrelationInv json w) {reading : ReadPacket} {data rest : List UInt8} {key' : AnswerKey}
    (hp : w.state.phase = .awaiting req respTx reading) (hk : req.answerKey? = some key)
    (hr : w.state.read reading = .ready (.ok data) rest)
    (horder : returned w.trace ++ [data] <+: written w.trace)
    (hkey : keyOf json data = some key') : key' = key := by
  by_contra hne
  obtain ⟨hd, hheld⟩ | hle := hI.waiting req respTx reading key hp hk
  · -- nothing can be read any more
    obtain ⟨hframe, -⟩ := read_ready hr
    have hlength := congrArg List.length hframe
    rw [hheld, (drained_iff.mp hd).2.1, frame] at hlength
    simp only [List.length_append, List.length_nil, length_beBytes] at hlength
    omega
  · have hsub := (horder.filterMap (keyOf json)).sublist.count_le key'
    rw [List.filterMap_append, List.filterMap_cons_some hkey, List.filterMap_nil,
      List.count_append, List.count_singleton_self] at hsub
    have hreturned := hle key' hne
    have hanswered := hI.answered key'
    rw [writtenKeys] at hanswered
    rw [returnedKeys] at hreturned
    omega

theorem CorrelationInv.step (hI : CorrelationInv json w)
    (hstream' : StreamInv w'.state w'.trace) (hok : inTurn json w a = true)
    (h : Transition json w.state a w'.state es) (htr : w'.trace = es ++ w.trace) :
    CorrelationInv json w' := by
  rw [inTurn, Bool.and_eq_true, Bool.and_eq_true] at hok
  obtain ⟨⟨hanswers, -⟩, hturn⟩ := hok
  refine ⟨?_, ?_, ?_⟩
  · intro key
    rw [htr]
    exact answered_step hanswers h hI.answered key
  · intro req respTx reading key hp hk
    rw [htr]
    exact waiting_step hI hturn h hp hk
  · intro req respTx reply key hm hk
    rw [htr] at hm ⊢
    obtain hm | hm := List.mem_append.mp hm
    · obtain hans | ⟨reading, data, rest, hp, hr, rfl, rfl⟩ := h.replied hm hk
      · exact hans _
      · have horder := hstream'.in_order
        rw [htr, returned_append, written_append] at horder
        have hwritten : written [Event.replied req respTx (replyOf json data), .returned data] = [] :=
          rfl
        rw [hwritten, List.append_nil] at horder
        cases hslice : json.fromSlice data with
        | error e =>
          simp only [replyOf, hslice]
          nofun
        | ok resp =>
          simp only [replyOf, hslice]
          refine ⟨⟨data, ?_, hslice⟩, fun key' hkey => ?_⟩
          · rw [written_append]
            exact List.mem_append_left _ (horder.subset (List.mem_append_right _ List.mem_cons_self))
          · refine key_of_packet hI hp hk hr horder ?_
            simp only [keyOf, hslice, hkey]
    · exact (hI.replies req respTx reply key hm hk).append es

theorem correlationInv (h : (client json).RunWhere (fun w a => inTurn json w a = true) w) :
    CorrelationInv json w := by
  have huntouched : ∀ w a, inTurn json w a = true → readUntouched w a = true := by
    intro w a hok
    rw [inTurn, Bool.and_eq_true, Bool.and_eq_true] at hok
    exact hok.1.2
  refine h.invariant ?_ ?_
  · rintro _ rfl
    exact ⟨fun _ => Nat.le_refl 0, nofun, nofun⟩
  · intro w a w' hr hI hok hn
    obtain ⟨es, ht, htr⟩ := next_transition hn
    exact hI.step (streamInv huntouched (.step hr hok hn)) hok ht htr

/-! What the callers make of a reply. -/

theorem finish_ok {T : Type} {onResponse : RpcResponse → Except IoError T} {v : T}
    (h : reply.finish onResponse = .ok v) :
    ∃ resp, reply = .received (.ok resp) ∧ onResponse resp = .ok v := by
  cases reply with
  | received result =>
    cases result with
    | ok resp => exact ⟨resp, rfl, h⟩
    | error e => cases h
  | _ => cases h

theorem remoteCall_ok {T : Type} {fromValue : Value → Except String T} {v : T}
    (h : remoteCall fromValue reply = .ok v) :
    ∃ c o value, reply = .received (.ok (.result c o value)) ∧ fromValue value = .ok v := by
  obtain ⟨resp, rfl, hv⟩ := finish_ok h
  cases resp with
  | result c o value =>
    simp only [remoteCall.onResponse] at hv
    split at hv
    · next v' hvalue =>
      cases hv
      exact ⟨c, o, value, rfl, hvalue⟩
    · cases hv
  | _ => cases hv

theorem remoteCall_remoteError {T : Type} {fromValue : Value → Except String T} {message : String}
    (h : remoteCall fromValue reply = .error (.custom .other ("Remote error: " ++ message))) :
    reply = .received (.error (.custom .other ("Remote error: " ++ message))) ∨
      ∃ c o, reply = .received (.ok (.error c o message)) := by
  cases reply with
  | received result =>
    cases result with
    | error e =>
      cases h
      exact .inl rfl
    | ok resp =>
      right
      cases resp with
      | error c o message' =>
        have htext : "Remote error: " ++ message' = "Remote error: " ++ message :=
          (IoError.custom.inj (Except.error.inj h)).2
        exact ⟨c, o, by rw [(String.append_right_inj _).mp htext]⟩
      | result c o value =>
        simp only [remoteCall, Reply.finish, remoteCall.onResponse] at h
        split at h <;> cases h
      | _ => cases h
  | _ => cases h

theorem hasObject_ok {b : Bool} (h : hasObject reply = .ok b) :
    ∃ o, reply = .received (.ok (.hasObjectResult o b)) := by
  obtain ⟨resp, rfl, hb⟩ := finish_ok h
  cases resp with
  | hasObjectResult o b' =>
    cases hb
    exact ⟨o, rfl⟩
  | _ => cases hb

/-- In a run where the broker answers what has been asked, and a request with an answer is taken
only when every earlier answer has been read, each reply is to the caller's own request. -/
theorem replies_correlated (h : (client json).RunWhere (fun w a => inTurn json w a = true) w) :
    Correlated json w.trace := by
  have hI := correlationInv h
  refine ⟨?_, ?_, ?_⟩
  · intro T fromValue k respTx reply v hm hv
    obtain ⟨c, o, value, rfl, hvalue⟩ := remoteCall_ok hv
    obtain ⟨⟨data, hdata, hslice⟩, hkey⟩ := hI.replies _ _ _ _ hm rfl
    cases hkey _ rfl
    exact ⟨data, hdata, o, value, hslice, hvalue⟩
  · intro T fromValue k respTx reply message hm hv
    obtain rfl | ⟨c, o, rfl⟩ := remoteCall_remoteError hv
    · exact absurd rfl (hI.replies _ _ _ _ hm rfl _)
    · obtain ⟨⟨data, hdata, hslice⟩, hkey⟩ := hI.replies _ _ _ _ hm rfl
      cases hkey _ rfl
      exact ⟨data, hdata, o, hslice⟩
  · intro o respTx reply b hm hb
    obtain ⟨o', rfl⟩ := hasObject_ok hb
    obtain ⟨⟨data, hdata, hslice⟩, hkey⟩ := hI.replies _ _ _ _ hm rfl
    cases hkey _ rfl
    exact ⟨data, hdata, hslice⟩

def Event.gives (c : CallId) : Event → Bool
  | .replied (.call k) _ (.received (.ok (.result _ _ _))) => k.callId = c
  | _ => false

def answersInTurn : List Action :=
  [.issue (.subscribe "o" "t"), .take none, .write subscribedText, .arrive 100, .poll,
    .issue (.remoteCall (callOf "1")), .take none, .write resultText, .arrive 100, .poll]

theorem replies_correlated_inTurn :
    ∃ w, (client textJson).exec (fun w a => inTurn textJson w a = true) ⟨initial, []⟩
        answersInTurn = some w ∧ w.trace.any (Event.gives ⟨"1"⟩) = true ∧
      Correlated textJson w.trace := by
  obtain ⟨w, hr, he, hgives⟩ := System.RunWhere.of_exec_any (client textJson)
    (fun w a => inTurn textJson w a = true) answersInTurn
    (fun w => w.trace.any (Event.gives ⟨"1"⟩)) rfl (by decide)
  exact ⟨w, he, hgives, replies_correlated hr⟩

/-- The acknowledgement of a subscription is read for the answer to one call, and the answer to
that for the answer to the next call. -/
def answersCrossed : List Action :=
  [.issue (.subscribe "o" "t"), .take none, .write subscribedText,
    .issue (.remoteCall (callOf "1")), .take none, .arrive 100, .poll, .write resultText,
    .issue (.remoteCall (callOf "2")), .take none, .arrive 100, .poll]

theorem answer_to_another_call :
    ¬ ∀ w, (client textJson).RunWhere
        (fun w a => (brokerAnswers textJson w a && readUntouched w a) = true) w →
      Correlated textJson w.trace := by
  intro hall
  obtain ⟨w, hr, -, hgives⟩ := System.RunWhere.of_exec_any (client textJson)
    (fun w a => (brokerAnswers textJson w a && readUntouched w a) = true) answersCrossed
    (fun w => w.trace.any (Event.gives ⟨"2"⟩)) rfl (by decide)
  obtain ⟨e, he, hgives⟩ := List.any_eq_true.mp hgives
  unfold Event.gives at hgives
  split at hgives
  · next k respTx c o value =>
    have hid : k.callId = ⟨"2"⟩ := of_decide_eq_true hgives
    obtain ⟨data, -, o', value', hslice, -⟩ :=
      (hall w hr).result Value .ok k respTx _ value he rfl
    simp only [textJson, hid] at hslice
    split_ifs at hslice <;> simp at hslice
  · cases hgives

end IpcClient
end IpcBroker
