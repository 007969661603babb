import IpcBroker.Broker.CallCustody
import IpcBroker.Broker.ChannelOrder
import IpcBroker.Broker.HandlerProgress

/-! Calls with equal ids: as long as no call is recorded while another one with its id is still
outstanding, every response goes to the caller of the call it answers. -/

namespace IpcBroker
open Function Foundation

def Event.readBy? (y : ClientId) : Event → Option Call
  | .delivered z p => if z = y then p.call? else none
  | _ => none

def Event.answerOf? (y : ClientId) : Event → Option CallId
  | .received z p => if z = y then p.terminal? else none
  | _ => none

def readCalls (tr : List Event) (y : ClientId) : List Call := chronicle (Event.readBy? y) tr

def answerIds (tr : List Event) (y : ClientId) : List CallId := chronicle (Event.answerOf? y) tr

def Phase.lookups : Phase → Nat
  | .handling (.responseTake _ _) => 1
  | _ => 0

/-- The call that the last response of `z` answers: the oldest of those `z` had read and not
answered. -/
def answeredCall (z : ClientId) : List BrokerStep → Option SentCall
  | [] => none
  | st :: tr =>
    match st.action with
    | .receive x (some (.response r)) =>
      if x = z ∧ r.callId?.isSome then (held (.worker z) (callCustody tr)).head?
      else answeredCall z tr
    | _ => answeredCall z tr

namespace Broker

/-- Workers answer the calls they read one by one, in order, each once and with its id. -/
def answersInTurn (w : World Broker BrokerStep) : Action → Bool
  | .receive y (some (.response r)) =>
    r.callId?.all fun c =>
      ((readCalls w.events.trace y)[(answerIds w.events.trace y).length]?.map (·.callId)) = some c
  | _ => true

/-- Whoever has the call there can still see to its answer: it has been recorded, and its worker
is still connected. -/
def outstanding (s : Broker) : Holder → Bool
  | .caller x => (s.phase x).unrecorded?.isNone
  | .service _ | .flush _ => true
  | .channel y | .worker y => (s.phase y).rank ≤ 1

/-- No call is recorded while another call with its id is outstanding. -/
def idsApart (w : World Broker BrokerStep) : Action → Bool
  | .handler x =>
    match w.state.phase x with
    | .handling (.callInsert k _ _ _) =>
      (callCustody w.trace).all fun t =>
        !(w.state.outstanding t.1 && t.2.call.callId = k.callId)
    | _ => true
  | _ => true

def callsApart (w : World Broker BrokerStep) (a : Action) : Bool :=
  answersInTurn w a && idsApart w a

variable {s s' : Broker} {a : Action} {es : List Event} {x y z : ClientId} {k : Call}
  {w w' : World Broker BrokerStep} {p q : Holder} {c d : SentCall}

section Runs
variable {ok : World Broker BrokerStep → Action → Prop}

theorem call_of_unrecorded {p : Phase} (h : p.unrecorded? = some k) : p.call? = some k := by
  unfold Phase.unrecorded? at h
  split at h <;> cases h <;> rfl

theorem outstanding_back (h : broker.recorded.RunWhere ok w)
    (hn : broker.recorded.next w a = some w') (hc : (q, c) ∈ callCustody w'.trace)
    (hq : w'.state.outstanding q = true) :
    (∃ p, (p, c) ∈ callCustody w.trace ∧ w.state.outstanding p = true) ∨
      ∃ workerId workerTx, a = .handler c.caller ∧ (.caller c.caller, c) ∈ callCustody w.trace ∧
        w.state.phase c.caller = .handling (.callInsert c.call workerId workerTx ⟨c.caller⟩) ∧
          w'.state.calls = update w.state.calls c.call.callId (some (c.caller, ⟨c.caller⟩)) := by
  obtain ⟨es, ht, hev, hcust⟩ := custody_next hn
  rw [hcust] at hc
  obtain hold | henter | ⟨p, hmove, hold⟩ := mem_apply hc
  · cases q with
    | caller x =>
      cases hk : (w.state.phase x).unrecorded? with
      | none => exact .inl ⟨_, hold, by rw [outstanding, hk]; rfl⟩
      | some k =>
        obtain ⟨c', hheld, rfl, rfl⟩ := held_caller h (call_of_unrecorded hk)
        have hmem := mem_held.mpr hold
        rw [hheld] at hmem
        cases List.mem_singleton.mp hmem
        obtain hk' | ⟨workerId, workerTx, ha, hx, hcalls⟩ :=
          unrecorded_step (recorded_lifecycle h) ht hk
        · rw [outstanding, hk'] at hq
          cases hq
        · exact .inr ⟨workerId, workerTx, ha, hold, hx, hcalls⟩
    | service o | flush x => exact .inl ⟨_, hold, rfl⟩
    | channel y | worker y =>
      have hle := ht.rank y
      have hrank : (w'.state.phase y).rank ≤ 1 := of_decide_eq_true hq
      exact .inl ⟨_, hold, decide_eq_true (by omega)⟩
  · obtain ⟨x, k, rfl, rfl, rfl⟩ := handing_enter henter
    rw [outstanding, ht.dispatched rfl] at hq
    cases hq
  · left
    refine ⟨p, hold, ?_⟩
    have hcases := handing_cases w.state (fun x => (callsFrom w.events.trace x).length) a
    obtain ⟨hmove, -⟩ | hmove := hmove
    · rw [hmove] at hcases
      cases hcases with
      | handler hx hm =>
        cases hm with
        | forward | queue =>
          rw [outstanding, hx]
          rfl
        | flush => rfl
      | @write y =>
        have hle := ht.rank y
        have hrank : (w'.state.phase y).rank ≤ 1 := of_decide_eq_true hq
        exact decide_eq_true (by omega)
    · rw [hmove] at hcases
      cases hcases with
      | handler hx hm =>
        cases hm
        rfl

end Runs

/-! What a worker has read and not answered. -/

theorem readCalls_step (tr : List Event) (ht : Transition s a s' es) (y : ClientId) :
    (∃ msg rest, a = .write y ∧ s.channel y = msg :: rest ∧ s'.phase = s.phase ∧
      readCalls (es ++ tr) y = readCalls tr y ++ msg.call?.toList) ∨
    a ≠ .write y ∧ readCalls (es ++ tr) y = readCalls tr y := by
  by_cases ha : a = .write y
  · subst ha
    cases ht with
    | @write x msg rest hw hc =>
      refine .inl ⟨msg, rest, rfl, hc, rfl, ?_⟩
      rw [readCalls, chronicle_append]
      cases hk : msg.call? <;> simp [chronicle, readCalls, Event.readBy?, hk]
  · have hnone : ∀ e ∈ es, e.readBy? y = none := by
      intro e he
      unfold Event.readBy?
      split
      · next z p =>
        split_ifs with hz
        · subst hz
          cases ht with
          | write => exact absurd (by cases List.mem_singleton.mp he; rfl) ha
          | _ => simp at he
        · rfl
      · rfl
    refine .inr ⟨ha, ?_⟩
    rw [readCalls, chronicle_append, chronicle_none hnone, List.append_nil]
    rfl

theorem answerIds_step (tr : List Event) (ht : Transition s a s' es) (y : ClientId) :
    (∃ r i, a = .receive y (some (.response r)) ∧ r.callId? = some i ∧ s.phase y = .reading ∧
      s'.phase y = .handling (.responseTake r i) ∧
        answerIds (es ++ tr) y = answerIds tr y ++ [i]) ∨
    (∀ r i, a = .receive y (some (.response r)) → r.callId? ≠ some i) ∧
      answerIds (es ++ tr) y = answerIds tr y := by
  by_cases ha : ∃ r i, a = .receive y (some (.response r)) ∧ r.callId? = some i
  · obtain ⟨r, i, rfl, hi⟩ := ha
    have hd : dispatch (.response r) = some (.responseTake r i) := by
      rw [dispatch, hi]
      rfl
    refine .inl ⟨r, i, rfl, hi, ht.at_receive, ht.dispatched hd, ?_⟩
    rw [answerIds, chronicle_append, ht.events_receive]
    simp [chronicle, answerIds, Event.answerOf?, Packet.terminal?, hi]
  · have hnone : ∀ e ∈ es, e.answerOf? y = none := by
      intro e he
      unfold Event.answerOf?
      split
      · next z p =>
        split_ifs with hz
        · subst hz
          obtain ⟨rfl, -⟩ := ht.received he
          cases p with
          | request r => rfl
          | response r =>
            cases hi : r.callId? with
            | none => exact hi
            | some i => exact absurd ⟨r, i, rfl, hi⟩ ha
        · rfl
      · rfl
    refine .inr ⟨fun r i hr hi => ha ⟨r, i, hr, hi⟩, ?_⟩
    rw [answerIds, chronicle_append, chronicle_none hnone, List.append_nil]
    rfl

theorem Transition.entered_responseTake {resp : RpcResponse} {i : CallId}
    (ht : Transition s a s' es) (hq : s'.phase y = .handling (.responseTake resp i)) :
    s.phase y = .handling (.responseTake resp i) ∨
      a = .receive y (some (.response resp)) ∧ resp.callId? = some i := by
  obtain hq | he := ht.entered rfl hq
  · exact .inl hq
  · generalize hp : Phase.handling (.responseTake resp i) = p at he
    cases he with
    | receive _ hd =>
      cases hp
      obtain ⟨r, -, hpc⟩ | ⟨r, j, rfl, hj, hpc⟩ := dispatch_cases hd
      · cases r <;> cases hpc
      · cases hpc
        exact .inr ⟨rfl, hj⟩
    | @callRoute k workerId workerTx =>
      obtain ⟨v, tx, -, -, hroute⟩ | ⟨-, hroute⟩ := route_cases k workerId workerTx <;>
        · rw [hroute] at hp
          cases hp
    | _ => cases hp

theorem Transition.entered_responseForward {resp : RpcResponse} {tx : ClientSender}
    (ht : Transition s a s' es) (hq : s'.phase y = .handling (.responseForward resp tx)) :
    s.phase y = .handling (.responseForward resp tx) ∨
      ∃ i caller, a = .handler y ∧ s.phase y = .handling (.responseTake resp i) ∧
        s.calls i = some (caller, tx) := by
  obtain hq | he := ht.entered rfl hq
  · exact .inl hq
  · generalize hp : Phase.handling (.responseForward resp tx) = p at he
    cases he with
    | responseForward hx hc =>
      cases hp
      exact .inr ⟨_, _, rfl, hx, hc⟩
    | receive _ hd =>
      cases hp
      cases dispatch_later hd
    | callRoute => cases Phase.handling.inj hp ▸ route_later _ _ _
    | _ => cases hp

theorem Transition.responseTake_kept {resp : RpcResponse} {i : CallId}
    (ht : Transition s a s' es) (hq : s.phase y = .handling (.responseTake resp i)) :
    a = .handler y ∨ s'.phase y = .handling (.responseTake resp i) := by
  by_cases ha : a = .handler y
  · exact .inl ha
  · refine .inr (ht.handling_kept hq ha fun subsList hs => ?_)
    subst hs
    obtain ⟨o, topic, args, hx⟩ := ht.at_snapshot
    cases hq.symm.trans hx

theorem lookups_eq_zero {p : Phase} (h : ∀ r i, p ≠ .handling (.responseTake r i)) :
    p.lookups = 0 := by
  unfold Phase.lookups
  split
  · exact absurd rfl (h _ _)
  · rfl

theorem Transition.looked_up {resp : RpcResponse} {i : CallId}
    (ht : Transition s (.handler y) s' es) (hq : s.phase y = .handling (.responseTake resp i)) :
    (∃ caller tx, s.calls i = some (caller, tx) ∧ s'.calls = update s.calls i none ∧
      s'.phase y = .handling (.responseForward resp tx)) ∨
    s.calls i = none ∧ s'.calls = s.calls ∧ s'.phase y = .reading := by
  have hran : handleResponse s y resp i = (s', es) := Option.some.inj (ht.ran hq)
  unfold handleResponse at hran
  split at hran
  · next caller tx hc =>
    obtain ⟨rfl, -⟩ := Prod.mk.inj hran
    exact .inl ⟨caller, tx, hc, rfl, update_self ..⟩
  · next hc =>
    obtain ⟨rfl, -⟩ := Prod.mk.inj hran
    exact .inr ⟨hc, rfl, update_self ..⟩

section Runs
variable {ok : World Broker BrokerStep → Action → Prop}

theorem held_worker (h : broker.recorded.RunWhere ok w) (hn : broker.recorded.next w a = some w')
    (y : ClientId) :
    (∃ r i, a = .handler y ∧ w.state.phase y = .handling (.responseTake r i) ∧
      held (.worker y) (callCustody w'.trace) = (held (.worker y) (callCustody w.trace)).tail) ∨
    (∃ msg rest cs, a = .write y ∧ w.state.channel y = msg :: rest ∧
      cs.map SentCall.call = msg.call?.toList ∧ held (.worker y) (callCustody w'.trace) =
        held (.worker y) (callCustody w.trace) ++ cs) ∨
    a ≠ .write y ∧ (∀ r i, a = .handler y → w.state.phase y ≠ .handling (.responseTake r i)) ∧
      held (.worker y) (callCustody w'.trace) = held (.worker y) (callCustody w.trace) := by
  obtain ⟨es, ht, -, hcust⟩ := custody_next hn
  rw [hcust, held_apply]
  by_cases htake : a = .handler y ∧ ∃ r i, w.state.phase y = .handling (.responseTake r i)
  · obtain ⟨rfl, r, i, hy⟩ := htake
    refine .inl ⟨r, i, rfl, hy, ?_⟩
    simp only [handing, hy, handlerMove, Move.at, if_true]
  · by_cases hwrite : a = .write y
    · subst hwrite
      have hm : (held (.channel y) (callCustody w.trace)).map (·.call) =
          w.state.callsAt (.channel y) := custody_mirrors h (.channel y) fun _ hp => by cases hp
      obtain ⟨msg, rest, -, hc, -⟩ | ⟨hne, -⟩ := readCalls_step w.events.trace ht y
      · refine .inr (.inl ⟨msg, rest, ?_⟩)
        rw [callsAt, hc, List.filterMap_cons] at hm
        have hhand : ∀ number, w.state.handing number (.write y) =
            if msg.call?.isSome then .pass (.channel y) (.worker y) else .stay := by
          intro number
          simp only [handing, hc, List.head?_cons, Option.bind_some]
        rw [hhand]
        cases hk : msg.call? with
        | none => exact ⟨[], rfl, hc, rfl, (List.append_nil _).symm⟩
        | some k =>
          rw [hk] at hm
          obtain ⟨c, rest', hheld, hcall, -⟩ := List.map_eq_cons_iff.mp hm
          refine ⟨[c], rfl, hc, by rw [List.map_singleton, hcall]; rfl, ?_⟩
          simp [Move.at, hheld]
      · exact absurd rfl hne
    · refine .inr (.inr ⟨hwrite, fun r i ha hy => htake ⟨ha, r, i, hy⟩, ?_⟩)
      have hcases := handing_cases w.state (fun x => (callsFrom w.events.trace x).length) a
      generalize w.state.handing (fun x => (callsFrom w.events.trace x).length) a = m at hcases
      cases hcases with
      | stay => rfl
      | lose hp => exact if_neg (hp y).symm
      | keep hf => exact List.filter_eq_self.mpr fun c _ => hf y c
      | enter => simp [Move.at]
      | @write x =>
        have hxy : x ≠ y := fun hxy => hwrite (hxy ▸ rfl)
        simp [Move.at, Ne.symm hxy]
      | @handler x pc m hx hm =>
        cases hm with
        | stay => rfl
        | lose hp => exact if_neg (hp y).symm
        | answer =>
          have hxy : x ≠ y := by
            rintro rfl
            exact htake ⟨rfl, _, _, hx⟩
          exact if_neg fun hp => hxy (Holder.worker.inj hp).symm
        | forward | queue | take | flush => simp [Move.at]

structure WorkerInTurn (w : World Broker BrokerStep) (y : ClientId) (n : Nat) : Prop where
  answered : n + (w.state.phase y).lookups = (answerIds w.events.trace y).length
  read : n ≤ (readCalls w.events.trace y).length
  holds : (held (.worker y) (callCustody w.trace)).map (·.call) =
    (readCalls w.events.trace y).drop n
  inTurn : ∀ r i, w.state.phase y = .handling (.responseTake r i) →
    (readCalls w.events.trace y)[n]?.map (·.callId) = some i

theorem WorkerInTurn.kept {n : Nat} (hI : WorkerInTurn w y n)
    (hphase : ∀ r i, w'.state.phase y = .handling (.responseTake r i) ↔
      w.state.phase y = .handling (.responseTake r i))
    (hids : answerIds w'.events.trace y = answerIds w.events.trace y) {cs : List SentCall}
    (hreads : readCalls w'.events.trace y = readCalls w.events.trace y ++ cs.map (·.call))
    (hheld : held (.worker y) (callCustody w'.trace) =
      held (.worker y) (callCustody w.trace) ++ cs) : WorkerInTurn w' y n := by
  have hlookups : (w'.state.phase y).lookups = (w.state.phase y).lookups := by
    by_cases htake : ∃ r i, w.state.phase y = .handling (.responseTake r i)
    · obtain ⟨r, i, hy⟩ := htake
      rw [(hphase r i).mpr hy, hy]
    · rw [lookups_eq_zero fun r i hy => htake ⟨r, i, hy⟩,
        lookups_eq_zero fun r i hy => htake ⟨r, i, (hphase r i).mp hy⟩]
  refine ⟨?_, ?_, ?_, fun r i hy => ?_⟩
  · rw [hlookups, hids]
    exact hI.answered
  · rw [hreads, List.length_append]
    exact Nat.le_trans hI.read (Nat.le_add_right _ _)
  · rw [hheld, hreads, List.map_append, hI.holds, List.drop_append_of_le_length hI.read]
  · have hturn := hI.inTurn r i ((hphase r i).mp hy)
    obtain ⟨k, hk, -⟩ := Option.map_eq_some_iff.mp hturn
    rw [hreads, List.getElem?_append_left (List.getElem?_eq_some_iff.mp hk).1]
    exact hturn

theorem WorkerInTurn.step {n : Nat} (hI : WorkerInTurn w y n) (h : broker.recorded.RunWhere ok w)
    (hturn : answersInTurn w a = true) (hn : broker.recorded.next w a = some w') :
    ∃ n', WorkerInTurn w' y n' := by
  obtain ⟨es, ht, hev, -⟩ := custody_next hn
  have hread := readCalls_step w.events.trace ht y
  have hans := answerIds_step w.events.trace ht y
  rw [← hev] at hread hans
  obtain ⟨r, i, rfl, hy, htail⟩ | ⟨msg, rest, cs, rfl, hc, hcs, happend⟩ | ⟨hw, hnt, hsame⟩ :=
    held_worker h hn y
  · -- the response is looked up, and the worker is done with the call
    have hgone : ∀ r i, w'.state.phase y ≠ .handling (.responseTake r i) := by
      intro r' i' hy'
      obtain ⟨caller, tx, -, -, hq⟩ | ⟨-, -, hq⟩ := ht.looked_up hy <;> cases hq.symm.trans hy'
    have hreads : readCalls w'.events.trace y = readCalls w.events.trace y := by
      obtain ⟨msg, rest, hwr, -⟩ | ⟨-, hreads⟩ := hread
      · cases hwr
      · exact hreads
    have hids : answerIds w'.events.trace y = answerIds w.events.trace y := by
      obtain ⟨r', i', hrec, -⟩ | ⟨-, hids⟩ := hans
      · cases hrec
      · exact hids
    have hanswered := hI.answered
    rw [hy] at hanswered
    obtain ⟨k, hk, -⟩ := Option.map_eq_some_iff.mp (hI.inTurn r i hy)
    refine ⟨n + 1, ?_, ?_, ?_, fun r i hr => absurd hr (hgone r i)⟩
    · rw [lookups_eq_zero hgone, hids]
      exact hanswered
    · rw [hreads]
      exact (List.getElem?_eq_some_iff.mp hk).1
    · rw [htail, hreads, List.map_tail, hI.holds, List.tail_drop]
  · obtain ⟨msg', rest', -, hc', hphase, hreads⟩ | ⟨hne, -⟩ := hread
    · obtain ⟨rfl, -⟩ := List.cons.inj (hc.symm.trans hc')
      obtain ⟨r', i', hrec, -⟩ | ⟨-, hids⟩ := hans
      · cases hrec
      · exact ⟨n, hI.kept (fun r i => by rw [hphase]) hids (hcs ▸ hreads) happend⟩
    · exact absurd rfl hne
  · have hreads : readCalls w'.events.trace y = readCalls w.events.trace y := by
      obtain ⟨msg, rest, hwr, -⟩ | ⟨-, hreads⟩ := hread
      · exact absurd hwr hw
      · exact hreads
    obtain ⟨r, i, rfl, hi, hy, hy', hids⟩ | ⟨hne, hids⟩ := hans
    · -- a response has come: it answers the first call the worker still holds
      have hanswered := hI.answered
      rw [hy] at hanswered
      refine ⟨n, ?_, ?_, ?_, fun r' i' hr => ?_⟩
      · rw [hy', hids, List.length_append, ← hanswered]
        rfl
      · exact hreads ▸ hI.read
      · rw [hsame, hreads, hI.holds]
      · cases hy'.symm.trans hr
        rw [answersInTurn, hi, Option.all_some, ← hanswered] at hturn
        exact hreads ▸ of_decide_eq_true hturn
    · have hphase : ∀ r i, w'.state.phase y = .handling (.responseTake r i) ↔
          w.state.phase y = .handling (.responseTake r i) := by
        intro r i
        constructor
        · intro hr
          obtain hold | ⟨rfl, hi⟩ := ht.entered_responseTake hr
          · exact hold
          · exact absurd hi (hne r i rfl)
        · intro hr
          obtain ha | hkept := ht.responseTake_kept hr
          · exact absurd hr (hnt r i ha)
          · exact hkept
      have hnone : readCalls w'.events.trace y =
          readCalls w.events.trace y ++ ([] : List SentCall).map (·.call) := by
        rw [hreads, List.map_nil, List.append_nil]
      have hheld : held (.worker y) (callCustody w'.trace) =
          held (.worker y) (callCustody w.trace) ++ [] := by
        rw [hsame, List.append_nil]
      exact ⟨n, hI.kept hphase hids hnone hheld⟩

theorem workersInTurn (hturn : ∀ w a, ok w a → answersInTurn w a = true)
    (h : broker.recorded.RunWhere ok w) (y : ClientId) : ∃ n, WorkerInTurn w y n := by
  refine h.invariant (I := fun w => ∃ n, WorkerInTurn w y n) ?_ ?_
  · rintro _ ⟨items, rfl⟩
    exact ⟨0, rfl, Nat.le_refl _, rfl, nofun⟩
  · rintro w a w' hr ⟨n, hI⟩ hok hn
    exact hI.step hr (hturn w a hok) hn

theorem held_answered (hturn : ∀ w a, ok w a → answersInTurn w a = true)
    (h : broker.recorded.RunWhere ok w) {r : RpcResponse} {i : CallId}
    (hz : w.state.phase z = .handling (.responseTake r i)) :
    ∃ c rest, held (.worker z) (callCustody w.trace) = c :: rest ∧ c.call.callId = i := by
  obtain ⟨n, hI⟩ := workersInTurn hturn h z
  obtain ⟨k, hk, hid⟩ := Option.map_eq_some_iff.mp (hI.inTurn r i hz)
  obtain ⟨hlt, rfl⟩ := List.getElem?_eq_some_iff.mp hk
  have hholds := hI.holds
  rw [List.drop_eq_getElem_cons hlt] at hholds
  obtain ⟨c, rest, hheld, hcall, -⟩ := List.map_eq_cons_iff.mp hholds
  exact ⟨c, rest, hheld, by rw [hcall]; exact hid⟩

/-! One outstanding call for an id, and the entry of `calls` is that of its caller. -/

structure CallsApart (w : World Broker BrokerStep) : Prop where
  entry : ∀ p c, (p, c) ∈ callCustody w.trace → w.state.outstanding p = true →
    w.state.calls c.call.callId = some (c.caller, ⟨c.caller⟩) ∨
      w.state.calls c.call.callId = none ∧ 5 < (w.state.phase c.caller).rank
  alone : ∀ p q c d, (p, c) ∈ callCustody w.trace → w.state.outstanding p = true →
    (q, d) ∈ callCustody w.trace → w.state.outstanding q = true →
      c.call.callId = d.call.callId → c = d

theorem idsApart_spec {workerId : Option ClientId} {workerTx : Option ClientSender}
    {tx : ClientSender} (hok : idsApart w (.handler x) = true)
    (hx : w.state.phase x = .handling (.callInsert k workerId workerTx tx))
    (hc : (p, c) ∈ callCustody w.trace) (hp : w.state.outstanding p = true) :
    c.call.callId ≠ k.callId := by
  intro hid
  simp only [idsApart, hx] at hok
  have hfree := List.all_eq_true.mp hok _ hc
  simp [hp, hid] at hfree

theorem not_mem_lookedUp {r : RpcResponse} {i : CallId} {rest : List SentCall}
    (h : broker.recorded.RunWhere ok w) (hz : w.state.phase z = .handling (.responseTake r i))
    (hheld : held (.worker z) (callCustody w.trace) = c :: rest) {number : ClientId → Nat} :
    (q, c) ∉ (w.state.handing number (.handler z)).apply (callCustody w.trace) := by
  intro hc
  have hmove : w.state.handing number (.handler z) = .lose (.worker z) := by
    simp only [handing, hz, handlerMove]
  have hhead : (held (.worker z) (callCustody w.trace)).head? = some c := by rw [hheld]; rfl
  have hnodup := ((dropOldest_perm hhead).map Prod.snd).nodup_iff.mpr (callsNumbered h).distinct
  rw [hmove] at hc
  exact (List.nodup_cons.mp hnodup).1 (List.mem_map.mpr ⟨_, hc, rfl⟩)

theorem CallsApart.step (hI : CallsApart w) (hturn : ∀ w a, ok w a → answersInTurn w a = true)
    (h : broker.recorded.RunWhere ok w) (hapart : idsApart w a = true)
    (hn : broker.recorded.next w a = some w') : CallsApart w' := by
  obtain ⟨es, ht, -, hcust⟩ := custody_next hn
  constructor
  · intro q c hc hq
    obtain ⟨p, hold, hp⟩ | ⟨workerId, workerTx, -, -, -, hcalls⟩ := outstanding_back h hn hc hq
    · have hbefore := hI.entry p c hold hp
      have hrank := ht.rank c.caller
      obtain ⟨hsame, -⟩ | ⟨x, k, workerId, workerTx, tx, rfl, hx, hcalls, -⟩ |
        ⟨z, r, i, caller, tx, rfl, hz, -, hcalls, -⟩ | ⟨x, rfl, hx, hcalls⟩ := ht.calls
      · rw [hsame]
        exact hbefore.imp_right fun ⟨hnone, hgone⟩ => ⟨hnone, by omega⟩
      · rw [hcalls, update_of_ne (idsApart_spec hapart hx hold hp)]
        exact hbefore.imp_right fun ⟨hnone, hgone⟩ => ⟨hnone, by omega⟩
      · have hid : c.call.callId ≠ i := by
          rintro rfl
          obtain ⟨d, rest, hheld, hid⟩ := held_answered hturn h hz
          have hd : (.worker z, d) ∈ callCustody w.trace :=
            mem_held.mp (hheld ▸ List.mem_cons_self)
          have hout : w.state.outstanding (.worker z) = true := by
            rw [outstanding, hz]
            rfl
          obtain rfl := hI.alone p (.worker z) c d hold hp hd hout hid.symm
          exact not_mem_lookedUp h hz hheld (hcust ▸ hc)
        rw [hcalls, update_of_ne hid]
        exact hbefore.imp_right fun ⟨hnone, hgone⟩ => ⟨hnone, by omega⟩
      · rw [hcalls]
        obtain hentry | ⟨hnone, hgone⟩ := hbefore
        · by_cases hcx : c.caller = x
          · refine .inr ⟨?_, ?_⟩
            · simp only [hentry, hcx, Option.filter_some, ne_eq, not_true_eq_false, decide_false,
                Bool.false_eq_true, if_false]
            · rw [hrank, hcx, hx]
              simp [Action.advances, Phase.rank]
          · exact .inl (Option.filter_eq_some_iff.mpr ⟨hentry, decide_eq_true hcx⟩)
        · exact .inr ⟨by simp only [hnone, Option.filter_none], by omega⟩
    · exact .inl (hcalls ▸ update_self ..)
  · intro p q c d hc hp hd hq hid
    obtain ⟨p', hc', hp'⟩ | ⟨workerId, workerTx, ha, hc', hx, -⟩ := outstanding_back h hn hc hp
    · obtain ⟨q', hd', hq'⟩ | ⟨workerId, workerTx, rfl, -, hx, -⟩ := outstanding_back h hn hd hq
      · exact hI.alone p' q' c d hc' hp' hd' hq' hid
      · exact absurd hid (idsApart_spec hapart hx hc' hp')
    · obtain ⟨q', hd', hq'⟩ | ⟨workerId', workerTx', ha', hd', -⟩ := outstanding_back h hn hd hq
      · subst ha
        exact absurd hid.symm (idsApart_spec hapart hx hd' hq')
      · -- both are the call that the handler of their caller records
        obtain ⟨e, hheld, -⟩ := held_caller h (x := c.caller) (k := c.call) (by rw [hx]; rfl)
        have hsame : d.caller = c.caller := Action.handler.inj (ha'.symm.trans ha)
        have hce := mem_held.mpr hc'
        have hde := mem_held.mpr hd'
        rw [hheld] at hce
        rw [hsame, hheld] at hde
        exact (List.mem_singleton.mp hce).trans (List.mem_singleton.mp hde).symm

theorem callsApart_run (hapart : ∀ w a, ok w a → callsApart w a = true)
    (h : broker.recorded.RunWhere ok w) : CallsApart w := by
  have hboth : ∀ w a, ok w a → answersInTurn w a = true ∧ idsApart w a = true := fun w a hok =>
    (Bool.and_eq_true _ _).mp (hapart w a hok)
  refine h.invariant ?_ ?_
  · rintro _ ⟨items, rfl⟩
    exact ⟨nofun, nofun⟩
  · intro w a w' hr hI hok hn
    exact hI.step (fun w a hok => (hboth w a hok).1) hr (hboth w a hok).2 hn

/-! Whose call a response in hand answers. -/

theorem answeredCall_next (hn : broker.recorded.next w a = some w') (z : ClientId) :
    (∃ r i, a = .receive z (some (.response r)) ∧ r.callId? = some i ∧
      answeredCall z w'.trace = (held (.worker z) (callCustody w.trace)).head?) ∨
    (∀ r i, a = .receive z (some (.response r)) → r.callId? ≠ some i) ∧
      answeredCall z w'.trace = answeredCall z w.trace := by
  obtain ⟨es, -, htr⟩ := System.recorded_next.mp hn
  rw [htr]
  by_cases ha : ∃ r i, a = .receive z (some (.response r)) ∧ r.callId? = some i
  · obtain ⟨r, i, rfl, hi⟩ := ha
    refine .inl ⟨r, i, rfl, hi, ?_⟩
    simp only [answeredCall, hi, Option.isSome_some, and_self, if_true]
  · refine .inr ⟨fun r i hr hi => ha ⟨r, i, hr, hi⟩, ?_⟩
    rw [answeredCall]
    split
    · next x r hx =>
      refine if_neg fun ⟨hxz, hsome⟩ => ?_
      obtain ⟨i, hi⟩ := Option.isSome_iff_exists.mp hsome
      exact ha ⟨r, i, hxz ▸ hx, hi⟩
    · rfl

structure ResponsesFollowed (w : World Broker BrokerStep) : Prop where
  take : ∀ z r i, w.state.phase z = .handling (.responseTake r i) →
    ∃ c rest, held (.worker z) (callCustody w.trace) = c :: rest ∧
      answeredCall z w.trace = some c ∧ c.call.callId = i ∧ r.callId? = some i
  forward : ∀ z r tx, w.state.phase z = .handling (.responseForward r tx) →
    ∃ c, answeredCall z w.trace = some c ∧ tx = ⟨c.caller⟩ ∧ r.callId? = some c.call.callId

theorem answered_kept (hn : broker.recorded.next w a = some w') {pc : HandlerPc}
    (hz : w.state.phase z = .handling pc) : answeredCall z w'.trace = answeredCall z w.trace := by
  obtain ⟨es, ht, -⟩ := custody_next hn
  obtain ⟨r, i, rfl, -⟩ | ⟨-, hsame⟩ := answeredCall_next hn z
  · cases hz.symm.trans ht.at_receive
  · exact hsame

theorem ResponsesFollowed.step (hI : ResponsesFollowed w)
    (hapart : ∀ w a, ok w a → callsApart w a = true) (h : broker.recorded.RunWhere ok w)
    (hok : ok w a) (hn : broker.recorded.next w a = some w') : ResponsesFollowed w' := by
  obtain ⟨es, ht, -⟩ := custody_next hn
  have hturn : ∀ w a, ok w a → answersInTurn w a = true := fun w a hok =>
    ((Bool.and_eq_true _ _).mp (hapart w a hok)).1
  constructor
  · intro z r i hz
    obtain hold | ⟨rfl, hi⟩ := ht.entered_responseTake hz
    · obtain ⟨c, rest, hheld, hans, hid, hr⟩ := hI.take z r i hold
      obtain ⟨r', i', rfl, -⟩ | ⟨msg, rest', cs, -, -, -, hheld'⟩ | ⟨-, -, hheld'⟩ :=
        held_worker h hn z
      · obtain ⟨caller, tx, -, -, hq⟩ | ⟨-, -, hq⟩ := ht.looked_up hold <;> cases hq.symm.trans hz
      · refine ⟨c, rest ++ cs, ?_, (answered_kept hn hold).trans hans, hid, hr⟩
        rw [hheld', hheld, List.cons_append]
      · exact ⟨c, rest, hheld'.trans hheld, (answered_kept hn hold).trans hans, hid, hr⟩
    · obtain ⟨c, rest, hheld, hid⟩ := held_answered hturn (.step h hok hn) hz
      obtain ⟨r', i', -, -, hans⟩ | ⟨hne, -⟩ := answeredCall_next hn z
      · obtain ⟨r'', i'', ha, -⟩ | ⟨msg, rest', cs, ha, -⟩ | ⟨-, -, hsame⟩ := held_worker h hn z
        · cases ha
        · cases ha
        · refine ⟨c, rest, hheld, ?_, hid, hi⟩
          rw [hans, ← hsame, hheld]
          rfl
      · exact absurd hi (hne r i rfl)
  · intro z r tx hz
    obtain hold | ⟨i, caller, rfl, hold, hc⟩ := ht.entered_responseForward hz
    · obtain ⟨c, hans, htx, hr⟩ := hI.forward z r tx hold
      exact ⟨c, (answered_kept hn hold).trans hans, htx, hr⟩
    · obtain ⟨c, rest, hheld, hans, rfl, hr⟩ := hI.take z r i hold
      have hmem : (.worker z, c) ∈ callCustody w.trace := mem_held.mp (hheld ▸ List.mem_cons_self)
      have hout : w.state.outstanding (.worker z) = true := by
        rw [outstanding, hold]
        rfl
      refine ⟨c, (answered_kept hn hold).trans hans, ?_, hr⟩
      obtain hentry | ⟨hnone, -⟩ := (callsApart_run hapart h).entry _ c hmem hout
      · cases hc.symm.trans hentry
        rfl
      · cases hc.symm.trans hnone

theorem responsesFollowed (hapart : ∀ w a, ok w a → callsApart w a = true)
    (h : broker.recorded.RunWhere ok w) : ResponsesFollowed w := by
  refine h.invariant ?_ ?_
  · rintro _ ⟨items, rfl⟩
    exact ⟨nofun, nofun⟩
  · intro w a w' hr hI hok hn
    exact hI.step hapart hr hok hn

def HasResponse (s : Broker) (z : ClientId) (resp : RpcResponse) (c : SentCall) : Prop :=
  s.phase z = .handling (.responseTake resp c.call.callId) ∨
    s.phase z = .handling (.responseForward resp ⟨c.caller⟩)

/-- What becomes of the response `resp` of `z` to the call `c`, in the steps `seg` since it was
read: it is on the channel of the caller, the caller has left, or the handler of `z` still has
it. -/
def Routed (w : World Broker BrokerStep) (seg : List BrokerStep) (z : ClientId)
    (resp : RpcResponse) (c : SentCall) : Prop :=
  (∃ st ∈ seg, Event.enqueued .handleResponse z c.caller (.response resp) ∈ st.events) ∨
  2 ≤ (w.state.phase c.caller).rank ∨
  answeredCall z w.trace = some c ∧ w.state.HasResponse z resp c

theorem HasResponse.goesOn {resp : RpcResponse} (h : s.HasResponse z resp c) :
    s.Enabled z ∨ s.AwaitsRoom z c.caller := by
  obtain ⟨pc, hz, hlocks, hsends⟩ : ∃ pc, s.phase z = .handling pc ∧ .services ∉ pc.locks ∧
      ∀ site tx msg p, pc.sends = some (site, tx, msg, p) → tx.channel = c.caller := by
    obtain hz | hz := h
    · exact ⟨_, hz, by simp [HandlerPc.locks], fun _ _ _ _ hs => by cases hs⟩
    · exact ⟨_, hz, by simp [HandlerPc.locks], fun _ _ _ _ hs => by cases hs; rfl⟩
  obtain henabled | ⟨y, pc', site, tx, msg, p, hz', hs, rfl, hfull⟩ | ⟨pc', hz', hm, -⟩ :=
    handler_goesOn hz
  · exact .inl henabled
  · cases hz.symm.trans hz'
    have hy := hsends site tx msg p hs
    exact .inr ⟨pc, site, tx, msg, p, hz, hs, hy, hy ▸ hfull⟩
  · cases hz.symm.trans hz'
    exact absurd hm hlocks

theorem Transition.responseForwarded {resp : RpcResponse} {tx : ClientSender}
    (ht : Transition s (.handler z) s' es) (hz : s.phase z = .handling (.responseForward resp tx)) :
    Event.enqueued .handleResponse z tx.channel (.response resp) ∈ es ∨
      s.phase tx.channel = .ended := by
  have hs : (HandlerPc.responseForward resp tx).sends =
      some (.handleResponse, tx, .response resp, .reading) := rfl
  obtain hended | rfl := ht.sends hz hs
  · exact .inr hended
  · exact .inl (List.mem_singleton_self _)

theorem Routed.step {seg : List BrokerStep} {resp : RpcResponse} (hI : Routed w seg z resp c)
    (hapart : ∀ w a, ok w a → callsApart w a = true) (h : broker.recorded.RunWhere ok w)
    (hok : ok w a) (hn : broker.recorded.next w a = some w')
    (hs : broker.step w.state a = some (w'.state, es)) :
    Routed w' (⟨w.state, a, es, w'.state⟩ :: seg) z resp c := by
  have ht := step_transition hs
  have hrank := ht.rank c.caller
  obtain ⟨st, hst, he⟩ | hgone | ⟨hans, hz⟩ := hI
  · exact .inl ⟨st, List.mem_cons_of_mem _ hst, he⟩
  · exact .inr (.inl (by omega))
  · by_cases ha : a = .handler z
    · subst ha
      obtain hz | hz := hz
      · obtain ⟨caller, tx, -, -, hz'⟩ | ⟨hnone, -, -⟩ := ht.looked_up hz
        · obtain ⟨d, hd, rfl, -⟩ := (responsesFollowed hapart (.step h hok hn)).forward z resp tx hz'
          have hkept := answered_kept hn hz
          rw [hans, hd] at hkept
          cases hkept
          exact .inr (.inr ⟨hd, .inr hz'⟩)
        · -- the entry of an outstanding call is gone only with its caller
          obtain ⟨d, rest, hheld, hd, -⟩ := (responsesFollowed hapart h).take z resp _ hz
          cases hans.symm.trans hd
          have hout : w.state.outstanding (.worker z) = true := by
            rw [outstanding, hz]
            rfl
          obtain hentry | ⟨-, hgone⟩ := (callsApart_run hapart h).entry _ c
            (mem_held.mp (hheld ▸ List.mem_cons_self)) hout
          · cases hnone.symm.trans hentry
          · exact .inr (.inl (by omega))
      · obtain he | hended := ht.responseForwarded hz
        · exact .inl ⟨_, List.mem_cons_self, he⟩
        · rw [hended] at hrank
          exact .inr (.inl (by rw [hrank]; exact Nat.le_add_right_of_le (by decide)))
    · have hkeep : ∀ pc, w.state.phase z = .handling pc → (∀ o t v, pc ≠ .publishSnapshot o t v) →
          w'.state.phase z = .handling pc := by
        intro pc hpc hnot
        refine ht.handling_kept hpc ha fun subsList hsnap => ?_
        subst hsnap
        obtain ⟨o, t, v, hx⟩ := ht.at_snapshot
        cases hpc.symm.trans hx
        exact hnot o t v rfl
      refine .inr (.inr ⟨?_, hz.imp (fun hz => hkeep _ hz nofun) fun hz => hkeep _ hz nofun⟩)
      obtain hz | hz := hz <;> exact (answered_kept hn hz).trans hans

/-- Responses reach the callers of the calls they answer: what is forwarded is for the caller of
the call that the worker answers, every answer is forwarded while the caller is connected, a handler
that still has one goes on with it as soon as the channel has room, and the writer loop of a client
writes what it is sent in order. -/
structure OwnResponses (w : World Broker BrokerStep) : Prop where
  toCaller : ∀ st tr z y resp, st :: tr <:+ w.trace →
    Event.enqueued .handleResponse z y (.response resp) ∈ st.events →
      ∃ c, answeredCall z tr = some c ∧ c.caller = y ∧ resp.callId? = some c.call.callId
  routed : ∀ seg st tr z resp i, w.trace = seg ++ st :: tr →
    st.action = .receive z (some (.response resp)) → resp.callId? = some i →
      ∃ c, answeredCall z (st :: tr) = some c ∧ c.call.callId = i ∧ Routed w seg z resp c
  goesOn : ∀ z resp c, w.state.HasResponse z resp c →
    w.state.Enabled z ∨ w.state.AwaitsRoom z c.caller
  written : ∀ y, w.state.writing y = true →
    enqueuedOn w.events.trace y = deliveredTo w.events.trace y ++ w.state.channel y

theorem responses_routed_apart (hapart : ∀ w a, ok w a → callsApart w a = true)
    (h : broker.recorded.RunWhere ok w) :
    ∀ seg st tr z resp i, w.trace = seg ++ st :: tr →
      st.action = .receive z (some (.response resp)) → resp.callId? = some i →
        ∃ c, answeredCall z (st :: tr) = some c ∧ c.call.callId = i ∧ Routed w seg z resp c := by
  refine h.invariant (I := fun w => ∀ seg st tr z resp i, w.trace = seg ++ st :: tr →
    st.action = .receive z (some (.response resp)) → resp.callId? = some i →
      ∃ c, answeredCall z (st :: tr) = some c ∧ c.call.callId = i ∧ Routed w seg z resp c) ?_ ?_
  · intro s _ seg st tr z resp i htr
    cases List.append_eq_nil_iff.mp htr.symm with
    | intro _ hnil => cases hnil
  · intro w a w' hr hI hok hn seg st tr z resp i htr ha hi
    obtain ⟨es, hs, hw'⟩ := System.recorded_next.mp hn
    have ht := step_transition hs
    rw [hw'] at htr
    cases seg with
    | nil =>
      obtain ⟨rfl, rfl⟩ := List.cons.inj htr
      subst ha
      have hd : dispatch (.response resp) = some (.responseTake resp i) := by
        rw [dispatch, hi]
        rfl
      have hz := ht.dispatched hd
      obtain ⟨c, rest, -, hans, rfl, -⟩ :=
        (responsesFollowed hapart (.step hr hok hn)).take z resp i hz
      exact ⟨c, hw' ▸ hans, rfl, .inr (.inr ⟨hans, .inl hz⟩)⟩
    | cons u seg =>
      obtain ⟨rfl, htail⟩ := List.cons.inj htr
      obtain ⟨c, hans, hid, hrouted⟩ := hI seg st tr z resp i htail ha hi
      exact ⟨c, hans, hid, hrouted.step hapart hr hok hn hs⟩

end Runs

/-- When no call is recorded while another one with its id is outstanding, every client gets the
responses to its own calls, and no others. -/
theorem responses_to_own_calls
    (h : broker.recorded.RunWhere (fun w a => callsApart w a = true) w) : OwnResponses w := by
  refine ⟨?_, responses_routed_apart (fun _ _ hok => hok) h, fun z resp c hz => hz.goesOn,
    fun y hw => channel_inOrder h hw⟩
  intro st tr z y resp htr he
  obtain ⟨hr, -, -, hs⟩ := h.taken htr
  obtain ⟨pc, tx, p, -, hz, hsends, rfl, -⟩ := (step_transition hs).sender he
  obtain ⟨k, -, hsite, -⟩ | ⟨resp', rfl, -, hmsg, -⟩ | ⟨event, rest, -, hsite, -⟩ |
    ⟨rest, -, hsite, -⟩ := HandlerPc.sends_cases hsends
  · cases hsite
  · cases hmsg
    obtain ⟨c, hans, rfl, hid⟩ := (responsesFollowed (fun _ _ hok => hok) hr).forward z resp tx hz
    exact ⟨c, hans, rfl, hid⟩
  · cases hsite
  · cases hsite

def forwardsTo (z y : ClientId) : Event → Bool
  | .enqueued .handleResponse x dst (.response _) => x = z && dst = y
  | _ => false

def callAndAnswer (x : ClientId) : List Action :=
  request x (.call (callOf "1" "o")) 3 ++ [.write workerA,
    .receive workerA (some (.response (.result ⟨"1"⟩ "o" .null))), .handler workerA, .handler workerA]

def idUsedAgain : List Action :=
  [.connect workerA, .connect callerC, .connect callerD] ++
    request workerA (.registerObject "o") 4 ++ [.write workerA] ++
    callAndAnswer callerC ++ callAndAnswer callerD

theorem responses_to_own_calls_idUsedAgain :
    ∃ w, broker.recorded.exec (fun w a => callsApart w a = true) ⟨Broker.initial [], []⟩ idUsedAgain =
        some w ∧
      w.events.trace.any (forwardsTo workerA callerD) = true ∧ OwnResponses w := by
  obtain ⟨w, hr, he, ht⟩ := System.RunWhere.of_exec_any broker.recorded
    (fun w a => callsApart w a = true) idUsedAgain
    (fun w => w.events.trace.any (forwardsTo workerA callerD)) ⟨[], rfl⟩ (by decide)
  exact ⟨w, he, ht, responses_to_own_calls hr⟩

/-- Two clients have calls with the id `"1"` outstanding when the worker answers the first. -/
def idsOverlap : List Action :=
  [.connect workerA, .connect callerC, .connect callerD] ++
    request workerA (.registerObject "o") 4 ++ request callerC (.call (callOf "1" "o")) 3 ++
    request callerD (.call (callOf "1" "o")) 3 ++ List.replicate 3 (.write workerA) ++
    [.receive workerA (some (.response (.result ⟨"1"⟩ "o" .null))), .handler workerA, .handler workerA]

def lastSends (x y : ClientId) : List BrokerStep → Bool
  | [] => false
  | st :: tr =>
    st.events.any (forwardsTo workerA y) && (answeredCall workerA tr).any fun c => c.caller = x

theorem response_to_another_caller :
    ¬ ∀ w, broker.recorded.RunWhere (fun w a => answersInTurn w a = true) w → OwnResponses w := by
  intro hall
  obtain ⟨w, hr, -, ht⟩ := System.RunWhere.of_exec_any broker.recorded
    (fun w a => answersInTurn w a = true) idsOverlap
    (fun w => lastSends callerC callerD w.trace) ⟨[], rfl⟩ (by decide)
  have hown := (hall w hr).toCaller
  unfold lastSends at ht
  split at ht
  · cases ht
  · next st tr htr =>
    obtain ⟨hsends, hcaller⟩ := (Bool.and_eq_true _ _).mp ht
    obtain ⟨e, he, hf⟩ := List.any_eq_true.mp hsends
    unfold forwardsTo at hf
    split at hf
    · next z y resp =>
      rw [Bool.and_eq_true, decide_eq_true_eq, decide_eq_true_eq] at hf
      obtain ⟨rfl, rfl⟩ := hf
      obtain ⟨c, hans, hc, -⟩ := hown st tr workerA callerD resp (htr ▸ List.suffix_rfl) he
      rw [hans, Option.any_some, decide_eq_true_eq, hc] at hcaller
      exact absurd hcaller (by decide)
    · cases hf

end Broker
end IpcBroker
