import IpcBroker.Broker.CallHistory

/-! What one run of `handle_call` does for its call: it is passed to the owner of the object,
queued at a starting service or answered with an error, unless it meets a running service with
no owner to pass it to, or an owner whose connection has ended meanwhile. -/

namespace IpcBroker
open Function Foundation

def packetRead? (x : ClientId) (st : BrokerStep) : Option Packet :=
  match st.action with
  | .receive y (some p) => if y = x then some p else none
  | _ => none

abbrev sinceRead (x : ClientId) (tr : List BrokerStep) : Option (Packet × List BrokerStep) :=
  lastOf (packetRead? x) tr

namespace Broker

/-- What becomes of a call: put on the channel of a client, queued at its service, or refused. -/
inductive Outcome
  | forwarded (w : ClientId)
  | queued
  | refused

/-- The step has done with the call `k` of `x` what the outcome says. -/
def Outcome.Happens (x : ClientId) (k : Call) (st : BrokerStep) : Outcome → Prop
  | .forwarded w => st.after.channel w = st.before.channel w ++ [.request (.call k)]
  | .queued => ∃ e e', st.before.services k.objectName = some e ∧
      st.after.services k.objectName = some e' ∧ e'.pendingCalls = e.pendingCalls ++ [.call k]
  | .refused => ∃ o message,
      st.after.channel x = st.before.channel x ++ [.response (.error (some k.callId) o message)]

/-- The object was looked up by the handler of `x`, and `workerId` owned it then. -/
def FoundOwner (x : ClientId) (k : Call) (workerId : Option ClientId) (seg : List BrokerStep) : Prop :=
  ∃ look ∈ seg, look.action = .handler x ∧ look.before.objects k.objectName = workerId

/-- What the protocol asks of an outcome: the client that gets the call owned the object when it was
looked up, and a service with the call in its queue is starting. -/
def Outcome.Proper (x : ClientId) (k : Call) (st : BrokerStep) (earlier : List BrokerStep) :
    Outcome → Prop
  | .forwarded w => FoundOwner x k (some w) earlier
  | .queued => ∃ e, st.after.services k.objectName = some e ∧ e.state = .starting ∧
      RpcRequest.call k ∈ e.pendingCalls
  | .refused => True

def NoOutcome (x : ClientId) (k : Call) (seg : List BrokerStep) : Prop :=
  ∀ st ∈ seg, st.action = .handler x → ∀ out : Outcome, ¬ out.Happens x k st

/-- One step of the handler of `x` has done one thing with the call, a proper one, and no other step
of it has done any. -/
def OneOutcome (x : ClientId) (k : Call) (seg : List BrokerStep) : Prop :=
  ∃ later st earlier, ∃ out : Outcome, seg = later ++ st :: earlier ∧ st.action = .handler x ∧
    out.Happens x k st ∧ (∀ out' : Outcome, out'.Happens x k st → out' = out) ∧
    out.Proper x k st earlier ∧ NoOutcome x k later ∧ NoOutcome x k earlier

/-- Exactly one thing became of the call `k` that `x` sent last. -/
def RoutedOnce (x : ClientId) (k : Call) (tr : List BrokerStep) : Prop :=
  ∃ seg, sinceRead x tr = some (.request (.call k), seg) ∧ OneOutcome x k seg

variable {s s' : Broker} {a : Action} {es : List Event} {seg : List BrokerStep} {x y : ClientId}
  {k : Call} {w w' : World Broker BrokerStep} {pc pc' : HandlerPc} {st : BrokerStep} {out : Outcome}

/-! What one step can do with the call, by what it changes. -/

theorem NoOutcome.cons (h : NoOutcome x k seg)
    (hst : st.action = .handler x → ∀ out : Outcome, ¬ out.Happens x k st) :
    NoOutcome x k (st :: seg) :=
  List.forall_mem_cons.mpr ⟨hst, h⟩

theorem OneOutcome.cons (h : OneOutcome x k seg)
    (hst : st.action = .handler x → ∀ out : Outcome, ¬ out.Happens x k st) :
    OneOutcome x k (st :: seg) := by
  obtain ⟨later, done, earlier, out, rfl, ha, hout, hone, hproper, hlater, hearlier⟩ := h
  exact ⟨st :: later, done, earlier, out, rfl, ha, hout, hone, hproper, hlater.cons hst, hearlier⟩

theorem OneOutcome.now (out : Outcome) (h : NoOutcome x k seg) (ha : st.action = .handler x)
    (hout : out.Happens x k st) (hone : ∀ out' : Outcome, out'.Happens x k st → out' = out)
    (hproper : out.Proper x k st seg) : OneOutcome x k (st :: seg) :=
  ⟨[], st, seg, out, rfl, ha, hout, hone, hproper, List.forall_mem_nil _, h⟩

theorem OneOutcome.not_none (h : OneOutcome x k seg) : ¬ NoOutcome x k seg := by
  obtain ⟨later, st, earlier, out, rfl, ha, hout, -⟩ := h
  exact fun hnone => hnone st (List.mem_append_right _ List.mem_cons_self) ha out hout

theorem not_appended {α : Type} {l : List α} {m : α} (h : l = l ++ [m]) : False :=
  List.cons_ne_nil m [] (List.self_eq_append_right.mp h)

theorem not_happens (hchannel : st.after.channel = st.before.channel)
    (hservices : st.after.services = st.before.services) (out : Outcome) :
    ¬ out.Happens x k st := by
  cases out with
  | forwarded w =>
    intro h
    rw [Outcome.Happens, hchannel] at h
    exact not_appended h
  | queued =>
    rintro ⟨e, e', he, he', hq⟩
    rw [hservices, he] at he'
    cases he'
    exact not_appended hq
  | refused =>
    rintro ⟨o, message, h⟩
    rw [hchannel] at h
    exact not_appended h

theorem happens_pushed {tx : ClientSender} {msg : Packet}
    (hchannel : st.after.channel =
      update st.before.channel tx.channel (st.before.channel tx.channel ++ [msg]))
    (hservices : st.after.services = st.before.services) (h : out.Happens x k st) :
    (out = .forwarded tx.channel ∧ msg = .request (.call k)) ∨
      (out = .refused ∧ tx.channel = x ∧
        ∃ o message, msg = .response (.error (some k.callId) o message)) := by
  have hpushed : ∀ {z m}, st.after.channel z = st.before.channel z ++ [m] →
      z = tx.channel ∧ m = msg := by
    intro z m hz
    rw [hchannel] at hz
    by_cases hztx : z = tx.channel
    · subst hztx
      rw [update_self] at hz
      exact ⟨rfl, (List.singleton_inj.mp (List.append_cancel_left hz)).symm⟩
    · rw [update_of_ne hztx] at hz
      exact (not_appended hz).elim
  cases out with
  | forwarded w =>
    obtain ⟨rfl, hm⟩ := hpushed h
    exact .inl ⟨rfl, hm.symm⟩
  | queued =>
    obtain ⟨e, e', he, he', hq⟩ := h
    rw [hservices, he] at he'
    cases he'
    exact (not_appended hq).elim
  | refused =>
    obtain ⟨o, message, hx⟩ := h
    obtain ⟨rfl, hm⟩ := hpushed hx
    exact .inr ⟨rfl, rfl, o, message, hm.symm⟩

theorem happens_unsent (hchannel : st.after.channel = st.before.channel) (h : out.Happens x k st) :
    out = .queued := by
  cases out with
  | forwarded w =>
    rw [Outcome.Happens, hchannel] at h
    exact (not_appended h).elim
  | queued => rfl
  | refused =>
    obtain ⟨o, message, hx⟩ := h
    rw [hchannel] at hx
    exact (not_appended hx).elim

def hasEnded : Phase → Bool
  | .ended => true
  | _ => false

/-- The section of a `handle_call` does not meet what it has no answer for: a running service
at the activation, an ended connection at the forwarding. -/
def callAnswerable (s : Broker) : Action → Bool
  | .handler x =>
    match s.phase x with
    | .handling (.callServices k) =>
      (s.services k.objectName).all fun e => e.state = .stopped ∨ e.state = .starting
    | .handling (.callForward _ tx) => !hasEnded (s.phase tx.channel)
    | _ => true
  | _ => true

def returnedCall? (w w' : World Broker BrokerStep) (x : ClientId) : Option Call :=
  match w.state.phase x, w'.state.phase x, sinceRead x w'.trace with
  | .handling _, .reading, some (p, _) => p.call?
  | _, _, _ => none

theorem returnedCall_inv (h : returnedCall? w w' x = some k) :
    (∃ pc, w.state.phase x = .handling pc) ∧ w'.state.phase x = .reading ∧
      ∃ seg, sinceRead x w'.trace = some (.request (.call k), seg) := by
  unfold returnedCall? at h
  split at h
  · next pc p seg hp hp' hh =>
    have hcall : p = .request (.call k) := by
      cases p with
      | request r =>
        cases r <;> cases h
        rfl
      | response r => cases h
    exact ⟨⟨pc, hp⟩, hp', seg, hcall ▸ hh⟩
  · cases h

inductive CallProgress (x : ClientId) (k : Call) (seg : List BrokerStep) : HandlerPc → Prop
  | lookup (h : NoOutcome x k seg) : CallProgress x k seg (.callLookup k)
  | insert {workerId workerTx tx} (h : NoOutcome x k seg) (hw : FoundOwner x k workerId seg)
      (hch : ∀ w t, workerId = some w → workerTx = some t → t.channel = w) :
      CallProgress x k seg (.callInsert k workerId workerTx tx)
  | forward {tx} (h : NoOutcome x k seg) (hw : FoundOwner x k (some tx.channel) seg) :
      CallProgress x k seg (.callForward k tx)
  | services (h : NoOutcome x k seg) : CallProgress x k seg (.callServices k)
  | start {o unit} (h : OneOutcome x k seg) : CallProgress x k seg (.callStart o unit)
  | refuse {o message} (h : NoOutcome x k seg) :
      CallProgress x k seg (.sendLookup (.response (.error (some k.callId) o message)) [])
  | refusing {tx o message} (h : NoOutcome x k seg) (htx : tx.channel = x) :
      CallProgress x k seg (.sendAwait tx (.response (.error (some k.callId) o message)) [])

theorem FoundOwner.cons {workerId : Option ClientId} (h : FoundOwner x k workerId seg) :
    FoundOwner x k workerId (st :: seg) := by
  obtain ⟨look, hmem, hlook⟩ := h
  exact ⟨look, List.mem_cons_of_mem st hmem, hlook⟩

theorem CallProgress.other (h : CallProgress x k seg pc) (hst : st.action ≠ .handler x) :
    CallProgress x k (st :: seg) pc := by
  cases h with
  | lookup h => exact .lookup (h.cons fun ha => absurd ha hst)
  | insert h hw hch => exact .insert (h.cons fun ha => absurd ha hst) hw.cons hch
  | forward h hw => exact .forward (h.cons fun ha => absurd ha hst) hw.cons
  | services h => exact .services (h.cons fun ha => absurd ha hst)
  | start h => exact .start (h.cons fun ha => absurd ha hst)
  | refuse h => exact .refuse (h.cons fun ha => absurd ha hst)
  | refusing h htx => exact .refusing (h.cons fun ha => absurd ha hst) htx

def CallStep (s s' : Broker) (x : ClientId) (k : Call) (seg : List BrokerStep) : Prop :=
  (∃ pc, s'.phase x = .handling pc ∧ CallProgress x k seg pc) ∨
    s'.phase x = .reading ∧
      if callAnswerable s (.handler x) = true then OneOutcome x k seg else NoOutcome x k seg

theorem CallStep.enter (hp : s'.phase x = .handling pc) (h : CallProgress x k seg pc) :
    CallStep s s' x k seg := .inl ⟨pc, hp, h⟩

theorem CallStep.return (hp : s'.phase x = .reading) (hok : callAnswerable s (.handler x) = true)
    (h : OneOutcome x k seg) : CallStep s s' x k seg := .inr ⟨hp, by rwa [if_pos hok]⟩

theorem CallStep.drop (hp : s'.phase x = .reading) (hok : callAnswerable s (.handler x) = false)
    (h : NoOutcome x k seg) : CallStep s s' x k seg := by
  refine .inr ⟨hp, ?_⟩
  rw [hok]
  exact h

/-! The sections of `handle_call` one by one. -/

theorem callStep_lookup (hnone : NoOutcome x k seg) (hL : Lifecycle s)
    (hp : s.phase x = .handling (.callLookup k)) (h : Transition s (.handler x) s' es) :
    CallStep s s' x k (⟨s, .handler x, es, s'⟩ :: seg) := by
  have hclients : s.clients x = some ⟨x⟩ := by
    rw [hL.clients x, hp]
    rfl
  have hran : some (handleCall s x k) = some (s', es) := h.ran hp
  rw [handleCall, hclients] at hran
  obtain ⟨rfl, rfl⟩ := Prod.mk.inj (Option.some.inj hran)
  refine .enter (update_self ..) (.insert ?_ ⟨_, List.mem_cons_self, rfl, rfl⟩ ?_)
  · exact hnone.cons fun _ => not_happens rfl rfl
  · intro w t hw ht
    rw [hw, Option.bind_some, hL.clients w] at ht
    split_ifs at ht
    rw [Option.some.injEq] at ht
    rw [← ht]

theorem callStep_insert {workerId : Option ClientId} {workerTx : Option ClientSender}
    {tx : ClientSender} (hnone : NoOutcome x k seg) (hw : FoundOwner x k workerId seg)
    (hch : ∀ w t, workerId = some w → workerTx = some t → t.channel = w)
    (hp : s.phase x = .handling (.callInsert k workerId workerTx tx))
    (h : Transition s (.handler x) s' es) :
    CallStep s s' x k (⟨s, .handler x, es, s'⟩ :: seg) := by
  obtain ⟨hs', hes⟩ := Prod.mk.inj (Option.some.inj (h.ran hp))
  have hout : NoOutcome x k (⟨s, .handler x, es, s'⟩ :: seg) :=
    hnone.cons fun _ => not_happens (by rw [← hs']; rfl) (by rw [← hs']; rfl)
  subst hs' hes
  obtain ⟨w, t, hwid, htx, hroute⟩ | ⟨-, hroute⟩ := route_cases k workerId workerTx
  · refine .inl ⟨.callForward k t, ?_, .forward hout ?_⟩
    · rw [← hroute]
      exact update_self ..
    · rw [hch w t hwid htx, ← hwid]
      exact hw.cons
  · refine .inl ⟨.callServices k, ?_, .services hout⟩
    rw [← hroute]
    exact update_self ..

theorem callStep_forward {tx : ClientSender} (hnone : NoOutcome x k seg)
    (hw : FoundOwner x k (some tx.channel) seg) (hp : s.phase x = .handling (.callForward k tx))
    (h : Transition s (.handler x) s' es) :
    CallStep s s' x k (⟨s, .handler x, es, s'⟩ :: seg) := by
  have hans : callAnswerable s (.handler x) = !hasEnded (s.phase tx.channel) := by
    simp only [callAnswerable, hp]
  cases h with
  | send hp' hs hopen =>
    cases hp.symm.trans hp'
    cases hs
    refine .return (update_self ..) ?_ (.now (.forwarded tx.channel) hnone rfl ?_ ?_ hw)
    · rw [hans]
      cases hph : s.phase tx.channel <;> first | rfl | exact absurd hph hopen
    · exact update_self ..
    · intro out' hout'
      obtain ⟨rfl, -⟩ | ⟨-, -, o, message, herror⟩ := happens_pushed rfl rfl hout'
      · rfl
      · cases herror
  | sendFailed hp' hs hended =>
    cases hp.symm.trans hp'
    cases hs
    refine .drop (update_self ..) ?_ (hnone.cons fun _ => not_happens rfl rfl)
    rw [hans, hended]
    rfl
  | _ => cases hp.symm.trans ‹s.phase x = _›

theorem OneOutcome.queue {e e' : ServiceEntry} (hnone : NoOutcome x k seg)
    (hchannel : s'.channel = s.channel) (he : s.services k.objectName = some e)
    (he' : s'.services k.objectName = some e')
    (hq : e'.pendingCalls = e.pendingCalls ++ [.call k]) (hst : e'.state = .starting) :
    OneOutcome x k (⟨s, .handler x, es, s'⟩ :: seg) := by
  refine .now .queued hnone rfl ⟨e, e', he, he', hq⟩ ?_ ⟨e', he', hst, ?_⟩
  · exact fun out' hout' => happens_unsent hchannel hout'
  · rw [hq]
    exact List.mem_append_right _ (List.mem_singleton_self _)

theorem callStep_services (hnone : NoOutcome x k seg) (hp : s.phase x = .handling (.callServices k))
    (h : Transition s (.handler x) s' es) :
    CallStep s s' x k (⟨s, .handler x, es, s'⟩ :: seg) := by
  have hans : callAnswerable s (.handler x) =
      (s.services k.objectName).all fun e => e.state = .stopped ∨ e.state = .starting := by
    simp only [callAnswerable, hp]
  cases h with
  | callStopped hp' hl he hst =>
    cases hp.symm.trans hp'
    exact .enter (update_self ..) (.start (.queue hnone rfl he (update_self ..) rfl rfl))
  | callStarting hp' hl he hst =>
    cases hp.symm.trans hp'
    refine .return (update_self ..) ?_ (.queue hnone rfl he (update_self ..) rfl hst)
    simp [hans, he, hst]
  | callRunning hp' hl he hst =>
    cases hp.symm.trans hp'
    refine .drop (update_self ..) ?_ (hnone.cons fun _ => not_happens rfl rfl)
    simp [hans, he, hst]
  | callUnknown hp' hl he =>
    cases hp.symm.trans hp'
    exact .enter (update_self ..) (.refuse (hnone.cons fun _ => not_happens rfl rfl))
  | send hp' hs | sendFailed hp' hs =>
    cases hp.symm.trans hp'
    cases hs
  | _ => cases hp.symm.trans ‹s.phase x = _›

theorem callStep_start {o unit : String} (hone : OneOutcome x k seg)
    (hp : s.phase x = .handling (.callStart o unit)) (h : Transition s (.handler x) s' es) :
    CallStep s s' x k (⟨s, .handler x, es, s'⟩ :: seg) := by
  have hans : callAnswerable s (.handler x) = true := by simp only [callAnswerable, hp]
  obtain ⟨rfl, rfl⟩ := Prod.mk.inj (Option.some.inj (h.ran hp))
  have hp' : (handleCall.start s x o unit).1.phase x = .reading := update_self ..
  exact .return hp' hans (hone.cons fun _ => not_happens rfl rfl)

theorem callStep_refuse {o message : String} (hnone : NoOutcome x k seg) (hL : Lifecycle s)
    (hp : s.phase x = .handling (.sendLookup (.response (.error (some k.callId) o message)) []))
    (h : Transition s (.handler x) s' es) :
    CallStep s s' x k (⟨s, .handler x, es, s'⟩ :: seg) := by
  have hclients : s.clients x = some ⟨x⟩ := by
    rw [hL.clients x, hp]
    rfl
  have hran : some (sendToClient s x _ []) = some (s', es) := h.ran hp
  rw [sendToClient, hclients] at hran
  obtain ⟨rfl, rfl⟩ := Prod.mk.inj (Option.some.inj hran)
  exact .enter (update_self ..) (.refusing (hnone.cons fun _ => not_happens rfl rfl) rfl)

theorem callStep_refusing {tx : ClientSender} {o message : String} (hnone : NoOutcome x k seg)
    (htx : tx.channel = x)
    (hp : s.phase x = .handling (.sendAwait tx (.response (.error (some k.callId) o message)) []))
    (h : Transition s (.handler x) s' es) :
    CallStep s s' x k (⟨s, .handler x, es, s'⟩ :: seg) := by
  have hans : callAnswerable s (.handler x) = true := by simp only [callAnswerable, hp]
  cases h with
  | send hp' hs hopen =>
    cases hp.symm.trans hp'
    cases hs
    refine .return (update_self ..) hans
      (.now .refused hnone rfl ⟨o, message, ?_⟩ ?_ trivial)
    · subst htx
      exact update_self ..
    · intro out' hout'
      obtain ⟨-, hrequest⟩ | ⟨rfl, -⟩ := happens_pushed rfl rfl hout'
      · cases hrequest
      · rfl
  | sendFailed hp' hs hended =>
    cases hp.symm.trans hp'
    cases hs
    rw [htx, hp] at hended
    cases hended
  | _ => cases hp.symm.trans ‹s.phase x = _›

theorem CallProgress.step (hc : CallProgress x k seg pc) (hL : Lifecycle s)
    (hp : s.phase x = .handling pc) (h : Transition s (.handler x) s' es) :
    CallStep s s' x k (⟨s, .handler x, es, s'⟩ :: seg) := by
  cases hc with
  | lookup hnone => exact callStep_lookup hnone hL hp h
  | insert hnone hw hch => exact callStep_insert hnone hw hch hp h
  | forward hnone hw => exact callStep_forward hnone hw hp h
  | services hnone => exact callStep_services hnone hp h
  | start hone => exact callStep_start hone hp h
  | refuse hnone => exact callStep_refuse hnone hL hp h
  | refusing hnone htx => exact callStep_refusing hnone htx hp h

theorem Transition.handling_entered (h : Transition s a s' es)
    (hp : s'.phase x = .handling pc) :
    s.phase x = .handling pc ∨ a = .handler x ∨ (∃ subsList, a = .snapshot x subsList) ∨
      ∃ p, a = .receive x (some p) ∧ dispatch p = some pc := by
  by_cases hm : s'.phase x = s.phase x
  · exact .inl (hm ▸ hp)
  · have hmover := h.mover hm
    cases h with
    | receiveInvalid | receiveIdle | write | writeError | stopWriter | spawnEnd =>
      exact absurd rfl hm
    | snapshotNone | snapshot =>
      cases hmover
      exact .inr (.inr (.inl ⟨_, rfl⟩))
    | receive hx hd =>
      cases hmover
      have hpc : Phase.handling _ = Phase.handling pc := (update_self ..).symm.trans hp
      cases hpc
      exact .inr (.inr (.inr ⟨_, rfl, hd⟩))
    | connect | readError | cleanupClients | cleanupObjects | cleanupSubscriptions | cleanupCalls
    | cleanupActiveCalls | cleanupServices | finish =>
      cases hmover
      cases (update_self ..).symm.trans hp
    | _ =>
      cases hmover
      exact .inr (.inl rfl)

def CallsInProgress (w : World Broker BrokerStep) : Prop :=
  ∀ x k seg pc, sinceRead x w.trace = some (.request (.call k), seg) →
    w.state.phase x = .handling pc → CallProgress x k seg pc

theorem sinceRead_next (hn : broker.recorded.next w a = some w') {p : Packet}
    (hh : sinceRead x w'.trace = some (p, seg)) :
    (a = .receive x (some p) ∧ seg = []) ∨
      ∃ es seg₀, (∀ p, a ≠ .receive x (some p)) ∧ sinceRead x w.trace = some (p, seg₀) ∧
        Transition w.state a w'.state es ∧ seg = ⟨w.state, a, es, w'.state⟩ :: seg₀ := by
  obtain ⟨es, hs, htr⟩ := System.recorded_next.mp hn
  rw [htr, sinceRead, lastOf] at hh
  by_cases hrec : ∃ q, a = .receive x (some q)
  · obtain ⟨q, rfl⟩ := hrec
    have hread : packetRead? x ⟨w.state, .receive x (some q), es, w'.state⟩ = some q := if_pos rfl
    rw [hread] at hh
    cases hh
    exact .inl ⟨rfl, rfl⟩
  · have hread : packetRead? x ⟨w.state, a, es, w'.state⟩ = none := by
      cases a with
      | receive y q =>
        cases q with
        | none => rfl
        | some q =>
          have hy : y ≠ x := fun hy => hrec ⟨q, hy ▸ rfl⟩
          exact if_neg hy
      | _ => rfl
    rw [hread] at hh
    obtain ⟨⟨p₀, seg₀⟩, hh₀, hpair⟩ := Option.map_eq_some_iff.mp hh
    cases hpair
    exact .inr ⟨es, seg₀, fun q hq => hrec ⟨q, hq⟩, hh₀, step_transition hs, rfl⟩

theorem callsInProgress {ok : World Broker BrokerStep → Action → Prop}
    (h : broker.recorded.RunWhere ok w) : CallsInProgress w := by
  refine h.invariant ?_ ?_
  · rintro _ ⟨items, rfl⟩ x k seg pc hh
    cases hh
  · intro w a w' hr hI _ hn x k seg pc hh hp
    have hL := recorded_lifecycle hr
    obtain ⟨rfl, rfl⟩ | ⟨es, seg, hne, hh₀, ht, rfl⟩ := sinceRead_next hn hh
    · obtain ⟨es, hs, -⟩ := System.recorded_next.mp hn
      have ht := step_transition (a := .receive x _) hs
      cases hp.symm.trans (ht.dispatched rfl)
      exact .lookup (List.forall_mem_nil _)
    · obtain hp₀ | rfl | ⟨subsList, rfl⟩ | ⟨p, rfl, -⟩ := ht.handling_entered hp
      · by_cases ha : a = .handler x
        · subst ha
          obtain ⟨pc', hp', hprog⟩ | ⟨hp', -⟩ := (hI x k seg pc hh₀ hp₀).step hL hp₀ ht
          · cases hp.symm.trans hp'
            exact hprog
          · cases hp.symm.trans hp'
        · exact (hI x k seg pc hh₀ hp₀).other ha
      · obtain ⟨pc₀, hp₀⟩ := ht.at_handler
        obtain ⟨pc', hp', hprog⟩ | ⟨hp', -⟩ := (hI x k seg pc₀ hh₀ hp₀).step hL hp₀ ht
        · cases hp.symm.trans hp'
          exact hprog
        · cases hp.symm.trans hp'
      · obtain ⟨o, topic, args, hp₀⟩ := ht.at_snapshot
        cases hI x k seg _ hh₀ hp₀
      · exact absurd rfl (hne p)

/-- At the return of `handle_call`: the call has met its one proper outcome exactly when the
section that returns is one that has an answer. -/
theorem routedOnce_iff {ok : World Broker BrokerStep → Action → Prop}
    (h : broker.recorded.RunWhere ok w) (hn : broker.recorded.next w a = some w')
    (hret : returnedCall? w w' x = some k) :
    RoutedOnce x k w'.trace ↔ callAnswerable w.state a = true := by
  obtain ⟨⟨pc, hp⟩, hp', seg', hh'⟩ := returnedCall_inv hret
  have hmoved : w'.state.phase x ≠ w.state.phase x := by
    rw [hp', hp]
    nofun
  obtain ⟨rfl, rfl⟩ | ⟨es, seg, hne, hh, ht, rfl⟩ := sinceRead_next hn hh'
  · obtain ⟨es, hs, -⟩ := System.recorded_next.mp hn
    have ht := step_transition (a := .receive x _) hs
    cases hp.symm.trans ht.at_receive
  · have hprog := callsInProgress h x k seg pc hh hp
    have ha : a = .handler x := by
      by_contra hne
      refine hmoved ((ht.handling_kept hp hne ?_).trans hp.symm)
      rintro subsList rfl
      obtain ⟨o, topic, args, hx⟩ := ht.at_snapshot
      cases hp.symm.trans hx
      cases hprog
    subst ha
    obtain ⟨pc', hpc, -⟩ | ⟨-, hout⟩ := hprog.step (recorded_lifecycle h) hp ht
    · cases hp'.symm.trans hpc
    · unfold RoutedOnce
      rw [hh']
      split_ifs at hout with hok
      · exact ⟨fun _ => hok, fun _ => ⟨_, rfl, hout⟩⟩
      · refine ⟨?_, fun hok' => absurd hok' hok⟩
        rintro ⟨seg', hseg, hone⟩
        cases hseg
        exact absurd hout hone.not_none

/-- In a run whose `handle_call`s never meet a running service at the activation nor an ended
connection at the forwarding, every one of them returns with exactly one proper outcome. -/
theorem calls_routed
    (h : broker.recorded.RunWhere (fun w a => callAnswerable w.state a = true) w)
    (hok : callAnswerable w.state a = true) (hn : broker.recorded.next w a = some w')
    (hret : returnedCall? w w' x = some k) : RoutedOnce x k w'.trace :=
  (routedOnce_iff h hn hret).mpr hok

def callToOwner : List Action :=
  [.connect workerA, .connect callerC] ++ request workerA (.registerObject "o") 4 ++
    request callerC (.call (callOf "1" "o")) 2

theorem calls_routed_callToOwner :
    ∃ w w' k, broker.recorded.exec (fun w a => callAnswerable w.state a = true)
        ⟨Broker.initial [], []⟩ callToOwner = some w ∧
      broker.recorded.next w (.handler callerC) = some w' ∧ k.callId = ⟨"1"⟩ ∧
      RoutedOnce callerC k w'.trace := by
  obtain ⟨w, w', hr, he, hok, hn, ht⟩ := System.RunWhere.of_exec_next broker.recorded
    (fun w a => callAnswerable w.state a = true) callToOwner (.handler callerC)
    (fun w w' => (returnedCall? w w' callerC).any fun k => k.callId = ⟨"1"⟩)
    ⟨[], rfl⟩ (by decide)
  obtain ⟨k, hk, hid⟩ := (Option.any_eq_true _ _).mp ht
  exact ⟨w, w', k, he, hn, of_decide_eq_true hid, calls_routed hr hok hn hk⟩

/-- The owner of a service is being cleaned up, and gone from `objects`, when a call comes. -/
def callToLeaver : List Action :=
  [.connect workerA, .connect callerC] ++ request workerA (.registerObject "o") 4 ++
    [.readError workerA, .stopWriter workerA, .cleanup workerA, .cleanup workerA] ++
    request callerC (.call (callOf "1" "o")) 2

theorem call_to_leaver_dropped :
    ¬ ∀ w a w' x k, broker.recorded.Run w → broker.recorded.next w a = some w' →
      returnedCall? w w' x = some k → RoutedOnce x k w'.trace := by
  intro hall
  obtain ⟨w, w', hr, -, -, hn, ht⟩ := System.RunWhere.of_exec_next broker.recorded
    (fun _ _ => True) callToLeaver (.handler callerC)
    (fun w w' => (returnedCall? w w' callerC).isSome &&
      !callAnswerable w.state (.handler callerC))
    ⟨activationOf "o", rfl⟩ (by decide)
  rw [Bool.and_eq_true, Bool.not_eq_true'] at ht
  obtain ⟨k, hk⟩ := Option.isSome_iff_exists.mp ht.1
  have hok := (routedOnce_iff hr hn hk).mp (hall w _ w' callerC k hr hn hk)
  cases ht.2.symm.trans hok

end Broker
end IpcBroker
