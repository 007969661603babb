import IpcBroker.Broker.AnswerCopies
import IpcBroker.Broker.MessageSources

/-! `calls` forgets a call when it is answered or when its caller leaves, and for no other reason:
what becomes of the worker the call was sent to plays no part in it. -/

namespace IpcBroker
open Function Foundation

def Phase.unrecorded? : Phase → Option Call
  | .handling (.callLookup k) | .handling (.callInsert k _ _ _) => some k
  | _ => none

def Unanswered (tr : List Event) (c : CallId) : Prop :=
  ∀ y resp, Event.received y (.response resp) ∈ tr → resp.callId? ≠ some c

namespace Broker
variable {s s' : Broker} {a : Action} {es tr : List Event} {x y z : ClientId} {k : Call}
  {c : CallId} {w w' : World Broker Event}

theorem unrecorded_step (hL : Lifecycle s) (h : Transition s a s' es)
    (hk : (s.phase x).unrecorded? = some k) :
    (s'.phase x).unrecorded? = some k ∨ ∃ workerId workerTx, a = .handler x ∧
      s.phase x = .handling (.callInsert k workerId workerTx ⟨x⟩) ∧
        s'.calls = update s.calls k.callId (some (x, ⟨x⟩)) := by
  have hclients : s.clients x = some ⟨x⟩ := by
    rw [hL.clients x]
    generalize s.phase x = p at hk
    unfold Phase.unrecorded? at hk
    split at hk
    · rfl
    · rfl
    · cases hk
  by_cases hsame : s'.phase x = s.phase x
  · exact .inl (hsame ▸ hk)
  · have hmover := h.mover hsame
    cases h with
    | callLookup hx hc =>
      cases hmover
      rw [hx] at hk
      left
      rw [goto_phase, update_self]
      exact hk
    | callGone hx hc =>
      cases hmover
      cases hclients.symm.trans hc
    | callInsert hx =>
      cases hmover
      have htx := hL.callerTx x _ _ _ _ hx
      subst htx
      rw [hx] at hk
      cases hk
      exact .inr ⟨_, _, rfl, hx, rfl⟩
    | send hx hs | sendFailed hx hs =>
      cases hmover
      rw [hx] at hk
      obtain ⟨k', rfl, -⟩ | ⟨resp, rfl, -⟩ | ⟨event, rest, rfl, -⟩ | ⟨rest, rfl, -⟩ :=
        HandlerPc.sends_cases hs <;> cases hk
    | receiveInvalid | receiveIdle | write | writeError | stopWriter | spawnEnd =>
      exact absurd rfl hsame
    | _ =>
      have hx := ‹s.phase _ = _›
      cases hmover
      rw [hx] at hk
      cases hk

section Distinct
variable {ok : World Broker Event → Action → Prop}

def CallsEntered (w : World Broker Event) : Prop :=
  ∀ x k, Issued w.trace x k → (w.state.phase x).rank = 1 → Unanswered w.trace k.callId →
    w.state.calls k.callId = some (x, ⟨x⟩) ∨ (w.state.phase x).unrecorded? = some k

theorem entry_step (hfresh : ∀ w a, ok w a → freshCall w a = true) (hr : broker.RunWhere ok w)
    (hk : Issued w.trace x k) (h : Transition w.state a s' es)
    (hx : (w.state.phase x).rank = 1) (hun : Unanswered w.trace k.callId)
    (hc : w.state.calls k.callId = some (x, ⟨x⟩)) : s'.calls k.callId = some (x, ⟨x⟩) := by
  obtain ⟨hsame, -⟩ | ⟨z, j, workerId, workerTx, tx, -, hz, hcalls, -⟩ |
    ⟨z, resp, c, caller, tx, -, hz, -, hcalls, -, -⟩ | ⟨z, -, hz, hcalls⟩ := h.calls
  · rw [hsame]
    exact hc
  · rw [hcalls]
    by_cases hid : k.callId = j.callId
    · have hj : Issued w.trace z j := (callOwners hr).held z j (by rw [hz]; rfl)
      obtain ⟨rfl, rfl⟩ := issued_unique hfresh hr hk hj hid
      rw [update_self, (lifecycle hr).callerTx _ _ _ _ _ hz]
    · rw [update_of_ne hid]
      exact hc
  · -- only a response with this id takes the entry, and none has come
    rw [hcalls]
    have hsrc := (sources hr).phase z
    rw [hz] at hsrc
    have hid : k.callId ≠ c := fun hid => hun z resp hsrc.2 (hid ▸ hsrc.1)
    rw [update_of_ne hid]
    exact hc
  · have hzx : x ≠ z := by
      rintro rfl
      rw [hz] at hx
      cases hx
    rw [hcalls]
    exact Option.filter_eq_some_iff.mpr ⟨hc, decide_eq_true hzx⟩

theorem callsEntered (hfresh : ∀ w a, ok w a → freshCall w a = true)
    (h : broker.RunWhere ok w) : CallsEntered w := by
  refine h.invariant nofun ?_
  intro w a w' hr hI hok hn x k hk hx hun
  obtain ⟨es, ht, htr⟩ := next_transition hn
  obtain hk | ⟨rfl, -⟩ := issued_next hn hk
  · have hrank := ht.rank x
    have hpos := issued_rank hr hk
    have hun' : Unanswered w.trace k.callId := fun y resp hy =>
      hun y resp (htr ▸ List.mem_append_right es hy)
    have hone : (w.state.phase x).rank = 1 := by omega
    obtain hc | hp := hI x k hk hone hun'
    · exact .inl (entry_step hfresh hr hk ht hone hun' hc)
    · obtain hp | ⟨_, _, -, -, hcalls⟩ := unrecorded_step (lifecycle hr) ht hp
      · exact .inr hp
      · exact .inl (hcalls ▸ update_self ..)
  · right
    rw [ht.dispatched rfl]
    rfl

end Distinct

/-- An unanswered call that was sent to a worker keeps its entry in `calls`, and its caller gets
no answer, whether the worker is still there or not. -/
theorem unanswered_kept (h : broker.RunWhere (fun w a => freshCall w a = true) w)
    (hk : Issued w.trace x k) (hx : (w.state.phase x).connected = true) {site : SendSite}
    (hs : Event.enqueued site y z (.request (.call k)) ∈ w.trace)
    (hun : Unanswered w.trace k.callId) :
    w.state.calls k.callId = some (x, ⟨x⟩) ∧ w.trace.countP (Event.answers k.callId) = 0 := by
  have hfresh : ∀ w a, freshCall w a = true → freshCall w a = true := fun _ _ h => h
  have hone := callCopies_atMostOne hfresh h k.callId
  have hsent : 0 < callCopies w k.callId .sent :=
    List.countP_pos_iff.mpr ⟨_, hs, calls_self k⟩
  refine ⟨?_, ?_⟩
  · obtain hc | hp := callsEntered hfresh h x k hk (connected_iff.mp hx) hun
    · exact hc
    · -- a call still to be recorded is with its caller, not on a channel
      have hplace : CallPlace.task x ≠ .sent := fun h => by cases h
      have hheld : callCopies w k.callId (.task x) = 0 := hone.eq_zero hsent hplace
      have hcall : (w.state.phase x).call? = some k := by
        generalize w.state.phase x = p at hp
        unfold Phase.unrecorded? at hp
        split at hp <;> cases hp <;> rfl
      simp [callCopies, Phase.callCopies, hcall] at hheld
  · refine List.countP_eq_zero.mpr fun e he hans => ?_
    unfold Event.answers at hans
    split at hans
    · next site z y p =>
      cases p with
      | request r => cases hans
      | response resp =>
        have hid : resp.callId? = some k.callId := of_decide_eq_true hans
        obtain ⟨-, ⟨-, hrec⟩ | ⟨-, j, hj, href⟩⟩ := (sources h).enqueued site z y _ he _ hid
        · exact hun z resp hrec hid
        · have hplace : CallPlace.refused ≠ .sent := fun h => by cases h
          have hzero : w.trace.countP (Event.refuses k.callId) = 0 := hone.eq_zero hsent hplace
          exact List.countP_eq_zero.mp hzero _ href (decide_eq_true hj)
    · cases hans

def workerLeaves : List Action :=
  [.connect workerA, .connect callerC] ++ request workerA (.registerObject "o") 4 ++
    request callerC (.call (callOf "1" "o")) 3 ++ disconnect workerA ++ [.finish workerA]

def sendsTo (z : ClientId) (c : CallId) : Event → Bool
  | .enqueued _ _ y (.request (.call k)) => y = z && k.callId = c
  | _ => false

theorem sent_of_any (h : tr.any (sendsTo z c) = true) :
    ∃ site y k, Event.enqueued site y z (.request (.call k)) ∈ tr ∧ k.callId = c := by
  obtain ⟨e, he, hs⟩ := List.any_eq_true.mp h
  unfold sendsTo at hs
  split at hs
  · next site y z' k =>
    rw [Bool.and_eq_true, decide_eq_true_eq, decide_eq_true_eq] at hs
    obtain ⟨rfl, hid⟩ := hs
    exact ⟨site, y, k, he, hid⟩
  · cases hs

def onlyCallsOf (x : ClientId) : Event → Bool
  | .received y (.request (.call _)) => y = x
  | .received _ (.response _) => false
  | _ => true

theorem workerLeaves_spec {ok : World Broker Event → Action → Prop} (h : broker.RunWhere ok w)
    (hs : w.trace.any (sendsTo z c) = true) (hz : w.trace.any (cleansUp z) = true)
    (hc : w.trace.all (onlyCallsOf x) = true) :
    ∃ site y k, Event.enqueued site y z (.request (.call k)) ∈ w.trace ∧ k.callId = c ∧
      Issued w.trace x k ∧ Event.cleanedUp z ∈ w.trace ∧ Unanswered w.trace c := by
  rw [List.all_eq_true] at hc
  obtain ⟨site, y, k, he, hid⟩ := sent_of_any hs
  obtain ⟨x', k', hk, hissued⟩ := (sources h).enqueued site y z _ he
  cases hk
  have hx : x' = x := of_decide_eq_true (hc _ hissued)
  refine ⟨site, y, k, he, hid, hx ▸ hissued, cleanedUp_of_any hz, fun y resp hrec => ?_⟩
  cases hc _ hrec

theorem unanswered_kept_workerLeaves :
    ∃ (w : World Broker Event) (k : Call),
      broker.exec (fun w a => freshCall w a = true) ⟨Broker.initial [], []⟩ workerLeaves =
        some w ∧ Event.cleanedUp workerA ∈ w.trace ∧
      w.state.calls k.callId = some (callerC, ⟨callerC⟩) ∧
      w.trace.countP (Event.answers k.callId) = 0 := by
  obtain ⟨w, hr, he, ht⟩ := System.RunWhere.of_exec_any broker
    (fun w a => freshCall w a = true) workerLeaves
    (fun w => w.trace.any (sendsTo workerA ⟨"1"⟩) && w.trace.any (cleansUp workerA) &&
      w.trace.all (onlyCallsOf callerC) && (w.state.phase callerC).connected)
    ⟨[], rfl⟩ (by decide)
  simp only [Bool.and_eq_true] at ht
  obtain ⟨⟨⟨hs, hz⟩, hc⟩, hx⟩ := ht
  obtain ⟨site, y, k, hsent, hid, hk, hcleaned, hun⟩ := workerLeaves_spec hr hs hz hc
  exact ⟨w, k, he, hcleaned, unanswered_kept hr hk hx hsent (hid ▸ hun)⟩

/-- After the cleanup of a worker a call sent to it has its entry still, and no error. -/
theorem call_of_lost_worker_unsettled :
    ¬ ∀ (w : World Broker Event) (x y z : ClientId) (site : SendSite) (k : Call),
      broker.RunWhere (fun w a => freshCall w a = true) w →
      Event.cleanedUp z ∈ w.trace → Issued w.trace x k → (w.state.phase x).connected = true →
      Event.enqueued site y z (.request (.call k)) ∈ w.trace → Unanswered w.trace k.callId →
      w.state.calls k.callId = none ∧ ∃ site y o message,
        Event.enqueued site y x (.response (.error (some k.callId) o message)) ∈ w.trace := by
  intro hall
  obtain ⟨w, hr, he, ht⟩ := System.RunWhere.of_exec_any broker
    (fun w a => freshCall w a = true) workerLeaves
    (fun w => w.trace.any (sendsTo workerA ⟨"1"⟩) && w.trace.any (cleansUp workerA) &&
      w.trace.all (onlyCallsOf callerC) && (w.state.phase callerC).connected &&
      (w.state.calls ⟨"1"⟩).isSome)
    ⟨[], rfl⟩ (by decide)
  simp only [Bool.and_eq_true] at ht
  obtain ⟨⟨⟨⟨hs, hz⟩, hc⟩, hx⟩, hentry⟩ := ht
  obtain ⟨site, y, k, hsent, hid, hk, hcleaned, hun⟩ := workerLeaves_spec hr hs hz hc
  have hnone := (hall w callerC y workerA site k hr hcleaned hk hx hsent (hid ▸ hun)).1
  rw [hid] at hnone
  rw [hnone] at hentry
  cases hentry

end Broker
end IpcBroker
