import IpcBroker.Broker.DeliveredOnce
import IpcBroker.Broker.EqualIds
import IpcBroker.Broker.ResponseRouting
import IpcBroker.Broker.WorkerLoss
import IpcBroker.Foundation.Simulation

/-! What becomes of the answer to a call of a client that stays: it takes the entry of the call, and
then it is put on the channel of the caller. -/

namespace IpcBroker
open Function Foundation

def Event.responds (c : CallId) : Event → Bool
  | .received _ (.response r) => r.callId? = some c
  | _ => false

namespace Broker
variable {s s' : Broker} {a : Action} {es tr : List Event} {x y z : ClientId} {k : Call}
  {c : CallId} {r : RpcResponse} {w w' : World Broker Event}

def answersOnce (w : World Broker Event) : Action → Bool
  | .receive _ (some (.response r)) => r.callId?.all fun c => !w.trace.any (Event.responds c)
  | _ => true

def Followed (w : World Broker Event) (z x : ClientId) (r : RpcResponse) (c : CallId) : Prop :=
  (w.state.phase z = .handling (.responseTake r c) ∧ w.state.calls c = some (x, ⟨x⟩)) ∨
  w.state.phase z = .handling (.responseForward r ⟨x⟩) ∨
  Event.enqueued .handleResponse z x (.response r) ∈ w.trace

theorem responds_iff {e : Event} : e.responds c = true ↔
    ∃ y r, e = .received y (.response r) ∧ r.callId? = some c := by
  constructor
  · intro h
    unfold Event.responds at h
    split at h
    · exact ⟨_, _, rfl, of_decide_eq_true h⟩
    · cases h
  · rintro ⟨y, r, rfl, hc⟩
    exact decide_eq_true hc

section Once
variable {ok : World Broker Event → Action → Prop}

theorem responds_fresh (hone : ∀ w a, ok w a → answersOnce w a = true)
    (hok : ok w (.receive z (some (.response r)))) (hc : r.callId? = some c) :
    w.trace.countP (Event.responds c) = 0 := by
  have hfirst := hone _ _ hok
  simp only [answersOnce, hc, Option.all_some, Bool.not_eq_true', List.any_eq_false] at hfirst
  exact List.countP_eq_zero.mpr hfirst

theorem responds_once (hone : ∀ w a, ok w a → answersOnce w a = true) (h : broker.RunWhere ok w)
    (c : CallId) : w.trace.countP (Event.responds c) ≤ 1 := by
  refine h.invariant (I := fun w => w.trace.countP (Event.responds c) ≤ 1) ?_ ?_
  · exact fun s _ => Nat.zero_le 1
  · intro w a w' _ hI hok hn
    obtain ⟨es, ht, htr⟩ := next_transition hn
    rw [htr, List.countP_append]
    by_cases hex : ∃ e ∈ es, e.responds c = true
    · obtain ⟨e, he, hresp⟩ := hex
      obtain ⟨y, r, rfl, hc⟩ := responds_iff.mp hresp
      obtain ⟨rfl, rfl, -⟩ := ht.received he
      rw [responds_fresh hone hok hc]
      exact List.countP_le_length
    · have hzero : es.countP (Event.responds c) = 0 :=
        List.countP_eq_zero.mpr fun e he hresp => hex ⟨e, he, hresp⟩
      omega

theorem responded_unique (hone : ∀ w a, ok w a → answersOnce w a = true)
    (h : broker.RunWhere ok w) {r' : RpcResponse}
    (hz : Event.received z (.response r) ∈ w.trace) (hy : Event.received y (.response r') ∈ w.trace)
    (hc : r.callId? = some c) (hc' : r'.callId? = some c) : z = y ∧ r = r' := by
  have heq := eq_of_countP_le_one (responds_once hone h c) hz hy (decide_eq_true hc)
    (decide_eq_true hc')
  cases heq
  exact ⟨rfl, rfl⟩

theorem sent_entered (hfresh : ∀ w a, ok w a → freshCall w a = true) (h : broker.RunWhere ok w)
    (hk : Issued w.trace x k) (hx : (w.state.phase x).rank = 1)
    (hsent : 0 < w.trace.countP (Event.sendsCall k.callId)) (hun : Unanswered w.trace k.callId) :
    w.state.calls k.callId = some (x, ⟨x⟩) := by
  obtain hcalls | hnew := callsEntered hfresh h x k hk hx hun
  · exact hcalls
  · -- a call that is not recorded yet is still with its caller
    have hcopy : 0 < callCopies w k.callId .sent := hsent
    have hzero : callCopies w k.callId (.task x) = 0 :=
      (callCopies_atMostOne hfresh h k.callId).eq_zero hcopy nofun
    have hcall : (w.state.phase x).call? = some k := by
      generalize w.state.phase x = p at hnew
      unfold Phase.unrecorded? at hnew
      split at hnew <;> cases hnew <;> rfl
    simp [callCopies, Phase.callCopies, hcall] at hzero

theorem awaited_entry (hfresh : ∀ w a, ok w a → freshCall w a = true)
    (hone : ∀ w a, ok w a → answersOnce w a = true) (h : broker.RunWhere ok w)
    (hx : (w.state.phase x).rank = 1) (hsent : 0 < w.trace.countP (Event.sendsCall k.callId))
    (hc : r.callId? = some k.callId) (hz : w.state.phase z = .handling (.responseTake r k.callId))
    (hcalls : w.state.calls k.callId = some (x, ⟨x⟩)) (ht : Transition w.state a s' es)
    (ha : a ≠ .handler z) : s'.calls k.callId = some (x, ⟨x⟩) := by
  obtain ⟨hsame, -⟩ | ⟨y, j, workerId, workerTx, tx, -, hy, hnew, -⟩ |
    ⟨y, resp, c, caller, tx, rfl, hy, -, hnew, -, -⟩ | ⟨y, -, hy, hnew⟩ := ht.calls
  · rw [hsame]
    exact hcalls
  · -- a call that is sent has been recorded
    have hne : k.callId ≠ j.callId := by
      intro hid
      have hcopy : 0 < callCopies w k.callId .sent := hsent
      have hzero : callCopies w k.callId (.task y) = 0 :=
        (callCopies_atMostOne hfresh h k.callId).eq_zero hcopy nofun
      rw [callCopies, hy] at hzero
      simp [Phase.callCopies, Phase.call?, hid] at hzero
    rw [hnew, update_of_ne hne]
    exact hcalls
  · have hne : k.callId ≠ c := by
      intro hid
      have hsrc := (sources h).phase y
      have hsrc' := (sources h).phase z
      rw [hy] at hsrc
      rw [hz] at hsrc'
      obtain ⟨rfl, -⟩ := responded_unique hone h hsrc'.2 hsrc.2 hc (hid ▸ hsrc.1)
      exact ha rfl
    rw [hnew, update_of_ne hne]
    exact hcalls
  · have hxy : x ≠ y := by
      rintro rfl
      rw [hy] at hx
      cases hx
    rw [hnew]
    exact Option.filter_eq_some_iff.mpr ⟨hcalls, decide_eq_true hxy⟩

theorem Followed.step (hfresh : ∀ w a, ok w a → freshCall w a = true)
    (hone : ∀ w a, ok w a → answersOnce w a = true) (h : broker.RunWhere ok w)
    (hx : (w.state.phase x).rank = 1) (hsent : 0 < w.trace.countP (Event.sendsCall k.callId))
    (hc : r.callId? = some k.callId)
    (hI : Followed w z x r k.callId) (ht : Transition w.state a s' es) :
    Followed ⟨s', es ++ w.trace⟩ z x r k.callId := by
  obtain ⟨hz, hcalls⟩ | hz | he := hI
  · by_cases ha : a = .handler z
    · subst ha
      obtain ⟨caller, tx, hentry, -, hz'⟩ | ⟨hnone, -, -⟩ := ht.looked_up hz
      · cases hcalls.symm.trans hentry
        exact .inr (.inl hz')
      · cases hcalls.symm.trans hnone
    · exact .inl ⟨(ht.responseTake_kept hz).resolve_left ha,
        awaited_entry hfresh hone h hx hsent hc hz hcalls ht ha⟩
  · by_cases ha : a = .handler z
    · subst ha
      obtain he | hended := ht.responseForwarded hz
      · exact .inr (.inr (List.mem_append_left _ he))
      · rw [hended] at hx
        cases hx
    · refine .inr (.inl (ht.handling_kept hz ha fun subsList hsnap => ?_))
      subst hsnap
      obtain ⟨o, t, v, hy⟩ := ht.at_snapshot
      cases hz.symm.trans hy
  · exact .inr (.inr (List.mem_append_right es he))

theorem answers_followed (hfresh : ∀ w a, ok w a → freshCall w a = true)
    (hans : ∀ w a, ok w a → answersReceived w a = true)
    (hone : ∀ w a, ok w a → answersOnce w a = true) (h : broker.RunWhere ok w)
    (hk : Issued w.trace x k) (hx : (w.state.phase x).rank = 1)
    (hr : Event.received z (.response r) ∈ w.trace) (hc : r.callId? = some k.callId) :
    Followed w z x r k.callId := by
  revert x k z r
  refine h.invariant (I := fun w => ∀ {x z k r}, Issued w.trace x k →
    (w.state.phase x).rank = 1 → Event.received z (.response r) ∈ w.trace →
    r.callId? = some k.callId → Followed w z x r k.callId) nofun ?_
  intro w a w' hw hI hok hn x z k r hk hx hr hc
  obtain ⟨es, ht, htr⟩ := next_transition hn
  obtain ⟨s', tr'⟩ := w'
  obtain rfl : tr' = es ++ w.trace := htr
  have hw' := System.RunWhere.step hw hok hn
  -- the call was delivered to the worker, so it was issued and sent before
  obtain ⟨k', hid, hdel⟩ := answered_delivered hans hw' hr hc
  have hdel : Event.delivered z (.request (.call k')) ∈ w.trace := by
    obtain hdel | hdel := List.mem_append.mp hdel
    · obtain hr | hr := List.mem_append.mp hr
      · cases (ht.written hdel).symm.trans (ht.received hr).2.1
      · obtain ⟨k'', hid', hdel'⟩ := answered_delivered hans hw hr hc
        obtain ⟨site, y, henq⟩ := delivered_enqueued hw' (List.mem_append_left _ hdel)
        obtain ⟨u, j, hj, hissued⟩ := (sources hw').enqueued site y z _ henq
        cases hj
        obtain ⟨site', y', henq'⟩ := delivered_enqueued hw hdel'
        obtain ⟨u', j', hj', hissued'⟩ := (sources hw).enqueued site' y' z _ henq'
        cases hj'
        obtain ⟨-, rfl⟩ := issued_unique hfresh hw' hissued (hissued'.append es)
          (hid.trans hid'.symm)
        exact hdel'
    · exact hdel
  have hsent : 0 < w.trace.countP (Event.sendsCall k.callId) :=
    sent_of_delivered (sources hw) hid hdel
  obtain ⟨site, y, henq⟩ := delivered_enqueued hw hdel
  obtain ⟨u, j, hj, hissued⟩ := (sources hw).enqueued site y z _ henq
  cases hj
  obtain ⟨rfl, rfl⟩ := issued_unique hfresh hw' hk (hissued.append es) hid.symm
  have hbefore : (w.state.phase x).rank = 1 := by
    have hpos := issued_rank hw hissued
    have hrank := ht.rank x
    have hafter : (s'.phase x).rank = 1 := hx
    omega
  obtain hr | hr := List.mem_append.mp hr
  · obtain ⟨rfl, rfl, hz⟩ := ht.received hr
    have hd : dispatch (.response r) = some (.responseTake r k.callId) := by
      rw [dispatch, hc]
      rfl
    have hun : Unanswered w.trace k.callId := by
      intro y resp hy hresp
      exact List.countP_eq_zero.mp (responds_fresh hone hok hc) _ hy (decide_eq_true hresp)
    have hentry := sent_entered hfresh hw hissued hbefore hsent hun
    refine .inl ⟨ht.dispatched hd, ?_⟩
    obtain ⟨hsame, -⟩ | ⟨_, _, _, _, _, ha, -⟩ | ⟨_, _, _, _, _, ha, -⟩ | ⟨_, ha, -⟩ := ht.calls
    · exact hsame ▸ hentry
    all_goals cases ha
  · exact (hI hissued hbefore hr hc).step hfresh hone hw hbefore hsent hc ht

end Once

theorem enqueued_registers {ok : World Broker Event → Action → Prop} (h : broker.RunWhere ok w)
    {site : SendSite} (he : Event.enqueued site y z (.request (.call k)) ∈ w.trace) :
    Registers w.trace z k.objectName := by
  refine h.invariant (I := fun w => Event.enqueued site y z (.request (.call k)) ∈ w.trace →
    Registers w.trace z k.objectName) nofun ?_ he
  intro w a w' hr hI _ hn he
  obtain he | ⟨es, ht, htr, he⟩ := next_event hn he
  · obtain ⟨es, -, htr⟩ := next_transition hn
    exact htr ▸ (hI he).append es
  · exact htr ▸ (ht.target (ownersRegistered hr) (lifecycle hr) he).append es

end Broker
end IpcBroker
