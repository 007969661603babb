import IpcBroker.Broker.CallCopies

/-! The one answer to a call: still undecided while its call is neither sent nor refused, then
due for the entry in `calls` or with the task that sends it, and in the end on a channel. -/

namespace IpcBroker
open Function Foundation

inductive AnswerPlace
  | undecided
  | task (x : ClientId)
  | outstanding
  | answered

def Packet.answers (c : CallId) (p : Packet) : Bool := p.terminal? = some c

def Phase.answerCopies (c : CallId) : Phase → Nat
  | .handling (.responseForward resp _) => if (Packet.response resp).answers c then 1 else 0
  | .handling (.publishSenders event subsList) =>
    if (Packet.response event).answers c then subsList.length else 0
  | .handling (.publishSend event senders) =>
    if (Packet.response event).answers c then senders.length else 0
  | p => p.messages.countP (Packet.answers c)

def Event.answers (c : CallId) : Event → Bool
  | .enqueued _ _ _ p => p.answers c
  | _ => false

def answerCopies (w : World Broker Event) (c : CallId) : AnswerPlace → Nat
  | .undecided =>
    if w.trace.countP (Event.sendsCall c) = 0 ∧ w.trace.countP (Event.refuses c) = 0 then 1 else 0
  | .task x => (w.state.phase x).answerCopies c
  | .outstanding =>
    if 0 < w.trace.countP (Event.sendsCall c) ∧ (w.state.calls c).isSome then 1 else 0
  | .answered => w.trace.countP (Event.answers c)

namespace Broker

def answersReceived (w : World Broker Event) : Action → Bool
  | .receive x (some (.response r)) =>
    r.callId?.all fun c => w.trace.any fun
      | .delivered y p => y = x && p.calls c
      | _ => false
  | _ => true

variable {s s' : Broker} {a : Action} {es tr : List Event} {x y : ClientId} {k : Call}
  {c : CallId} {w w' : World Broker Event}

theorem answerCopies_afterSends (msgs : List Packet) :
    (afterSends msgs).answerCopies c = msgs.countP (Packet.answers c) := by
  cases msgs <;> rfl

theorem answerCopies_next (event : RpcResponse) (txs : List ClientSender) :
    (handlePublish.next event txs).answerCopies c =
      if (Packet.response event).answers c then txs.length else 0 := by
  cases txs with
  | nil => exact (ite_self 0).symm
  | cons tx txs => rfl

theorem answers_request (r : RpcRequest) : (Packet.request r).answers c = false := rfl

theorem countP_answers_requests (rs : List RpcRequest) :
    (rs.map Packet.request).countP (Packet.answers c) = 0 := by
  rw [List.countP_map]
  exact List.countP_eq_zero.mpr fun r _ => by simp [answers_request]

structure NoAnswer (c : CallId) (es : List Event) : Prop where
  sent : es.countP (Event.sendsCall c) = 0
  refused : es.countP (Event.refuses c) = 0
  answered : es.countP (Event.answers c) = 0

theorem answerFlow_within (hes : NoAnswer c es)
    (htask : ∀ y, (s'.phase y).answerCopies c ≤ (s.phase y).answerCopies c)
    (hcalls : 0 < tr.countP (Event.sendsCall c) → (s'.calls c).isSome = true →
      (s.calls c).isSome = true) :
    ∃ i j, Flows (answerCopies ⟨s, tr⟩ c) (answerCopies ⟨s', es ++ tr⟩ c) i j := by
  refine ⟨_, _, Flows.of_le (fun q => ?_) .undecided⟩
  cases q with
  | undecided =>
    simp only [answerCopies, List.countP_append, hes.sent, hes.refused, Nat.zero_add,
      Nat.le_refl]
  | task y => exact htask y
  | outstanding =>
    simp only [answerCopies, List.countP_append, hes.sent, Nat.zero_add]
    split_ifs with h₁ h₂
    · exact Nat.le_refl _
    · exact absurd ⟨h₁.1, hcalls h₁.1 h₁.2⟩ h₂
    · exact Nat.zero_le _
    · exact Nat.le_refl _
  | answered =>
    simp only [answerCopies, List.countP_append, hes.answered, Nat.zero_add, Nat.le_refl]

theorem answerCopies_update {p : Phase} (hph : s'.phase = update s.phase x p)
    (hp : p.answerCopies c ≤ (s.phase x).answerCopies c) (y : ClientId) :
    (s'.phase y).answerCopies c ≤ (s.phase y).answerCopies c := by
  by_cases hy : y = x
  · subst hy
    rw [hph, update_self]
    exact hp
  · rw [hph, update_of_ne hy]

theorem answerFlow_task {p : Phase} (hes : NoAnswer c es) (hph : s'.phase = update s.phase x p)
    (hcalls : 0 < tr.countP (Event.sendsCall c) → (s'.calls c).isSome = true →
      (s.calls c).isSome = true)
    (hp : p.answerCopies c ≤ (s.phase x).answerCopies c) :
    ∃ i j, Flows (answerCopies ⟨s, tr⟩ c) (answerCopies ⟨s', es ++ tr⟩ c) i j :=
  answerFlow_within hes (answerCopies_update hph hp) hcalls

theorem answerFlow_drop {p : Phase} (hes : NoAnswer c es) (hph : s'.phase = update s.phase x p)
    (hcalls : 0 < tr.countP (Event.sendsCall c) → (s'.calls c).isSome = true →
      (s.calls c).isSome = true)
    (hp : p.answerCopies c = 0) :
    ∃ i j, Flows (answerCopies ⟨s, tr⟩ c) (answerCopies ⟨s', es ++ tr⟩ c) i j :=
  answerFlow_task hes hph hcalls (hp ▸ Nat.zero_le _)

theorem answerFlow_moved {p : Phase} {i : AnswerPlace} (hph : s'.phase = update s.phase x p)
    (hrest : ∀ q, q ≠ i → (∀ y, q ≠ .task y) →
      answerCopies ⟨s', es ++ tr⟩ c q ≤ answerCopies ⟨s, tr⟩ c q)
    (hmoved : answerCopies ⟨s', es ++ tr⟩ c i + p.answerCopies c ≤
      answerCopies ⟨s, tr⟩ c i + (s.phase x).answerCopies c) :
    ∃ i j, Flows (answerCopies ⟨s, tr⟩ c) (answerCopies ⟨s', es ++ tr⟩ c) i j := by
  refine ⟨i, .task x, fun q hi hx => ?_, ?_⟩
  · by_cases hq : ∃ y, q = .task y
    · obtain ⟨y, rfl⟩ := hq
      have hy : y ≠ x := fun hyx => hx (hyx ▸ rfl)
      simp only [answerCopies, hph, update_of_ne hy, Nat.le_refl]
    · exact hrest q hi fun y hy => hq ⟨y, hy⟩
  · have htask : answerCopies ⟨s', es ++ tr⟩ c (.task x) = p.answerCopies c := by
      simp only [answerCopies, hph, update_self]
    rw [htask]
    exact hmoved

theorem undecided_of_held (hcopies : AtMostOne (callCopies ⟨s, tr⟩ c))
    (h : 0 < (s.phase x).callCopies c) :
    tr.countP (Event.sendsCall c) = 0 ∧ tr.countP (Event.refuses c) = 0 := by
  have htask : 0 < callCopies ⟨s, tr⟩ c (.task x) := h
  exact ⟨hcopies.eq_zero (q := .sent) htask nofun, hcopies.eq_zero (q := .refused) htask nofun⟩

theorem answerFlow_refused {p : Phase} (hcopies : AtMostOne (callCopies ⟨s, tr⟩ c))
    (h : (s.phase x).call? = some k) (hph : s'.phase = update s.phase x p)
    (hp : p.answerCopies c = if k.callId = c then 1 else 0) (hcalls : s'.calls = s.calls)
    (hsent : es.countP (Event.sendsCall c) = 0) (hans : es.countP (Event.answers c) = 0)
    (href : es.countP (Event.refuses c) = if k.callId = c then 1 else 0) :
    ∃ i j, Flows (answerCopies ⟨s, tr⟩ c) (answerCopies ⟨s', es ++ tr⟩ c) i j := by
  refine answerFlow_moved (i := .undecided) hph (fun q hq hx => ?_) ?_
  · cases q with
    | undecided => exact absurd rfl hq
    | task y => exact absurd rfl (hx y)
    | outstanding =>
      simp only [answerCopies, List.countP_append, hsent, Nat.zero_add, hcalls, Nat.le_refl]
    | answered => simp only [answerCopies, List.countP_append, hans, Nat.zero_add, Nat.le_refl]
  · by_cases hk : k.callId = c
    · have hheld : 0 < (s.phase x).callCopies c := by
        simp [Phase.callCopies, h, hk, Nat.add_comm 1]
      obtain ⟨hs, hr⟩ := undecided_of_held hcopies hheld
      simp [answerCopies, List.countP_append, hsent, href, hs, hr, hk, hp]
    · simp [answerCopies, List.countP_append, hsent, href, hk, hp]

theorem answerFlow_sent {p : Phase} {e : Event} (hcopies : AtMostOne (callCopies ⟨s, tr⟩ c))
    (hheld : 0 < (s.phase x).callCopies c) (hph : s'.phase = update s.phase x p)
    (hp : p.answerCopies c ≤ (s.phase x).answerCopies c) (hsent : e.sendsCall c = true)
    (hans : e.answers c = false) :
    ∃ i j, Flows (answerCopies ⟨s, tr⟩ c) (answerCopies ⟨s', [e] ++ tr⟩ c) i j := by
  refine ⟨.undecided, .outstanding, fun q hu ho => ?_, ?_⟩
  · cases q with
    | undecided => exact absurd rfl hu
    | task y => exact answerCopies_update hph hp y
    | outstanding => exact absurd rfl ho
    | answered => simp [answerCopies, hans]
  · have hbefore : answerCopies ⟨s, tr⟩ c .undecided = 1 := if_pos (undecided_of_held hcopies hheld)
    have hafter : answerCopies ⟨s', [e] ++ tr⟩ c .undecided = 0 := by
      refine if_neg fun h => ?_
      rw [List.cons_append, List.countP_cons_of_pos hsent] at h
      cases h.1
    have hle : answerCopies ⟨s', [e] ++ tr⟩ c .outstanding ≤ 1 := by
      simp only [answerCopies]
      split_ifs <;> decide
    rw [hbefore, hafter]
    omega

theorem answerFlow_taken {resp : RpcResponse} {c' : CallId} {tx : ClientSender}
    (h : s.phase x = .handling (.responseTake resp c')) (hid : resp.callId? = some c')
    (hc : (s.calls c').isSome = true) (hsent : 0 < tr.countP (Event.sendsCall c'))
    (hes : NoAnswer c es) (hph : s'.phase = update s.phase x (.handling (.responseForward resp tx)))
    (hcalls : s'.calls = update s.calls c' none) :
    ∃ i j, Flows (answerCopies ⟨s, tr⟩ c) (answerCopies ⟨s', es ++ tr⟩ c) i j := by
  by_cases hcc : c = c'
  · subst hcc
    refine answerFlow_moved (i := .outstanding) hph (fun q hq hx => ?_) ?_
    · cases q with
      | undecided =>
        simp only [answerCopies, List.countP_append, hes.sent, hes.refused, Nat.zero_add,
          Nat.le_refl]
      | task y => exact absurd rfl (hx y)
      | outstanding => exact absurd rfl hq
      | answered =>
        simp only [answerCopies, List.countP_append, hes.answered, Nat.zero_add, Nat.le_refl]
    · have hbefore : answerCopies ⟨s, tr⟩ c .outstanding = 1 := if_pos ⟨hsent, hc⟩
      have hafter : answerCopies ⟨s', es ++ tr⟩ c .outstanding = 0 := by
        simp only [answerCopies, hcalls, update_self, Option.isSome_none, Bool.false_eq_true,
          and_false, if_false]
      have htask : (Phase.handling (.responseForward resp tx)).answerCopies c ≤ 1 := by
        simp only [Phase.answerCopies]
        split_ifs <;> decide
      rw [hbefore, hafter]
      omega
  · refine answerFlow_drop hes hph ?_ ?_
    · rw [hcalls, update_of_ne hcc]
      exact fun _ => id
    · have hne : (Packet.response resp).answers c = false := by
        simp [Packet.answers, Packet.terminal?, hid, Ne.symm hcc]
      simp [Phase.answerCopies, hne]

theorem answerCopies_sends {pc : HandlerPc} {site : SendSite} {tx : ClientSender} {msg : Packet}
    {p : Phase} (h : pc.sends = some (site, tx, msg, p)) :
    (Phase.handling pc).answerCopies c = p.answerCopies c + if msg.answers c then 1 else 0 := by
  obtain ⟨k, rfl, -, rfl, rfl⟩ | ⟨resp, rfl, -, rfl, rfl⟩ | ⟨event, rest, rfl, -, rfl, rfl⟩ |
    ⟨rest, rfl, -, rfl⟩ := HandlerPc.sends_cases h
  · rfl
  · exact (Nat.zero_add _).symm
  · rw [answerCopies_next]
    simp only [Phase.answerCopies, List.length_cons]
    split_ifs <;> rfl
  · rw [answerCopies_afterSends]
    exact List.countP_cons ..

theorem answerFlow_send {pc : HandlerPc} {site : SendSite} {tx : ClientSender} {msg : Packet}
    {p : Phase} (hcopies : AtMostOne (callCopies ⟨s, tr⟩ c)) (h : s.phase x = .handling pc)
    (hs : pc.sends = some (site, tx, msg, p)) (hph : s'.phase = update s.phase x p)
    (hcalls : s'.calls = s.calls) :
    ∃ i j, Flows (answerCopies ⟨s, tr⟩ c)
      (answerCopies ⟨s', [.enqueued site x tx.channel msg] ++ tr⟩ c) i j := by
  have hheld := answerCopies_sends (c := c) hs
  rw [← h] at hheld
  have hle : p.answerCopies c ≤ (s.phase x).answerCopies c := hheld ▸ Nat.le_add_right _ _
  cases msg with
  | request r =>
    cases hr : (Packet.request r).calls c with
    | true =>
      refine answerFlow_sent hcopies ?_ hph hle hr rfl
      rw [h, callCopies_sends hs, hr]
      exact Nat.succ_pos _
    | false =>
      have hes : NoAnswer c [.enqueued site x tx.channel (.request r)] :=
        ⟨by simp [Event.sendsCall, hr], rfl, rfl⟩
      exact answerFlow_task hes hph (by rw [hcalls]; exact fun _ => id) hle
  | response r =>
    refine answerFlow_moved (i := .answered) hph (fun q hq hx => ?_) ?_
    · cases q with
      | undecided => exact Nat.le_refl _
      | task y => exact absurd rfl (hx y)
      | outstanding =>
        have hsent : (Event.enqueued site x tx.channel (.response r)).sendsCall c = false := rfl
        simp [answerCopies, hsent, hcalls]
      | answered => exact absurd rfl hq
    · have hans : answerCopies ⟨s', [.enqueued site x tx.channel (.response r)] ++ tr⟩ c .answered =
          answerCopies ⟨s, tr⟩ c .answered + if (Packet.response r).answers c then 1 else 0 :=
        List.countP_cons ..
      rw [hans, hheld]
      omega

theorem countP_answers_error {o message : String} {c' : CallId} :
    [Packet.response (.error (some c') o message)].countP (Packet.answers c) =
      if c' = c then 1 else 0 := by
  simp [Packet.answers, Packet.terminal?, RpcResponse.callId?]

theorem Transition.answerFlow (h : Transition s a s' es)
    (hcopies : AtMostOne (callCopies ⟨s, tr⟩ c))
    (hsent : ∀ x resp c, a = .handler x → s.phase x = .handling (.responseTake resp c) →
      resp.callId? = some c ∧ 0 < tr.countP (Event.sendsCall c)) :
    ∃ i j, Flows (answerCopies ⟨s, tr⟩ c) (answerCopies ⟨s', es ++ tr⟩ c) i j := by
  cases h with
  | receiveInvalid | receiveIdle | write | writeError | stopWriter | spawnEnd =>
    exact answerFlow_within ⟨rfl, rfl, rfl⟩ (fun _ => Nat.le_refl _) fun _ => id
  | @receive x p pc hx hd =>
    refine answerFlow_drop ⟨rfl, rfl, rfl⟩ rfl (fun _ => id) ?_
    obtain ⟨r, rfl, rfl⟩ | ⟨resp, c', rfl, hc, rfl⟩ := dispatch_cases hd
    · cases r <;> rfl
    · rfl
  | registerServices hx =>
    refine answerFlow_drop ⟨rfl, rfl, rfl⟩ rfl (fun _ => id) ?_
    rw [answerCopies_afterSends, List.countP_append, countP_answers_requests]
    rfl
  | callGone hx =>
    exact answerFlow_refused hcopies (by rw [hx]; rfl) rfl
      (by rw [answerCopies_afterSends, countP_answers_error]) rfl rfl rfl
      (by simp [Event.refuses, List.countP_cons])
  | callUnknown hx =>
    exact answerFlow_refused hcopies (by rw [hx]; rfl) rfl
      (by rw [answerCopies_afterSends, countP_answers_error]) rfl rfl rfl
      (by simp [Event.refuses])
  | @callInsert x k workerId workerTx tx hx =>
    refine answerFlow_drop ⟨rfl, rfl, rfl⟩ rfl (fun hs hc => ?_) ?_
    · -- an entry is new only for a call that is still with its caller
      by_cases hk : c = k.callId
      · have hheld : 0 < (s.phase x).callCopies c := by
          rw [hx, callCopies_holding rfl rfl, if_pos hk.symm]
          exact Nat.one_pos
        exact absurd (undecided_of_held hcopies hheld).1 (Nat.pos_iff_ne_zero.mp hs)
      · simpa only [goto_calls, update_of_ne hk] using hc
    · obtain ⟨w, t, -, -, hroute⟩ | ⟨-, hroute⟩ := route_cases k workerId workerTx <;>
        · rw [hroute]
          rfl
  | @responseTake x resp c' caller tx hx hc =>
    obtain ⟨hid, hs⟩ := hsent x resp c' rfl hx
    exact answerFlow_taken hx hid (by rw [hc]; rfl) hs ⟨rfl, rfl, rfl⟩ rfl rfl
  | publishSenders hx =>
    refine answerFlow_task ⟨rfl, rfl, rfl⟩ rfl (fun _ => id) ?_
    rw [hx, answerCopies_next]
    simp only [Phase.answerCopies]
    split_ifs
    · exact List.length_filterMap_le ..
    · exact Nat.le_refl _
  | sendLookup hx =>
    exact answerFlow_task ⟨rfl, rfl, rfl⟩ rfl (fun _ => id) (by rw [hx]; exact Nat.le_refl _)
  | sendLookupGone hx =>
    refine answerFlow_task ⟨rfl, rfl, rfl⟩ rfl (fun _ => id) ?_
    rw [hx, answerCopies_afterSends]
    exact List.Sublist.countP_le (List.sublist_cons_self ..)
  | send hx hs => exact answerFlow_send hcopies hx hs rfl rfl
  | sendFailed hx hs =>
    refine answerFlow_task ⟨rfl, rfl, rfl⟩ rfl (fun _ => id) ?_
    rw [hx, answerCopies_sends hs]
    exact Nat.le_add_right _ _
  | cleanupCalls hx =>
    refine answerFlow_drop ⟨rfl, rfl, rfl⟩ rfl (fun _ hc => ?_) rfl
    obtain ⟨v, hv⟩ := Option.isSome_iff_exists.mp hc
    exact Option.isSome_iff_exists.mpr ⟨v, (Option.filter_eq_some_iff.mp hv).1⟩
  | _ => exact answerFlow_drop ⟨rfl, rfl, rfl⟩ rfl (fun _ => id) rfl

end Broker
end IpcBroker
