import IpcBroker.Broker.WorkerLoss

/-! With distinct ids the right to answer a call is in one place: with the caller's task before the
call is entered in `calls`, then in its entry, then with the task that forwards a response, and
in the end on a channel. Who responds plays no part in it. -/

namespace IpcBroker
open Function Foundation

inductive ResponsePlace
  | unrecorded
  | entry
  | task (x : ClientId)
  | forwarded

def Phase.responseCopies (c : CallId) : Phase → Nat
  | .handling (.responseForward resp _) => if resp.callId? = some c then 1 else 0
  | _ => 0

def Event.records (c : CallId) : Event → Bool
  | .recorded _ c' => c' = c
  | _ => false

def Event.forwards (c : CallId) : Event → Bool
  | .enqueued .handleResponse _ _ p => p.answers c
  | _ => false

def responseCopies (w : World Broker Event) (c : CallId) : ResponsePlace → Nat
  | .unrecorded => if w.trace.countP (Event.records c) = 0 then 1 else 0
  | .entry => if (w.state.calls c).isSome then 1 else 0
  | .task x => (w.state.phase x).responseCopies c
  | .forwarded => w.trace.countP (Event.forwards c)

namespace Broker
variable {s s' : Broker} {a : Action} {es tr : List Event} {x y : ClientId} {k : Call}
  {c : CallId} {w w' : World Broker Event}

theorem responseCopies_calm {p : Phase} (h : p.calm = true) : p.responseCopies c = 0 := by
  unfold Phase.calm at h
  split at h
  · rfl
  · rfl
  · rfl
  · cases h

theorem responseCopies_request (r : RpcRequest) :
    (Phase.handling (handleRequest r)).responseCopies c = 0 := by
  cases r <;> rfl

theorem responseCopies_route (k : Call) (workerId : Option ClientId)
    (workerTx : Option ClientSender) :
    (Phase.handling (handleCall.route k workerId workerTx)).responseCopies c = 0 := by
  obtain ⟨w, tx, -, -, h⟩ | ⟨-, h⟩ := route_cases k workerId workerTx <;>
    · rw [h]
      rfl

structure NoResponse (c : CallId) (es : List Event) : Prop where
  recorded : es.countP (Event.records c) = 0
  forwarded : es.countP (Event.forwards c) = 0

theorem responseFlow_within (hes : NoResponse c es)
    (htask : ∀ y, (s'.phase y).responseCopies c ≤ (s.phase y).responseCopies c)
    (hcalls : (s'.calls c).isSome = true → (s.calls c).isSome = true) :
    ∃ i j, Flows (responseCopies ⟨s, tr⟩ c) (responseCopies ⟨s', es ++ tr⟩ c) i j := by
  refine ⟨_, _, Flows.of_le (fun q => ?_) .unrecorded⟩
  cases q with
  | unrecorded => simp only [responseCopies, List.countP_append, hes.recorded, Nat.zero_add,
      Nat.le_refl]
  | entry =>
    simp only [responseCopies]
    split_ifs with h₁ h₂
    · exact Nat.le_refl _
    · exact absurd (hcalls h₁) h₂
    · exact Nat.zero_le _
    · exact Nat.le_refl _
  | task y => exact htask y
  | forwarded => simp only [responseCopies, List.countP_append, hes.forwarded, Nat.zero_add,
      Nat.le_refl]

theorem responseFlow_drop {p : Phase} (hes : NoResponse c es)
    (hph : s'.phase = update s.phase x p) (hp : p.responseCopies c = 0)
    (hcalls : (s'.calls c).isSome = true → (s.calls c).isSome = true) :
    ∃ i j, Flows (responseCopies ⟨s, tr⟩ c) (responseCopies ⟨s', es ++ tr⟩ c) i j := by
  refine responseFlow_within hes (fun y => ?_) hcalls
  by_cases hy : y = x
  · subst hy
    rw [hph, update_self, hp]
    exact Nat.zero_le _
  · rw [hph, update_of_ne hy]

theorem responseFlow_recorded {p : Phase} {tx : ClientSender}
    (hnew : tr.countP (Event.records c) = 0) (hph : s'.phase = update s.phase x p)
    (hp : p.responseCopies c = 0) (hcalls : s'.calls = update s.calls c (some (x, tx))) :
    ∃ i j, Flows (responseCopies ⟨s, tr⟩ c) (responseCopies ⟨s', [.recorded x c] ++ tr⟩ c) i j := by
  refine ⟨.unrecorded, .entry, fun q hu he => ?_, ?_⟩
  · cases q with
    | unrecorded => exact absurd rfl hu
    | entry => exact absurd rfl he
    | task y =>
      simp only [responseCopies, hph]
      by_cases hy : y = x
      · subst hy
        rw [update_self, hp]
        exact Nat.zero_le _
      · rw [update_of_ne hy]
    | forwarded => exact Nat.le_refl _
  · have hbefore : responseCopies ⟨s, tr⟩ c .unrecorded = 1 := if_pos hnew
    have hafter : responseCopies ⟨s', [.recorded x c] ++ tr⟩ c .unrecorded = 0 := by
      refine if_neg ?_
      simp [Event.records]
    have hentry : responseCopies ⟨s', [.recorded x c] ++ tr⟩ c .entry = 1 := by
      simp only [responseCopies, hcalls, update_self, Option.isSome_some, if_true]
    rw [hbefore, hafter, hentry]
    omega

theorem responseFlow_moved {p : Phase} {i : ResponsePlace} (hph : s'.phase = update s.phase x p)
    (hrest : ∀ q, q ≠ i → (∀ y, q ≠ .task y) →
      responseCopies ⟨s', es ++ tr⟩ c q ≤ responseCopies ⟨s, tr⟩ c q)
    (hmoved : responseCopies ⟨s', es ++ tr⟩ c i + p.responseCopies c ≤
      responseCopies ⟨s, tr⟩ c i + (s.phase x).responseCopies c) :
    ∃ i j, Flows (responseCopies ⟨s, tr⟩ c) (responseCopies ⟨s', es ++ tr⟩ c) i j := by
  refine ⟨i, .task x, fun q hi hx => ?_, ?_⟩
  · by_cases hq : ∃ y, q = .task y
    · obtain ⟨y, rfl⟩ := hq
      have hy : y ≠ x := fun hyx => hx (hyx ▸ rfl)
      simp only [responseCopies, hph, update_of_ne hy, Nat.le_refl]
    · exact hrest q hi fun y hy => hq ⟨y, hy⟩
  · have htask : responseCopies ⟨s', es ++ tr⟩ c (.task x) = p.responseCopies c := by
      simp only [responseCopies, hph, update_self]
    rw [htask]
    exact hmoved

theorem responseFlow_taken {resp : RpcResponse} {c' : CallId} {tx : ClientSender}
    {v : ClientId × ClientSender} (hid : resp.callId? = some c') (hc : s.calls c' = some v)
    (hes : NoResponse c es) (hph : s'.phase = update s.phase x (.handling (.responseForward resp tx)))
    (hcalls : s'.calls = update s.calls c' none) :
    ∃ i j, Flows (responseCopies ⟨s, tr⟩ c) (responseCopies ⟨s', es ++ tr⟩ c) i j := by
  by_cases hcc : c = c'
  · subst hcc
    refine responseFlow_moved (i := .entry) hph (fun q hq hx => ?_) ?_
    · cases q with
      | unrecorded => simp only [responseCopies, List.countP_append, hes.recorded, Nat.zero_add,
          Nat.le_refl]
      | entry => exact absurd rfl hq
      | task y => exact absurd rfl (hx y)
      | forwarded => simp only [responseCopies, List.countP_append, hes.forwarded, Nat.zero_add,
          Nat.le_refl]
    · have hbefore : responseCopies ⟨s, tr⟩ c .entry = 1 := by simp [responseCopies, hc]
      have hafter : responseCopies ⟨s', es ++ tr⟩ c .entry = 0 := by simp [responseCopies, hcalls]
      have htask : (Phase.handling (.responseForward resp tx)).responseCopies c = 1 := if_pos hid
      rw [hbefore, hafter, htask]
      omega
  · refine responseFlow_drop hes hph ?_ ?_
    · simp [Phase.responseCopies, hid, Ne.symm hcc]
    · rw [hcalls, update_of_ne hcc]
      exact id

theorem responseFlow_send {pc : HandlerPc} {site : SendSite} {tx : ClientSender} {msg : Packet}
    {p : Phase} (h : s.phase x = .handling pc) (hs : pc.sends = some (site, tx, msg, p))
    (hph : s'.phase = update s.phase x p) (hcalls : s'.calls = s.calls) :
    ∃ i j, Flows (responseCopies ⟨s, tr⟩ c)
      (responseCopies ⟨s', [.enqueued site x tx.channel msg] ++ tr⟩ c) i j := by
  have hp : p.responseCopies c = 0 := responseCopies_calm (calm_sends hs)
  refine responseFlow_moved (i := .forwarded) hph (fun q hq hx => ?_) ?_
  · cases q with
    | unrecorded => exact Nat.le_refl _
    | entry => simp only [responseCopies, hcalls, Nat.le_refl]
    | task y => exact absurd rfl (hx y)
    | forwarded => exact absurd rfl hq
  · have hforwarded : responseCopies ⟨s', [.enqueued site x tx.channel msg] ++ tr⟩ c .forwarded =
        responseCopies ⟨s, tr⟩ c .forwarded +
          if (Event.enqueued site x tx.channel msg).forwards c then 1 else 0 := List.countP_cons ..
    have hheld : (if (Event.enqueued site x tx.channel msg).forwards c then 1 else 0) ≤
        (s.phase x).responseCopies c := by
      rw [h]
      obtain ⟨k, rfl, rfl, rfl, -⟩ | ⟨resp, rfl, rfl, rfl, -⟩ | ⟨event, rest, rfl, rfl, rfl, -⟩ |
        ⟨rest, rfl, rfl, -⟩ := HandlerPc.sends_cases hs
      · exact Nat.le_refl _
      · by_cases hid : resp.callId? = some c <;>
          simp [Phase.responseCopies, Event.forwards, Packet.answers, Packet.terminal?, hid]
      · exact Nat.le_refl _
      · exact Nat.le_refl _
    rw [hforwarded, hp]
    omega

theorem Transition.responseFlow (h : Transition s a s' es)
    (hnew : ∀ x k, (s.phase x).unrecorded? = some k → tr.countP (Event.records k.callId) = 0)
    (hsrc : ∀ x resp c, s.phase x = .handling (.responseTake resp c) → resp.callId? = some c) :
    ∃ i j, Flows (responseCopies ⟨s, tr⟩ c) (responseCopies ⟨s', es ++ tr⟩ c) i j := by
  cases h with
  | receiveInvalid | receiveIdle | write | writeError | stopWriter | spawnEnd =>
    exact responseFlow_within ⟨rfl, rfl⟩ (fun _ => Nat.le_refl _) id
  | @receive x p pc hx hd =>
    refine responseFlow_drop ⟨rfl, rfl⟩ rfl ?_ id
    obtain ⟨r, rfl, rfl⟩ | ⟨resp, c', rfl, hc, rfl⟩ := dispatch_cases hd
    · exact responseCopies_request r
    · rfl
  | @callInsert x k workerId workerTx tx hx =>
    have hroute := responseCopies_route (c := c) k workerId workerTx
    by_cases hk : k.callId = c
    · subst hk
      exact responseFlow_recorded (hnew x k (by rw [hx]; rfl)) rfl hroute rfl
    · refine responseFlow_drop ⟨?_, rfl⟩ rfl hroute ?_
      · simp [Event.records, hk]
      · intro hc
        simpa only [goto_calls, update_of_ne (Ne.symm hk)] using hc
  | responseTake hx hc => exact responseFlow_taken (hsrc _ _ _ hx) hc ⟨rfl, rfl⟩ rfl rfl
  | send hx hs => exact responseFlow_send hx hs rfl rfl
  | sendFailed hx hs =>
    exact responseFlow_drop ⟨rfl, rfl⟩ rfl (responseCopies_calm (calm_sends hs)) id
  | registerServices | sendLookupGone =>
    exact responseFlow_drop ⟨rfl, rfl⟩ rfl (responseCopies_calm (calm_afterSends _)) id
  | publishSenders =>
    exact responseFlow_drop ⟨rfl, rfl⟩ rfl (responseCopies_calm (calm_next _ _)) id
  | cleanupCalls hx =>
    refine responseFlow_drop ⟨rfl, rfl⟩ rfl rfl fun hc => ?_
    obtain ⟨v, hv⟩ := Option.isSome_iff_exists.mp hc
    exact Option.isSome_iff_exists.mpr ⟨v, (Option.filter_eq_some_iff.mp hv).1⟩
  | _ => exact responseFlow_drop ⟨rfl, rfl⟩ rfl rfl id

/-! A call is entered once. -/

theorem unrecorded_entered (h : Transition s a s' es) (hk : (s'.phase y).unrecorded? = some k) :
    (s.phase y).unrecorded? = some k ∨ a = .receive y (some (.request (.call k))) := by
  have hcalm : (s'.phase y).calm = false := by
    generalize s'.phase y = p at hk
    unfold Phase.unrecorded? at hk
    split at hk
    · rfl
    · rfl
    · cases hk
  obtain hp | he := h.entered hcalm rfl
  · exact .inl (hp ▸ hk)
  · generalize s'.phase y = p at hk he
    cases he with
    | receive hr hd =>
      obtain ⟨r, rfl, rfl⟩ | ⟨resp, c, -, -, rfl⟩ := dispatch_cases hd
      · cases r <;> cases hk
        exact .inr rfl
      · cases hk
    | callInsert hx => exact .inl (by rw [hx]; exact hk)
    | @callRoute k' workerId workerTx tx hx =>
      obtain ⟨w, tx', -, -, hroute⟩ | ⟨-, hroute⟩ := route_cases k' workerId workerTx <;>
        · rw [hroute] at hk
          cases hk
    | _ => cases hk

theorem Transition.recorded (h : Transition s a s' es) (he : Event.recorded x c ∈ es) :
    ∃ k, (s.phase x).unrecorded? = some k ∧ k.callId = c ∧ (s'.phase x).unrecorded? = none := by
  cases h with
  | @callInsert x k workerId workerTx tx hx =>
    cases List.mem_singleton.mp he
    refine ⟨k, by rw [hx]; rfl, rfl, ?_⟩
    rw [goto_phase, update_self]
    obtain ⟨w, tx', -, -, hroute⟩ | ⟨-, hroute⟩ := route_cases k workerId workerTx <;>
      · rw [hroute]
        rfl
  | _ => simp at he

section Distinct
variable {ok : World Broker Event → Action → Prop}

theorem unrecorded_issued (h : broker.RunWhere ok w)
    (hk : (w.state.phase x).unrecorded? = some k) : Issued w.trace x k := by
  refine (callOwners h).held x k ?_
  generalize w.state.phase x = p at hk
  unfold Phase.unrecorded? at hk
  split at hk <;> cases hk <;> rfl

theorem recorded_issued (hfresh : ∀ w a, ok w a → freshCall w a = true)
    (h : broker.RunWhere ok w) (hr : Event.recorded x c ∈ w.trace) :
    ∃ k, Issued w.trace x k ∧ k.callId = c ∧ (w.state.phase x).unrecorded? ≠ some k := by
  revert hr
  refine h.invariant (I := fun w => Event.recorded x c ∈ w.trace → ∃ k, Issued w.trace x k ∧
    k.callId = c ∧ (w.state.phase x).unrecorded? ≠ some k) nofun ?_
  intro w a w' hr hI hok hn hrec
  obtain ⟨es, ht, htr⟩ := next_transition hn
  rw [htr] at hrec ⊢
  obtain hrec | hrec := List.mem_append.mp hrec
  · obtain ⟨k, hk, hid, hafter⟩ := ht.recorded hrec
    exact ⟨k, (unrecorded_issued hr hk).append es, hid, by rw [hafter]; nofun⟩
  · obtain ⟨k, hissued, hid, hnot⟩ := hI hrec
    refine ⟨k, hissued.append es, hid, fun hk => ?_⟩
    obtain hk | rfl := unrecorded_entered ht hk
    · exact hnot hk
    · have hnew : k.callId ∉ callIds w.trace := of_decide_eq_true (hfresh w _ hok)
      exact hnew hissued.mem_callIds

theorem unrecorded_fresh (hfresh : ∀ w a, ok w a → freshCall w a = true)
    (h : broker.RunWhere ok w) (hk : (w.state.phase x).unrecorded? = some k) :
    w.trace.countP (Event.records k.callId) = 0 := by
  refine List.countP_eq_zero.mpr fun e he hrec => ?_
  unfold Event.records at hrec
  split at hrec
  · next y c =>
    have hid : c = k.callId := of_decide_eq_true hrec
    obtain ⟨j, hj, hjid, hnot⟩ := recorded_issued hfresh h he
    obtain ⟨rfl, rfl⟩ := issued_unique hfresh h hj (unrecorded_issued h hk) (hjid.trans hid)
    exact hnot hk
  · cases hrec

theorem responseCopies_atMostOne (hfresh : ∀ w a, ok w a → freshCall w a = true)
    (h : broker.RunWhere ok w) (c : CallId) : AtMostOne (responseCopies w c) := by
  refine h.invariant (I := fun w => AtMostOne (responseCopies w c)) ?_ ?_
  · rintro _ ⟨items, rfl⟩
    refine ⟨.unrecorded, Nat.le_refl _, fun q hq => ?_⟩
    cases q with
    | unrecorded => exact absurd rfl hq
    | entry | task | forwarded => rfl
  · intro w a w' hr hI hok hn
    obtain ⟨es, ht, htr⟩ := next_transition hn
    have hsrc : ∀ x resp c, w.state.phase x = .handling (.responseTake resp c) →
        resp.callId? = some c := by
      intro x resp c' hx
      have hx' := (sources hr).phase x
      rw [hx] at hx'
      exact hx'.1
    have hstep : ∃ i j, Flows (responseCopies ⟨w.state, w.trace⟩ c)
        (responseCopies ⟨w'.state, es ++ w.trace⟩ c) i j :=
      ht.responseFlow (fun x k hk => unrecorded_fresh hfresh hr hk) hsrc
    obtain ⟨i, j, hflow⟩ := hstep
    rw [← htr] at hflow
    exact hI.flows hflow

end Distinct

end Broker
end IpcBroker
