import IpcBroker.Broker.Transition

/-! A connection goes through its phases once and in order; every entry of the shared maps
belongs to a client that has not yet passed the cleanup section that removes it. -/

namespace IpcBroker
open Function Foundation

def Phase.rank : Phase → Nat
  | .absent => 0
  | .reading | .handling _ => 1
  | .stopping => 2
  | .cleaning .objects => 3
  | .cleaning .subscriptions => 4
  | .cleaning .calls => 5
  | .cleaning .activeCalls => 6
  | .cleaning (.services _) => 7
  | .cleaned => 8
  | .ended => 9

def Phase.connected : Phase → Bool
  | .reading | .handling _ => true
  | _ => false

def Action.advances : Action → Option ClientId
  | .connect x | .readError x | .cleanup x | .finish x => some x
  | _ => none

namespace Broker
variable {s s' : Broker} {a : Action} {es : List Event} {x y : ClientId}

@[simp] theorem rank_afterSends (msgs : List Packet) : (afterSends msgs).rank = 1 := by
  cases msgs <;> rfl

@[simp] theorem rank_next (event : RpcResponse) (txs : List ClientSender) :
    (handlePublish.next event txs).rank = 1 := by
  cases txs <;> rfl

theorem rank_sends {pc : HandlerPc} {site : SendSite} {tx : ClientSender} {msg : Packet}
    {p : Phase} (h : pc.sends = some (site, tx, msg, p)) : p.rank = 1 := by
  obtain ⟨k, -, -, -, rfl⟩ | ⟨resp, -, -, -, rfl⟩ | ⟨event, rest, -, -, -, rfl⟩ |
    ⟨rest, -, -, rfl⟩ := HandlerPc.sends_cases h
  · rfl
  · rfl
  · exact rank_next event rest
  · exact rank_afterSends rest

theorem rank_update {p : Phase} (hx : p.rank = (s.phase x).rank) :
    (update s.phase x p y).rank = (s.phase y).rank := by
  by_cases hy : y = x
  · subst hy
    rw [update_self, hx]
  · rw [update_of_ne hy]

theorem rank_update_succ {p : Phase} (hx : p.rank = (s.phase x).rank + 1) :
    (update s.phase x p y).rank = (s.phase y).rank + if x = y then 1 else 0 := by
  by_cases hy : y = x
  · subst hy
    rw [update_self, hx, if_pos rfl]
  · rw [update_of_ne hy, if_neg (Ne.symm hy), Nat.add_zero]

theorem Transition.rank (h : Transition s a s' es) (y : ClientId) :
    (s'.phase y).rank = (s.phase y).rank + if a.advances = some y then 1 else 0 := by
  cases h with
  | connect h | readError h | cleanupClients h | cleanupObjects h | cleanupSubscriptions h
  | cleanupCalls h | cleanupActiveCalls h | cleanupServices h | finish h =>
    simp only [Action.advances, Option.some.injEq]
    exact rank_update_succ (by rw [h]; rfl)
  | receiveInvalid | receiveIdle | write | writeError | stopWriter | spawnEnd => rfl
  | send h hp | sendFailed h hp =>
    exact rank_update (by rw [rank_sends hp]; exact (congrArg Phase.rank h).symm)
  | registerServices h | publishSenders h | sendLookupGone h =>
    exact rank_update (by rw [h]; simp only [rank_afterSends, rank_next]; rfl)
  | _ => exact rank_update (by rw [‹s.phase _ = _›]; rfl)

/-! Who writes each shared map. -/

theorem cleanup_phase_ne {p q : Phase} (h : s.phase x = p) (hpq : p ≠ q) (y : ClientId)
    (hy : Action.cleanup x = .cleanup y) : s.phase y ≠ q := by
  cases hy
  exact h ▸ hpq

theorem Transition.clients (h : Transition s a s' es) :
    (s'.clients = s.clients ∧ (∀ x, a ≠ .connect x) ∧
      ∀ x, a = .cleanup x → s.phase x ≠ .stopping) ∨
    (∃ x, a = .connect x ∧ s.phase x = .absent ∧
      s'.clients = update s.clients x (some ⟨x⟩)) ∨
    ∃ x, a = .cleanup x ∧ s.phase x = .stopping ∧ s'.clients = update s.clients x none := by
  cases h with
  | connect h => exact .inr (.inl ⟨_, rfl, h, rfl⟩)
  | cleanupClients h => exact .inr (.inr ⟨_, rfl, h, rfl⟩)
  | cleanupObjects h | cleanupSubscriptions h | cleanupCalls h
  | cleanupActiveCalls h | cleanupServices h =>
    exact .inl ⟨rfl, nofun, cleanup_phase_ne h nofun⟩
  | _ => exact .inl ⟨rfl, nofun, nofun⟩

theorem Transition.objects (h : Transition s a s' es) :
    (s'.objects = s.objects ∧ ∀ x, a = .cleanup x → s.phase x ≠ .cleaning .objects) ∨
    (∃ x o, a = .handler x ∧ s.phase x = .handling (.registerObjects o) ∧
      s'.phase = update s.phase x (.handling (.registerServices o)) ∧
      s'.objects = update s.objects o (some x) ∧ es = [.registered x o]) ∨
    ∃ x, a = .cleanup x ∧ s.phase x = .cleaning .objects ∧
      s'.phase = update s.phase x (.cleaning .subscriptions) ∧
      s'.objects = fun o => if s.objects o = some x then none else s.objects o := by
  cases h with
  | registerObjects h => exact .inr (.inl ⟨_, _, rfl, h, rfl, rfl, rfl⟩)
  | cleanupObjects h => exact .inr (.inr ⟨_, rfl, h, rfl, rfl⟩)
  | cleanupClients h | cleanupSubscriptions h | cleanupCalls h
  | cleanupActiveCalls h | cleanupServices h =>
    exact .inl ⟨rfl, cleanup_phase_ne h nofun⟩
  | _ => exact .inl ⟨rfl, nofun⟩

theorem Transition.subscriptions (h : Transition s a s' es) :
    (s'.subscriptions = s.subscriptions ∧
      ∀ x, a = .cleanup x → s.phase x ≠ .cleaning .subscriptions) ∨
    (∃ x o topic, a = .handler x ∧ s.phase x = .handling (.subscribe o topic) ∧
      s'.subscriptions = update s.subscriptions o
        (update (s.subscriptions o) topic ((s.subscriptions o topic).insert x))) ∨
    ∃ x, a = .cleanup x ∧ s.phase x = .cleaning .subscriptions ∧
      s'.subscriptions = fun o topic => (s.subscriptions o topic).filter (· ≠ x) := by
  cases h with
  | subscribe h => exact .inr (.inl ⟨_, _, _, rfl, h, rfl⟩)
  | cleanupSubscriptions h => exact .inr (.inr ⟨_, rfl, h, rfl⟩)
  | cleanupClients h | cleanupObjects h | cleanupCalls h
  | cleanupActiveCalls h | cleanupServices h =>
    exact .inl ⟨rfl, cleanup_phase_ne h nofun⟩
  | _ => exact .inl ⟨rfl, nofun⟩

theorem Transition.calls (h : Transition s a s' es) :
    (s'.calls = s.calls ∧ ∀ x, a = .cleanup x → s.phase x ≠ .cleaning .calls) ∨
    (∃ x k workerId workerTx tx, a = .handler x ∧
      s.phase x = .handling (.callInsert k workerId workerTx tx) ∧
      s'.calls = update s.calls k.callId (some (x, tx)) ∧ es = [.recorded x k.callId]) ∨
    (∃ x resp c caller tx, a = .handler x ∧ s.phase x = .handling (.responseTake resp c) ∧
      s.calls c = some (caller, tx) ∧ s'.calls = update s.calls c none ∧
      s'.phase = update s.phase x (.handling (.responseForward resp tx)) ∧
      es = [.settled x c tx.channel]) ∨
    ∃ x, a = .cleanup x ∧ s.phase x = .cleaning .calls ∧
      s'.calls = fun c => (s.calls c).filter (·.1 ≠ x) := by
  cases h with
  | callInsert h => exact .inr (.inl ⟨_, _, _, _, _, rfl, h, rfl, rfl⟩)
  | responseTake h hc => exact .inr (.inr (.inl ⟨_, _, _, _, _, rfl, h, hc, rfl, rfl, rfl⟩))
  | cleanupCalls h => exact .inr (.inr (.inr ⟨_, rfl, h, rfl⟩))
  | cleanupClients h | cleanupObjects h | cleanupSubscriptions h
  | cleanupActiveCalls h | cleanupServices h =>
    exact .inl ⟨rfl, cleanup_phase_ne h nofun⟩
  | _ => exact .inl ⟨rfl, nofun⟩

inductive ServiceStep (s : Broker) (o : String) (x : ClientId) :
    Action → Phase → Option ServiceEntry → List Event → Prop
  | registered {e} (h : s.phase x = .handling (.registerServices o))
      (he : s.services o = some e) :
      ServiceStep s o x (.handler x)
        (afterSends (e.pendingCalls.map Packet.request ++ [Packet.response (.registered o)]))
        (some { e with state := .running x, owner := some x, pendingCalls := [] })
        [.running x o e.pendingCalls]
  | configured {name} (h : s.phase x = .handling (.registerService o name)) :
      ServiceStep s o x (.handler x) .reading
        (some (handleRegisterService.entry x name (s.services o))) [.serviceRegistered x o]
  | stopped {k e} (h : s.phase x = .handling (.callServices k)) (ho : k.objectName = o)
      (he : s.services o = some e) (hs : e.state = .stopped) :
      ServiceStep s o x (.handler x) (.handling (.callStart o e.serviceName))
        (some { e with state := .starting, pendingCalls := e.pendingCalls ++ [RpcRequest.call k] })
        [.queued x k .starting]
  | starting {k e} (h : s.phase x = .handling (.callServices k)) (ho : k.objectName = o)
      (he : s.services o = some e) (hs : e.state = .starting) :
      ServiceStep s o x (.handler x) .reading
        (some { e with pendingCalls := e.pendingCalls ++ [RpcRequest.call k] })
        [.queued x k .starting]
  | cleaned {activeCalls} (h : s.phase x = .cleaning (.services activeCalls)) :
      ServiceStep s o x (.cleanup x) .cleaned
        ((s.services o).map (cleanupService x activeCalls)) [.cleanedUp x]

theorem Transition.services (h : Transition s a s' es) (o : String) :
    (s'.services o = s.services o ∧
      ∀ x activeCalls, a = .cleanup x → s.phase x ≠ .cleaning (.services activeCalls)) ∨
    ∃ x p, ServiceStep s o x a p (s'.services o) es ∧ s'.phase = update s.phase x p := by
  cases h with
  | @registerServices x o' e h hl he =>
    by_cases ho : o = o'
    · subst ho
      refine .inr ⟨x, _, ?_, rfl⟩
      simpa only [goto_services, update_self] using ServiceStep.registered h he
    · exact .inl ⟨update_of_ne ho _ _, nofun⟩
  | @registerService x o' name h =>
    by_cases ho : o = o'
    · subst ho
      refine .inr ⟨x, _, ?_, rfl⟩
      simpa only [goto_services, update_self] using ServiceStep.configured h
    · exact .inl ⟨update_of_ne ho _ _, nofun⟩
  | @callStopped x k e h hl he hs =>
    by_cases ho : o = k.objectName
    · subst ho
      refine .inr ⟨x, _, ?_, rfl⟩
      simpa only [goto_services, update_self] using ServiceStep.stopped h rfl he hs
    · exact .inl ⟨update_of_ne ho _ _, nofun⟩
  | @callStarting x k e h hl he hs =>
    by_cases ho : o = k.objectName
    · subst ho
      refine .inr ⟨x, _, ?_, rfl⟩
      simpa only [goto_services, update_self] using ServiceStep.starting h rfl he hs
    · exact .inl ⟨update_of_ne ho _ _, nofun⟩
  | cleanupServices h => exact .inr ⟨_, _, .cleaned h, rfl⟩
  | cleanupClients h | cleanupObjects h | cleanupSubscriptions h
  | cleanupCalls h | cleanupActiveCalls h =>
    exact .inl ⟨rfl, fun y _ hy => cleanup_phase_ne h (by simp) y hy⟩
  | _ => exact .inl ⟨rfl, nofun⟩

/-! The invariant. -/

/-- Entries of the maps belong to connections that have not passed the matching section of
`cleanup_client`; a sender found anywhere feeds the channel of the client it is stored for. -/
structure Lifecycle (s : Broker) : Prop where
  clients : ∀ x, s.clients x =
    if 1 ≤ (s.phase x).rank ∧ (s.phase x).rank ≤ 2 then some ⟨x⟩ else none
  objects : ∀ o x, s.objects o = some x → 1 ≤ (s.phase x).rank ∧ (s.phase x).rank ≤ 3
  subscriptions : ∀ o topic x, x ∈ s.subscriptions o topic →
    1 ≤ (s.phase x).rank ∧ (s.phase x).rank ≤ 4
  calls : ∀ c x tx, s.calls c = some (x, tx) →
    tx = ⟨x⟩ ∧ 1 ≤ (s.phase x).rank ∧ (s.phase x).rank ≤ 5
  owner : ∀ o e x, s.services o = some e → e.owner = some x →
    1 ≤ (s.phase x).rank ∧ (s.phase x).rank ≤ 7
  running : ∀ o e x, s.services o = some e → e.state = .running x → e.owner = some x
  callerTx : ∀ x k workerId workerTx tx,
    s.phase x = .handling (.callInsert k workerId workerTx tx) → tx = ⟨x⟩
  ownTx : ∀ x tx msg rest, s.phase x = .handling (.sendAwait tx msg rest) → tx = ⟨x⟩

theorem lifecycle_initial (items : List ServiceActivationFile) :
    Lifecycle (Broker.initial items) where
  clients x := rfl
  objects o x h := by cases h
  subscriptions o topic x h := by cases h
  calls c x tx h := by cases h
  owner o e x h ho := by
    obtain ⟨name, rfl⟩ := loadServiceActivations_stopped items h
    cases ho
  running o e x h ho := by
    obtain ⟨name, rfl⟩ := loadServiceActivations_stopped items h
    cases ho
  callerTx x k workerId workerTx tx h := by cases h
  ownTx x tx msg rest h := by cases h

theorem Transition.advances (h : Transition s a s' es) (ha : a.advances = some x) :
    (a = .connect x ∧ (s.phase x).rank = 0) ∨ (a = .readError x ∧ (s.phase x).rank = 1) ∨
    (a = .cleanup x ∧ 2 ≤ (s.phase x).rank ∧ (s.phase x).rank ≤ 7) ∨
    (a = .finish x ∧ (s.phase x).rank = 8) := by
  cases h with
  | connect h | readError h | finish h | cleanupClients h | cleanupObjects h
  | cleanupSubscriptions h | cleanupCalls h | cleanupActiveCalls h | cleanupServices h =>
    cases ha
    simp [h, Phase.rank]
  | _ => cases ha

theorem rank_bound (h : Transition s a s' es) {n : Nat} (hn : 2 ≤ n ∧ n ≤ 7)
    (hx : 1 ≤ (s.phase x).rank ∧ (s.phase x).rank ≤ n)
    (hlast : a = .cleanup x → (s.phase x).rank ≠ n) :
    1 ≤ (s'.phase x).rank ∧ (s'.phase x).rank ≤ n := by
  have hr := h.rank x
  split_ifs at hr with ha
  · obtain ⟨-, h0⟩ | ⟨-, h1⟩ | ⟨hc, -⟩ | ⟨-, h8⟩ := h.advances ha
    · omega
    · omega
    · have := hlast hc
      omega
    · omega
  · omega

theorem connected_iff {p : Phase} : p.connected = true ↔ p.rank = 1 := by
  rcases p with _ | _ | _ | _ | (_ | _ | _ | _ | _) | _ | _ <;> simp [Phase.connected, Phase.rank]

theorem eq_of_rank {p q : Phase} (h : p.rank = q.rank) (hq : 2 ≤ q.rank ∧ q.rank ≤ 6) : p = q := by
  rcases q with _ | _ | _ | _ | (_ | _ | _ | _ | _) | _ | _ <;> simp only [Phase.rank] at h hq
  all_goals first
    | omega
    | rcases p with _ | _ | _ | _ | (_ | _ | _ | _ | _) | _ | _ <;>
        first | rfl | cases h

theorem rank_eq_seven {p : Phase} : p.rank = 7 ↔ ∃ active, p = .cleaning (.services active) := by
  rcases p with _ | _ | _ | _ | (_ | _ | _ | _ | _) | _ | _ <;> simp [Phase.rank]

theorem Lifecycle.step_clients (hI : Lifecycle s) (h : Transition s a s' es) (y : ClientId) :
    s'.clients y = if 1 ≤ (s'.phase y).rank ∧ (s'.phase y).rank ≤ 2 then some ⟨y⟩ else none := by
  have hr := h.rank y
  have hold := hI.clients y
  obtain ⟨hc, hcon, hclean⟩ | ⟨x, rfl, hx, hc⟩ | ⟨x, rfl, hx, hc⟩ := h.clients
  · rw [hc, hold]
    by_cases ha : a.advances = some y
    · rw [if_pos ha] at hr
      obtain ⟨hc, -⟩ | ⟨-, h1⟩ | ⟨hc, h2, h7⟩ | ⟨-, h8⟩ := h.advances ha
      · exact absurd hc (hcon y)
      · simp [hr, h1]
      · have h2' : (s.phase y).rank ≠ 2 := fun he =>
          hclean y hc (eq_of_rank he (by decide))
        rw [if_neg (by omega), if_neg (by omega)]
      · simp [hr, h8]
    · rw [if_neg ha, Nat.add_zero] at hr
      rw [hr]
  · by_cases hy : y = x
    · subst hy
      have h1 : (s'.phase y).rank = 1 := by rw [hr, hx]; simp [Action.advances, Phase.rank]
      simp [hc, h1]
    · rw [hc, update_of_ne hy, hold, hr]
      simp [Action.advances, Ne.symm hy]
  · by_cases hy : y = x
    · subst hy
      have h3 : (s'.phase y).rank = 3 := by rw [hr, hx]; simp [Action.advances, Phase.rank]
      simp [hc, h3]
    · rw [hc, update_of_ne hy, hold, hr]
      simp [Action.advances, Ne.symm hy]

theorem Lifecycle.step_objects (hI : Lifecycle s) (h : Transition s a s' es) (o : String)
    (y : ClientId) (hy : s'.objects o = some y) :
    1 ≤ (s'.phase y).rank ∧ (s'.phase y).rank ≤ 3 := by
  obtain ⟨hc, hclean⟩ | ⟨x, o', rfl, hx, -, hc, -⟩ | ⟨x, rfl, hx, -, hc⟩ := h.objects
  · rw [hc] at hy
    exact rank_bound h (by decide) (hI.objects o y hy) fun ha he =>
      hclean y ha (eq_of_rank he (by decide))
  · refine rank_bound h (by decide) ?_ nofun
    rw [hc] at hy
    by_cases ho : o = o'
    · subst ho
      rw [update_self, Option.some.injEq] at hy
      simp [← hy, hx, Phase.rank]
    · rw [update_of_ne ho] at hy
      exact hI.objects o y hy
  · simp only [hc] at hy
    split_ifs at hy with hox
    refine rank_bound h (by decide) (hI.objects o y hy) fun ha _ => ?_
    cases ha
    exact hox hy

theorem Lifecycle.step_subscriptions (hI : Lifecycle s) (h : Transition s a s' es)
    (o topic : String) (y : ClientId) (hy : y ∈ s'.subscriptions o topic) :
    1 ≤ (s'.phase y).rank ∧ (s'.phase y).rank ≤ 4 := by
  obtain ⟨hc, hclean⟩ | ⟨x, o', topic', rfl, hx, hc⟩ | ⟨x, rfl, hx, hc⟩ := h.subscriptions
  · rw [hc] at hy
    exact rank_bound h (by decide) (hI.subscriptions o topic y hy) fun ha he =>
      hclean y ha (eq_of_rank he (by decide))
  · refine rank_bound h (by decide) ?_ nofun
    by_cases hyx : y = x
    · simp [hyx, hx, Phase.rank]
    · refine hI.subscriptions o topic y ?_
      rw [hc] at hy
      by_cases ho : o = o'
      · subst ho
        rw [update_self] at hy
        by_cases ht : topic = topic'
        · subst ht
          rw [update_self] at hy
          exact (List.mem_insert_iff.mp hy).resolve_left hyx
        · rwa [update_of_ne ht] at hy
      · rwa [update_of_ne ho] at hy
  · simp only [hc, List.mem_filter, decide_eq_true_eq] at hy
    refine rank_bound h (by decide) (hI.subscriptions o topic y hy.1) fun ha _ => ?_
    cases ha
    exact hy.2 rfl

theorem Lifecycle.step_calls (hI : Lifecycle s) (h : Transition s a s' es) (c : CallId)
    (y : ClientId) (tx : ClientSender) (hy : s'.calls c = some (y, tx)) :
    tx = ⟨y⟩ ∧ 1 ≤ (s'.phase y).rank ∧ (s'.phase y).rank ≤ 5 := by
  obtain ⟨hc, hclean⟩ | ⟨x, k, workerId, workerTx, tx', rfl, hx, hc, -⟩ |
    ⟨x, resp, c', caller, tx', rfl, hx, -, hc, -, -⟩ | ⟨x, rfl, hx, hc⟩ := h.calls
  · rw [hc] at hy
    obtain ⟨htx, hb⟩ := hI.calls c y tx hy
    exact ⟨htx, rank_bound h (by decide) hb fun ha he =>
      hclean y ha (eq_of_rank he (by decide))⟩
  · rw [hc] at hy
    by_cases hk : c = k.callId
    · subst hk
      rw [update_self, Option.some.injEq, Prod.mk.injEq] at hy
      obtain ⟨rfl, rfl⟩ := hy
      exact ⟨hI.callerTx _ _ _ _ _ hx,
        rank_bound h (by decide) (by simp [hx, Phase.rank]) nofun⟩
    · rw [update_of_ne hk] at hy
      obtain ⟨htx, hb⟩ := hI.calls c y tx hy
      exact ⟨htx, rank_bound h (by decide) hb nofun⟩
  · rw [hc] at hy
    by_cases hk : c = c'
    · subst hk
      rw [update_self] at hy
      cases hy
    · rw [update_of_ne hk] at hy
      obtain ⟨htx, hb⟩ := hI.calls c y tx hy
      exact ⟨htx, rank_bound h (by decide) hb nofun⟩
  · simp only [hc, Option.filter_eq_some_iff, decide_eq_true_eq] at hy
    obtain ⟨htx, hb⟩ := hI.calls c y tx hy.1
    refine ⟨htx, rank_bound h (by decide) hb fun ha _ => ?_⟩
    cases ha
    exact hy.2 rfl

/-! What `handle_register_service` and the cleanup leave of an entry. -/

theorem entry_owner {name : String} {m : Option ServiceEntry} {w : ClientId}
    (h : (handleRegisterService.entry x name m).owner = some w) :
    ∃ e, m = some e ∧ e.owner = some w := by
  cases m with
  | none => cases h
  | some e => exact ⟨e, rfl, h⟩

theorem entry_running {name : String} {m : Option ServiceEntry} {w : ClientId}
    (h : (handleRegisterService.entry x name m).state = .running w) :
    w = x ∧ ∃ e, m = some e ∧ e.state = .running w := by
  cases m with
  | none => cases h
  | some e =>
    simp only [handleRegisterService.entry, handleRegisterService.modify] at h
    split_ifs at h with hx
    rw [not_not] at hx
    rw [hx, ServiceState.running.injEq] at h
    exact ⟨h.symm, e, rfl, h ▸ hx⟩

theorem cleanupService_owner {active : CallId → Bool} {e : ServiceEntry} {w : ClientId}
    (h : (cleanupService x active e).owner = some w) : e.owner = some w ∧ w ≠ x := by
  unfold cleanupService at h
  split_ifs at h with hx
  exact ⟨h, fun hw => hx (hw ▸ h)⟩

theorem cleanupService_running {active : CallId → Bool} {e : ServiceEntry} {w : ClientId}
    (h : (cleanupService x active e).state = .running w) :
    e.state = .running w ∧ e.owner ≠ some x ∧ (cleanupService x active e).owner = e.owner := by
  unfold cleanupService at h ⊢
  split_ifs at h ⊢ with hx
  exact ⟨h, hx, rfl⟩

theorem Lifecycle.step_owner (hI : Lifecycle s) (h : Transition s a s' es) (o : String)
    (e : ServiceEntry) (y : ClientId) (he : s'.services o = some e) (hy : e.owner = some y) :
    1 ≤ (s'.phase y).rank ∧ (s'.phase y).rank ≤ 7 := by
  obtain ⟨hc, hclean⟩ | ⟨x, p, hs, -⟩ := h.services o
  · rw [hc] at he
    refine rank_bound h (by decide) (hI.owner o e y he hy) fun ha hr => ?_
    obtain ⟨active, hp⟩ := rank_eq_seven.mp hr
    exact hclean y active ha hp
  · generalize s'.services o = v at hs he
    cases hs with
    | registered hx he' =>
      cases he
      cases hy
      exact rank_bound h (by decide) (by simp [hx, Phase.rank]) nofun
    | configured hx =>
      cases he
      obtain ⟨e', he', hy'⟩ := entry_owner hy
      exact rank_bound h (by decide) (hI.owner o e' y he' hy') nofun
    | stopped hx ho he' hst | starting hx ho he' hst =>
      cases he
      exact rank_bound h (by decide) (hI.owner o _ y he' hy) nofun
    | cleaned hx =>
      obtain ⟨e', he', rfl⟩ := Option.map_eq_some_iff.mp he
      obtain ⟨hy', hyx⟩ := cleanupService_owner hy
      refine rank_bound h (by decide) (hI.owner o e' y he' hy') fun ha _ => ?_
      cases ha
      exact hyx rfl

theorem Lifecycle.step_running (hI : Lifecycle s) (h : Transition s a s' es) (o : String)
    (e : ServiceEntry) (y : ClientId) (he : s'.services o = some e) (hy : e.state = .running y) :
    e.owner = some y := by
  obtain ⟨hc, -⟩ | ⟨x, p, hs, -⟩ := h.services o
  · rw [hc] at he
    exact hI.running o e y he hy
  · generalize s'.services o = v at hs he
    cases hs with
    | registered hx he' =>
      cases he
      cases hy
      rfl
    | configured hx =>
      cases he
      obtain ⟨rfl, e', he', hy'⟩ := entry_running hy
      rw [he']
      exact hI.running o e' y he' hy'
    | stopped hx ho he' hst =>
      cases he
      cases hy
    | starting hx ho he' hst =>
      cases he
      have howner := hI.running o _ y he'
      exact howner hy
    | cleaned hx =>
      obtain ⟨e', he', rfl⟩ := Option.map_eq_some_iff.mp he
      obtain ⟨hy', -, ho⟩ := cleanupService_running hy
      rw [ho]
      exact hI.running o e' y he' hy'

theorem Lifecycle.step_callerTx (hI : Lifecycle s) (h : Transition s a s' es) (y : ClientId)
    (k : Call) (workerId : Option ClientId) (workerTx : Option ClientSender) (tx : ClientSender)
    (hy : s'.phase y = .handling (.callInsert k workerId workerTx tx)) : tx = ⟨y⟩ := by
  obtain hy' | ⟨hl, hc, -⟩ := h.entered_callInsert hy
  · exact hI.callerTx y k workerId workerTx tx hy'
  · rw [hI.clients y, hl] at hc
    exact (Option.some.inj hc).symm

theorem Lifecycle.step_ownTx (hI : Lifecycle s) (h : Transition s a s' es) (y : ClientId)
    (tx : ClientSender) (msg : Packet) (rest : List Packet)
    (hy : s'.phase y = .handling (.sendAwait tx msg rest)) : tx = ⟨y⟩ := by
  obtain hy' | ⟨hl, hc⟩ := h.entered_sendAwait hy
  · exact hI.ownTx y tx msg rest hy'
  · rw [hI.clients y, hl] at hc
    exact (Option.some.inj hc).symm

theorem Lifecycle.step (hI : Lifecycle s) (h : Transition s a s' es) : Lifecycle s' where
  clients := hI.step_clients h
  objects := hI.step_objects h
  subscriptions := hI.step_subscriptions h
  calls := hI.step_calls h
  owner := hI.step_owner h
  running := hI.step_running h
  callerTx := hI.step_callerTx h
  ownTx := hI.step_ownTx h

theorem lifecycle {ok : World Broker Event → Action → Prop} {w : World Broker Event}
    (h : broker.RunWhere ok w) : Lifecycle w.state := by
  refine h.stateInvariant ?_ ?_
  · rintro _ ⟨items, rfl⟩
    exact lifecycle_initial items
  · intro s a s' es hI hs
    exact hI.step (step_transition hs)

theorem recorded_lifecycle {ok : World Broker BrokerStep → Action → Prop}
    {w : World Broker BrokerStep} (h : broker.recorded.RunWhere ok w) : Lifecycle w.state :=
  lifecycle h.run_events

end Broker
end IpcBroker
