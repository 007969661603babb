import IpcBroker.Broker.Lifecycle
import IpcBroker.Foundation.History

/-! What the history of a run says about calls: who issued one, and that in runs whose call ids
are pairwise distinct an id determines its call. -/

namespace IpcBroker
open Function Foundation

def Phase.call? : Phase → Option Call
  | .handling (.callLookup k) | .handling (.callInsert k _ _ _) | .handling (.callForward k _)
  | .handling (.callServices k) => some k
  | _ => none

def Event.receivedCall? : Event → Option Call
  | .received _ p => p.call?
  | _ => none

def Event.callFrom? (x : ClientId) : Event → Option Call
  | .received y p => if y = x then p.call? else none
  | _ => none

def Event.packetOf? (x : ClientId) : Event → Option Packet
  | .received y p => if y = x then some p else none
  | _ => none

abbrev handled (x : ClientId) (tr : List Event) : Option (Packet × List Event) :=
  lastOf (Event.packetOf? x) tr

def callIds (tr : List Event) : List CallId := (tr.filterMap Event.receivedCall?).map (·.callId)

def Issued (tr : List Event) (x : ClientId) (k : Call) : Prop :=
  Event.received x (.request (.call k)) ∈ tr

theorem Issued.mem_callIds {tr : List Event} {x : ClientId} {k : Call} (h : Issued tr x k) : k.callId ∈ callIds tr :=
  List.mem_map.mpr ⟨k, List.mem_filterMap.mpr ⟨_, h, rfl⟩, rfl⟩

theorem Issued.append {tr : List Event} {x : ClientId} {k : Call} (h : Issued tr x k) (es : List Event) :
    Issued (es ++ tr) x k := List.mem_append_right es h

def Event.reads (x : ClientId) (c : CallId) : Event → Bool
  | .received y (.request (.call k)) => y = x && k.callId = c
  | _ => false

theorem issued_of_reads {tr : List Event} {x : ClientId} {c : CallId}
    (h : tr.any (Event.reads x c) = true) : ∃ k, Issued tr x k ∧ k.callId = c := by
  obtain ⟨e, he, hr⟩ := List.any_eq_true.mp h
  unfold Event.reads at hr
  split at hr
  · next y k =>
    rw [Bool.and_eq_true, decide_eq_true_eq, decide_eq_true_eq] at hr
    obtain ⟨rfl, hid⟩ := hr
    exact ⟨k, he, hid⟩
  · cases hr

namespace Broker

/-- A call the broker reads carries an id no call before it had. -/
def freshCall (w : World Broker Event) : Action → Bool
  | .receive _ (some (.request (.call k))) => k.callId ∉ callIds w.trace
  | _ => true

variable {s s' : Broker} {a : Action} {es : List Event} {x y : ClientId} {k : Call}
  {w : World Broker Event}

theorem Transition.received {p : Packet} (h : Transition s a s' es)
    (hp : Event.received x p ∈ es) :
    a = .receive x (some p) ∧ es = [.received x p] ∧ s.phase x = .reading := by
  cases h with
  | receiveIdle hx | receive hx =>
    cases List.mem_singleton.mp hp
    exact ⟨rfl, rfl, hx⟩
  | _ => simp at hp

theorem Transition.packetOf (h : Transition s a s' es)
    (ha : ∀ p, a ≠ .receive x (some p)) : ∀ e ∈ es, e.packetOf? x = none := by
  intro e he
  cases e with
  | received y p =>
    obtain ⟨rfl, -, -⟩ := h.received he
    have hyx : y ≠ x := fun hyx => ha p (hyx ▸ rfl)
    exact if_neg hyx
  | _ => rfl

theorem Transition.queued {left : ServiceState} (h : Transition s a s' es)
    (he : Event.queued x k left ∈ es) :
    a = .handler x ∧ s.phase x = .handling (.callServices k) ∧ es = [.queued x k left] ∧
      left = .starting ∧ ∃ e, s'.services k.objectName = some e ∧ e.state = .starting ∧
        RpcRequest.call k ∈ e.pendingCalls := by
  cases h with
  | callStopped hx =>
    cases List.mem_singleton.mp he
    have hmem : ∀ rs, RpcRequest.call k ∈ rs ++ [RpcRequest.call k] := fun rs =>
      List.mem_append_right rs (List.mem_singleton_self _)
    exact ⟨rfl, hx, rfl, rfl, _, update_self .., rfl, hmem _⟩
  | callStarting hx hl he' hst =>
    cases List.mem_singleton.mp he
    have hmem : ∀ rs, RpcRequest.call k ∈ rs ++ [RpcRequest.call k] := fun rs =>
      List.mem_append_right rs (List.mem_singleton_self _)
    exact ⟨rfl, hx, rfl, rfl, _, update_self .., hst, hmem _⟩
  | _ => simp at he

theorem next_event {ev : Event} {w' : World Broker Event} (hn : broker.next w a = some w')
    (he : ev ∈ w'.trace) :
    ev ∈ w.trace ∨ ∃ es, Transition w.state a w'.state es ∧ w'.trace = es ++ w.trace ∧ ev ∈ es := by
  obtain ⟨es, hs, ht⟩ := System.next_eq_some.mp hn
  rw [ht, List.mem_append] at he
  obtain he | he := he
  · exact .inr ⟨es, step_transition hs, ht, he⟩
  · exact .inl he

theorem next_transition {w' : World Broker Event} (hn : broker.next w a = some w') :
    ∃ es, Transition w.state a w'.state es ∧ w'.trace = es ++ w.trace := by
  obtain ⟨es, hs, ht⟩ := System.next_eq_some.mp hn
  exact ⟨es, step_transition hs, ht⟩

theorem issued_next {w' : World Broker Event} (hn : broker.next w a = some w')
    (hk : Issued w'.trace x k) :
    Issued w.trace x k ∨
      (a = .receive x (some (.request (.call k))) ∧ w.state.phase x = .reading) := by
  obtain hk | ⟨es, h, -, hk⟩ := next_event hn hk
  · exact .inl hk
  · obtain ⟨ha, -, hx⟩ := h.received hk
    exact .inr ⟨ha, hx⟩

theorem received_rank {ok : World Broker Event → Action → Prop} (h : broker.RunWhere ok w)
    {p : Packet} (hp : Event.received x p ∈ w.trace) : 1 ≤ (w.state.phase x).rank := by
  revert hp
  refine h.invariant
    (I := fun w => Event.received x p ∈ w.trace → 1 ≤ (w.state.phase x).rank) nofun ?_
  intro w a w' hr hI _ hn hp
  obtain ⟨es, ht, htr⟩ := next_transition hn
  have hrank := ht.rank x
  rw [htr, List.mem_append] at hp
  obtain hp | hp := hp
  · obtain ⟨-, -, hx⟩ := ht.received hp
    rw [hx] at hrank
    rw [hrank]
    exact Nat.le_add_right _ _
  · have hold := hI hp
    omega

theorem issued_rank {ok : World Broker Event → Action → Prop} (h : broker.RunWhere ok w)
    (hk : Issued w.trace x k) : 1 ≤ (w.state.phase x).rank := received_rank h hk

theorem queued_rank {ok : World Broker Event → Action → Prop} (h : broker.RunWhere ok w)
    {left : ServiceState} (hq : Event.queued x k left ∈ w.trace) :
    1 ≤ (w.state.phase x).rank := by
  revert hq
  refine h.invariant
    (I := fun w => Event.queued x k left ∈ w.trace → 1 ≤ (w.state.phase x).rank) nofun ?_
  intro w a w' hr hI _ hn hq
  obtain ⟨es, ht, htr⟩ := next_transition hn
  have hrank := ht.rank x
  rw [htr, List.mem_append] at hq
  obtain hq | hq := hq
  · obtain ⟨-, hx, -⟩ := ht.queued hq
    rw [hx] at hrank
    rw [hrank]
    exact Nat.le_add_right _ _
  · have hold := hI hq
    omega

section Distinct
variable {ok : World Broker Event → Action → Prop}

theorem issued_unique (hfresh : ∀ w a, ok w a → freshCall w a = true)
    (h : broker.RunWhere ok w) {k' : Call} (hx : Issued w.trace x k) (hy : Issued w.trace y k')
    (hid : k.callId = k'.callId) : x = y ∧ k = k' := by
  revert x y k k'
  refine h.invariant (I := fun w => ∀ {x y k k'}, Issued w.trace x k → Issued w.trace y k' →
    k.callId = k'.callId → x = y ∧ k = k') ?_ ?_
  · intro s _ x y k k' hx
    cases hx
  · intro w a w' hr ih hok hn x y k k' hx hy hid
    have hnew : ∀ {z j}, Issued w'.trace z j →
        Issued w.trace z j ∨ (a = .receive z (some (.request (.call j))) ∧
          j.callId ∉ callIds w.trace) := by
      intro z j hz
      obtain hz | ⟨rfl, -⟩ := issued_next hn hz
      · exact .inl hz
      · have hnotin := hfresh _ _ hok
        exact .inr ⟨rfl, of_decide_eq_true hnotin⟩
    obtain hx | ⟨hax, hxf⟩ := hnew hx <;> obtain hy | ⟨hay, hyf⟩ := hnew hy
    · exact ih hx hy hid
    · exact absurd (hid ▸ hx.mem_callIds) hyf
    · exact absurd (hid ▸ hy.mem_callIds) hxf
    · cases hax.symm.trans hay
      exact ⟨rfl, rfl⟩

end Distinct

/-! Every call found in the state was read from the client it stands for. -/

theorem call_entered (h : Transition s a s' es) (hk : (s'.phase y).call? = some k) :
    (s.phase y).call? = some k ∨
      (a = .receive y (some (.request (.call k))) ∧
        es = [.received y (.request (.call k))]) := by
  have hcalm : (s'.phase y).calm = false := by
    generalize s'.phase y = p at hk
    match p with
    | .handling (.callLookup _) | .handling (.callInsert _ _ _ _) | .handling (.callForward _ _)
    | .handling (.callServices _) => rfl
  obtain hp | he := h.entered hcalm rfl
  · exact .inl (hp ▸ hk)
  · generalize s'.phase y = p at hk he
    cases he with
    | receive hr hd =>
      obtain ⟨r, rfl, rfl⟩ | ⟨resp, c, -, -, rfl⟩ := dispatch_cases hd
      · cases r <;> cases hk
        exact .inr ⟨rfl, rfl⟩
      · cases hk
    | callInsert hx => exact .inl (by rw [hx]; exact hk)
    | @callRoute k' workerId workerTx tx hx =>
      rw [hx]
      obtain ⟨w, tx', -, -, hroute⟩ | ⟨-, hroute⟩ := route_cases k' workerId workerTx <;>
        exact .inl (by rw [hroute] at hk; exact hk)
    | _ => cases hk

structure CallOwners (w : World Broker Event) : Prop where
  held : ∀ x k, (w.state.phase x).call? = some k → Issued w.trace x k
  calls : ∀ c x tx, w.state.calls c = some (x, tx) → ∃ k, Issued w.trace x k ∧ k.callId = c
  pending : ∀ o e r, w.state.services o = some e → r ∈ e.pendingCalls →
    ∃ x k, r = .call k ∧ k.objectName = o ∧ Issued w.trace x k

theorem pending_step (h : Transition s a s' es) {o : String} {e : ServiceEntry} {r : RpcRequest}
    (he : s'.services o = some e) (hr : r ∈ e.pendingCalls) :
    (∃ e₀, s.services o = some e₀ ∧ r ∈ e₀.pendingCalls) ∨
      ∃ x k, a = .handler x ∧ s.phase x = .handling (.callServices k) ∧ r = .call k ∧
        k.objectName = o ∧ es = [.queued x k .starting] := by
  obtain ⟨hsame, -⟩ | ⟨x, p, hs, -⟩ := h.services o
  · exact .inl ⟨e, hsame ▸ he, hr⟩
  · generalize s'.services o = v at hs he
    cases hs with
    | registered hx he' =>
      cases he
      cases hr
    | configured hx =>
      cases he
      cases he₀ : s.services o with
      | none =>
        rw [he₀] at hr
        cases hr
      | some e₀ =>
        rw [he₀] at hr
        exact .inl ⟨e₀, rfl, hr⟩
    | stopped hx ho he' hst | starting hx ho he' hst =>
      cases he
      rw [List.mem_append, List.mem_singleton] at hr
      obtain hr | rfl := hr
      · exact .inl ⟨_, he', hr⟩
      · exact .inr ⟨x, _, rfl, hx, rfl, ho, rfl⟩
    | cleaned hx =>
      obtain ⟨e₀, he₀, rfl⟩ := Option.map_eq_some_iff.mp he
      refine .inl ⟨e₀, he₀, ?_⟩
      unfold cleanupService at hr
      split_ifs at hr
      · cases hr
      · exact List.mem_of_mem_filter hr

theorem CallOwners.step {w' : World Broker Event} (hI : CallOwners w)
    (hn : broker.next w a = some w') : CallOwners w' := by
  obtain ⟨es, h, ht⟩ := next_transition hn
  refine ⟨?_, ?_, ?_⟩
  · intro x k hk
    rw [ht]
    obtain hk | ⟨-, rfl⟩ := call_entered h hk
    · exact (hI.held x k hk).append es
    · exact List.mem_append_left _ (List.mem_singleton_self _)
  · intro c x tx hc
    rw [ht]
    have hold : ∀ {x tx}, w.state.calls c = some (x, tx) →
        ∃ k, Issued (es ++ w.trace) x k ∧ k.callId = c := by
      intro x tx hc
      obtain ⟨k, hk, hid⟩ := hI.calls c x tx hc
      exact ⟨k, hk.append es, hid⟩
    obtain ⟨hcalls, -⟩ | ⟨z, k, workerId, workerTx, tz, -, hz, hcalls, -⟩ |
      ⟨z, resp, c', caller, tz, -, -, -, hcalls, -⟩ | ⟨z, -, -, hcalls⟩ := h.calls
    · exact hold (hcalls ▸ hc)
    · rw [hcalls] at hc
      by_cases hk : c = k.callId
      · subst hk
        rw [update_self] at hc
        cases hc
        exact ⟨k, (hI.held _ k (by rw [hz]; rfl)).append es, rfl⟩
      · rw [update_of_ne hk] at hc
        exact hold hc
    · rw [hcalls] at hc
      by_cases hk : c = c'
      · subst hk
        rw [update_self] at hc
        cases hc
      · rw [update_of_ne hk] at hc
        exact hold hc
    · rw [hcalls] at hc
      exact hold (Option.filter_eq_some_iff.mp hc).1
  · intro o e r he hr
    rw [ht]
    obtain ⟨e₀, he₀, hr⟩ | ⟨x, k, -, hx, rfl, rfl, -⟩ := pending_step h he hr
    · obtain ⟨x, k, hrk, ho, hk⟩ := hI.pending o e₀ r he₀ hr
      exact ⟨x, k, hrk, ho, hk.append es⟩
    · exact ⟨x, k, rfl, rfl, (hI.held x k (by rw [hx]; rfl)).append es⟩

theorem callOwners {ok : World Broker Event → Action → Prop} (h : broker.RunWhere ok w) :
    CallOwners w := by
  refine h.invariant ?_ ?_
  · rintro _ ⟨items, rfl⟩
    refine ⟨nofun, nofun, ?_⟩
    intro o e r he hr
    obtain ⟨name, rfl⟩ := loadServiceActivations_stopped items he
    cases hr
  · intro w a w' _ hI _ hn
    exact hI.step hn

end Broker
end IpcBroker
