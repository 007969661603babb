import IpcBroker.Broker.CallHistory

/-! From its end on, the cleanup of a connection has left nothing of it in the shared maps, and
none of its sections takes an entry from another client. -/

namespace IpcBroker
open Function Foundation
namespace Broker
variable {s s' : Broker} {a : Action} {es : List Event} {x y : ClientId} {k : Call}
  {w : World Broker Event}

/-- Nothing of `x` is left in the shared maps, the calls it issued included. -/
structure Gone (w : World Broker Event) (x : ClientId) : Prop where
  clients : w.state.clients x = none
  objects : ∀ o, w.state.objects o ≠ some x
  subscriptions : ∀ o topic, x ∉ w.state.subscriptions o topic
  calls : ∀ c tx, w.state.calls c ≠ some (x, tx)
  services : ∀ o e, w.state.services o = some e → e.owner ≠ some x ∧ e.state ≠ .running x
  pending : ∀ o e k, w.state.services o = some e → RpcRequest.call k ∈ e.pendingCalls →
    ¬ Issued w.trace x k

/-- Every entry of a client other than `x` is still there. -/
structure KeepsOthers (s s' : Broker) (x : ClientId) : Prop where
  clients : ∀ y, y ≠ x → s'.clients y = s.clients y
  objects : ∀ o y, y ≠ x → s.objects o = some y → s'.objects o = some y
  subscriptions : ∀ o topic y, y ≠ x → y ∈ s.subscriptions o topic → y ∈ s'.subscriptions o topic
  calls : ∀ c y tx, y ≠ x → s.calls c = some (y, tx) → s'.calls c = some (y, tx)

theorem cleanup_keepsOthers (h : Transition s (.cleanup x) s' es) : KeepsOthers s s' x := by
  cases h with
  | cleanupClients hx hw =>
    exact ⟨fun y hy => update_of_ne hy _ _, fun _ _ _ h => h, fun _ _ _ _ h => h,
      fun _ _ _ _ h => h⟩
  | cleanupObjects hx =>
    refine ⟨fun _ _ => rfl, ?_, fun _ _ _ _ h => h, fun _ _ _ _ h => h⟩
    intro o y hy ho
    have hne : s.objects o ≠ some x := fun hox => hy (Option.some.inj (ho.symm.trans hox))
    exact (if_neg hne).trans ho
  | cleanupSubscriptions hx =>
    refine ⟨fun _ _ => rfl, fun _ _ _ h => h, ?_, fun _ _ _ _ h => h⟩
    intro o topic y hy hmem
    exact List.mem_filter.mpr ⟨hmem, decide_eq_true hy⟩
  | cleanupCalls hx =>
    refine ⟨fun _ _ => rfl, fun _ _ _ h => h, fun _ _ _ _ h => h, ?_⟩
    intro c y tx hy hc
    exact Option.filter_eq_some_iff.mpr ⟨hc, decide_eq_true hy⟩
  | cleanupActiveCalls hx | cleanupServices hx =>
    exact ⟨fun _ _ => rfl, fun _ _ _ h => h, fun _ _ _ _ h => h, fun _ _ _ _ h => h⟩

theorem keepPending_call {active : CallId → Bool} : keepPending active (.call k) = active k.callId :=
  rfl

theorem cleanupService_pending {active : CallId → Bool} {e : ServiceEntry} {r : RpcRequest}
    (h : r ∈ (cleanupService x active e).pendingCalls) :
    r ∈ e.pendingCalls ∧ keepPending active r = true := by
  unfold cleanupService at h
  split_ifs at h
  · cases h
  · exact List.mem_filter.mp h

section Distinct
variable {ok : World Broker Event → Action → Prop}

def SnapshotStale (w : World Broker Event) : Prop :=
  ∀ x active k, w.state.phase x = .cleaning (.services active) → Issued w.trace x k →
    active k.callId = false

theorem snapshotStale (hfresh : ∀ w a, ok w a → freshCall w a = true)
    (h : broker.RunWhere ok w) : SnapshotStale w := by
  refine h.invariant ?_ ?_
  · rintro _ ⟨items, rfl⟩ x active k hx
    cases hx
  · intro w a w' hr hI hok hn x active k hx hk
    obtain ⟨es, ht, -⟩ := next_transition hn
    obtain hk | ⟨rfl, hreading⟩ := issued_next hn hk
    · obtain hold | hby := ht.entered rfl hx
      · exact hI x active k hold hk
      · generalize hp : Phase.cleaning (.services active) = p at hby
        cases hby with
        | cleanupServices hx6 =>
          cases hp
          -- an entry with this id would belong to `x`, whose entries are gone by now
          rw [Bool.eq_false_iff]
          intro hsome
          obtain ⟨⟨z, tx⟩, hc⟩ := Option.isSome_iff_exists.mp hsome
          obtain ⟨k', hk', hid⟩ := (callOwners hr).calls _ z tx hc
          obtain ⟨rfl, -⟩ := issued_unique hfresh hr hk' hk hid
          have hrank := ((lifecycle hr).calls _ z tx hc).2.2
          rw [hx6] at hrank
          exact absurd hrank (by decide)
        | _ => cases hp
    · obtain hold | hby := ht.entered rfl hx
      · cases hreading.symm.trans hold
      · cases hby

def QueuesClean (w : World Broker Event) : Prop :=
  ∀ x o e k, 8 ≤ (w.state.phase x).rank → w.state.services o = some e →
    RpcRequest.call k ∈ e.pendingCalls → ¬ Issued w.trace x k

theorem queuesClean (hfresh : ∀ w a, ok w a → freshCall w a = true)
    (h : broker.RunWhere ok w) : QueuesClean w := by
  refine h.invariant ?_ ?_
  · rintro _ ⟨items, rfl⟩ x o e k hx
    simp [Broker.initial, Phase.rank] at hx
  · intro w a w' hr hI hok hn x o e k hx he hmem hk
    obtain ⟨es, ht, -⟩ := next_transition hn
    have hrank := ht.rank x
    obtain hk | ⟨rfl, hreading⟩ := issued_next hn hk
    · by_cases h8 : 8 ≤ (w.state.phase x).rank
      · obtain ⟨e₀, he₀, hmem⟩ | ⟨z, k', rfl, hz, hkk, -, -⟩ := pending_step ht he hmem
        · exact hI x o e₀ k h8 he₀ hmem hk
        · cases hkk
          have hzk := (callOwners hr).held z k (by rw [hz]; rfl)
          obtain ⟨rfl, -⟩ := issued_unique hfresh hr hzk hk rfl
          simp [hz, Phase.rank] at h8
      · -- the step is the last section of the cleanup
        have hadv : a.advances = some x := by
          by_contra hne
          rw [if_neg hne] at hrank
          omega
        rw [if_pos hadv] at hrank
        obtain ⟨active, hx7⟩ := rank_eq_seven.mp (show (w.state.phase x).rank = 7 by omega)
        obtain ⟨-, h0⟩ | ⟨-, h1⟩ | ⟨rfl, -⟩ | ⟨-, h8'⟩ := ht.advances hadv
        · omega
        · omega
        · obtain ⟨-, hsame⟩ | ⟨z, p, hstep, -⟩ := ht.services o
          · exact hsame x active rfl hx7
          · generalize w'.state.services o = v at hstep he
            cases hstep with
            | cleaned hz =>
              obtain ⟨e₀, he₀, rfl⟩ := Option.map_eq_some_iff.mp he
              have hkeep := (cleanupService_pending hmem).2
              rw [keepPending_call, snapshotStale hfresh hr x _ k hz hk] at hkeep
              cases hkeep
        · omega
    · have hne : (w'.state.phase x).rank = 1 := by
        rw [hrank, hreading]
        rfl
      omega

theorem Transition.cleanedUp (h : Transition s a s' es) (hx : Event.cleanedUp x ∈ es) :
    (s'.phase x).rank = 8 := by
  cases h with
  | cleanupServices =>
    cases List.mem_singleton.mp hx
    simp [Phase.rank]
  | _ => simp at hx

theorem cleanedUp_rank (h : broker.RunWhere ok w) (hx : Event.cleanedUp x ∈ w.trace) :
    8 ≤ (w.state.phase x).rank := by
  revert hx
  refine h.invariant (I := fun w => Event.cleanedUp x ∈ w.trace → 8 ≤ (w.state.phase x).rank) ?_ ?_
  · intro s _ hx
    cases hx
  · intro w a w' hr hI hok hn hx
    obtain hx | ⟨es, ht, -, hx⟩ := next_event hn hx
    · obtain ⟨es, ht, -⟩ := next_transition hn
      have hrank := ht.rank x
      have := hI hx
      omega
    · exact Nat.le_of_eq (ht.cleanedUp hx).symm

end Distinct

/-- With distinct call ids: in every state from the completion of its cleanup on, a client is in
no shared map, and at any time its cleanup takes away no entry of another client. -/
theorem cleanup_exact (h : broker.RunWhere (fun w a => freshCall w a = true) w) :
    (Event.cleanedUp x ∈ w.trace → Gone w x) ∧
      ∀ s' es, w.state.step (.cleanup x) = some (s', es) → KeepsOthers w.state s' x := by
  refine ⟨?_, fun s' es hs => cleanup_keepsOthers (step_transition hs)⟩
  intro hx
  have hrank := cleanedUp_rank h hx
  have hL := lifecycle h
  have hnowner : ∀ o e, w.state.services o = some e → e.owner ≠ some x := by
    intro o e he ho
    have := (hL.owner o e x he ho).2
    omega
  refine ⟨?_, ?_, ?_, ?_, ?_, ?_⟩
  · rw [hL.clients x, if_neg (by omega)]
  · intro o ho
    have := (hL.objects o x ho).2
    omega
  · intro o topic hmem
    have := (hL.subscriptions o topic x hmem).2
    omega
  · intro c tx hc
    have := (hL.calls c x tx hc).2.2
    omega
  · intro o e he
    exact ⟨hnowner o e he, fun hrun => hnowner o e he (hL.running o e x he hrun)⟩
  · intro o e k he hmem
    exact queuesClean (fun _ _ h => h) h x o e k hrank he hmem

def callerLeaves : List Action :=
  [.connect workerA, .connect callerC] ++ request workerA (.registerObject "p") 4 ++
    request callerC (.subscribe "p" "topic") 3 ++ request callerC (.call (callOf "1" "o")) 4 ++
    disconnect callerC

theorem cleanup_exact_callerLeaves :
    ∃ w, broker.exec (fun w a => freshCall w a = true) ⟨Broker.initial (activationOf "o"), []⟩
        callerLeaves = some w ∧ Gone w callerC := by
  obtain ⟨w, hr, he, ht⟩ := System.RunWhere.of_exec_any broker
    (fun w a => freshCall w a = true) callerLeaves
    (fun w => w.trace.any (cleansUp callerC)) ⟨activationOf "o", rfl⟩ (by decide)
  exact ⟨w, he, (cleanup_exact hr).1 (cleanedUp_of_any ht)⟩

end Broker
end IpcBroker
