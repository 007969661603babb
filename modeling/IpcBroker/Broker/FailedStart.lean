import IpcBroker.Broker.Activation
import IpcBroker.Broker.QueuedCalls

/-! What a start that has failed leaves behind: in runs where no start fails that its service is
still waiting for, a starting service has a start in progress, and the calls queued for it wait
for that one. -/

namespace IpcBroker
open Function Foundation

def Event.spawns (o : String) (task : Nat) : Event → Bool
  | .spawned _ o' task' => o' = o && task' = task
  | _ => false

def sinceRunning (o : String) (tr : List Event) : List Event := tr.takeWhile fun e => !e.runs o

def failedSince (o : String) (tr : List Event) : Bool :=
  (sinceRunning o tr).any fun
    | .spawnEnded task false => tr.any (Event.spawns o task)
    | _ => false

namespace Broker

/-- A start that fails is not the last one of its service, or the service is not starting, or a
handler is about to start it again; after a failed start no call finds the service running; and
the cleanups know the queued calls. -/
def startsRecover (w : World Broker Event) : Action → Bool
  | .spawnEnd task false =>
    w.trace.all fun
      | .spawned _ o task' =>
        task' ≠ task || (lastOf (Event.spawnOf? o) w.trace).any (fun h => h.1 ≠ task) ||
          (w.state.services o).all (fun e => e.state ≠ .starting) || !noneStarting w o
      | _ => true
  | .handler x =>
    match w.state.phase x with
    | .handling (.callServices k) =>
      !failedSince k.objectName w.trace || (w.state.services k.objectName).all fun e =>
        e.state = .stopped ∨ e.state = .starting
    | _ => true
  | .cleanup x => leaverKeeps w (.cleanup x)
  | _ => true

inductive InProgress (w : World Broker Event) (o : String) : Prop
  | deciding (x : ClientId) (unit : String) (h : w.state.phase x = .handling (.callStart o unit))
  | spawned (task : Nat) (seg : List Event)
      (h : lastOf (Event.spawnOf? o) w.trace = some (task, seg))
      (hf : seg.any (Event.fails task) = false)

/-- What the service section has made of the call `k` of `x`. -/
inductive Served (w : World Broker Event) (x : ClientId) (k : Call) : Prop
  | starts (unit : String) (h : w.state.phase x = .handling (.callStart k.objectName unit))
  | answered (message : String) (h : w.state.phase x = .handling
      (.sendLookup (.response (.error (some k.callId) k.objectName message)) []))
  | waiting (e : ServiceEntry) (he : w.state.services k.objectName = some e)
      (hk : RpcRequest.call k ∈ e.pendingCalls) (h : InProgress w k.objectName)

/-- The service of `o` is not stuck; `ok` is asked of the next step. -/
structure Recovering (ok : World Broker Event → Action → Bool) (w : World Broker Event)
    (o : String) : Prop where
  progress : ∀ e, w.state.services o = some e → e.state = .starting → InProgress w o
  queued : ∀ x k left, Event.queued x k left ∈ sinceRunning o w.trace → k.objectName = o →
    (w.state.phase x).connected = true →
    ∃ e, w.state.services o = some e ∧ RpcRequest.call k ∈ e.pendingCalls
  served : ∀ x k w', w.state.phase x = .handling (.callServices k) → k.objectName = o →
    ok w (.handler x) = true → broker.next w (.handler x) = some w' → Served w' x k

variable {s s' : Broker} {a : Action} {es tr seg : List Event} {x y : ClientId} {k : Call}
  {o unit : String} {w w' : World Broker Event}

theorem exists_starting (h : noneStarting w o = false) :
    ∃ x unit, w.state.phase x = .handling (.callStart o unit) := by
  obtain ⟨e, -, he⟩ := List.all_eq_false.mp h
  split at he
  · next x k left =>
    split at he
    · next o' unit hx =>
      have ho : o' = o := by simpa using he
      exact ⟨x, unit, ho ▸ hx⟩
    · exact absurd rfl he
  · exact absurd rfl he

theorem sinceRunning_subset : sinceRunning o tr ⊆ tr :=
  (List.takeWhile_sublist _).subset

theorem mem_sinceRunning_append {ev : Event} (h : ev ∈ sinceRunning o (es ++ tr)) :
    ev ∈ es ∨ ev ∈ sinceRunning o tr ∧ es.any (Event.runs o) = false := by
  induction es with
  | nil => exact .inr ⟨h, rfl⟩
  | cons e es ih =>
    rw [sinceRunning, List.cons_append, List.takeWhile_cons] at h
    split_ifs at h with hruns
    · rw [Bool.not_eq_true'] at hruns
      obtain rfl | h := List.mem_cons.mp h
      · exact .inl List.mem_cons_self
      · obtain hmem | ⟨hmem, hnone⟩ := ih h
        · exact .inl (List.mem_cons_of_mem _ hmem)
        · exact .inr ⟨hmem, by rw [List.any_cons, hruns, hnone]; rfl⟩
    · cases h

theorem Transition.fails {task : Nat} (h : Transition s a s' es)
    (hf : es.any (Event.fails task) = true) : a = .spawnEnd task false ∧ s'.phase = s.phase := by
  obtain ⟨e, he, hf⟩ := List.any_eq_true.mp hf
  cases e with
  | spawnEnded t success =>
    simp only [Event.fails, Bool.and_eq_true, decide_eq_true_eq, Bool.not_eq_true'] at hf
    obtain ⟨rfl, rfl⟩ := hf
    cases h with
    | spawnEnd =>
      cases List.mem_singleton.mp he
      exact ⟨rfl, rfl⟩
    | _ => simp at he
  | _ => cases hf

theorem InProgress.step {e : ServiceEntry} (hI : InProgress w o) (hok : startsRecover w a = true)
    (he : w.state.services o = some e) (hst : e.state = .starting)
    (h : Transition w.state a w'.state es) (htr : w'.trace = es ++ w.trace) : InProgress w' o := by
  by_cases hspawn : ∃ y unit, a = .handler y ∧ w.state.phase y = .handling (.callStart o unit)
  · -- the start that is made now is the last one
    obtain ⟨y, unit, rfl, hy⟩ := hspawn
    obtain ⟨-, rfl⟩ := callStart_step h hy
    refine .spawned w.state.nextTask [] ?_ rfl
    rw [htr]
    exact lastOf_cons_some (if_pos rfl)
  · have hnone := spawnOf_none h fun y unit ha hy => hspawn ⟨y, unit, ha, hy⟩
    cases hI with
    | deciding x unit hx =>
      refine .deciding x unit (h.handling_kept hx (fun ha => hspawn ⟨x, unit, ha, hx⟩) ?_)
      rintro subsList rfl
      obtain ⟨o', topic, args, hx'⟩ := h.at_snapshot
      cases hx.symm.trans hx'
    | spawned task seg hl hf =>
      cases hnew : es.any (Event.fails task) with
      | false =>
        refine .spawned task (es ++ seg) ?_ (by rw [List.any_append, hnew, hf]; rfl)
        rw [htr, lastOf_append hnone, hl]
        rfl
      | true =>
        obtain ⟨rfl, hphase⟩ := h.fails hnew
        obtain ⟨ev, hmem, hev⟩ := lastOf_mem hl
        cases ev with
        | spawned z o' task' =>
          simp only [Event.spawnOf?] at hev
          split_ifs at hev with ho
          cases hev
          subst ho
          have hthis := List.all_eq_true.mp hok _ hmem
          have hstarting : noneStarting w o' = false := by
            simpa [hl, he, hst] using hthis
          obtain ⟨x, unit, hx⟩ := exists_starting hstarting
          exact .deciding x unit (hphase ▸ hx)
        | _ => cases hev

section Recover
variable {ok : World Broker Event → Action → Prop}

theorem inProgress (hrec : ∀ w a, ok w a → startsRecover w a = true) (h : broker.RunWhere ok w)
    (o : String) : ∀ e, w.state.services o = some e → e.state = .starting → InProgress w o := by
  refine h.invariant
    (I := fun w => ∀ e, w.state.services o = some e → e.state = .starting → InProgress w o) ?_ ?_
  · rintro _ ⟨items, rfl⟩ e he hst
    obtain ⟨name, rfl⟩ := loadServiceActivations_stopped items he
    cases hst
  · intro w a w' hr hI hok hn e' he' hst'
    obtain ⟨es, ht, htr⟩ := next_transition hn
    obtain ⟨e, he, hst⟩ | ⟨x, k, unit, -, -, hx⟩ := starting_step ht he' hst'
    · exact (hI e he hst).step (hrec w a hok) he hst ht htr
    · exact .deciding x unit hx

theorem queuedKept (hrec : ∀ w a, ok w a → startsRecover w a = true) (h : broker.RunWhere ok w)
    (o : String) : ∀ x k left, Event.queued x k left ∈ sinceRunning o w.trace →
      k.objectName = o → (w.state.phase x).connected = true →
      ∃ e, w.state.services o = some e ∧ RpcRequest.call k ∈ e.pendingCalls := by
  refine h.invariant (I := fun w => ∀ x k left, Event.queued x k left ∈ sinceRunning o w.trace →
    k.objectName = o → (w.state.phase x).connected = true →
    ∃ e, w.state.services o = some e ∧ RpcRequest.call k ∈ e.pendingCalls) ?_ ?_
  · rintro s - x k left hq
    cases hq
  · intro w a w' hr hI hok hn x k left hq ho hx
    obtain ⟨es, ht, htr⟩ := next_transition hn
    rw [htr] at hq
    obtain hq | ⟨hq, hruns⟩ := mem_sinceRunning_append hq
    · obtain ⟨-, -, -, -, e, he, -, hk⟩ := ht.queued hq
      exact ⟨e, ho ▸ he, hk⟩
    · have htrace : Event.queued x k left ∈ w.trace := sinceRunning_subset hq
      have hx₀ : (w.state.phase x).connected = true := by
        have hpos := queued_rank hr htrace
        have hrank := ht.rank x
        rw [connected_iff] at hx ⊢
        omega
      obtain ⟨e, he, hk⟩ := hI x k left hq ho hx₀
      obtain hkept | ⟨z, flushed, -, rfl, -⟩ | ⟨z, active, rfl, hz, hdrop⟩ := queue_step ht he hk
      · exact hkept
      · simp [Event.runs] at hruns
      · have hkeeps : leaverKeeps w (.cleanup z) = true := hrec w _ hok
        obtain ⟨hown, hactive⟩ := leaverKeeps_spec hkeeps hz htrace hx₀ (ho ▸ he) hk
        obtain hdrop | hdrop := hdrop
        · exact absurd hdrop hown
        · cases hactive.symm.trans hdrop

end Recover

theorem served_of_step (hprogress : ∀ e, w.state.services k.objectName = some e →
      e.state = .starting → InProgress w k.objectName)
    (hx : w.state.phase x = .handling (.callServices k))
    (hok : startsRecover w (.handler x) = true) (hf : failedSince k.objectName w.trace = true)
    (h : Transition w.state (.handler x) w'.state es) (htr : w'.trace = es ++ w.trace) :
    Served w' x k := by
  have hs := h.callServices hx
  cases hs with
  | stopped he hst hp => exact .starts _ hp
  | @starting e he hst hp hq =>
    have hstill : InProgress w' k.objectName := (hprogress e he hst).step hok he hst h htr
    exact .waiting _ hq (List.mem_append_right _ List.mem_cons_self) hstill
  | running he hst hp => simp [startsRecover, hx, hf, he, hst] at hok
  | unknown he hp => exact .answered _ hp

/-- In a run where no start fails that its service is waiting for, a service of which a start has
failed, with no registration since, is not stuck: while it is starting a start is in progress,
the calls queued since the last registration are still queued, and the next call is met by a new
start, by an error or by the start in progress. -/
theorem failed_start_recovers (h : broker.RunWhere (fun w a => startsRecover w a = true) w)
    (hf : failedSince o w.trace = true) : Recovering startsRecover w o where
  progress := inProgress (fun _ _ h => h) h o
  queued := queuedKept (fun _ _ h => h) h o
  served := by
    rintro x k w' hx rfl hok hn
    obtain ⟨es, ht, htr⟩ := next_transition hn
    exact served_of_step (inProgress (fun _ _ h => h) h _) hx hok hf ht htr

def failureAfterReset : List Action :=
  [.connect workerA, .connect callerC, .connect callerD] ++
    request callerC (.call (callOf "1" "o")) 4 ++
    request workerA (.registerService "o" "o.service") 1 ++ [.spawnEnd 0 false] ++
    request callerD (.call (callOf "2" "o")) 2

theorem failed_start_recovers_afterReset :
    ∃ w, broker.exec (fun w a => startsRecover w a = true) ⟨Broker.initial (activationOf "o"), []⟩
        failureAfterReset = some w ∧ Recovering startsRecover w "o" := by
  obtain ⟨w, hr, he, hf⟩ := System.RunWhere.of_exec_any broker
    (fun w a => startsRecover w a = true) failureAfterReset (fun w => failedSince "o" w.trace)
    ⟨activationOf "o", rfl⟩ (by decide)
  exact ⟨w, he, failed_start_recovers hr hf⟩

def failureWhileStarting : List Action :=
  [.connect callerC, .connect callerD] ++ request callerC (.call (callOf "1" "o")) 4 ++
    [.spawnEnd 0 false] ++ request callerD (.call (callOf "2" "o")) 3

theorem failed_start_wedges :
    ¬ ∀ w o, broker.Run w → failedSince o w.trace = true →
      Recovering (fun _ _ => true) w o := by
  intro hall
  obtain ⟨w, hr, hexec, ht⟩ := System.RunWhere.of_exec_any broker (fun _ _ => True)
    failureWhileStarting
    (fun w => failedSince "o" w.trace && startFailed "o" w.trace &&
      ((w.state.services "o").any fun e => e.state = .starting) &&
      (failureWhileStarting.filterMap Action.mover).all fun x => (w.state.phase x).calm)
    ⟨activationOf "o", rfl⟩ (by decide)
  simp only [Bool.and_eq_true] at ht
  obtain ⟨⟨⟨hf, hfailed⟩, hst⟩, hcalm⟩ := ht
  obtain ⟨e, he, hst⟩ := (Option.any_eq_true _ _).mp hst
  cases (hall w "o" hr hf).progress e he (of_decide_eq_true hst) with
  | deciding x unit hx =>
    by_cases hmem : x ∈ failureWhileStarting.filterMap Action.mover
    · have hthis := List.all_eq_true.mp hcalm x hmem
      rw [hx] at hthis
      cases hthis
    · rw [exec_phase hexec hmem] at hx
      cases hx
  | spawned task seg hl hno =>
    rw [startFailed, hl, Option.any_some, hno] at hfailed
    cases hfailed

end Broker
end IpcBroker
