import IpcBroker.Broker.CallHistory
import IpcBroker.Foundation.History

/-! When `handle_call` starts a service: in runs where no registration overtakes a call on its way
to the start, and no start that may still succeed is reset, the object has no owner at a start,
and the start before it has failed or been followed by a registration. -/

namespace IpcBroker
open Function Foundation

def Event.lookupOf? (x : ClientId) : Event → Option String
  | .lookedUp y o _ => if y = x then some o else none
  | _ => none

def Event.queuedOf? (x : ClientId) : Event → Option String
  | .queued y k _ => if y = x then some k.objectName else none
  | _ => none

def Event.spawnOf? (o : String) : Event → Option Nat
  | .spawned _ o' task => if o' = o then some task else none
  | _ => none

def Event.runs (o : String) : Event → Bool
  | .running _ o' _ => o' = o
  | _ => false

def Event.takes (s : Broker) (o : String) : Event → Bool
  | .registered y o' => o' = o && (s.clients y).isSome
  | _ => false

def Event.fails (task : Nat) : Event → Bool
  | .spawnEnded t success => t = task && !success
  | _ => false

def startFailed (o : String) (tr : List Event) : Bool :=
  (lastOf (Event.spawnOf? o) tr).any fun h => h.2.any (Event.fails h.1)

/-- Since the last start of `o`, if there was one, `o` has been registered or the start has
failed. -/
def MayStart (o : String) (tr : List Event) : Prop :=
  ∀ task seg, lastOf (Event.spawnOf? o) tr = some (task, seg) →
    seg.any (Event.runs o) = true ∨ seg.any (Event.fails task) = true

def Phase.activating? : Phase → Option String
  | .handling (.callInsert _ (some _) (some _) _) => none
  | .handling (.callInsert k _ _ _) | .handling (.callServices k) => some k.objectName
  | .handling (.callStart o _) => some o
  | _ => none

namespace Broker

def noneStarting (w : World Broker Event) (o : String) : Bool :=
  w.trace.all fun
    | .queued x _ _ =>
      match w.state.phase x with
      | .handling (.callStart o' _) => o' ≠ o
      | _ => true
    | _ => true

/-- The service of `o` is not starting, or its start has been made and has failed. -/
def resettable (w : World Broker Event) (o : String) (e : ServiceEntry) : Bool :=
  e.state ≠ .starting || noneStarting w o && startFailed o w.trace

/-- A start is not overtaken by a registration since the lookup that found no owner, and neither
`handle_register_service` nor the cleanup of an owner from before the start resets a service
whose start may still succeed. -/
def startsInOrder (w : World Broker Event) : Action → Bool
  | .handler x =>
    match w.state.phase x with
    | .handling (.callStart o _) =>
      (lastOf (Event.lookupOf? x) w.trace).all (fun h => !h.2.any (Event.takes w.state o)) &&
        (lastOf (Event.queuedOf? x) w.trace).all fun h => !h.2.any (Event.runs o)
    | .handling (.registerService o _) => (w.state.services o).all (resettable w o)
    | _ => true
  | .cleanup x =>
    match w.state.phase x with
    | .cleaning (.services _) =>
      w.trace.all fun
        | .queued _ k _ => (w.state.services k.objectName).all fun e =>
            e.owner ≠ some x || resettable w k.objectName e
        | _ => true
    | _ => true
  | _ => true

variable {s s' : Broker} {a : Action} {es tr seg : List Event} {x y : ClientId} {k : Call}
  {o unit : String} {w w' : World Broker Event}

/-! What a step adds to the history of one kind of event. -/

theorem Transition.spawned {task : Nat} (h : Transition s a s' es)
    (he : Event.spawned x o task ∈ es) :
    a = .handler x ∧ (∃ unit, s.phase x = .handling (.callStart o unit)) ∧
      s'.phase x = .reading ∧ es = [.spawned x o task] := by
  cases h with
  | callStart hx =>
    cases List.mem_singleton.mp he
    exact ⟨rfl, ⟨_, hx⟩, update_self .., rfl⟩
  | _ => simp at he

theorem Transition.lookedUp {workerId : Option ClientId} (h : Transition s a s' es)
    (he : Event.lookedUp x o workerId ∈ es) :
    ∃ k, s.phase x = .handling (.callLookup k) := by
  cases h with
  | callLookup hx | callGone hx =>
    simp only [List.mem_cons, Event.lookedUp.injEq, reduceCtorEq, false_or, List.not_mem_nil,
      or_false] at he
    obtain ⟨rfl, -⟩ := he
    exact ⟨_, hx⟩
  | _ => simp at he

theorem mayStart_append (h : MayStart o tr) (hes : ∀ e ∈ es, e.spawnOf? o = none) :
    MayStart o (es ++ tr) := by
  intro task seg hl
  rw [lastOf_append hes] at hl
  obtain ⟨⟨task', seg'⟩, hl', hpair⟩ := Option.map_eq_some_iff.mp hl
  cases hpair
  rw [List.any_append, List.any_append]
  obtain hr | hf := h _ _ hl'
  · exact .inl (by rw [hr, Bool.or_true])
  · exact .inr (by rw [hf, Bool.or_true])

theorem mayStart_of_running {z : ClientId} {flushed : List RpcRequest} :
    MayStart o ([.running z o flushed] ++ tr) := by
  intro task seg hl
  rw [lastOf_append (by simp [Event.spawnOf?])] at hl
  obtain ⟨⟨task', seg'⟩, -, hpair⟩ := Option.map_eq_some_iff.mp hl
  cases hpair
  left
  simp [Event.runs]

theorem mayStart_of_failed (h : startFailed o tr = true) : MayStart o tr := by
  intro task seg hl
  rw [startFailed, hl, Option.any_some] at h
  exact .inr h

theorem spawnOf_none (h : Transition s a s' es)
    (hno : ∀ x unit, a = .handler x → s.phase x ≠ .handling (.callStart o unit)) :
    ∀ e ∈ es, e.spawnOf? o = none := by
  intro e he
  cases e with
  | spawned x o' task =>
    obtain ⟨ha, ⟨unit, hx⟩, -, -⟩ := h.spawned he
    have ho : o' ≠ o := fun ho => hno x unit ha (ho ▸ hx)
    exact if_neg ho
  | _ => rfl

/-! How the state of a service changes. -/

theorem entry_not_starting {name : String} {m : Option ServiceEntry} :
    (handleRegisterService.entry x name m).state ≠ .starting := by
  cases m with
  | none =>
    intro h
    cases h
  | some e =>
    simp only [handleRegisterService.entry, handleRegisterService.modify]
    split_ifs with h
    · intro h
      cases h
    · rw [not_not.mp h]
      intro h
      cases h

theorem starting_step {e' : ServiceEntry} (h : Transition s a s' es)
    (he' : s'.services o = some e') (hst : e'.state = .starting) :
    (∃ e, s.services o = some e ∧ e.state = .starting) ∨
      ∃ x k unit, es = [.queued x k .starting] ∧ k.objectName = o ∧
        s'.phase x = .handling (.callStart o unit) := by
  obtain ⟨hsame, -⟩ | ⟨z, p, hs, hp⟩ := h.services o
  · exact .inl ⟨e', hsame ▸ he', hst⟩
  · generalize s'.services o = v at hs he'
    cases hs with
    | registered hz he =>
      cases he'
      cases hst
    | configured hz =>
      cases he'
      exact absurd hst entry_not_starting
    | stopped hz ho => exact .inr ⟨z, _, _, rfl, ho, by rw [hp, update_self]⟩
    | starting hz ho he hst => exact .inl ⟨_, he, hst⟩
    | cleaned hz =>
      obtain ⟨e, he, rfl⟩ := Option.map_eq_some_iff.mp he'
      unfold cleanupService at hst
      split_ifs at hst
      exact .inl ⟨e, he, hst⟩

theorem starting_left {e : ServiceEntry} (h : Transition s a s' es) (he : s.services o = some e)
    (hst : e.state = .starting) :
    (∃ e', s'.services o = some e' ∧ e'.state = .starting) ∨
      (∃ z flushed, es = [.running z o flushed]) ∨
      (∃ z name, a = .handler z ∧ s.phase z = .handling (.registerService o name)) ∨
      ∃ z active, a = .cleanup z ∧ s.phase z = .cleaning (.services active) ∧
        e.owner = some z := by
  obtain ⟨hsame, -⟩ | ⟨z, p, hs, -⟩ := h.services o
  · exact .inl ⟨e, hsame.trans he, hst⟩
  · generalize s'.services o = v at hs
    cases hs with
    | registered hz he' => exact .inr (.inl ⟨z, _, rfl⟩)
    | configured hz => exact .inr (.inr (.inl ⟨z, _, rfl, hz⟩))
    | stopped hz ho he' hst' =>
      cases he.symm.trans he'
      cases hst.symm.trans hst'
    | starting hz ho he' hst' => exact .inl ⟨_, rfl, hst'⟩
    | cleaned hz =>
      by_cases hown : e.owner = some z
      · exact .inr (.inr (.inr ⟨z, _, rfl, hz, hown⟩))
      · left
        rw [he]
        refine ⟨cleanupService z _ e, rfl, ?_⟩
        unfold cleanupService
        rw [if_neg hown]
        exact hst

/-! The invariant of one service. -/

def Live (tr : List Event) (x : ClientId) (o : String) : Prop :=
  ∃ seg, lastOf (Event.queuedOf? x) tr = some (o, seg) ∧ seg.any (Event.runs o) = false

structure StartInv (w : World Broker Event) (o : String) : Prop where
  decided : ∀ x unit, w.state.phase x = .handling (.callStart o unit) →
    ∃ seg, lastOf (Event.queuedOf? x) w.trace = some (o, seg)
  known : ∀ e, w.state.services o = some e → e.state = .starting →
    ∃ x k left, Event.queued x k left ∈ w.trace ∧ k.objectName = o
  live : ∀ x unit, w.state.phase x = .handling (.callStart o unit) → Live w.trace x o →
    (∃ e, w.state.services o = some e ∧ e.state = .starting) ∧ MayStart o w.trace
  single : ∀ x y unit unit', w.state.phase x = .handling (.callStart o unit) →
    w.state.phase y = .handling (.callStart o unit') → Live w.trace x o → Live w.trace y o → x = y
  idle : (∀ e, w.state.services o = some e → e.state ≠ .starting) → MayStart o w.trace

theorem decision_kept (h : Transition s a s' es)
    (hx : s.phase x = .handling (.callStart o unit))
    (hl : lastOf (Event.queuedOf? x) tr = some (o, seg)) :
    lastOf (Event.queuedOf? x) (es ++ tr) = some (o, es ++ seg) := by
  have hnone : ∀ e ∈ es, e.queuedOf? x = none := by
    intro e he
    cases e with
    | queued y k left =>
      obtain ⟨-, hy, -⟩ := h.queued he
      have hyx : y ≠ x := by
        rintro rfl
        cases hx.symm.trans hy
      exact if_neg hyx
    | _ => rfl
  rw [lastOf_append hnone, hl]
  rfl

theorem live_back (h : Transition s a s' es) (hx : s.phase x = .handling (.callStart o unit))
    (hd : ∃ seg, lastOf (Event.queuedOf? x) tr = some (o, seg)) (hl : Live (es ++ tr) x o) :
    Live tr x o ∧ es.any (Event.runs o) = false := by
  obtain ⟨seg, hseg⟩ := hd
  obtain ⟨seg', hseg', hno⟩ := hl
  rw [decision_kept h hx hseg] at hseg'
  cases hseg'
  rw [List.any_append, Bool.or_eq_false_iff] at hno
  exact ⟨⟨seg, hseg, hno.2⟩, hno.1⟩

theorem callStart_step (h : Transition s (.handler x) s' es)
    (hx : s.phase x = .handling (.callStart o unit)) :
    s'.phase x = .reading ∧ es = [.spawned x o s.nextTask] := by
  obtain ⟨rfl, rfl⟩ := Prod.mk.inj (Option.some.inj (h.ran hx))
  exact ⟨update_self .., rfl⟩

theorem live_of_inOrder (hok : startsInOrder w (.handler x) = true)
    (hx : w.state.phase x = .handling (.callStart o unit))
    (hd : ∃ seg, lastOf (Event.queuedOf? x) w.trace = some (o, seg)) : Live w.trace x o := by
  obtain ⟨seg, hseg⟩ := hd
  simp only [startsInOrder, hx, Bool.and_eq_true, hseg, Option.all_some, Bool.not_eq_true'] at hok
  exact ⟨seg, hseg, hok.2⟩

theorem resettable_spec {e : ServiceEntry} (h : resettable w o e = true)
    (hst : e.state = .starting) : noneStarting w o = true ∧ startFailed o w.trace = true := by
  simpa [resettable, hst] using h

theorem noneStarting_spec (h : noneStarting w o = true)
    (hd : ∃ seg, lastOf (Event.queuedOf? x) w.trace = some (o, seg)) :
    w.state.phase x ≠ .handling (.callStart o unit) := by
  intro hx
  obtain ⟨seg, hseg⟩ := hd
  obtain ⟨e, he, hq⟩ := lastOf_mem hseg
  cases e with
  | queued y k left =>
    simp only [Event.queuedOf?] at hq
    split_ifs at hq with hyx
    subst hyx
    have hthis := List.all_eq_true.mp h _ he
    simp [hx] at hthis
  | _ => cases hq

theorem StartInv.reset {e : ServiceEntry} (hI : StartInv w o) (hok : startsInOrder w a = true)
    (he : w.state.services o = some e) (hst : e.state = .starting)
    (hreset : (∃ z name, a = .handler z ∧ w.state.phase z = .handling (.registerService o name)) ∨
      ∃ z active, a = .cleanup z ∧ w.state.phase z = .cleaning (.services active) ∧
        e.owner = some z) :
    noneStarting w o = true ∧ startFailed o w.trace = true := by
  refine resettable_spec ?_ hst
  obtain ⟨z, name, rfl, hz⟩ | ⟨z, active, rfl, hz, hown⟩ := hreset
  · simpa [startsInOrder, hz, he] using hok
  · obtain ⟨y, k, left, hq, rfl⟩ := hI.known e he hst
    simp only [startsInOrder, hz, List.all_eq_true] at hok
    have hthis := hok _ hq
    simpa [he, hown] using hthis

theorem StartInv.step (hI : StartInv w o) (hok : startsInOrder w a = true)
    (h : Transition w.state a w'.state es) (htr : w'.trace = es ++ w.trace) : StartInv w' o := by
  have hback : ∀ {x unit}, w'.state.phase x = .handling (.callStart o unit) →
      w.state.phase x = .handling (.callStart o unit) ∧
        (Live w'.trace x o → Live w.trace x o ∧ es.any (Event.runs o) = false) ∨
      ∃ k e, k.objectName = o ∧ w.state.services o = some e ∧ e.state = .stopped ∧
        es = [.queued x k .starting] := by
    intro x unit hx
    obtain hx | ⟨k, e, -, ho, he, hst, hes⟩ := h.entered_callStart hx
    · refine .inl ⟨hx, fun hl => ?_⟩
      rw [htr] at hl
      exact live_back h hx (hI.decided x unit hx) hl
    · exact .inr ⟨k, e, ho, he, hst, hes⟩
  -- a start of the service leaves its handler, and is the only live one
  have hspawn : ∀ {x unit}, a = .handler x → w.state.phase x = .handling (.callStart o unit) →
      (∃ e, w.state.services o = some e ∧ e.state = .starting) ∧ Live w.trace x o := by
    rintro x unit rfl hx
    have hlive := live_of_inOrder hok hx (hI.decided x unit hx)
    exact ⟨(hI.live x unit hx hlive).1, hlive⟩
  refine ⟨?_, ?_, ?_, ?_, ?_⟩
  · intro x unit hx
    rw [htr]
    obtain hx | ⟨k, e, -, ho, -, -, rfl⟩ := h.entered_callStart hx
    · obtain ⟨seg, hseg⟩ := hI.decided x unit hx
      exact ⟨_, decision_kept h hx hseg⟩
    · refine ⟨[], lastOf_cons_some ?_⟩
      rw [← ho]
      exact if_pos rfl
  · intro e' he' hst
    rw [htr]
    obtain ⟨e, he, hst⟩ | ⟨x, k, unit, rfl, ho, -⟩ := starting_step h he' hst
    · obtain ⟨x, k, left, hq, ho⟩ := hI.known e he hst
      exact ⟨x, k, left, List.mem_append_right _ hq, ho⟩
    · exact ⟨x, k, .starting, List.mem_cons_self, ho⟩
  · intro x unit hx hl
    obtain ⟨hx₀, hlive⟩ | ⟨k, e, ho, he, hst, rfl⟩ := hback hx
    · obtain ⟨hl₀, hruns⟩ := hlive hl
      obtain ⟨⟨e, he, hst⟩, hmay⟩ := hI.live x unit hx₀ hl₀
      constructor
      · obtain hstill | ⟨z, flushed, rfl⟩ | hreset := starting_left h he hst
        · exact hstill
        · simp [Event.runs] at hruns
        · have hnone := (hI.reset hok he hst hreset).1
          exact absurd hx₀ (noneStarting_spec hnone (hI.decided x unit hx₀))
      · rw [htr]
        refine mayStart_append hmay (spawnOf_none h fun y unit' ha hy => ?_)
        obtain ⟨-, hly⟩ := hspawn ha hy
        have hxy := hI.single x y unit unit' hx₀ hy hl₀ hly
        subst hxy
        subst ha
        cases hx.symm.trans (callStart_step h hy).1
    · have hidle : MayStart o w.trace := hI.idle fun e' he' => by
        cases he.symm.trans he'
        rw [hst]
        nofun
      obtain ⟨-, -, -, -, e', he', hst', -⟩ := h.queued (List.mem_singleton_self _)
      refine ⟨⟨e', ho ▸ he', hst'⟩, ?_⟩
      rw [htr]
      exact mayStart_append hidle (by simp [Event.spawnOf?])
  · intro x y unit unit' hx hy hlx hly
    obtain ⟨hx₀, hlivex⟩ | ⟨k, e, ho, he, hst, hes⟩ := hback hx <;>
      obtain ⟨hy₀, hlivey⟩ | ⟨k', e', ho', he', hst', hes'⟩ := hback hy
    · exact hI.single x y unit unit' hx₀ hy₀ (hlivex hlx).1 (hlivey hly).1
    · obtain ⟨⟨e, he, hst⟩, -⟩ := hI.live x unit hx₀ (hlivex hlx).1
      cases he.symm.trans he'
      cases hst.symm.trans hst'
    · obtain ⟨⟨e', he', hst'⟩, -⟩ := hI.live y unit' hy₀ (hlivey hly).1
      cases he.symm.trans he'
      cases hst.symm.trans hst'
    · rw [hes] at hes'
      cases hes'
      rfl
  · intro hidle
    rw [htr]
    by_cases hst : ∃ e, w.state.services o = some e ∧ e.state = .starting
    · obtain ⟨e, he, hst⟩ := hst
      obtain ⟨e', he', hst'⟩ | ⟨z, flushed, rfl⟩ | hreset := starting_left h he hst
      · exact absurd hst' (hidle e' he')
      · exact mayStart_of_running
      · obtain ⟨hnone, hfailed⟩ := hI.reset hok he hst hreset
        refine mayStart_append (mayStart_of_failed hfailed) (spawnOf_none h fun y unit _ hy => ?_)
        exact noneStarting_spec hnone (hI.decided y unit hy) hy
    · refine mayStart_append (hI.idle fun e he hst' => hst ⟨e, he, hst'⟩) ?_
      exact spawnOf_none h fun y unit ha hy => hst (hspawn ha hy).1

theorem startInv {ok : World Broker Event → Action → Prop}
    (horder : ∀ w a, ok w a → startsInOrder w a = true) (h : broker.RunWhere ok w) (o : String) :
    StartInv w o := by
  refine h.invariant (I := fun w => StartInv w o) ?_ ?_
  · rintro _ ⟨items, rfl⟩
    refine ⟨nofun, ?_, nofun, nofun, fun _ => nofun⟩
    intro e he hst
    obtain ⟨name, rfl⟩ := loadServiceActivations_stopped items he
    cases hst
  · intro w a w' hr hI hok hn
    obtain ⟨es, ht, htr⟩ := next_transition hn
    exact hI.step (horder w a hok) ht htr

/-! No owner at the start. -/

def LookupSeen (w : World Broker Event) : Prop :=
  ∀ x o, (w.state.phase x).activating? = some o →
    ∃ o' seg, lastOf (Event.lookupOf? x) w.trace = some (o', seg) ∧
      ∀ y, w.state.objects o = some y → (w.state.phase y).rank ≤ 2 → Event.registered y o ∈ seg

theorem activating_step (h : Transition s a s' es) (hx : (s'.phase x).activating? = some o) :
    (s.phase x).activating? = some o ∨
      es = [.lookedUp x o (s.objects o)] ∧ ∀ y, s.objects o = some y → s.clients y = none := by
  have hcalm : (s'.phase x).calm = false := by
    generalize s'.phase x = p at hx
    unfold Phase.activating? at hx
    split at hx <;> first | rfl | cases hx
  obtain hp | he := h.entered hcalm rfl
  · exact .inl (hp ▸ hx)
  · generalize s'.phase x = p at hx he
    cases he with
    | receive _ hd =>
      obtain ⟨r, -, rfl⟩ | ⟨resp, c, -, -, rfl⟩ := dispatch_cases hd
      · cases r <;> cases hx
      · cases hx
    | @callInsert k tx hl hc =>
      right
      cases hobj : s.objects k.objectName with
      | none =>
        rw [hobj] at hx
        cases hx
        exact ⟨by rw [hobj], by rw [hobj]; nofun⟩
      | some y =>
        cases hcl : s.clients y with
        | none =>
          rw [hobj, Option.bind_some, hcl] at hx
          cases hx
          refine ⟨by rw [hobj], fun z hz => ?_⟩
          cases hobj.symm.trans hz
          exact hcl
        | some t =>
          rw [hobj, Option.bind_some, hcl] at hx
          cases hx
    | @callRoute k workerId workerTx tx hi =>
      left
      rw [hi]
      cases workerId with
      | none => exact hx
      | some y =>
        cases workerTx with
        | none => exact hx
        | some t => cases hx
    | callStart hs =>
      left
      rw [hs]
      exact hx
    | _ => cases hx

theorem lookup_kept (h : Transition s a s' es) (hx : (s.phase x).activating? = some o)
    {o' : String} (hl : lastOf (Event.lookupOf? x) tr = some (o', seg)) :
    lastOf (Event.lookupOf? x) (es ++ tr) = some (o', es ++ seg) := by
  have hnone : ∀ e ∈ es, e.lookupOf? x = none := by
    intro e he
    cases e with
    | lookedUp y o' workerId =>
      obtain ⟨k, hy⟩ := h.lookedUp he
      have hyx : y ≠ x := by
        rintro rfl
        rw [hy] at hx
        cases hx
      exact if_neg hyx
    | _ => rfl
  rw [lastOf_append hnone, hl]
  rfl

theorem lookupSeen {ok : World Broker Event → Action → Prop} (h : broker.RunWhere ok w) :
    LookupSeen w := by
  refine h.invariant ?_ ?_
  · rintro _ ⟨items, rfl⟩ x o hx
    cases hx
  intro w a w' hr hI _ hn x o hx
  obtain ⟨es, ht, htr⟩ := next_transition hn
  have hL := lifecycle hr
  rw [htr]
  have howner : ∀ y, w'.state.objects o = some y →
      w.state.objects o = some y ∨ Event.registered y o ∈ es := by
    intro y hy
    obtain ⟨hobj, -⟩ | ⟨z, o', -, -, -, hobj, rfl⟩ | ⟨z, -, -, -, hobj⟩ := ht.objects
    · exact .inl (hobj ▸ hy)
    · rw [hobj] at hy
      by_cases ho : o = o'
      · subst ho
        rw [update_self] at hy
        cases hy
        exact .inr List.mem_cons_self
      · rw [update_of_ne ho] at hy
        exact .inl hy
    · simp only [hobj] at hy
      split_ifs at hy
      exact .inl hy
  have hrank : ∀ y, (w'.state.phase y).rank ≤ 2 → (w.state.phase y).rank ≤ 2 := by
    intro y hy
    have := ht.rank y
    omega
  obtain hx | ⟨rfl, hfree⟩ := activating_step ht hx
  · obtain ⟨o', seg, hl, hreg⟩ := hI x o hx
    refine ⟨o', es ++ seg, lookup_kept ht hx hl, fun y hy hle => ?_⟩
    obtain hy | hnew := howner y hy
    · exact List.mem_append_right _ (hreg y hy (hrank y hle))
    · exact List.mem_append_left _ hnew
  · refine ⟨o, [], lastOf_cons_some (if_pos rfl), fun y hy hle => ?_⟩
    obtain hy | hnew := howner y hy
    · have hpos := (hL.objects o y hy).1
      have hnone := hfree y hy
      rw [hL.clients y, if_pos ⟨hpos, hrank y hle⟩] at hnone
      cases hnone
    · simp at hnew

/-- In a run of starts in order, whenever a service is started its object has no owner that is a
key of `clients`, and since the start before it the object has been registered or that start has
failed. -/
theorem starts_in_order (h : broker.RunWhere (fun w a => startsInOrder w a = true) w)
    (hok : startsInOrder w (.handler x) = true)
    (hx : w.state.phase x = .handling (.callStart o unit)) :
    (∀ y, w.state.objects o = some y → w.state.clients y = none) ∧ MayStart o w.trace := by
  have hI := startInv (fun _ _ h => h) h o
  refine ⟨?_, (hI.live x unit hx (live_of_inOrder hok hx (hI.decided x unit hx))).2⟩
  intro y hy
  have hL := lifecycle h
  rw [hL.clients y]
  refine if_neg fun hrank => ?_
  obtain ⟨o', seg, hl, hreg⟩ := lookupSeen h x o (by rw [hx]; rfl)
  simp only [startsInOrder, hx, Bool.and_eq_true, hl, Option.all_some, Bool.not_eq_true'] at hok
  have htakes : seg.any (Event.takes w.state o) = true := by
    refine List.any_eq_true.mpr ⟨_, hreg y hy hrank.2, ?_⟩
    simp [Event.takes, hL.clients y, hrank]
  cases hok.1.symm.trans htakes

def restartAfterFailure : List Action :=
  [.connect workerA, .connect callerC] ++ request callerC (.call (callOf "1" "o")) 4 ++
    [.spawnEnd 0 false] ++ request workerA (.registerService "o" "o.service") 1 ++
    request callerC (.call (callOf "2" "o")) 3

theorem starts_in_order_restartAfterFailure :
    ∃ w, broker.exec (fun w a => startsInOrder w a = true) ⟨Broker.initial (activationOf "o"), []⟩
        restartAfterFailure = some w ∧
      (∀ y, w.state.objects "o" = some y → w.state.clients y = none) ∧ MayStart "o" w.trace := by
  obtain ⟨w, hr, he, ht⟩ := System.RunWhere.of_exec_any broker
    (fun w a => startsInOrder w a = true) restartAfterFailure
    (fun w => startsInOrder w (.handler callerC) && match w.state.phase callerC with
      | .handling (.callStart o _) => o = "o"
      | _ => false)
    ⟨activationOf "o", rfl⟩ (by decide)
  rw [Bool.and_eq_true] at ht
  obtain ⟨hok, hphase⟩ := ht
  split at hphase
  · next o unit hx =>
    have ho : o = "o" := of_decide_eq_true hphase
    exact ⟨w, he, starts_in_order hr hok (ho ▸ hx)⟩
  · cases hphase

/-- `RegisterService` resets a service that is starting, and a second call starts it again. -/
def resetWhileStarting : List Action :=
  [.connect workerA, .connect callerC, .connect callerD] ++
    request callerC (.call (callOf "1" "o")) 4 ++
    request workerA (.registerService "o" "o.service") 1 ++
    request callerD (.call (callOf "2" "o")) 3

theorem second_start_while_starting :
    ¬ ∀ (w : World Broker Event) (x : ClientId) (o unit : String), broker.Run w →
      w.state.phase x = .handling (.callStart o unit) →
      (∀ y, w.state.objects o = some y → w.state.clients y = none) ∧ MayStart o w.trace := by
  intro hall
  obtain ⟨w, hr, -, ht⟩ := System.RunWhere.of_exec_any broker (fun _ _ => True) resetWhileStarting
    (fun w => match w.state.phase callerD with
      | .handling (.callStart o _) =>
        (lastOf (Event.spawnOf? o) w.trace).any fun h =>
          !h.2.any (Event.runs o) && !h.2.any (Event.fails h.1)
      | _ => false)
    ⟨activationOf "o", rfl⟩ (by decide)
  split at ht
  · next o unit hx =>
    obtain ⟨⟨task, seg⟩, hl, hno⟩ := (Option.any_eq_true _ _).mp ht
    rw [Bool.and_eq_true, Bool.not_eq_true', Bool.not_eq_true'] at hno
    obtain hruns | hfails := (hall w callerD o unit hr hx).2 task seg hl
    · cases hruns.symm.trans hno.1
    · cases hfails.symm.trans hno.2
  · cases ht

end Broker
end IpcBroker
