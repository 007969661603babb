import IpcBroker.Worker.Sessions

/-! A worker that has lost its connection: when it can come back to its request loop, and what ends
it. -/

namespace IpcBroker.WorkerSupervisor
open Foundation

variable {α : Type} {json : WorkerJson} {b : WorkerBuilder α} {s s' : WorkerSupervisor α}
  {a : Action} {es tr : List (Event α)} {w : World (WorkerSupervisor α) (Event α)}
  {ok : World (WorkerSupervisor α) (Event α) → Action → Prop} {reading : ReadPacket}
  {name : String} {names : List String}

/-- The registration of the object can be written as one frame. -/
def Registrable (json : WorkerJson) (name : String) : Prop :=
  ∃ data, json.toVec (.request (.registerObject name)) = .ok data ∧ data.length ≤ bufSize

theorem Transition.registrable (h : Transition json b s a s' es) (hmem : .registered name ∈ es) :
    Registrable json name := by
  cases h with
  | registered hp hdata hw =>
    obtain rfl : name = _ := Event.registered.inj (List.mem_singleton.mp hmem)
    unfold writePacket at hw
    split_ifs at hw with hlong
    exact ⟨_, hdata, Nat.le_of_not_lt hlong⟩
  | _ => simp at hmem

theorem registered_registrable (h : (workerSupervisor json b).RunWhere ok w)
    (hmem : .registered name ∈ w.trace) : Registrable json name := by
  revert hmem
  refine h.invariant (I := fun w => .registered name ∈ w.trace → Registrable json name) ?_ ?_
  · intro _ _ hmem
    exact absurd hmem List.not_mem_nil
  · intro w a w' _ hI _ hn hmem
    obtain ⟨es, ht, htr⟩ := next_transition hn
    rw [htr] at hmem
    obtain hmem | hmem := List.mem_append.mp hmem
    · exact ht.registrable hmem
    · exact hI hmem

theorem all_registered (h : (workerSupervisor json b).RunWhere ok w)
    (hp : w.state.phase = .selecting reading) : (registered (session w.trace)).Perm b.names := by
  obtain ⟨left, hperm, hleft, -⟩ := (run_session h).registers.registered
  have hnone : left = [] := by
    rw [hleft (by rw [hp]; rfl), hp]
    rfl
  rwa [hnone, List.append_nil] at hperm

theorem next_register (h : Registrable json name) :
    (workerSupervisor json b).next ⟨s.registering (name :: names), tr⟩ (.register none) =
      some ⟨s.registering names, .registered name :: tr⟩ := by
  obtain ⟨data, hdata, hlen⟩ := h
  have hphase : s.registering (name :: names) = { s with phase := .registering (name :: names) } :=
    if_neg (List.cons_ne_nil _ _)
  refine System.next_eq_some.mpr ⟨[.registered name], ?_, rfl⟩
  show WorkerSupervisor.step json b (s.registering (name :: names)) (.register none) = _
  rw [hphase]
  simp only [step, register, hdata, writePacket, if_neg (Nat.not_lt.mpr hlen)]
  rfl

theorem register_all (h : ∀ name ∈ names, Registrable json name) (tr : List (Event α)) :
    ∃ w', (workerSupervisor json b).From (fun _ _ => True) ⟨s.registering names, tr⟩ w' ∧
      w'.state.phase = .selecting .start := by
  induction names generalizing tr with
  | nil => exact ⟨_, .here, rfl⟩
  | cons name names ih =>
    obtain ⟨hname, hnames⟩ := List.forall_mem_cons.mp h
    obtain ⟨w', hfrom, hphase⟩ := ih hnames (.registered name :: tr)
    exact ⟨w', (System.From.here.step trivial (next_register hname)).trans hfrom, hphase⟩

theorem Transition.stays_ready (h : Transition json b s a s' es)
    (hp : s.phase = .retrying true ∨ s.phase = .ended) :
    s'.phase = .retrying true ∨ s'.phase = .ended := by
  cases h with
  | stopServing | stopRetrying => exact .inr rfl
  | send | dropSender => exact hp
  | arrive hopen | hangUp hopen =>
    obtain hp | hp := hp <;> simp [hp, Phase.isOpen] at hopen
  | _ hphase => obtain hp | hp := hp <;> cases hp.symm.trans hphase

theorem from_ready {w' : World (WorkerSupervisor α) (Event α)}
    (h : (workerSupervisor json b).From ok w w') (hp : w.state.phase = .retrying true) :
    w'.state.phase = .retrying true ∨ w'.state.phase = .ended := by
  induction h with
  | here => exact .inl hp
  | step _ _ hn ih =>
    obtain ⟨es, ht, -⟩ := next_transition hn
    exact ht.stays_ready ih

/-- A worker that waits after an error can come back to its request loop if and only if no shutdown was
requested by then and the registrations of all its objects fit: with a name that is too long it serves
none of them any more, however often it connects. -/
theorem recovers_iff {ready : Bool} (h : (workerSupervisor json b).Run w)
    (hp : w.state.phase = .retrying ready) :
    (∃ w' reading, (workerSupervisor json b).From (fun _ _ => True) w w' ∧
      w'.state.phase = .selecting reading) ↔
      ready = false ∧ ∀ name ∈ b.names, Registrable json name := by
  constructor
  · rintro ⟨w', reading, hfrom, hserving⟩
    refine ⟨?_, fun name hname => ?_⟩
    · by_contra hready
      rw [Bool.not_eq_false] at hready
      obtain hp' | hp' := from_ready hfrom (hready ▸ hp) <;> cases hserving.symm.trans hp'
    · -- in the loop every name has been registered, and each was written as a frame
      have hrun := hfrom.run h
      have hmem : name ∈ registered (session w'.trace) :=
        (all_registered hrun hserving).mem_iff.mpr hname
      obtain ⟨e, he, hreg⟩ := List.mem_filterMap.mp (List.mem_reverse.mp hmem)
      unfold Event.registered? at hreg
      split at hreg
      · cases hreg
        exact registered_registrable hrun (List.takeWhile_subset _ he)
      · cases hreg
  · rintro ⟨rfl, hall⟩
    -- the supervisor sleeps, connects again, and registers the objects
    have hsleep : (workerSupervisor json b).next w .sleep =
        some ⟨{ w.state with phase := .connecting }, w.trace⟩ := by
      refine System.next_eq_some.mpr ⟨[], ?_, rfl⟩
      show WorkerSupervisor.step json b w.state .sleep = _
      simp only [step, hp]
    have hconnect : (workerSupervisor json b).next
        ⟨{ w.state with phase := .connecting }, w.trace⟩ (.connect b.names) =
        some ⟨{ w.state with phase := .connecting, arrived := [], hungUp := none }.registering
          b.names, .connected :: w.trace⟩ := by
      refine System.next_eq_some.mpr ⟨[.connected], ?_, rfl⟩
      exact if_pos (List.Perm.refl _)
    obtain ⟨w', hfrom, hphase⟩ := register_all hall (.connected :: w.trace)
    have hback := ((System.From.here.step trivial hsleep).step trivial hconnect).trans hfrom
    exact ⟨w', _, hback, hphase⟩

/-! A worker that has been registered when its connection is lost. -/

def Phase.retrying? : Phase α → Option Bool
  | .retrying ready => some ready
  | _ => none

theorem retrying_of_test {p : Phase α} {ready : Bool} (h : p.retrying? = some ready) :
    p = .retrying ready := by
  cases p with
  | retrying =>
    cases h
    rfl
  | _ => cases h

def lostConnection : List Action :=
  [.connect ["o"], .register none, .hangUp "reset", .poll]

theorem recovers_iff_lostConnection :
    ∃ w, (workerSupervisor callJson oneObject).exec (fun _ _ => True)
        ⟨WorkerSupervisor.initial, []⟩ lostConnection = some w ∧
      w.state.phase = .retrying false ∧
      ((∃ w' reading, (workerSupervisor callJson oneObject).From (fun _ _ => True) w w' ∧
        w'.state.phase = .selecting reading) ↔
        false = false ∧ ∀ name ∈ oneObject.names, Registrable callJson name) := by
  obtain ⟨w, hr, he, ht⟩ := System.RunWhere.of_exec_any (workerSupervisor callJson oneObject)
    (fun _ _ => True) lostConnection (fun w => w.state.phase.retrying? = some false) rfl (by decide)
  have hp := retrying_of_test (of_decide_eq_true ht)
  exact ⟨w, he, hp, recovers_iff hr hp⟩

/-! The shutdown channel, over the steps of a run. -/

def Phase.waits : Phase α → Bool
  | .selecting _ | .retrying _ => true
  | _ => false

def Action.requests : Action → Bool
  | .send | .dropSender => true
  | _ => false

abbrev WorkerStep (α : Type) : Type := Taken (WorkerSupervisor α) Action (Event α)

def Requested (steps : List (WorkerStep α)) : Prop :=
  steps.any (fun st => st.action.requests) = true

/-- The branch of the channel is ready in every `select!` from the request on, whatever the worker was
doing then, and nothing but a signal ends the worker. -/
structure ShutdownHonoured (json : WorkerJson) (b : WorkerBuilder α)
    (u : World (WorkerSupervisor α) (WorkerStep α)) : Prop where
  ready : u.state.phase.waits = true →
    ((u.state.step json b .shutdown).isSome = true ↔ Requested u.trace)
  ended : u.state.phase = .ended → Requested u.trace ∨ ∃ st ∈ u.trace, st.action = .ctrlC

variable {u : World (WorkerSupervisor α) (WorkerStep α)}
  {allowed : World (WorkerSupervisor α) (WorkerStep α) → Action → Prop}

theorem changed_iff : s.changed b = true ↔
    b.shutdownRx.isSome = true ∧ (0 < s.version ∨ s.senderDropped = true) := by
  unfold changed
  have hunseen := b.unseen
  cases hrx : b.shutdownRx with
  | none => simp
  | some seen =>
    have hseen : seen = 0 := hunseen seen hrx
    simp [hseen, Nat.pos_iff_ne_zero]

theorem Transition.channel (h : Transition json b s a s' es) :
    a.requests = false ∧ s'.version = s.version ∧ s'.senderDropped = s.senderDropped ∨
      a.requests = true ∧ s'.changed b = true := by
  cases h with
  | connect | registered =>
    refine .inl ⟨rfl, ?_⟩
    unfold registering
    split_ifs <;> exact ⟨rfl, rfl⟩
  | send hrx => exact .inr ⟨rfl, changed_iff.mpr ⟨hrx, .inl (Nat.succ_pos _)⟩⟩
  | dropSender hrx => exact .inr ⟨rfl, changed_iff.mpr ⟨hrx, .inr rfl⟩⟩
  | stopServing hp ha | stopRetrying hp ha =>
    obtain rfl | ⟨rfl, -⟩ := ha <;> exact .inl ⟨rfl, rfl, rfl⟩
  | _ => exact .inl ⟨rfl, rfl, rfl⟩

theorem Transition.ends (h : Transition json b s a s' es) (hp : s'.phase = .ended) :
    s.phase = .ended ∨ a = .ctrlC ∨ s.changed b = true := by
  cases h with
  | stopServing hserving ha | stopRetrying hretrying ha =>
    obtain rfl | ⟨-, hchanged⟩ := ha
    · exact .inr (.inl rfl)
    · exact .inr (.inr hchanged)
  | connect | registered =>
    unfold registering at hp
    split_ifs at hp
    cases hp
  | send | dropSender | arrive | hangUp => exact .inl hp
  | _ => cases hp

theorem requested_cons {st : WorkerStep α} {steps : List (WorkerStep α)} :
    Requested (st :: steps) ↔ st.action.requests = true ∨ Requested steps := by
  rw [Requested, List.any_cons, Bool.or_eq_true]
  rfl

theorem changed_iff_requested
    (h : (workerSupervisor json b).recorded.RunWhere allowed u) :
    u.state.changed b = true ↔ Requested u.trace := by
  refine h.invariant (I := fun u => u.state.changed b = true ↔ Requested u.trace) ?_ ?_
  · rintro _ rfl
    rw [changed_iff]
    simp [Requested, initial]
  · intro u a u' _ hI _ hn
    obtain ⟨es, hs, htr⟩ := System.recorded_next.mp hn
    rw [htr, requested_cons, ← hI]
    obtain ⟨ha, hversion, hdropped⟩ | ⟨ha, hchanged⟩ := (step_transition hs).channel
    · rw [changed_iff, changed_iff, hversion, hdropped, ha]
      simp
    · exact ⟨fun _ => .inl ha, fun _ => hchanged⟩

theorem Transition.retries {ready : Bool} (h : Transition json b s a s' es)
    (hp : s'.phase = .retrying ready) :
    s.phase = .retrying ready ∨
      (∃ e, Event.exited (some e) ∈ es) ∧ ready = s.changed b := by
  cases h with
  | refused | unregistered | pollFailed | unanswered =>
    cases hp
    exact .inr ⟨⟨_, List.mem_cons_self⟩, rfl⟩
  | connect | registered =>
    unfold registering at hp
    split_ifs at hp
    cases hp
  | send | dropSender | arrive | hangUp => exact .inl hp
  | _ => cases hp

/-- What the supervisor has found of the shutdown channel is whether there had been a request before the
error that it waits after. -/
theorem ready_iff_requested {ready : Bool}
    (h : (workerSupervisor json b).recorded.RunWhere allowed u)
    (hp : u.state.phase = .retrying ready) : ∃ later st earlier e, u.trace = later ++ st :: earlier ∧
      Event.exited (some e) ∈ st.events ∧ (ready = true ↔ Requested earlier) := by
  revert hp
  refine h.invariant (I := fun u => u.state.phase = .retrying ready → ∃ later st earlier e,
    u.trace = later ++ st :: earlier ∧ Event.exited (some e) ∈ st.events ∧
      (ready = true ↔ Requested earlier)) ?_ ?_
  · rintro _ rfl hp
    cases hp
  · intro u a u' hr hI _ hn hp
    obtain ⟨es, hs, htr⟩ := System.recorded_next.mp hn
    obtain hwaits | ⟨⟨e, he⟩, rfl⟩ := (step_transition hs).retries hp
    · obtain ⟨later, st, earlier, e, hu, he, hready⟩ := hI hwaits
      exact ⟨_ :: later, st, earlier, e, by rw [htr, hu]; rfl, he, hready⟩
    · exact ⟨[], _, u.trace, e, htr, he, changed_iff_requested hr⟩

theorem stop_isSome : s.stop.isSome = s.phase.waits := by
  cases hp : s.phase <;> simp [stop, hp, Phase.waits]

theorem ended_by_signal
    (h : (workerSupervisor json b).recorded.RunWhere allowed u) (hp : u.state.phase = .ended) :
    Requested u.trace ∨ ∃ st ∈ u.trace, st.action = .ctrlC := by
  revert hp
  refine h.invariant (I := fun u => u.state.phase = .ended →
    Requested u.trace ∨ ∃ st ∈ u.trace, st.action = .ctrlC) ?_ ?_
  · rintro _ rfl hp
    cases hp
  · intro u a u' hr hI _ hn hp
    obtain ⟨es, hs, htr⟩ := System.recorded_next.mp hn
    rw [htr, requested_cons]
    -- the worker had ended before, or this step ends it
    obtain hend | rfl | hchanged := (step_transition hs).ends hp
    · obtain hreq | ⟨st, hst, hctrlC⟩ := hI hend
      · exact .inl (.inr hreq)
      · exact .inr ⟨st, List.mem_cons_of_mem _ hst, hctrlC⟩
    · exact .inr ⟨_, List.mem_cons_self, rfl⟩
    · exact .inl (.inr ((changed_iff_requested hr).mp hchanged))

/-- No shutdown request is lost, and none is made up: in each `select!` of every run, the branch of the
shutdown channel is ready if and only if there has been a request at any moment before, also before
the first connection, during a call, or while the broker was away. Without a request only Ctrl-C ends
the worker, and no error does. -/
theorem shutdown_honoured
    (h : (workerSupervisor json b).recorded.RunWhere allowed u) : ShutdownHonoured json b u := by
  refine ⟨fun hp => ?_, ended_by_signal h⟩
  have hstop : u.state.stop.isSome = true := stop_isSome.trans hp
  rw [← changed_iff_requested h]
  cases hchanged : u.state.changed b with
  | true => simp [step, hchanged, hstop]
  | false => simp [step, hchanged]

theorem shutdown_honoured_callReturned :
    ∃ u, (workerSupervisor callJson oneObject).recorded.exec (fun _ _ => True)
        ⟨WorkerSupervisor.initial, []⟩ callReturned = some u ∧
      u.state.phase.waits = true ∧ Requested u.trace ∧
      ShutdownHonoured callJson oneObject u := by
  obtain ⟨u, hr, he, ht⟩ := System.RunWhere.of_exec_any
    (workerSupervisor callJson oneObject).recorded (fun _ _ => True) callReturned
    (fun u => u.state.phase.waits && u.trace.any fun st => st.action.requests) rfl (by decide)
  rw [Bool.and_eq_true] at ht
  exact ⟨u, he, ht.1, ht.2, shutdown_honoured hr⟩

end IpcBroker.WorkerSupervisor
