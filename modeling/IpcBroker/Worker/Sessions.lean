import IpcBroker.Foundation.History
import IpcBroker.Worker.Supervisor

/-! What a worker does on each of its connections: the registrations first, and then the calls in the
order of the bytes that come, each of them executed and answered before the next one is read. -/

namespace IpcBroker.WorkerSupervisor
open Foundation

variable {α : Type}

def Event.isConnected : Event α → Bool
  | .connected => true
  | _ => false

def Event.registered? : Event α → Option String
  | .registered name => some name
  | _ => none

def Event.incoming? : Event α → Option (List UInt8)
  | .incoming bytes => some bytes
  | _ => none

def Event.returned? : Event α → Option (List UInt8)
  | .returned data => some data
  | _ => none

def Event.executed? : Event α → Option ((α × Call) × Value)
  | .executed obj k value => some ((obj, k), value)
  | _ => none

def Event.answered? : Event α → Option RpcResponse
  | .answered resp => some resp
  | _ => none

def Event.written? : Event α → Option Packet
  | .registered name => some (.request (.registerObject name))
  | .answered resp => some (.response resp)
  | _ => none

/-- The events since the last connection. -/
def session (tr : List (Event α)) : List (Event α) := tr.takeWhile fun e => !e.isConnected

def registered (tr : List (Event α)) : List String := chronicle Event.registered? tr

def incoming (tr : List (Event α)) : List UInt8 := (chronicle Event.incoming? tr).flatten

def returned (tr : List (Event α)) : List (List UInt8) := chronicle Event.returned? tr

def executed (tr : List (Event α)) : List ((α × Call) × Value) := chronicle Event.executed? tr

def answered (tr : List (Event α)) : List RpcResponse := chronicle Event.answered? tr

def written (tr : List (Event α)) : List Packet := chronicle Event.written? tr

def answer? (json : WorkerJson) (q : (α × Call) × Value) : Option RpcResponse :=
  let resp := RpcResponse.result q.1.2.callId q.1.2.objectName q.2
  match json.toVec (.response resp) with
  | .ok _ => some resp
  | .error _ => none

def due (json : WorkerJson) (tr : List (Event α)) : List RpcResponse :=
  (executed tr).filterMap (answer? json)

def Phase.unregistered : Phase α → List String
  | .registering names => names
  | _ => []

def Phase.held : Phase α → List UInt8
  | .selecting reading => reading.held
  | _ => []

def Phase.pending : Phase α → List (α × Call)
  | .calling obj k => [(obj, k)]
  | _ => []

/-- The packets read are the frames of the bytes that have come, in order; while the connection is
there, all other bytes are held by the read or still to be read. -/
structure ReadsFrames (s : WorkerSupervisor α) (tr : List (Event α)) : Prop where
  in_order : frames (returned tr) <+: incoming tr
  whole : s.phase.isOpen = true →
    frames (returned tr) ++ (s.phase.held ++ s.arrived) = incoming tr

/-- The calls are executed in the order in which they are read, each by the object of its name, and
each is answered, if its result can be serialised, before the next packet is read. Only a write that
fails leaves an answer out: on a connection that fails, or of a result longer than a frame, which
ends the connection as well. -/
structure ServesCalls (json : WorkerJson) (b : WorkerBuilder α) (s : WorkerSupervisor α)
    (tr : List (Event α)) : Prop where
  calls : (executed tr).map Prod.fst ++ s.phase.pending = (returned tr).filterMap (callOf json b)
  in_order : answered tr <+: due json tr
  all : s.phase.isOpen = true ∨ .exited none ∈ tr → answered tr = due json tr

/-- All objects are registered, each once, before the first packet is read. -/
structure RegistersFirst (b : WorkerBuilder α) (s : WorkerSupervisor α) (tr : List (Event α)) :
    Prop where
  written : written tr = (registered tr).map (fun name => .request (.registerObject name)) ++
    (answered tr).map .response
  registered : ∃ left, (registered tr ++ left).Perm b.names ∧
    (s.phase.isOpen = true → left = s.phase.unregistered) ∧ (left ≠ [] → returned tr = [])

/-- The last connection of a worker; a signal that ends its loop ends the worker. -/
structure Session (json : WorkerJson) (b : WorkerBuilder α) (s : WorkerSupervisor α)
    (tr : List (Event α)) : Prop where
  reads : ReadsFrames s tr
  serves : ServesCalls json b s tr
  registers : RegistersFirst b s tr
  stops : .exited none ∈ tr → s.phase = .ended

variable {json : WorkerJson} {b : WorkerBuilder α} {s s' : WorkerSupervisor α} {a : Action}
  {es tr : List (Event α)} {w w' : World (WorkerSupervisor α) (Event α)} {reading : ReadPacket}
  {data rest : List UInt8} {e : Event α}
  {ok : World (WorkerSupervisor α) (Event α) → Action → Prop}

theorem session_append (h : ∀ e ∈ es, e.isConnected = false) :
    session (es ++ tr) = es ++ session tr :=
  List.takeWhile_append_of_pos fun e he => by simp [h e he]

@[simp] theorem registering_arrived (names : List String) :
    (s.registering names).arrived = s.arrived := by
  unfold registering
  split_ifs <;> rfl

@[simp] theorem registering_held (names : List String) : (s.registering names).phase.held = [] := by
  unfold registering
  split_ifs <;> rfl

@[simp] theorem registering_pending (names : List String) :
    (s.registering names).phase.pending = [] := by
  unfold registering
  split_ifs <;> rfl

@[simp] theorem registering_unregistered (names : List String) :
    (s.registering names).phase.unregistered = names := by
  unfold registering
  split_ifs with hnames
  · exact hnames.symm
  · rfl

/-! What a poll does with the bytes. -/

theorem read_pending {reading' : ReadPacket} (h : s.read reading = .pending reading') :
    reading'.held = reading.held ++ s.arrived := by
  unfold read at h
  split at h
  · cases h
  · exact ReadPacket.poll_pending h

theorem read_ready (h : s.read reading = .ready (.ok data) rest) :
    reading.held ++ s.arrived = frame data ++ rest := by
  unfold read at h
  split at h
  · cases h
  · exact (ReadPacket.poll_ready h).1

theorem returned_cons : returned (e :: tr) = returned tr ++ e.returned?.toList := chronicle_cons

theorem executed_cons : executed (e :: tr) = executed tr ++ e.executed?.toList := chronicle_cons

theorem registered_cons : registered (e :: tr) = registered tr ++ e.registered?.toList :=
  chronicle_cons

theorem answered_cons : answered (e :: tr) = answered tr ++ e.answered?.toList := chronicle_cons

theorem written_cons : written (e :: tr) = written tr ++ e.written?.toList := chronicle_cons

theorem incoming_cons : incoming (e :: tr) = incoming tr ++ (e.incoming?.toList).flatten := by
  rw [incoming, chronicle_cons, List.flatten_append]
  rfl

theorem due_cons : due json (e :: tr) = due json tr ++ e.executed?.toList.filterMap (answer? json) := by
  rw [due, executed_cons, List.filterMap_append]
  rfl

/-! Each part is kept by the steps after the connection. -/

theorem ReadsFrames.quiet (hI : ReadsFrames s tr)
    (hes : ∀ e ∈ es, e.returned? = none ∧ e.incoming? = none)
    (hbytes : s'.phase.isOpen = true → s.phase.isOpen = true ∧
      s'.phase.held ++ s'.arrived = s.phase.held ++ s.arrived) : ReadsFrames s' (es ++ tr) := by
  have hret : returned (es ++ tr) = returned tr := by
    rw [returned, chronicle_append, chronicle_none fun e he => (hes e he).1, List.append_nil]
    rfl
  have hin : incoming (es ++ tr) = incoming tr := by
    rw [incoming, chronicle_append, chronicle_none fun e he => (hes e he).2, List.append_nil]
    rfl
  refine ⟨?_, fun hopen => ?_⟩
  · rw [hret, hin]
    exact hI.in_order
  · obtain ⟨hopen₀, hsame⟩ := hbytes hopen
    rw [hret, hin, hsame]
    exact hI.whole hopen₀

theorem ReadsFrames.packet (hI : ReadsFrames s tr) (hp : s.phase = .selecting reading)
    (hr : s.read reading = .ready (.ok data) rest) (hheld : s'.phase.held = [])
    (harr : s'.arrived = rest) : ReadsFrames s' (.returned data :: tr) := by
  have hwhole := hI.whole (by rw [hp]; rfl)
  have hall : frames (returned (.returned data :: tr)) ++ rest =
      incoming (.returned data :: tr) := by
    rw [returned_cons, incoming_cons, frames_append]
    simp only [Event.returned?, Event.incoming?, Option.toList, frames_cons, frames_nil,
      List.append_nil, List.flatten_nil]
    rw [← hwhole, hp, Phase.held, read_ready hr, List.append_assoc]
  refine ⟨⟨rest, hall⟩, fun _ => ?_⟩
  rw [hheld, harr]
  exact hall

theorem ReadsFrames.step (hI : ReadsFrames s tr) (h : Transition json b s a s' es)
    (hes : ∀ e ∈ es, e.isConnected = false) : ReadsFrames s' (es ++ tr) := by
  cases h with
  | connect => cases hes _ List.mem_cons_self
  | registered hp =>
    refine hI.quiet (by simp [Event.returned?, Event.incoming?]) fun _ => ?_
    rw [registering_held, registering_arrived, hp]
    exact ⟨rfl, rfl⟩
  | @pollPending reading reading' hp hr =>
    refine hI.quiet (by simp) fun _ => ?_
    rw [hp]
    exact ⟨rfl, (List.append_nil _).trans (read_pending hr)⟩
  | pollCall hp hr => exact hI.packet hp hr rfl rfl
  | pollOther hp hr => exact hI.packet hp hr rfl rfl
  | unserialized hp | answered hp =>
    refine hI.quiet (by simp [Event.returned?, Event.incoming?]) fun _ => ?_
    rw [hp]
    exact ⟨rfl, rfl⟩
  | @arrive bytes hopen =>
    have hall : frames (returned (.incoming bytes :: tr)) ++
        (s.phase.held ++ (s.arrived ++ bytes)) = incoming (.incoming bytes :: tr) := by
      rw [returned_cons, incoming_cons]
      simp only [Event.returned?, Event.incoming?, Option.toList, List.append_nil,
        List.flatten_cons, List.flatten_nil]
      rw [← hI.whole hopen]
      simp only [List.append_assoc]
    exact ⟨⟨_, hall⟩, fun _ => hall⟩
  | send | dropSender | hangUp => exact hI.quiet (by simp) fun hopen => ⟨hopen, rfl⟩
  | _ => exact hI.quiet (by simp [Event.returned?, Event.incoming?]) nofun

theorem ServesCalls.quiet (hI : ServesCalls json b s tr)
    (hes : ∀ e ∈ es, e.returned? = none ∧ e.executed? = none ∧ e.answered? = none)
    (hpending : s'.phase.pending = s.phase.pending)
    (hopen : s'.phase.isOpen = true ∨ .exited none ∈ es ++ tr →
      s.phase.isOpen = true ∨ .exited none ∈ tr) : ServesCalls json b s' (es ++ tr) := by
  have hret : returned (es ++ tr) = returned tr := by
    rw [returned, chronicle_append, chronicle_none fun e he => (hes e he).1, List.append_nil]
    rfl
  have hexec : executed (es ++ tr) = executed tr := by
    rw [executed, chronicle_append, chronicle_none fun e he => (hes e he).2.1, List.append_nil]
    rfl
  have hans : answered (es ++ tr) = answered tr := by
    rw [answered, chronicle_append, chronicle_none fun e he => (hes e he).2.2, List.append_nil]
    rfl
  refine ⟨?_, ?_, fun h => ?_⟩
  · rw [hexec, hret, hpending]
    exact hI.calls
  · rw [hans, due, hexec]
    exact hI.in_order
  · rw [hans, due, hexec]
    exact hI.all (hopen h)

theorem ServesCalls.packet (hI : ServesCalls json b s tr) (hp : s.phase = .selecting reading)
    (hpending : s'.phase.pending = (callOf json b data).toList) :
    ServesCalls json b s' (.returned data :: tr) := by
  have hcalls := hI.calls
  simp only [hp, Phase.pending, List.append_nil] at hcalls
  have hopen : s.phase.isOpen = true := by
    rw [hp]
    rfl
  refine ⟨?_, ?_, fun _ => ?_⟩
  · rw [executed_cons, returned_cons, List.filterMap_append, ← hcalls, hpending]
    simp only [Event.executed?, Event.returned?, Option.toList, List.append_nil]
    rw [List.filterMap_cons]
    cases callOf json b data <;> rfl
  · rw [answered_cons, due_cons]
    simpa [Event.answered?, Event.executed?] using hI.in_order
  · rw [answered_cons, due_cons]
    simpa [Event.answered?, Event.executed?] using hI.all (.inl hopen)

theorem ServesCalls.executed {obj : α} {k : Call} {value : Value} (hI : ServesCalls json b s tr)
    (hp : s.phase = .calling obj k) (hpending : s'.phase.pending = [])
    (hcalm : ∀ e ∈ es, e.returned? = none ∧ e.executed? = none)
    (hdue : answered (es ++ .executed obj k value :: tr) <+:
      answered tr ++ (answer? json ((obj, k), value)).toList)
    (hall : s'.phase.isOpen = true ∨ .exited none ∈ es ++ .executed obj k value :: tr →
      answered (es ++ .executed obj k value :: tr) =
        answered tr ++ (answer? json ((obj, k), value)).toList) :
    ServesCalls json b s' (es ++ .executed obj k value :: tr) := by
  have hexec : WorkerSupervisor.executed (es ++ .executed obj k value :: tr) =
      WorkerSupervisor.executed tr ++ [((obj, k), value)] := by
    rw [WorkerSupervisor.executed, chronicle_append, chronicle_none fun e he => (hcalm e he).2,
      List.append_nil, chronicle_cons]
    rfl
  have hret : returned (es ++ .executed obj k value :: tr) = returned tr := by
    rw [returned, chronicle_append, chronicle_none fun e he => (hcalm e he).1, List.append_nil,
      chronicle_cons]
    exact List.append_nil _
  -- what was due before has been answered, since the connection was there
  have hanswered : answered tr = due json tr := hI.all (.inl (by rw [hp]; rfl))
  have hnext : due json (es ++ .executed obj k value :: tr) =
      answered tr ++ (answer? json ((obj, k), value)).toList := by
    rw [due, hexec, List.filterMap_append, hanswered, due]
    refine congrArg _ ?_
    rw [List.filterMap_cons]
    cases answer? json ((obj, k), value) <;> rfl
  refine ⟨?_, hnext ▸ hdue, fun h => (hall h).trans hnext.symm⟩
  rw [hexec, hret, hpending, ← hI.calls, hp, List.map_append, List.append_nil]
  rfl

theorem Transition.ended (h : Transition json b s a s' es) (hp : s.phase = .ended) :
    s'.phase = .ended ∧ es = [] := by
  cases h with
  | send | dropSender => exact ⟨hp, rfl⟩
  | arrive hopen | hangUp hopen =>
    rw [hp] at hopen
    cases hopen
  | connect hp' | refused hp' | unregistered hp' | registered hp' | pollPending hp' | pollFailed hp'
  | pollCall hp' | pollOther hp' | unserialized hp' | answered hp' | unanswered hp'
  | stopServing hp' | stopRetrying hp' | sleep hp' => cases hp.symm.trans hp'

theorem Transition.signalled (h : Transition json b s a s' es) (he : .exited none ∈ es) :
    s'.phase = .ended := by
  cases h with
  | stopServing => rfl
  | _ => simp at he

theorem ServesCalls.step (hI : ServesCalls json b s tr)
    (hstop : .exited none ∈ tr → s.phase = .ended) (h : Transition json b s a s' es)
    (hes : ∀ e ∈ es, e.isConnected = false) : ServesCalls json b s' (es ++ tr) := by
  cases h with
  | connect => cases hes _ List.mem_cons_self
  | refused hp | unregistered hp | pollFailed hp =>
    -- the connection is gone, but not by a signal
    refine hI.quiet (by simp [Event.returned?, Event.executed?, Event.answered?]) ?_ ?_
    · rw [hp]
      rfl
    · rintro (hopen | hmem)
      · cases hopen
      · exact .inr (by simpa using hmem)
  | registered hp =>
    refine hI.quiet (by simp [Event.returned?, Event.executed?, Event.answered?]) ?_ fun _ => ?_
    · rw [registering_pending, hp]
      rfl
    · exact .inl (by rw [hp]; rfl)
  | pollPending hp =>
    refine hI.quiet (by simp) ?_ fun _ => .inl ?_ <;>
      · rw [hp]
        rfl
  | pollCall hp hr hc => exact hI.packet hp (by rw [hc]; rfl)
  | pollOther hp hr hc => exact hI.packet hp (by rw [hc]; rfl)
  | @unserialized obj k value fault e hp he =>
    have hnone : answer? json ((obj, k), value) = none := by simp only [answer?, he]
    have hsame : answered (.executed obj k value :: tr) =
        answered tr ++ (answer? json ((obj, k), value)).toList := by
      rw [hnone, answered_cons]
      rfl
    show ServesCalls json b _ ([] ++ .executed obj k value :: tr)
    exact hI.executed hp rfl (by simp) (hsame ▸ List.prefix_rfl) fun _ => hsame
  | @answered obj k value fault data bytes hp hdata =>
    have hsome : answer? json ((obj, k), value) =
        some (.result k.callId k.objectName value) := by simp only [answer?, hdata]
    have hsame : WorkerSupervisor.answered
        (.answered (.result k.callId k.objectName value) :: .executed obj k value :: tr) =
        WorkerSupervisor.answered tr ++ (answer? json ((obj, k), value)).toList := by
      rw [hsome, answered_cons, answered_cons, List.append_assoc]
      rfl
    show ServesCalls json b _ ([.answered _] ++ .executed obj k value :: tr)
    exact hI.executed hp rfl (by simp [Event.returned?, Event.executed?])
      (hsame ▸ List.prefix_rfl) fun _ => hsame
  | @unanswered obj k value fault data e hp =>
    have hsame : answered (.exited (some e) :: .executed obj k value :: tr) = answered tr := by
      rw [answered_cons, answered_cons, List.append_assoc]
      exact List.append_nil _
    show ServesCalls json b _ ([.exited (some e)] ++ .executed obj k value :: tr)
    refine hI.executed hp rfl (by simp [Event.returned?, Event.executed?])
      (hsame ▸ List.prefix_append _ _) ?_
    -- the connection is gone, and no signal has come yet
    rintro (hopen | hmem)
    · cases hopen
    · have hend := hstop (by simpa using hmem)
      cases hp.symm.trans hend
  | stopServing hp =>
    refine hI.quiet (by simp [Event.returned?, Event.executed?, Event.answered?]) ?_ fun _ => .inl ?_
      <;>
      · rw [hp]
        rfl
  | stopRetrying hp =>
    refine hI.quiet (by simp [Event.returned?, Event.executed?, Event.answered?]) ?_ ?_
    · rw [hp]
      rfl
    · rintro (hopen | hmem)
      · cases hopen
      · exact .inr (by simpa using hmem)
  | sleep hp =>
    refine hI.quiet (by simp) ?_ ?_
    · rw [hp]
      rfl
    · rintro (hopen | hmem)
      · cases hopen
      · exact .inr hmem
  | arrive hopen =>
    exact hI.quiet (by simp [Event.returned?, Event.executed?, Event.answered?]) rfl
      fun _ => .inl hopen
  | hangUp hopen => exact hI.quiet (by simp) rfl fun _ => .inl hopen
  | send | dropSender => exact hI.quiet (by simp) rfl id

theorem RegistersFirst.quiet (hI : RegistersFirst b s tr)
    (hes : ∀ e ∈ es, e.written? = none ∧ e.registered? = none ∧ e.answered? = none)
    (hret : s.phase.isOpen = true ∧ s.phase.unregistered = [] ∨ ∀ e ∈ es, e.returned? = none)
    (hopen : s'.phase.isOpen = true → s.phase.isOpen = true ∧
      s'.phase.unregistered = s.phase.unregistered) : RegistersFirst b s' (es ++ tr) := by
  have hwritten : WorkerSupervisor.written (es ++ tr) = WorkerSupervisor.written tr := by
    rw [WorkerSupervisor.written, chronicle_append, chronicle_none fun e he => (hes e he).1,
      List.append_nil]
    rfl
  have hregistered : WorkerSupervisor.registered (es ++ tr) = WorkerSupervisor.registered tr := by
    rw [WorkerSupervisor.registered, chronicle_append, chronicle_none fun e he => (hes e he).2.1,
      List.append_nil]
    rfl
  have hanswered : answered (es ++ tr) = answered tr := by
    rw [answered, chronicle_append, chronicle_none fun e he => (hes e he).2.2, List.append_nil]
    rfl
  -- the same names are left as before
  obtain ⟨left, hperm, hleft, hfirst⟩ := hI.registered
  refine ⟨?_, left, ?_, fun ho => ?_, fun hne => ?_⟩
  · rw [hwritten, hregistered, hanswered]
    exact hI.written
  · rw [hregistered]
    exact hperm
  · obtain ⟨hopen₀, hsame⟩ := hopen ho
    rw [hsame]
    exact hleft hopen₀
  · obtain ⟨hopen₀, hnil⟩ | hnone := hret
    · exact absurd ((hleft hopen₀).trans hnil) hne
    · rw [returned, chronicle_append, chronicle_none hnone, List.append_nil]
      exact hfirst hne

theorem RegistersFirst.step (hI : RegistersFirst b s tr) (hserves : ServesCalls json b s tr)
    (h : Transition json b s a s' es) (hes : ∀ e ∈ es, e.isConnected = false) :
    RegistersFirst b s' (es ++ tr) := by
  cases h with
  | connect => cases hes _ List.mem_cons_self
  | @registered name names fault data bytes hp =>
    obtain ⟨left, hperm, hleft, hfirst⟩ := hI.registered
    obtain rfl : left = name :: names := by
      rw [hleft (by rw [hp]; rfl), hp]
      rfl
    -- as long as a name is left, nothing has been read, and so nothing has been answered
    have hreturned : returned tr = [] := hfirst (List.cons_ne_nil _ _)
    have hanswered : answered tr = [] := by
      have hcalls := hserves.calls
      rw [hreturned, List.filterMap_nil, List.append_eq_nil_iff, List.map_eq_nil_iff] at hcalls
      have hdue := hserves.in_order
      rw [due, hcalls.1] at hdue
      exact List.prefix_nil.mp hdue
    refine ⟨?_, names, ?_, fun _ => (registering_unregistered names).symm, fun _ => ?_⟩
    · have hwritten := hI.written
      rw [hanswered, List.map_nil, List.append_nil] at hwritten
      rw [List.singleton_append, written_cons, registered_cons, answered_cons, hwritten, hanswered,
        List.map_append]
      exact (List.append_nil _).symm
    · rw [List.singleton_append, registered_cons, List.append_assoc]
      exact hperm
    · rw [List.singleton_append, returned_cons, hreturned]
      rfl
  | @answered obj k value fault data bytes hp =>
    obtain ⟨left, hperm, hleft, hfirst⟩ := hI.registered
    obtain rfl : left = [] := hleft (by rw [hp]; rfl) |>.trans (by rw [hp]; rfl)
    refine ⟨?_, [], ?_, fun _ => rfl, fun hne => absurd rfl hne⟩
    · simp only [List.cons_append, List.nil_append, written_cons, registered_cons, answered_cons,
        hI.written, Event.written?, Event.registered?, Event.answered?, Option.toList,
        List.append_nil, List.map_append, List.append_assoc]
      rfl
    · simp only [List.cons_append, List.nil_append, registered_cons, Event.registered?,
        Option.toList, List.append_nil]
      rwa [List.append_nil] at hperm
  | pollPending hp =>
    refine hI.quiet (by simp) (.inr (by simp)) fun _ => ?_
    rw [hp]
    exact ⟨rfl, rfl⟩
  | pollCall hp | pollOther hp =>
    refine hI.quiet (by simp [Event.written?, Event.registered?, Event.answered?]) (.inl ?_)
      fun _ => ?_ <;>
      · rw [hp]
        exact ⟨rfl, rfl⟩
  | unserialized hp =>
    refine hI.quiet (by simp [Event.written?, Event.registered?, Event.answered?])
      (.inr (by simp [Event.returned?])) fun _ => ?_
    rw [hp]
    exact ⟨rfl, rfl⟩
  | arrive =>
    exact hI.quiet (by simp [Event.written?, Event.registered?, Event.answered?])
      (.inr (by simp [Event.returned?])) fun ho => ⟨ho, rfl⟩
  | hangUp | send | dropSender =>
    exact hI.quiet (by simp) (.inr (by simp)) fun ho => ⟨ho, rfl⟩
  | _ =>
    exact hI.quiet (by simp [Event.written?, Event.registered?, Event.answered?])
      (.inr (by simp [Event.returned?])) nofun

theorem Session.connected {names : List String} (hn : names.Perm b.names) :
    Session json b ({ s with arrived := [], hungUp := none }.registering names) [] where
  reads := by
    refine ⟨List.prefix_rfl, fun _ => ?_⟩
    rw [registering_held, registering_arrived]
    rfl
  serves := by
    refine ⟨?_, List.prefix_rfl, fun _ => rfl⟩
    rw [registering_pending]
    rfl
  registers := ⟨rfl, names, hn, fun _ => (registering_unregistered names).symm, fun _ => rfl⟩
  stops hmem := absurd hmem List.not_mem_nil

theorem Session.initial : Session json b .initial [] where
  reads := ⟨List.prefix_rfl, nofun⟩
  serves := ⟨rfl, List.prefix_rfl, fun _ => rfl⟩
  registers := ⟨rfl, b.names, List.Perm.refl _, nofun, fun _ => rfl⟩
  stops hmem := absurd hmem List.not_mem_nil

theorem Session.step (hI : Session json b s tr) (h : Transition json b s a s' es)
    (hes : ∀ e ∈ es, e.isConnected = false) : Session json b s' (es ++ tr) where
  reads := hI.reads.step h hes
  serves := hI.serves.step hI.stops h hes
  registers := hI.registers.step hI.serves h hes
  stops hmem := by
    obtain hmem | hmem := List.mem_append.mp hmem
    · exact h.signalled hmem
    · exact (h.ended (hI.stops hmem)).1

theorem Transition.connects (h : Transition json b s a s' es) :
    (∀ e ∈ es, e.isConnected = false) ∨ ∃ names, names.Perm b.names ∧
      s' = { s with arrived := [], hungUp := none }.registering names ∧ es = [.connected] := by
  cases h with
  | connect hp hn => exact .inr ⟨_, hn, rfl, rfl⟩
  | _ => exact .inl (by simp [Event.isConnected])

theorem Session.next (hI : Session json b w.state (session w.trace))
    (hn : (workerSupervisor json b).next w a = some w') :
    Session json b w'.state (session w'.trace) := by
  obtain ⟨es, ht, htr⟩ := next_transition hn
  rw [htr]
  obtain hes | ⟨names, hperm, hs', rfl⟩ := ht.connects
  · rw [session_append hes]
    exact hI.step ht hes
  · rw [hs']
    exact .connected hperm

theorem run_session (h : (workerSupervisor json b).RunWhere ok w) :
    Session json b w.state (session w.trace) := by
  refine h.invariant (I := fun w => Session json b w.state (session w.trace)) ?_ ?_
  · rintro _ rfl
    exact .initial
  · intro w a w' _ hI _ hn
    exact hI.next hn

/-- On every connection of a worker, in every order of its steps, of the bytes that come and of the
signals: the objects are registered before the first packet is read; the packets read are the frames
of the bytes in order, none of them lost; and the calls among them are executed one after the other,
each answered before the next packet is read, also when a signal ends the worker. -/
theorem sessions_served (h : (workerSupervisor json b).RunWhere ok w) :
    Session json b w.state (session w.trace) := run_session h

/-! The request loop as a function of its packets, with what the objects return for them. -/

/-- The turns of a connection up to now are those of the loop on these packets. -/
structure RunsLoop (json : WorkerJson) (b : WorkerBuilder α) (execs : List ((α × Call) × Value))
    (ps : List (List UInt8)) (resps : List RpcResponse) (packets : List (List UInt8 × Value)) :
    Prop where
  read : packets.map Prod.fst = ps
  values : packets.filterMap (fun p => (Worker.knownCall json b.names p.1).map fun k => (k, p.2)) =
    execs.map fun q => (q.1.2, q.2)
  loop : ∃ outs, Worker.served json b.names packets = (outs, .serving) ∧ outs.flatten = resps

theorem get_isSome {name : String} : (b.get name).isSome = true ↔ name ∈ b.names := by
  rw [WorkerBuilder.get, List.lookup_isSome_iff]
  constructor
  · rintro ⟨q, hq, hname⟩
    exact List.mem_map.mpr ⟨q, hq, (beq_iff_eq.mp hname).symm⟩
  · intro hmem
    obtain ⟨q, hq, rfl⟩ := List.mem_map.mp hmem
    exact ⟨q, hq, beq_self_eq_true _⟩

theorem knownCall_callOf (data : List UInt8) :
    Worker.knownCall json b.names data = (callOf json b data).map Prod.snd := by
  unfold Worker.knownCall callOf
  cases json.fromSlice data with
  | none => rfl
  | some r =>
    cases r with
    | call k =>
      cases hget : b.get k.objectName with
      | none =>
        have hnot : k.objectName ∉ b.names := fun hin => by
          rw [← get_isSome, hget] at hin
          cases hin
        simp only [if_neg hnot, hget, Option.map_none]
      | some obj =>
        have hin : k.objectName ∈ b.names := get_isSome.mp (by rw [hget]; rfl)
        simp only [if_pos hin, hget, Option.map_some]
    | _ => rfl

theorem RunsLoop.other {execs : List ((α × Call) × Value)} {ps : List (List UInt8)}
    {resps : List RpcResponse} {packets : List (List UInt8 × Value)}
    (h : RunsLoop json b execs ps resps packets) (hc : callOf json b data = none) :
    RunsLoop json b execs (data :: ps) resps ((data, .null) :: packets) := by
  have hknown : Worker.knownCall json b.names data = none := by
    rw [knownCall_callOf, hc]
    rfl
  obtain ⟨outs, hserved, hresps⟩ := h.loop
  refine ⟨congrArg _ h.read, ?_, [] :: outs, ?_, hresps⟩
  · rw [List.filterMap_cons, hknown]
    exact h.values
  · rw [Worker.served_cons (Worker.handle_other hknown), hserved]

theorem RunsLoop.call {execs : List ((α × Call) × Value)} {ps : List (List UInt8)}
    {resps : List RpcResponse} {packets : List (List UInt8 × Value)} {obj : α} {k : Call}
    {value : Value} (h : RunsLoop json b execs ps resps packets)
    (hc : callOf json b data = some (obj, k))
    (hs : ∀ resp, answer? json ((obj, k), value) = some resp → Worker.Sendable json resp) :
    RunsLoop json b (((obj, k), value) :: execs) (data :: ps)
      ((answer? json ((obj, k), value)).toList ++ resps) ((data, value) :: packets) := by
  have hknown : Worker.knownCall json b.names data = some k := by
    rw [knownCall_callOf, hc]
    rfl
  have hhandle : Worker.handle json b.names data value none =
      ((answer? json ((obj, k), value)).toList, .serving) := by
    cases hans : answer? json ((obj, k), value) with
    | none =>
      -- a result that cannot be serialised is dropped, and the loop goes on
      rw [Worker.handle_call hknown]
      simp only [answer?] at hans
      split at hans
      · cases hans
      · next he =>
        rw [he]
        rfl
    | some resp =>
      have hsend := hs resp hans
      simp only [answer?] at hans
      split at hans
      · cases hans
        exact Worker.handle_sendable hknown hsend
      · cases hans
  obtain ⟨outs, hserved, hresps⟩ := h.loop
  refine ⟨congrArg _ h.read, ?_, _ :: outs, ?_, congrArg _ hresps⟩
  · rw [List.filterMap_cons, hknown, List.map_cons, ← h.values]
    rfl
  · rw [Worker.served_cons hhandle, hserved]

theorem exists_runsLoop {execs : List ((α × Call) × Value)} {ps : List (List UInt8)}
    (h : execs.map Prod.fst = ps.filterMap (callOf json b))
    (hs : ∀ resp ∈ execs.filterMap (answer? json), Worker.Sendable json resp) :
    ∃ packets, RunsLoop json b execs ps (execs.filterMap (answer? json)) packets := by
  induction ps generalizing execs with
  | nil =>
    obtain rfl := List.map_eq_nil_iff.mp h
    exact ⟨[], rfl, rfl, [], rfl, rfl⟩
  | cons data ps ih =>
    cases hc : callOf json b data with
    | none =>
      rw [List.filterMap_cons_none hc] at h
      obtain ⟨packets, hloop⟩ := ih h hs
      exact ⟨_, hloop.other hc⟩
    | some q =>
      rw [List.filterMap_cons_some hc] at h
      cases execs with
      | nil => cases h
      | cons e execs =>
        obtain ⟨rfl, hrest⟩ := List.cons_eq_cons.mp h
        have hcons : (e :: execs).filterMap (answer? json) =
            (answer? json e).toList ++ execs.filterMap (answer? json) := by
          rw [List.filterMap_cons]
          cases answer? json e <;> rfl
        rw [hcons] at hs ⊢
        obtain ⟨packets, hloop⟩ := ih hrest fun resp hr => hs resp (List.mem_append_right _ hr)
        refine ⟨_, hloop.call hc fun resp hr => hs resp (List.mem_append_left _ ?_)⟩
        rw [hr]
        exact List.mem_singleton_self _

theorem Transition.sendable {resp : RpcResponse} (h : Transition json b s a s' es)
    (hmem : .answered resp ∈ es) : Worker.Sendable json resp := by
  cases h with
  | answered hp hdata hw =>
    simp only [List.mem_cons, Event.answered.injEq, reduceCtorEq, List.not_mem_nil, or_false] at hmem
    subst hmem
    unfold writePacket at hw
    split_ifs at hw with hlong
    exact ⟨_, hdata, Nat.le_of_not_lt hlong⟩
  | _ => simp at hmem

theorem answered_sendable {resp : RpcResponse} (h : (workerSupervisor json b).RunWhere ok w)
    (hmem : .answered resp ∈ w.trace) : Worker.Sendable json resp := by
  revert hmem
  refine h.invariant (I := fun w => .answered resp ∈ w.trace → Worker.Sendable json resp) ?_ ?_
  · intro _ _ hmem
    exact absurd hmem List.not_mem_nil
  · intro w a w' _ hI _ hn hmem
    obtain ⟨es, ht, htr⟩ := next_transition hn
    rw [htr] at hmem
    obtain hmem | hmem := List.mem_append.mp hmem
    · exact ht.sendable hmem
    · exact hI hmem

/-- Between two turns a connection stands where the request loop as a function stands after the
packets read: partial reads, signals and what came before the connection make no difference. -/
theorem session_runs_loop (h : (workerSupervisor json b).RunWhere ok w)
    (hp : w.state.phase = .selecting reading) :
    ∃ packets, RunsLoop json b (executed (session w.trace)) (returned (session w.trace))
      (answered (session w.trace)) packets := by
  have hI := run_session h
  have hcalls := hI.serves.calls
  simp only [hp, Phase.pending, List.append_nil] at hcalls
  have hall : answered (session w.trace) = due json (session w.trace) :=
    hI.serves.all (.inl (by rw [hp]; rfl))
  rw [hall]
  refine exists_runsLoop hcalls fun resp hr => ?_
  have hmem : resp ∈ answered (session w.trace) := hall ▸ hr
  obtain ⟨e, he, hans⟩ := List.mem_filterMap.mp (List.mem_reverse.mp hmem)
  unfold Event.answered? at hans
  split at hans
  · cases hans
    exact answered_sendable h (List.takeWhile_subset _ he)
  · cases hans

/-! A worker with one object that is called once, and then shut down. -/

def registerText : List UInt8 :=
  asciiBytes "\x7b\"RegisterObject\":\x7b\"object_name\":\"o\"\x7d\x7d"

def callText : List UInt8 := asciiBytes
  "\x7b\"Call\":\x7b\"call_id\":\"1\",\"object_name\":\"o\",\"method\":\"m\",\"args\":null\x7d\x7d"

def resultText : List UInt8 := asciiBytes
  "\x7b\"Result\":\x7b\"call_id\":\"1\",\"object_name\":\"o\",\"value\":null\x7d\x7d"

def callJson : WorkerJson where
  toVec
    | .request _ => .ok registerText
    | .response _ => .ok resultText
  fromSlice data := if data = callText then some (.call ⟨⟨"1"⟩, "o", "m", .null⟩) else none

def oneObject : WorkerBuilder Unit := (WorkerBuilder.new.add "o" ()).withGracefulShutdown

def callReturned : List Action :=
  [.connect ["o"], .register none, .arrive (frame callText |>.take 7), .poll,
    .arrive (frame callText |>.drop 7), .poll, .send, .callReturns .null none]

def callThenShutdown : List Action := callReturned ++ [.shutdown]

def Event.signalled : Event α → Bool
  | .exited none => true
  | _ => false

theorem exited_of_signalled (h : tr.any Event.signalled = true) : .exited none ∈ tr := by
  obtain ⟨e, hmem, hexit⟩ := List.any_eq_true.mp h
  unfold Event.signalled at hexit
  split at hexit
  · exact hmem
  · cases hexit

theorem sessions_served_callThenShutdown :
    ∃ w, (workerSupervisor callJson oneObject).exec (fun _ _ => True)
        ⟨WorkerSupervisor.initial, []⟩ callThenShutdown = some w ∧
      (answered (session w.trace)).length = 1 ∧ Event.exited none ∈ w.trace ∧
      Session callJson oneObject w.state (session w.trace) := by
  obtain ⟨w, hr, he, ht⟩ := System.RunWhere.of_exec_any (workerSupervisor callJson oneObject)
    (fun _ _ => True) callThenShutdown
    (fun w => (answered (session w.trace)).length = 1 && w.trace.any Event.signalled) rfl (by decide)
  rw [Bool.and_eq_true, decide_eq_true_eq] at ht
  exact ⟨w, he, ht.1, exited_of_signalled ht.2, sessions_served hr⟩

def Phase.isSelecting : Phase α → Bool
  | .selecting _ => true
  | _ => false

theorem selecting_of_test {p : Phase α} (h : p.isSelecting = true) :
    ∃ reading, p = .selecting reading := by
  cases p with
  | selecting reading => exact ⟨reading, rfl⟩
  | _ => cases h

theorem session_runs_loop_callReturned :
    ∃ w packets, (workerSupervisor callJson oneObject).exec (fun _ _ => True)
        ⟨WorkerSupervisor.initial, []⟩ callReturned = some w ∧
      (answered (session w.trace)).length = 1 ∧
      RunsLoop callJson oneObject (executed (session w.trace)) (returned (session w.trace))
        (answered (session w.trace)) packets := by
  obtain ⟨w, hr, he, ht⟩ := System.RunWhere.of_exec_any (workerSupervisor callJson oneObject)
    (fun _ _ => True) callReturned
    (fun w => (answered (session w.trace)).length = 1 && w.state.phase.isSelecting) rfl (by decide)
  rw [Bool.and_eq_true, decide_eq_true_eq] at ht
  obtain ⟨reading, hp⟩ := selecting_of_test ht.2
  obtain ⟨packets, hloop⟩ := session_runs_loop hr hp
  exact ⟨w, packets, he, ht.1, hloop⟩

end IpcBroker.WorkerSupervisor
