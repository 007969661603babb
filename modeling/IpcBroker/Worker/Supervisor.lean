import IpcBroker.Foundation.Simulation
import IpcBroker.Worker.RunWorker

/-! `worker_supervisor`: the connections of a worker one after the other, each with its registrations
and its request loop, in the steps that `select!` takes. -/

namespace IpcBroker
open Foundation

/-- The objects by their names, and the version of the shutdown channel that its receiver has seen:
the one that it was made with. -/
structure WorkerBuilder (α : Type) where
  objects : List (String × α)
  distinct : (objects.map Prod.fst).Nodup
  shutdownRx : Option Nat
  unseen : ∀ seen ∈ shutdownRx, seen = 0

namespace WorkerBuilder
variable {α : Type}

def new : WorkerBuilder α := ⟨[], List.nodup_nil, none,
  fun _ hseen => absurd hseen (Option.not_mem_none _)⟩

def names (b : WorkerBuilder α) : List String := b.objects.map Prod.fst

def get (b : WorkerBuilder α) (name : String) : Option α := b.objects.lookup name

def others (b : WorkerBuilder α) (name : String) : List (String × α) :=
  b.objects.filter fun q => q.1 ≠ name

theorem distinct_others (b : WorkerBuilder α) (name : String) (obj : α) :
    (((name, obj) :: b.others name).map Prod.fst).Nodup := by
  rw [List.map_cons, List.nodup_cons]
  refine ⟨fun hmem => ?_, b.distinct.sublist (List.filter_sublist.map _)⟩
  obtain ⟨q, hq, hname⟩ := List.mem_map.mp hmem
  exact absurd hname (of_decide_eq_true (List.mem_filter.mp hq).2)

/-- The object replaces the one that was added under the name before. -/
def add (b : WorkerBuilder α) (name : String) (obj : α) : WorkerBuilder α where
  objects := (name, obj) :: b.others name
  distinct := b.distinct_others name obj
  shutdownRx := b.shutdownRx
  unseen := b.unseen

theorem get_add (b : WorkerBuilder α) (name : String) (obj : α) :
    (b.add name obj).get name = some obj := by
  simp [get, add]

theorem lookup_cons_other {name name' : String} {obj : α} {objects : List (String × α)}
    (h : name' ≠ name) : ((name, obj) :: objects).lookup name' = objects.lookup name' := by
  rw [List.lookup_cons, beq_false_of_ne h]

theorem get_add_of_ne (b : WorkerBuilder α) {name name' : String} (obj : α) (h : name' ≠ name) :
    (b.add name obj).get name' = b.get name' := by
  have hothers : (b.others name).lookup name' = b.objects.lookup name' := by
    unfold others
    induction b.objects with
    | nil => rfl
    | cons q qs ih =>
      obtain ⟨n, o⟩ := q
      by_cases hn : n = name
      · subst hn
        rw [List.filter_cons_of_neg (by simp), ih, lookup_cons_other h]
      · rw [List.filter_cons_of_pos (by simpa using hn), List.lookup_cons, List.lookup_cons, ih]
  rw [get, add, lookup_cons_other h, hothers, get]

/-- A new channel, of which the receiver has seen the first value. -/
def withGracefulShutdown (b : WorkerBuilder α) : WorkerBuilder α :=
  { b with shutdownRx := some 0, unseen := fun _ hseen => (Option.some.inj hseen).symm }

end WorkerBuilder

namespace WorkerSupervisor

/-- Where the worker is: before its connection, at the registrations left, in `select!` with its read,
in the call of an object, in the `select!` of the supervisor after an error, or returned. `ready` is
whether the branch of the shutdown channel was ready when that `select!` began. -/
inductive Phase (α : Type)
  | connecting
  | registering (names : List String)
  | selecting (reading : ReadPacket)
  | calling (obj : α) (k : Call)
  | retrying (ready : Bool)
  | ended

/-- `connect` has the order in which the map gives its keys, and `refused` is an error of the
connection. `ctrlC` and `shutdown` are the branches of the two `select!`, `sleep` is the third one of
the supervisor. `send` and `dropSender` are for the other half of the shutdown channel. -/
inductive Action
  | connect (names : List String)
  | refused (error : IoError)
  | register (fault : Option String)
  | poll
  | callReturns (value : Value) (fault : Option String)
  | ctrlC
  | shutdown
  | sleep
  | send
  | dropSender
  | arrive (bytes : List UInt8)
  | hangUp (message : String)

/-- `exited` is for `run_worker`, with the error that it returns. -/
inductive Event (α : Type)
  | connected
  | registered (name : String)
  | incoming (bytes : List UInt8)
  | returned (data : List UInt8)
  | executed (obj : α) (k : Call) (value : Value)
  | answered (resp : RpcResponse)
  | exited (error : Option IoError)
  | stopped

end WorkerSupervisor

/-- `arrived` can be read from the connection, `hungUp` is what reads report after the last byte.
`version` counts the values sent on the shutdown channel. -/
structure WorkerSupervisor (α : Type) where
  phase : WorkerSupervisor.Phase α
  arrived : List UInt8
  hungUp : Option String
  version : Nat
  senderDropped : Bool

namespace WorkerSupervisor
variable {α : Type} (json : WorkerJson) (b : WorkerBuilder α) (s : WorkerSupervisor α)

def initial : WorkerSupervisor α := ⟨.connecting, [], none, 0, false⟩

def select : WorkerSupervisor α := { s with phase := .selecting .start }

/-- After the registration of the objects up to these names. -/
def registering (names : List String) : WorkerSupervisor α :=
  if names = [] then s.select else { s with phase := .registering names }

/-- `changed` on a clone of the receiver is ready: the receiver itself sees no later version. -/
def changed : Bool :=
  match b.shutdownRx with
  | some seen => s.version ≠ seen || s.senderDropped
  | none => false

/-- `run_worker` returns an error, which is logged. -/
def fail (e : IoError) : WorkerSupervisor α × List (Event α) :=
  ({ s with phase := .retrying (s.changed b) }, [.exited (some e)])

def Phase.isOpen : Phase α → Bool
  | .registering _ | .selecting _ | .calling _ _ => true
  | _ => false

/-- A signal ends the request loop with `Ok`, and the supervisor with it; or it ends the supervisor
while it waits. -/
def stop : Option (WorkerSupervisor α × List (Event α)) :=
  match s.phase with
  -- `Ok` of `run_worker` ends the loop of the supervisor too
  | .selecting _ => some ({ s with phase := .ended }, [.stopped, .exited none])
  | .retrying _ => some ({ s with phase := .ended }, [.stopped])
  | _ => none

def register (fault : Option String) : Option (WorkerSupervisor α × List (Event α)) :=
  match s.phase with
  | .registering (name :: names) =>
    match json.toVec (.request (.registerObject name)) with
    | .error e => some (s.fail b (.custom .invalidData e))
    | .ok data =>
      match writePacket data fault with
      | .error e => some (s.fail b e)
      | .ok _ => some (s.registering names, [.registered name])
  | _ => none

/-- Polls a read: when the connection has ended, it fails after the last byte. -/
def read (reading : ReadPacket) : ReadPoll :=
  match reading.poll s.arrived, s.hungUp with
  | .pending _, some message => .ready (.error (.transport message)) []
  | r, _ => r

/-- The object that a packet is a call of. -/
def callOf (data : List UInt8) : Option (α × Call) :=
  match json.fromSlice data with
  | some (.call k) => (b.get k.objectName).map fun obj => (obj, k)
  | _ => none

def poll : Option (WorkerSupervisor α × List (Event α)) :=
  match s.phase with
  | .selecting reading =>
    match s.read reading with
    | .pending reading' => some ({ s with phase := .selecting reading', arrived := [] }, [])
    | .ready (.error e) _ => some (s.fail b e)
    | .ready (.ok data) rest =>
      match callOf json b data with
      | some (obj, k) =>
        some ({ s with phase := .calling obj k, arrived := rest }, [.returned data])
      -- an unknown object, another request, a response or no JSON at all is logged
      | none => some ({ s with arrived := rest }.select, [.returned data])
  | _ => none

/-- The object returns, and its value is written; a value that cannot be serialised is dropped. -/
def callReturns (value : Value) (fault : Option String) :
    Option (WorkerSupervisor α × List (Event α)) :=
  match s.phase with
  | .calling obj k =>
    let resp := RpcResponse.result k.callId k.objectName value
    match json.toVec (.response resp) with
    | .error _ => some (s.select, [.executed obj k value])
    | .ok data =>
      match writePacket data fault with
      | .error e => some ((s.fail b e).1, (s.fail b e).2 ++ [.executed obj k value])
      | .ok _ => some (s.select, [.answered resp, .executed obj k value])
  | _ => none

def step : Action → Option (WorkerSupervisor α × List (Event α))
  | .connect names =>
    match s.phase with
    | .connecting =>
      -- each connection clones the map, whose keys come in any order
      if names.Perm b.names then
        some ({ s with arrived := [], hungUp := none }.registering names, [.connected])
      else none
    | _ => none
  | .refused e =>
    match s.phase with
    | .connecting => some (s.fail b e)
    | _ => none
  | .register fault => s.register json b fault
  | .poll => s.poll json b
  | .callReturns value fault => s.callReturns json b value fault
  | .ctrlC => s.stop
  | .shutdown => if s.changed b then s.stop else none
  | .sleep =>
    match s.phase with
    -- a branch that is ready at the first poll is taken before the timer can fire
    | .retrying false => some ({ s with phase := .connecting }, [])
    | _ => none
  | .send => if b.shutdownRx.isSome then some ({ s with version := s.version + 1 }, []) else none
  | .dropSender => if b.shutdownRx.isSome then some ({ s with senderDropped := true }, []) else none
  | .arrive bytes =>
    if s.phase.isOpen ∧ s.hungUp = none then
      some ({ s with arrived := s.arrived ++ bytes }, [.incoming bytes])
    else none
  | .hangUp message => if s.phase.isOpen then some ({ s with hungUp := some message }, []) else none

end WorkerSupervisor

/-- A worker from its spawn on, in any order of its steps and those around it. -/
def workerSupervisor {α : Type} (json : WorkerJson) (b : WorkerBuilder α) :
    System (WorkerSupervisor α) WorkerSupervisor.Action (WorkerSupervisor.Event α) where
  initial s := s = .initial
  step := WorkerSupervisor.step json b

namespace WorkerSupervisor
variable {α : Type}

inductive Transition (json : WorkerJson) (b : WorkerBuilder α) (s : WorkerSupervisor α) :
    Action → WorkerSupervisor α → List (Event α) → Prop
  | connect {names} : s.phase = .connecting → names.Perm b.names →
      Transition json b s (.connect names)
        ({ s with arrived := [], hungUp := none }.registering names) [.connected]
  | refused {e} : s.phase = .connecting →
      Transition json b s (.refused e) { s with phase := .retrying (s.changed b) } [.exited (some e)]
  | unregistered {name names fault e} : s.phase = .registering (name :: names) →
      (∀ data, json.toVec (.request (.registerObject name)) = .ok data →
        writePacket data fault = .error e) →
      Transition json b s (.register fault) { s with phase := .retrying (s.changed b) }
        [.exited (some e)]
  | registered {name names fault data bytes} : s.phase = .registering (name :: names) →
      json.toVec (.request (.registerObject name)) = .ok data →
      writePacket data fault = .ok bytes →
      Transition json b s (.register fault) (s.registering names) [.registered name]
  | pollPending {reading reading'} : s.phase = .selecting reading →
      s.read reading = .pending reading' →
      Transition json b s .poll { s with phase := .selecting reading', arrived := [] } []
  | pollFailed {reading e rest} : s.phase = .selecting reading →
      s.read reading = .ready (.error e) rest →
      Transition json b s .poll { s with phase := .retrying (s.changed b) } [.exited (some e)]
  | pollCall {reading data rest obj k} : s.phase = .selecting reading →
      s.read reading = .ready (.ok data) rest → callOf json b data = some (obj, k) →
      Transition json b s .poll { s with phase := .calling obj k, arrived := rest } [.returned data]
  | pollOther {reading data rest} : s.phase = .selecting reading →
      s.read reading = .ready (.ok data) rest → callOf json b data = none →
      Transition json b s .poll { s with phase := .selecting .start, arrived := rest }
        [.returned data]
  | unserialized {obj k value fault e} : s.phase = .calling obj k →
      json.toVec (.response (.result k.callId k.objectName value)) = .error e →
      Transition json b s (.callReturns value fault) s.select [.executed obj k value]
  | answered {obj k value fault data bytes} : s.phase = .calling obj k →
      json.toVec (.response (.result k.callId k.objectName value)) = .ok data →
      writePacket data fault = .ok bytes →
      Transition json b s (.callReturns value fault) s.select
        [.answered (.result k.callId k.objectName value), .executed obj k value]
  | unanswered {obj k value fault data e} : s.phase = .calling obj k →
      json.toVec (.response (.result k.callId k.objectName value)) = .ok data →
      writePacket data fault = .error e →
      Transition json b s (.callReturns value fault) { s with phase := .retrying (s.changed b) }
        [.exited (some e), .executed obj k value]
  | stopServing {a : Action} {reading} : s.phase = .selecting reading →
      (a = .ctrlC ∨ a = .shutdown ∧ s.changed b = true) →
      Transition json b s a { s with phase := .ended } [.stopped, .exited none]
  | stopRetrying {a : Action} {ready} : s.phase = .retrying ready →
      (a = .ctrlC ∨ a = .shutdown ∧ s.changed b = true) →
      Transition json b s a { s with phase := .ended } [.stopped]
  | sleep : s.phase = .retrying false → Transition json b s .sleep { s with phase := .connecting } []
  | send : b.shutdownRx.isSome = true →
      Transition json b s .send { s with version := s.version + 1 } []
  | dropSender : b.shutdownRx.isSome = true →
      Transition json b s .dropSender { s with senderDropped := true } []
  | arrive {bytes} : s.phase.isOpen = true → s.hungUp = none →
      Transition json b s (.arrive bytes) { s with arrived := s.arrived ++ bytes } [.incoming bytes]
  | hangUp {message} : s.phase.isOpen = true →
      Transition json b s (.hangUp message) { s with hungUp := some message } []

variable {json : WorkerJson} {b : WorkerBuilder α} {s s' : WorkerSupervisor α} {a : Action}
  {es : List (Event α)} {w w' : World (WorkerSupervisor α) (Event α)}

theorem stop_transition (h : s.stop = some (s', es))
    (ha : a = .ctrlC ∨ a = .shutdown ∧ s.changed b = true) : Transition json b s a s' es := by
  unfold stop at h
  split at h
  · next hp =>
    cases h
    exact .stopServing hp ha
  · next hp =>
    cases h
    exact .stopRetrying hp ha
  · cases h

theorem register_transition {fault : Option String} (h : s.register json b fault = some (s', es)) :
    Transition json b s (.register fault) s' es := by
  unfold register at h
  split at h
  · next hp =>
    split at h
    · next he =>
      cases h
      exact .unregistered hp fun data hdata => by cases he.symm.trans hdata
    · next data hdata =>
      split at h
      · next hw =>
        cases h
        refine .unregistered hp fun data' hdata' => ?_
        cases hdata.symm.trans hdata'
        exact hw
      · next hw =>
        cases h
        exact .registered hp hdata hw
  · cases h

theorem poll_transition (h : s.poll json b = some (s', es)) : Transition json b s .poll s' es := by
  unfold poll at h
  split at h
  · next hp =>
    split at h
    · next hr =>
      cases h
      exact .pollPending hp hr
    · next hr =>
      cases h
      exact .pollFailed hp hr
    · next hr =>
      split at h
      · next hc =>
        cases h
        exact .pollCall hp hr hc
      · next hc =>
        cases h
        exact .pollOther hp hr hc
  · cases h

theorem callReturns_transition {value : Value} {fault : Option String}
    (h : s.callReturns json b value fault = some (s', es)) :
    Transition json b s (.callReturns value fault) s' es := by
  unfold callReturns at h
  split at h
  · next hp =>
    simp only at h
    split at h
    · next he =>
      cases h
      exact .unserialized hp he
    · next hdata =>
      split at h
      · next hw =>
        cases h
        exact .unanswered hp hdata hw
      · next hw =>
        cases h
        exact .answered hp hdata hw
  · cases h

theorem step_transition (h : s.step json b a = some (s', es)) : Transition json b s a s' es := by
  cases a with
  | connect names =>
    simp only [step] at h
    split at h
    · next hp =>
      split_ifs at h with hn
      cases h
      exact .connect hp hn
    · cases h
  | refused e =>
    simp only [step] at h
    split at h
    · next hp =>
      cases h
      exact .refused hp
    · cases h
  | register fault => exact register_transition h
  | poll => exact poll_transition h
  | callReturns value fault => exact callReturns_transition h
  | ctrlC => exact stop_transition h (.inl rfl)
  | shutdown =>
    simp only [step] at h
    split_ifs at h with hchanged
    exact stop_transition h (.inr ⟨rfl, hchanged⟩)
  | sleep =>
    simp only [step] at h
    split at h
    · next hp =>
      cases h
      exact .sleep hp
    · cases h
  | send =>
    simp only [step] at h
    split_ifs at h with hrx
    cases h
    exact .send hrx
  | dropSender =>
    simp only [step] at h
    split_ifs at h with hrx
    cases h
    exact .dropSender hrx
  | arrive bytes =>
    simp only [step] at h
    split_ifs at h with hopen
    cases h
    exact .arrive hopen.1 hopen.2
  | hangUp message =>
    simp only [step] at h
    split_ifs at h with hopen
    cases h
    exact .hangUp hopen

theorem next_transition (h : (workerSupervisor json b).next w a = some w') :
    ∃ es, Transition json b w.state a w'.state es ∧ w'.trace = es ++ w.trace := by
  obtain ⟨es, hs, htr⟩ := System.next_eq_some.mp h
  exact ⟨es, step_transition hs, htr⟩

end WorkerSupervisor
end IpcBroker
