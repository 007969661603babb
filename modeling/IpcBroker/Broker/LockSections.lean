import IpcBroker.Broker.Lifecycle
import IpcBroker.Foundation.WaitGraph

/-! The sections of the broker with the mutexes they lock and unlock, one at a time, in any
interleaving of the tasks. -/

namespace IpcBroker
open Function Foundation

inductive Mutex
  | clients
  | objects
  | subscriptions
  | calls
  | services
deriving DecidableEq

/-- The order that all nested acquisitions respect; it is not the documented one, which has
`services` last. -/
def Mutex.level : Mutex → Nat
  | .services => 0
  | .clients => 1
  | .objects => 2
  | .subscriptions => 3
  | .calls => 4

instance : Preorder Mutex := Preorder.lift Mutex.level

theorem Mutex.level_le (m : Mutex) : m.level ≤ 4 := by cases m <;> decide

instance : WellFoundedGT Mutex where
  wf := by
    refine Subrelation.wf (fun {m m'} h => ?_) (measure fun m : Mutex => 4 - m.level).wf
    have hlt : m'.level < m.level := h
    have hle := m.level_le
    show 4 - m.level < 4 - m'.level
    omega

/-- The mutexes a section of a handler locks, in order; it drops the guards at its end, in the
opposite order, but for the guard of `services` while an unknown object is reported. -/
def HandlerPc.locks : HandlerPc → List Mutex
  | .registerObjects _ => [.objects]
  | .registerServices _ => [.services]
  | .registerService _ _ => [.services]
  | .callLookup _ => [.clients, .objects]
  | .callInsert _ _ _ _ => [.calls]
  | .callForward _ _ => []
  | .callServices _ => [.services]
  | .callStart _ _ => []
  | .responseTake _ _ => [.calls]
  | .responseForward _ _ => []
  | .subscribe _ _ => [.subscriptions]
  | .publishSnapshot _ _ _ => [.subscriptions]
  | .publishSenders _ _ => [.clients]
  | .publishSend _ _ => []
  | .hasObject _ => [.objects]
  | .sendLookup _ _ => [.clients]
  | .sendAwait _ _ _ => []

def CleanupPc.locks : CleanupPc → List Mutex
  | .objects => [.objects]
  | .subscriptions => [.subscriptions]
  | .calls => [.calls]
  | .activeCalls => [.calls]
  | .services _ => [.services]

/-- The mutexes the next section of a connection locks: `spawn_client` inserts it, its handlers
and its cleanup follow. -/
def Phase.locks : Phase → List Mutex
  | .absent => [.clients]
  | .reading => []
  | .handling pc => pc.locks
  | .stopping => [.clients]
  | .cleaning pc => pc.locks
  | .cleaned => []
  | .ended => []

/-- What runs concurrently: the task of each connection, and calls of `ListObjects`. -/
inductive Activity
  | connection (x : ClientId)
  | listObjects (n : Nat)
deriving DecidableEq

/-- The broker with its mutexes. An activity first drops the guards of the section behind it and
then takes those of the next one; `listing` is what a call of `ListObjects` returns. -/
structure LockedBroker where
  shared : Broker
  owner : Mutex → Option Activity
  drop : Activity → List Mutex
  todo : Activity → List Mutex
  listing : Nat → String → Bool

def LockedBroker.initial (items : List ServiceActivationFile) : LockedBroker where
  shared := Broker.initial items
  owner := fun _ => none
  drop := fun _ => []
  todo
    | .connection _ => Phase.locks .absent
    | .listObjects _ => [.objects]
  listing := fun _ _ => false

inductive LockAction
  | lock (i : Activity)
  | unlock (i : Activity)
  | run (a : Action)
  | list (n : Nat)

/-- The guard of `services` that the handler of `x` keeps across its sections. -/
def Broker.kept (s : Broker) (x : ClientId) : List Mutex :=
  if s.servicesLock = some x then [.services] else []

namespace LockedBroker
variable (s : LockedBroker)

def afterSection (x : ClientId) (b : Broker) : LockedBroker :=
  { s with
    shared := b
    drop := update s.drop (.connection x)
      (((s.shared.phase x).locks.reverse ++ s.shared.kept x).filter (· ∉ b.kept x))
    todo := update s.todo (.connection x) (b.phase x).locks }

def run (a : Action) : Option (LockedBroker × List Event) :=
  match a.mover with
  | some x =>
    if s.drop (.connection x) = [] ∧ s.todo (.connection x) = [] then
      (s.shared.step a).map fun r => (s.afterSection x r.1, r.2)
    else none
  | none => (s.shared.step a).map fun r => ({ s with shared := r.1 }, r.2)

/-- `ListObjects::call` for the method `listObjects`; after it the task can call again. -/
def listObjects (n : Nat) : LockedBroker :=
  { s with
    listing := update s.listing n fun o => (s.shared.objects o).isSome
    drop := update s.drop (.listObjects n) [.objects]
    todo := update s.todo (.listObjects n) [.objects] }

def step : LockAction → Option (LockedBroker × List Event)
  | .lock i =>
    match s.drop i, s.todo i with
    | [], m :: rest =>
      if s.owner m = none then
        some ({ s with owner := update s.owner m (some i), todo := update s.todo i rest }, [])
      else none
    | _, _ => none
  | .unlock i =>
    match s.drop i with
    | m :: rest =>
      some ({ s with owner := update s.owner m none, drop := update s.drop i rest }, [])
    | [] => none
  | .run a => s.run a
  | .list n =>
    if s.drop (.listObjects n) = [] ∧ s.todo (.listObjects n) = [] then
      some (s.listObjects n, [])
    else none

def table : LockTable Activity Mutex where
  owner := s.owner
  wants i :=
    match s.drop i with
    | [] => (s.todo i).head?
    | _ => none

end LockedBroker

/-- The broker with every interleaving of its lock acquisitions and releases. -/
def lockedBroker : System LockedBroker LockAction Event where
  initial s := ∃ items, s = LockedBroker.initial items
  step := LockedBroker.step

namespace Broker
variable {s s' : Broker} {a : Action} {es : List Event} {x y : ClientId}

/-! Who keeps the guard of `services`. -/

def replying : Phase → Bool
  | .handling (.sendLookup _ []) | .handling (.sendAwait _ _ []) => true
  | _ => false

def Keeps (s : Broker) : Prop := ∀ y, s.servicesLock = some y → replying (s.phase y) = true

theorem goto_servicesLock_cases (p : Phase) :
    (s.goto x p).servicesLock = s.servicesLock ∨
      p = .reading ∧ s.servicesLock = some x ∧ (s.goto x p).servicesLock = none := by
  cases p with
  | reading =>
    by_cases hx : s.servicesLock = some x
    · exact .inr ⟨rfl, hx, if_pos hx⟩
    · exact .inl (if_neg hx)
  | _ => exact .inl rfl

/-- How the guard of `services` passes over an await: it is kept by the section that finds an
object unknown, and dropped by the section with which that handler returns. -/
inductive GuardStep (s : Broker) (a : Action) (s' : Broker) : Prop
  | kept {z k} (ha : a = .handler z) (hz : s.phase z = .handling (.callServices k))
      (he : s.services k.objectName = none) (hl : s.servicesLock = none)
      (hl' : s'.servicesLock = some z) (hz' : replying (s'.phase z) = true) : GuardStep s a s'
  | dropped {z} (ha : a.mover = some z) (hl : s.servicesLock = some z)
      (hl' : s'.servicesLock = none) : GuardStep s a s'
  | same (hl : s'.servicesLock = s.servicesLock)
      (hp : ∀ y, s.servicesLock = some y → replying (s'.phase y) = true) : GuardStep s a s'

theorem GuardStep.keeps (h : GuardStep s a s') : Keeps s' := by
  intro y hy
  cases h with
  | kept ha hz he hl hl' hz' =>
    cases hl'.symm.trans hy
    exact hz'
  | dropped ha hl hl' => cases hl'.symm.trans hy
  | same hl hp => exact hp y (hl ▸ hy)

theorem replying_sendLookup {msg : Packet} {rest : List Packet}
    (h : replying (.handling (.sendLookup msg rest)) = true) : rest = [] := by
  cases rest with
  | nil => rfl
  | cons => cases h

theorem replying_sendAwait {tx : ClientSender} {msg : Packet} {rest : List Packet}
    (h : replying (.handling (.sendAwait tx msg rest)) = true) : rest = [] := by
  cases rest with
  | nil => rfl
  | cons => cases h

theorem GuardStep.goto {b : Broker} {p : Phase} (hK : Keeps s) (ha : a.mover = some x)
    (hl : b.servicesLock = s.servicesLock) (hb : b.phase = s.phase)
    (hp : s.servicesLock = some x → p ≠ .reading → replying p = true) :
    GuardStep s a (b.goto x p) := by
  obtain hsame | ⟨-, hx, hnone⟩ := goto_servicesLock_cases (s := b) (x := x) p
  · refine .same (hsame.trans hl) fun y hy => ?_
    by_cases hyx : y = x
    · subst hyx
      have hne : p ≠ .reading := by
        rintro rfl
        rw [goto_servicesLock, hl] at hsame
        simp only [hy, if_true] at hsame
        cases hsame
      simp only [goto_phase, update_self]
      exact hp hy hne
    · simp only [goto_phase, update_of_ne hyx, hb]
      exact hK y hy
  · exact .dropped ha (hl ▸ hx) hnone

theorem GuardStep.free {p q : Phase} (hK : Keeps s) (hx : s.phase x = q)
    (hq : replying q = false) (hl : s'.servicesLock = s.servicesLock)
    (hp : s'.phase = update s.phase x p) : GuardStep s a s' := by
  refine .same hl fun y hy => ?_
  have hyx : y ≠ x := by
    rintro rfl
    have hr := hK y hy
    rw [hx, hq] at hr
    cases hr
  rw [hp, update_of_ne hyx]
  exact hK y hy

theorem Transition.guardStep (h : Transition s a s' es) (hK : Keeps s) : GuardStep s a s' := by
  have hnot : ∀ {x q}, s.phase x = q → replying q = false → s.servicesLock ≠ some x := by
    intro x q hx hq hl
    have hr := hK x hl
    rw [hx, hq] at hr
    cases hr
  cases h with
  | receiveInvalid | receiveIdle | write | writeError | stopWriter | spawnEnd => exact .same rfl hK
  | connect hx | readError hx | cleanupClients hx | cleanupObjects hx | cleanupSubscriptions hx
  | cleanupCalls hx | cleanupActiveCalls hx | cleanupServices hx | finish hx =>
    exact .free hK hx rfl rfl rfl
  | callUnknown hx hl he =>
    exact .kept rfl hx he hl rfl (by simp only [goto_phase, update_self]; rfl)
  | @sendLookup x msg rest tx hx =>
    refine .goto hK rfl rfl rfl fun hl _ => ?_
    cases replying_sendLookup (hx ▸ hK x hl)
    rfl
  | @sendLookupGone x msg rest hx =>
    refine .goto hK rfl rfl rfl fun hl hne => ?_
    cases replying_sendLookup (hx ▸ hK x hl)
    exact absurd rfl hne
  | @send x pc site tx msg p hx hs | @sendFailed x pc site tx msg p hx hs =>
    refine .goto hK rfl rfl rfl fun hl hne => ?_
    obtain ⟨k, rfl, -, -, rfl⟩ | ⟨resp, rfl, -, -, rfl⟩ | ⟨event, rest, rfl, -, -, rfl⟩ |
      ⟨rest, rfl, -, rfl⟩ := HandlerPc.sends_cases hs
    · exact absurd hl (hnot hx rfl)
    · exact absurd hl (hnot hx rfl)
    · exact absurd hl (hnot hx rfl)
    · cases replying_sendAwait (hx ▸ hK x hl)
      exact absurd rfl hne
  | callStart hx | subscribe hx =>
    simp only [handleCall.start, handleSubscribe]
    exact .goto hK rfl rfl rfl fun hl => absurd hl (hnot hx rfl)
  | _ => exact .goto hK rfl rfl rfl fun hl => absurd hl (hnot ‹s.phase _ = _› rfl)

end Broker
end IpcBroker
