import IpcBroker.Broker.LockOrder

/-! The error for an unknown object is sent under the lock of `services`; when it fits into the
channel of the caller, no handler has to wait for room with that lock. -/

namespace IpcBroker
open Function Foundation

namespace LockedBroker

def hasRoom (s : Broker) (x : ClientId) : Bool := (s.channel x).length < channelCapacity

/-- The handler of `x` has locked `services` to find that the object of its call is unknown, and
has not yet sent the error. -/
def refusing (s : LockedBroker) (x : ClientId) : Bool :=
  s.owner .services = some (.connection x) && (s.shared.servicesLock = some x ||
    match s.shared.phase x with
    | .handling (.callServices k) => (s.shared.services k.objectName).isNone
    | _ => false)

/-- The error for an unknown object fits into the channel of the caller: there is room when the
handler locks `services`, and what others send to the caller in between leaves room for it. -/
def refusalFits (s : LockedBroker) : LockAction → Bool
  | .lock (.connection x) =>
    match s.todo (.connection x), s.shared.phase x with
    | .services :: _, .handling (.callServices k) =>
      (s.shared.services k.objectName).isSome || hasRoom s.shared x
    | _, _ => true
  | .run (.handler x) =>
    match s.shared.phase x with
    | .handling pc =>
      pc.sends.all fun sent => sent.2.1.channel = x || !s.refusing sent.2.1.channel ||
        (s.shared.channel sent.2.1.channel).length + 1 < channelCapacity
    | _ => true
  | _ => true

variable {s s' s₁ : LockedBroker} {i j : Activity} {m : Mutex} {x y z : ClientId} {es : List Event}
  {l : LockAction} {k : Call}

theorem refusing_iff : s.refusing x = true ↔ s.owner .services = some (.connection x) ∧
    (s.shared.servicesLock = some x ∨ ∃ k, s.shared.phase x = .handling (.callServices k) ∧
      s.shared.services k.objectName = none) := by
  unfold refusing
  rw [Bool.and_eq_true, Bool.or_eq_true, decide_eq_true_eq, decide_eq_true_eq]
  refine and_congr_right fun _ => or_congr_right ?_
  constructor
  · intro h
    split at h
    · next k hp => exact ⟨k, hp, Option.isNone_iff_eq_none.mp h⟩
    · cases h
  · rintro ⟨k, hp, hk⟩
    rw [hp]
    exact Option.isNone_iff_eq_none.mpr hk

structure Roomy (s : LockedBroker) : Prop where
  guarded : s.Guarded
  lifecycle : s.shared.Lifecycle
  room : ∀ x, s.refusing x = true → hasRoom s.shared x = true

theorem Holding.owner_section (h : s.Holding i) (hd : s.drop i = []) (ht : s.todo i = []) :
    s.owner m = some i ↔ m ∈ s.locks i ∨ m ∈ s.kept i := by
  rw [h.held, hd, ht]
  simp

theorem owner_services (h : s.Guarded) (hl : s.shared.servicesLock = some x) :
    s.owner .services = some (.connection x) := by
  refine ((h.holding (.connection x)).held .services).mpr (.inr (.inr ?_))
  simp only [kept, Broker.kept, if_pos hl]
  exact List.mem_singleton_self _

theorem services_locked {a : Action} {b : Broker} (hT : s.shared.Transition a b es)
    (hne : b.services ≠ s.shared.services) :
    ∃ y, a.mover = some y ∧ Mutex.services ∈ (s.shared.phase y).locks := by
  obtain ⟨o, ho⟩ := Function.ne_iff.mp hne
  obtain ⟨hsame, -⟩ | ⟨y, p, hstep, -⟩ := hT.services o
  · exact absurd hsame ho
  · refine ⟨y, ?_⟩
    generalize b.services o = v at hstep
    cases hstep with
    | registered hp | configured hp | stopped hp | starting hp | cleaned hp =>
      rw [hp]
      exact ⟨rfl, List.mem_singleton_self _⟩

/-! The room for refusals is kept by every step that meets the condition. -/

theorem mover_handling {a : Action} {s s' : Broker} {pc : HandlerPc} (hT : s.Transition a s' es)
    (hx : s.phase x = .handling pc) (ha : a.mover = some x) :
    a = .handler x ∨ ∃ o topic args, pc = .publishSnapshot o topic args := by
  cases hT with
  | receiveInvalid h | receiveIdle h | receive h | readError h | connect h | cleanupClients h
  | cleanupObjects h | cleanupSubscriptions h | cleanupCalls h | cleanupActiveCalls h
  | cleanupServices h | finish h =>
    cases ha
    cases hx.symm.trans h
  | snapshotNone h | snapshot h =>
    cases ha
    cases hx.symm.trans h
    exact .inr ⟨_, _, _, rfl⟩
  | write | writeError | stopWriter | spawnEnd => cases ha
  | _ =>
    cases ha
    exact .inl rfl

theorem callServices_moves {a : Action} {s s' : Broker} (hT : s.Transition a s' es)
    (hx : s.phase x = .handling (.callServices k)) (ha : a.mover = some x) :
    ∀ k', s'.phase x ≠ .handling (.callServices k') := by
  intro k' hx'
  obtain rfl | ⟨o, topic, args, hpc⟩ := mover_handling hT hx ha
  · cases hT.callServices hx with
    | stopped _ _ hp | starting _ _ hp | running _ _ hp | unknown _ hp => cases hp.symm.trans hx'
  · cases hpc

theorem refusing_before {a : Action} {b : Broker} (h : s.Guarded) (hT : s.shared.Transition a b es)
    (hfree : ∀ y, a.mover = some y → s.drop (.connection y) = [] ∧ s.todo (.connection y) = [])
    (ho : s.owner .services = some (.connection z))
    (hr : b.servicesLock = some z ∨ ∃ k, b.phase z = .handling (.callServices k) ∧
      b.services k.objectName = none) : s.refusing z = true := by
  refine refusing_iff.mpr ⟨ho, ?_⟩
  obtain hl | ⟨k, hz, hk⟩ := hr
  · cases hT.guardStep h.keeps with
    | kept ha hz he hl₀ hl' =>
      cases hl'.symm.trans hl
      exact .inr ⟨_, hz, he⟩
    | dropped ha hl₀ hl' => cases hl'.symm.trans hl
    | same hsame => exact .inl (hsame ▸ hl)
  · have hmoved : a.mover ≠ some z := by
      intro hmover
      obtain ⟨hd, ht⟩ := hfree z hmover
      obtain hold | ⟨workerId, workerTx, tx, hold, -⟩ := hT.entered_callServices hz
      · exact callServices_moves hT hold hmover k hz
      · -- the section before has no lock but that of `calls`
        obtain hm | hm := ((h.holding _).owner_section hd ht).mp ho
        · simp only [locks, hold, Phase.locks, HandlerPc.locks, List.mem_singleton] at hm
          cases hm
        · simp only [kept, Broker.kept] at hm
          split_ifs at hm with hl
          · have hrep := h.keeps z hl
            rw [hold] at hrep
            cases hrep
          · cases hm
    have hphase : b.phase z = s.shared.phase z := by
      by_contra hne
      exact hmoved (hT.mover hne)
    by_cases hsame : b.services = s.shared.services
    · exact .inr ⟨k, hphase ▸ hz, hsame ▸ hk⟩
    · obtain ⟨y, hy, hlock⟩ := services_locked hT hsame
      obtain ⟨hd, ht⟩ := hfree y hy
      have hown := ((h.holding (.connection y)).owner_section hd ht).mpr (.inl hlock)
      cases ho.symm.trans hown
      exact absurd hy hmoved

theorem sends_locks {pc : HandlerPc} {site : SendSite} {tx : ClientSender} {msg : Packet} {p : Phase}
    (h : pc.sends = some (site, tx, msg, p)) : pc.locks = [] := by
  obtain ⟨k, rfl, -, -, -⟩ | ⟨resp, rfl, -, -, -⟩ | ⟨event, rest, rfl, -, -, -⟩ |
    ⟨rest, rfl, -, -⟩ := HandlerPc.sends_cases h <;> rfl

theorem sends_last {b : Broker} {pc : HandlerPc} {site : SendSite} {tx : ClientSender} {msg : Packet}
    {p : Phase} (hr : Broker.replying (b.phase x) = true) (hx : b.phase x = .handling pc)
    (hs : pc.sends = some (site, tx, msg, p)) : pc = .sendAwait tx msg [] ∧ p = .reading := by
  rw [hx] at hr
  obtain ⟨k, rfl, -, -, -⟩ | ⟨resp, rfl, -, -, -⟩ | ⟨event, rest, rfl, -, -, -⟩ |
    ⟨rest, rfl, -, rfl⟩ := HandlerPc.sends_cases hs
  · cases hr
  · cases hr
  · cases hr
  · cases Broker.replying_sendAwait hr
    exact ⟨rfl, rfl⟩

theorem sends_not_callServices {pc : HandlerPc} {site : SendSite} {tx : ClientSender} {msg : Packet}
    {p : Phase} (hs : pc.sends = some (site, tx, msg, p)) (k : Call) :
    p ≠ .handling (.callServices k) := by
  rintro rfl
  have hcalm := Broker.calm_sends hs
  cases hcalm

theorem room_step (h : s.Roomy) (hfit : s.refusalFits l = true) (hs : Steps s l s' es)
    (hG : s'.Guarded) (z : ClientId) (hr : s'.refusing z = true) : hasRoom s'.shared z = true := by
  obtain ⟨ho, hor⟩ := refusing_iff.mp hr
  have hbroker : ∀ {a b}, l = .run a → s.shared.Transition a b es →
      s'.shared = b → (∀ m, s'.owner m = s.owner m) →
      (∀ y, a.mover = some y → s.drop (.connection y) = [] ∧ s.todo (.connection y) = []) →
      hasRoom s'.shared z = true := by
    rintro a b rfl hT rfl howner hfree
    have hbefore := refusing_before h.guarded hT hfree (howner _ ▸ ho) hor
    have hroom := of_decide_eq_true (h.room z hbefore)
    obtain hle | ⟨x, pc, site, tx, msg, p, rfl, hx, hsend, rfl, -, hp, hpush⟩ := hT.channel_length z
    · exact decide_eq_true (Nat.lt_of_le_of_lt hle hroom)
    · by_cases hxz : tx.channel = x
      · -- its own reply is the last thing a handler sends
        subst hxz
        obtain hl | ⟨k, hk, -⟩ := hor
        · have hrep := hG.keeps _ hl
          have hold : s.shared.servicesLock = some tx.channel := by
            cases hT.guardStep h.guarded.keeps with
            | kept ha hz he hl₀ hl' =>
              cases ha
              cases hx.symm.trans hz
              cases hsend
            | dropped ha hl₀ hl' => cases hl'.symm.trans hl
            | same hsame => exact hsame ▸ hl
          obtain ⟨-, hreading⟩ := sends_last (h.guarded.keeps _ hold) hx hsend
          rw [hp, hreading] at hrep
          cases hrep
        · exact absurd (hp ▸ hk) (sends_not_callServices hsend k)
      · simp only [refusalFits, hx, hsend, Option.all_some, hbefore, hxz, decide_false,
          Bool.not_true, Bool.false_or, decide_eq_true_eq] at hfit
        refine decide_eq_true ?_
        rw [hpush, List.length_append]
        exact hfit
  cases hs with
  | @lock i m rest hd ht hfree =>
    by_cases hold : s.owner .services = some (.connection z)
    · exact h.room z (refusing_iff.mpr ⟨hold, hor⟩)
    · -- the lock is that of `services`, and the condition has looked for room
      have hm : m = .services := by
        by_contra hne
        exact hold ((update_of_ne (Ne.symm hne) (some i) s.owner).symm.trans ho)
      subst hm
      have hi : some i = some (Activity.connection z) := (update_self Mutex.services (some i) s.owner).symm.trans ho
      cases hi
      obtain hl | ⟨k, hz, hk⟩ := hor
      · exact absurd (owner_services h.guarded hl) hold
      · have hz₀ : s.shared.phase z = .handling (.callServices k) := hz
        have hk₀ : s.shared.services k.objectName = none := hk
        simp only [refusalFits, ht, hz₀, hk₀, Option.isSome_none, Bool.false_or] at hfit
        exact hfit
  | @unlock i m rest hd =>
    have hold : s.owner .services = some (.connection z) := by
      by_cases hm : Mutex.services = m
      · rw [hm] at ho
        cases (update_self ..).symm.trans ho
      · exact (update_of_ne hm _ _).symm.trans ho
    exact h.room z (refusing_iff.mpr ⟨hold, hor⟩)
  | @section_ a x b es ha hb hd ht =>
    exact hbroker rfl (Broker.step_transition hb) rfl (fun _ => rfl) fun y hy => by
      cases ha.symm.trans hy
      exact ⟨hd, ht⟩
  | free ha hb =>
    exact hbroker rfl (Broker.step_transition hb) rfl (fun _ => rfl) fun y hy => by
      cases ha.symm.trans hy
  | list => exact h.room z (refusing_iff.mpr ⟨ho, hor⟩)

theorem Roomy.step (h : s.Roomy) (hfit : s.refusalFits l = true) (hs : s.step l = some (s', es)) :
    s'.Roomy := by
  have hsteps := steps_of_step hs
  have hG := h.guarded.next hsteps
  refine ⟨hG, ?_, room_step h hfit hsteps hG⟩
  cases hsteps with
  | lock | unlock | list => exact h.lifecycle
  | section_ ha hb | free ha hb => exact h.lifecycle.step (Broker.step_transition hb)

theorem roomy_initial (items : List ServiceActivationFile) : Roomy (LockedBroker.initial items) := by
  refine ⟨guarded_initial items, Broker.lifecycle_initial items, fun x hx => ?_⟩
  obtain ⟨ho, -⟩ := refusing_iff.mp hx
  cases ho

theorem roomy {w : World LockedBroker Event}
    (h : lockedBroker.RunWhere (fun w l => w.state.refusalFits l = true) w) : w.state.Roomy := by
  refine h.invariant (I := fun w => w.state.Roomy) ?_ ?_
  · rintro _ ⟨items, rfl⟩
    exact roomy_initial items
  · intro w l w' _ hI hfit hn
    obtain ⟨es, hs⟩ := System.next_state hn
    exact hI.step hfit hs

end LockedBroker
end IpcBroker
