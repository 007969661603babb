import Mathlib.Data.Prod.Lex
import IpcBroker.Broker.LockProgress

/-! A client that does not drain its channel stops only those that have to send to it, as long as
the errors for unknown objects fit. -/

namespace IpcBroker
open Function Foundation Relation

def HandlerPc.work : HandlerPc → Nat × Nat
  | .registerObjects _ => (3, 0)
  | .registerServices _ => (2, 0)
  | .registerService _ _ => (1, 0)
  | .callLookup _ => (5, 0)
  | .callInsert _ _ _ _ => (4, 0)
  | .callForward _ _ => (1, 0)
  | .callServices _ => (3, 0)
  | .callStart _ _ => (1, 0)
  | .responseTake _ _ => (2, 0)
  | .responseForward _ _ => (1, 0)
  | .subscribe _ _ => (2, 0)
  | .publishSnapshot _ _ _ => (3, 0)
  | .publishSenders _ _ => (2, 0)
  | .publishSend _ senders => (1, senders.length)
  | .hasObject _ => (2, 0)
  | .sendLookup _ rest => (1, 2 * rest.length + 2)
  | .sendAwait _ _ rest => (1, 2 * rest.length + 1)

def CleanupPc.work : CleanupPc → Nat
  | .objects => 5
  | .subscriptions => 4
  | .calls => 3
  | .activeCalls => 2
  | .services _ => 1

def Phase.work : Phase → Nat ×ₗ Nat
  | .handling pc => toLex pc.work
  | .stopping => toLex (6, 0)
  | .cleaning pc => toLex (pc.work, 0)
  | _ => toLex (0, 0)

def Phase.finished : Phase → Bool
  | .absent | .reading | .cleaned | .ended => true
  | _ => false

namespace Broker
variable {s s' : Broker} {a : Action} {es : List Event} {x y : ClientId}

theorem work_of_fst {p q : Phase} (h : (ofLex p.work).1 < (ofLex q.work).1) : p.work < q.work :=
  Prod.Lex.lt_iff.mpr (.inl h)

theorem work_afterSends (msgs : List Packet) : (ofLex (afterSends msgs).work).1 ≤ 1 := by
  cases msgs <;> exact Nat.le_of_ble_eq_true rfl

theorem work_next (event : RpcResponse) (senders : List ClientSender) :
    (ofLex (handlePublish.next event senders).work).1 ≤ 1 := by
  cases senders <;> exact Nat.le_of_ble_eq_true rfl

theorem work_sends {pc : HandlerPc} {site : SendSite} {tx : ClientSender} {msg : Packet} {p : Phase}
    (hs : pc.sends = some (site, tx, msg, p)) : p.work < (Phase.handling pc).work := by
  obtain ⟨k, rfl, -, -, rfl⟩ | ⟨resp, rfl, -, -, rfl⟩ | ⟨event, rest, rfl, -, -, rfl⟩ |
    ⟨rest, rfl, -, rfl⟩ := HandlerPc.sends_cases hs
  · exact work_of_fst Nat.zero_lt_one
  · exact work_of_fst Nat.zero_lt_one
  · cases rest with
    | nil => exact work_of_fst Nat.zero_lt_one
    | cons tx' rest => exact Prod.Lex.lt_iff.mpr (.inr ⟨rfl, Nat.lt_succ_self _⟩)
  · cases rest with
    | nil => exact work_of_fst Nat.zero_lt_one
    | cons msg' rest =>
      refine Prod.Lex.lt_iff.mpr (.inr ⟨rfl, ?_⟩)
      simp only [Phase.work, afterSends, HandlerPc.work, ofLex_toLex, List.length_cons]
      omega

theorem Transition.work (h : Transition s a s' es) (ha : a.section? = some y)
    (hy : s.phase y ≠ .absent) : (s'.phase y).work < (s.phase y).work := by
  have hupdate : ∀ {x p}, a.section? = some x → p.work < (s.phase x).work →
      (update s.phase x p y).work < (s.phase y).work := by
    intro x p hx hlt
    cases hx.symm.trans ha
    rw [update_self]
    exact hlt
  cases h with
  | receiveInvalid | receiveIdle | receive | readError | write | writeError | stopWriter | finish
  | spawnEnd => cases ha
  | connect hx =>
    cases ha
    exact absurd hx hy
  | send hx hs | sendFailed hx hs =>
    refine hupdate rfl ?_
    rw [hx]
    exact work_sends hs
  | registerServices hx =>
    refine hupdate rfl (work_of_fst ?_)
    rw [hx]
    exact Nat.lt_succ_of_le (work_afterSends _)
  | publishSenders hx =>
    refine hupdate rfl (work_of_fst ?_)
    rw [hx]
    exact Nat.lt_succ_of_le (work_next _ _)
  | @callInsert x k workerId workerTx tx hx =>
    refine hupdate rfl (work_of_fst ?_)
    rw [hx]
    obtain ⟨v, t, -, -, hroute⟩ | ⟨-, hroute⟩ := route_cases k workerId workerTx <;>
      · rw [hroute]
        exact Nat.le_of_ble_eq_true rfl
  | @sendLookup x msg rest tx hx =>
    refine hupdate rfl (Prod.Lex.lt_iff.mpr (.inr ?_))
    rw [hx]
    exact ⟨rfl, Nat.lt_succ_self _⟩
  | @sendLookupGone x msg rest hx =>
    refine hupdate rfl ?_
    rw [hx]
    cases rest with
    | nil => exact work_of_fst Nat.zero_lt_one
    | cons msg' rest =>
      refine Prod.Lex.lt_iff.mpr (.inr ⟨rfl, ?_⟩)
      simp only [Phase.work, afterSends, HandlerPc.work, ofLex_toLex, List.length_cons]
      omega
  | @publishDone x event hx =>
    refine hupdate rfl (work_of_fst ?_)
    rw [hx]
    exact Nat.zero_lt_one
  | _ =>
    refine hupdate rfl (work_of_fst ?_)
    rw [‹s.phase _ = _›]
    exact Nat.le_of_ble_eq_true rfl

def nextRecipient (s : Broker) (y : ClientId) : Option ClientId :=
  match s.phase y with
  | .handling (.callServices k) => if (s.services k.objectName).isNone then some y else none
  | .handling pc => pc.sends.map fun sent => sent.2.1.channel
  | _ => none

def OutOfRoom (s : Broker) (y z : ClientId) : Prop :=
  s.nextRecipient y = some z ∧ s.phase z ≠ .ended ∧ LockedBroker.hasRoom s z = false

theorem nextRecipient_sends {pc : HandlerPc} {site : SendSite} {tx : ClientSender} {msg : Packet}
    {p : Phase} (hx : s.phase x = .handling pc) (hs : pc.sends = some (site, tx, msg, p)) :
    s.nextRecipient x = some tx.channel := by
  cases pc with
  | callServices => cases hs
  | _ => simp [nextRecipient, hx, hs]

end Broker

namespace LockedBroker
variable {s s' : LockedBroker} {x y z : ClientId} {es : List Event}

def AwaitsRoom (s : LockedBroker) (x : ClientId) : Prop :=
  s.drop (.connection x) = [] ∧ ∃ pc site tx msg p, s.shared.phase x = .handling pc ∧
    pc.sends = some (site, tx, msg, p) ∧ s.shared.phase tx.channel ≠ .ended ∧
    hasRoom s.shared tx.channel = false

/-- Handlers and cleanups that are running take steps, and no writer loop does. -/
def Reaches : LockedBroker → LockedBroker → Prop :=
  ReflTransGen fun s s' => ∃ l es, works l = true ∧ s.step l = some (s', es)

/-- Nobody waits for room with a mutex; and while no writer loop takes a message, each handler and
cleanup can come to its end, or to a message of its own for which there is no room. -/
structure OnlySendersWait (s : LockedBroker) : Prop where
  unlocked : ∀ x, s.AwaitsRoom x → ∀ m, s.owner m ≠ some (.connection x)
  finishes : ∀ y, ∃ s', s.Reaches s' ∧
    ((s'.shared.phase y).finished = true ∨ ∃ z, s'.shared.OutOfRoom y z)

theorem Advances.reaches (h : Advances s s') : Reaches s s' :=
  h.lift id fun _ _ ⟨l, es, hw, _, hs⟩ => ⟨l, es, hw, hs⟩

theorem Roomy.unlocked (h : s.Roomy) (hx : s.AwaitsRoom x) (m : Mutex) :
    s.owner m ≠ some (.connection x) := by
  intro ho
  obtain ⟨hd, pc, site, tx, msg, p, hphase, hs, -, hroom⟩ := hx
  have hi := h.guarded.holding (.connection x)
  have hlocks : s.locks (.connection x) = [] := by
    simp only [locks, hphase, Phase.locks, sends_locks hs]
  obtain hm | ⟨hm, -⟩ | hm := (hi.held m).mp ho
  · rw [hd] at hm
    cases hm
  · rw [hlocks] at hm
    cases hm
  · have hl : s.shared.servicesLock = some x := by
      by_contra hne
      exact not_kept hne hm
    obtain ⟨rfl, -⟩ := sends_last (h.guarded.keeps x hl) hphase hs
    have htx := h.lifecycle.ownTx x tx msg [] hphase
    have hown := h.room x (refusing_iff.mpr ⟨owner_services h.guarded hl, .inl hl⟩)
    rw [htx, hown] at hroom
    cases hroom

def forwarding : Phase → Bool
  | .reading | .handling (.callForward _ _) | .handling (.responseForward _ _)
  | .handling (.publishSend _ _) => true
  | _ => false

theorem forwarding_locks {p : Phase} (h : forwarding p = true) : p.locks = [] := by
  unfold forwarding at h
  split at h <;> first | rfl | cases h

theorem Reaches.guarded (h : Reaches s s') (hG : s.Guarded) : s'.Guarded := by
  induction h with
  | refl => exact hG
  | tail _ hstep ih =>
    obtain ⟨l, es, -, hs⟩ := hstep
    exact ih.next (steps_of_step hs)

/-- The handler or cleanup of `y` can come to its end, or to a message without room. -/
def CanFinish (s : LockedBroker) (y : ClientId) : Prop :=
  ∃ s', s.Reaches s' ∧ ((s'.shared.phase y).finished = true ∨ ∃ z, s'.shared.OutOfRoom y z)

theorem CanFinish.of_reaches (h : Reaches s s') (hf : s'.CanFinish y) : s.CanFinish y := by
  obtain ⟨s'', hreach, hend⟩ := hf
  exact ⟨s'', h.trans hreach, hend⟩

theorem todo_nil (h : s.Guarded) (hl : s.locks (.connection y) = []) : s.todo (.connection y) = [] :=
  List.suffix_nil.mp (hl ▸ (h.holding (.connection y)).todo)

theorem canFinish_send (hd : s.drop (.connection y) = []) (ht : s.todo (.connection y) = [])
    {pc : HandlerPc} {site : SendSite} {tx : ClientSender} {msg : Packet} {p : Phase}
    (hy : s.shared.phase y = .handling pc) (hs : pc.sends = some (site, tx, msg, p))
    (hnext : ∀ b es, s.shared.step (.handler y) = some (b, es) → b.phase y = p →
      (b.phase y).work < (s.shared.phase y).work → (s.afterSection y b).CanFinish y) :
    s.CanFinish y := by
  by_cases hroom : s.shared.phase tx.channel = .ended ∨
      (s.shared.channel tx.channel).length < channelCapacity
  · obtain ⟨b, es, hb, hp, -⟩ := Broker.send_enabled hy hs hroom
    have hT := Broker.step_transition hb
    have hstep := step_section (a := .handler y) rfl hd ht hb
    refine .of_reaches (ReflTransGen.single ⟨_, es, rfl, hstep⟩) (hnext b es hb hp ?_)
    have hpresent : s.shared.phase y ≠ .absent := by
      intro habs
      cases hy.symm.trans habs
    exact hT.work rfl hpresent
  · rw [not_or] at hroom
    exact ⟨s, .refl, .inr ⟨_, Broker.nextRecipient_sends hy hs, hroom.1, decide_eq_false hroom.2⟩⟩

theorem canFinish_forwarding (hG : s.Guarded) (hf : forwarding (s.shared.phase y) = true) :
    s.CanFinish y := by
  induction hw : (s.shared.phase y).work using WellFoundedLT.induction generalizing s with
  | ind w ih =>
    obtain ⟨s₁, hadv, hd, -, hsh, -⟩ := drop_all hG (.connection y)
    have hG₁ := hadv.reaches.guarded hG
    have ht := todo_nil (y := y) hG₁ (by simp only [locks, hsh]; exact forwarding_locks hf)
    refine .of_reaches hadv.reaches ?_
    have hstep : ∀ {pc site tx msg p}, s₁.shared.phase y = .handling pc →
        pc.sends = some (site, tx, msg, p) → forwarding p = true → s₁.CanFinish y := by
      intro pc site tx msg p hy hs hp
      refine canFinish_send hd ht hy hs fun b es hb hbp hlt => ?_
      have hnext := step_section (a := .handler y) rfl hd ht hb
      refine ih _ ?_ (hG₁.next (steps_of_step hnext)) ?_ rfl
      · rw [← hw, ← hsh]
        exact hlt
      · show forwarding (b.phase y) = true
        rw [hbp]
        exact hp
    rw [← hsh] at hf
    unfold forwarding at hf
    split at hf
    · next hy => exact ⟨s₁, .refl, .inl (by rw [hy]; rfl)⟩
    · next k tx hy => exact hstep hy rfl rfl
    · next resp tx hy => exact hstep hy rfl rfl
    · next event senders hy =>
      cases senders with
      | nil =>
        have hb : s₁.shared.step (.handler y) = some (s₁.shared.leave y, []) := by
          simp only [Broker.step, hy]
          rfl
        have hnext := step_section (a := .handler y) rfl hd ht hb
        refine ⟨_, ReflTransGen.single ⟨_, _, rfl, hnext⟩, .inl ?_⟩
        show Phase.finished ((s₁.shared.leave y).phase y) = true
        simp only [Broker.goto_phase, update_self]
        rfl
      | cons tx rest =>
        refine hstep hy rfl ?_
        cases rest <;> rfl
    · cases hf

theorem take_services (h : s.Roomy) (hd : s.drop (.connection y) = [])
    (ht : s.todo (.connection y) = [.services]) :
    (∃ s', Advances s s' ∧ s'.drop (.connection y) = [] ∧ s'.todo (.connection y) = [] ∧
      s'.shared.phase y = s.shared.phase y) ∨ s.CanFinish y := by
  obtain ⟨s₁, hadv, hnone, hstay⟩ := freeable .services s h
  have hy := hstay _ (h.guarded.not_above hd ht)
  have hstep := step_lock (hy.drop.trans hd) (hy.todo.trans ht) hnone
  by_cases hfit : s₁.refusalFits (.lock (.connection y)) = true
  · exact .inl ⟨_, hadv.trans (Advances.single rfl hfit hstep), hy.drop.trans hd, update_self ..,
      hy.phase y rfl⟩
  · refine .inr ⟨s₁, hadv.reaches, .inr ⟨y, ?_⟩⟩
    simp only [refusalFits, hy.todo.trans ht] at hfit
    split at hfit
    · next k _ hphase =>
      rw [Bool.or_eq_true, not_or, Bool.not_eq_true, Bool.not_eq_true] at hfit
      obtain ⟨hk, hroom⟩ := hfit
      rw [Option.isSome_eq_false_iff] at hk
      refine ⟨?_, ?_, hroom⟩
      · simp only [Broker.nextRecipient, hphase, hk, if_true]
      · intro hended
        cases hphase.symm.trans hended
    · exact absurd rfl hfit

theorem todo_services {p : Phase} {todo : List Mutex} (h : todo <:+ p.locks)
    (hm : .services ∈ todo) : todo = [.services] := by
  obtain hl | ⟨m, hl⟩ | hl := locks_cases p
  · rw [hl, List.suffix_nil] at h
    rw [h] at hm
    cases hm
  · rw [hl] at h
    cases List.mem_singleton.mp (h.subset hm)
    refine h.eq_of_length (Nat.le_antisymm h.length_le ?_)
    exact List.length_pos_of_mem hm
  · rw [hl] at h
    have hin := h.subset hm
    simp at hin

theorem canFinish_section (h : s.Roomy) {a : Action} {b : Broker} (hsec : a.section? = some y)
    (hfit : s.refusalFits (.run a) = true) (hd : s.drop (.connection y) = [])
    (ht : s.todo (.connection y) = []) (hb : s.shared.step a = some (b, es))
    (hy : s.shared.phase y ≠ .absent)
    (hnext : ∀ s' : LockedBroker, s'.Roomy →
      (s'.shared.phase y).work < (s.shared.phase y).work → s'.CanFinish y) : s.CanFinish y := by
  obtain ⟨hadv, hR, -⟩ := section_advances h hsec hfit hd ht hb
  exact .of_reaches hadv.reaches (hnext _ hR ((Broker.step_transition hb).work hsec hy))

theorem canFinish (h : s.Roomy) (y : ClientId) : s.CanFinish y := by
  induction hw : (s.shared.phase y).work using WellFoundedLT.induction generalizing s with
  | ind w ih =>
    by_cases hfin : (s.shared.phase y).finished = true
    · exact ⟨s, .refl, .inl hfin⟩
    by_cases hf : forwarding (s.shared.phase y) = true
    · exact canFinish_forwarding h.guarded hf
    have hnext : ∀ s' : LockedBroker, s'.Roomy →
        (s'.shared.phase y).work < (s.shared.phase y).work → s'.CanFinish y :=
      fun s' hR hlt => ih _ (hw ▸ hlt) hR rfl
    obtain ⟨s₁, hadv₁, hd₁, -, hsh, -⟩ := drop_all h.guarded (.connection y)
    have hR₁ := hadv₁.roomy h
    refine .of_reaches hadv₁.reaches ?_
    rw [← hsh] at hfin hf hnext
    -- the locks of the next section
    have htaken : (∃ s₂, Advances s₁ s₂ ∧ s₂.drop (.connection y) = [] ∧
        s₂.todo (.connection y) = [] ∧ s₂.shared.phase y = s₁.shared.phase y) ∨
        s₁.CanFinish y := by
      by_cases hserv : .services ∈ s₁.todo (.connection y)
      · exact take_services hR₁ hd₁
          (todo_services (hR₁.guarded.holding (.connection y)).todo hserv)
      · obtain ⟨s₂, hadv₂, hd₂, ht₂, hphase, -⟩ := take_all hR₁ hd₁ hserv fun m _ => freeable m
        exact .inl ⟨s₂, hadv₂, hd₂, ht₂, hphase y rfl⟩
    obtain ⟨s₂, hadv₂, hd₂, ht₂, hphase⟩ | hdone := htaken
    · have hR₂ := hadv₂.roomy hR₁
      refine .of_reaches hadv₂.reaches ?_
      rw [← hphase] at hfin hf hnext
      have hlocked : (∃ m, m ∈ (s₂.shared.phase y).locks) → s₂.shared.phase y ≠ .absent →
          s₂.CanFinish y := by
        rintro ⟨m, hm⟩ hne
        obtain ⟨s₃, a, b, es, hadv₃, hj₃, hsec, hfit, hb⟩ := locked_section_runs hR₂ hd₂ ht₂ hm
        have hphase₃ := (hj₃ (.connection y)).phase y rfl
        refine .of_reaches hadv₃.reaches (canFinish_section (hadv₃.roomy hR₂) hsec hfit
          ((hj₃ _).drop.trans hd₂) ((hj₃ _).todo.trans ht₂) hb (by rw [hphase₃]; exact hne) ?_)
        rw [hphase₃]
        exact hnext
      cases hy : s₂.shared.phase y with
      | absent | reading | cleaned | ended => exact absurd (by rw [hy]; rfl) hfin
      | stopping => exact hlocked ⟨_, by rw [hy]; exact List.mem_cons_self⟩ (by rw [hy]; nofun)
      | cleaning pc =>
        refine hlocked ?_ (by rw [hy]; nofun)
        rw [hy]
        cases pc <;> exact ⟨_, List.mem_cons_self⟩
      | handling pc =>
        cases hs : pc.sends with
        | none =>
          obtain ⟨a, b, es, hsec, hfit, hb⟩ := section_runs hR₂.guarded hy hd₂ ht₂ hs
          exact canFinish_section hR₂ hsec hfit hd₂ ht₂ hb (by rw [hy]; nofun) hnext
        | some sent =>
          obtain ⟨site, tx, msg, p⟩ := sent
          refine canFinish_send hd₂ ht₂ hy hs fun b es hb _ hlt => hnext _ ?_ hlt
          -- what is not sent on to others goes to the handler's own client
          have htx : tx.channel = y := by
            obtain ⟨k, rfl, -⟩ | ⟨resp, rfl, -⟩ | ⟨event, rest, rfl, -⟩ | ⟨rest, rfl, -⟩ :=
              HandlerPc.sends_cases hs
            · exact absurd (by rw [hy]; rfl) hf
            · exact absurd (by rw [hy]; rfl) hf
            · exact absurd (by rw [hy]; rfl) hf
            · rw [hR₂.lifecycle.ownTx y tx msg rest hy]
          have hfit : s₂.refusalFits (.run (.handler y)) = true := by
            simp only [refusalFits, hy, hs, Option.all_some, htx, decide_true, Bool.true_or]
          exact (section_advances hR₂ (a := .handler y) rfl hfit hd₂ ht₂ hb).2.1
    · exact hdone

/-- In a run whose errors for unknown objects fit, a full channel stops nobody who does not have to
put a message on it. -/
theorem stalled_stops_senders_only {w : World LockedBroker Event}
    (h : lockedBroker.RunWhere (fun w l => w.state.refusalFits l = true) w) :
    OnlySendersWait w.state :=
  ⟨fun _ hx m => (roomy h).unlocked hx m, canFinish (roomy h)⟩

/-- One call is being refused, and a registration waits for `services` meanwhile. -/
def refusedMeanwhile (x y : ClientId) : List LockAction :=
  [.run (.receive x (some (.request (.call (Broker.callOf "1" "o"))))),
    .lock (.connection x), .lock (.connection x), .run (.handler x),
    .unlock (.connection x), .unlock (.connection x),
    .lock (.connection x), .run (.handler x), .unlock (.connection x),
    .lock (.connection x), .run (.handler x),
    .lock (.connection x), .run (.handler x), .unlock (.connection x),
    .run (.receive y (some (.request (.registerObject "o")))),
    .lock (.connection y), .run (.handler y)]

theorem stalled_stops_senders_only_refused :
    ∃ w, lockedBroker.exec (fun w l => w.state.refusalFits l = true) ⟨LockedBroker.initial [], []⟩
        (spawn Broker.callerC ++ spawn Broker.workerA ++
          refusedMeanwhile Broker.callerC Broker.workerA) = some w ∧
      w.state.owner .services = some (.connection Broker.callerC) ∧
      w.state.todo (.connection Broker.workerA) = [.services] ∧ OnlySendersWait w.state := by
  obtain ⟨w, hr, he, ht⟩ := System.RunWhere.of_exec_any lockedBroker
    (fun w l => w.state.refusalFits l = true) (spawn Broker.callerC ++ spawn Broker.workerA ++
      refusedMeanwhile Broker.callerC Broker.workerA)
    (fun w => w.state.owner .services = some (.connection Broker.callerC) &&
      w.state.todo (.connection Broker.workerA) = [.services]) ⟨[], rfl⟩ (by decide)
  rw [Bool.and_eq_true, decide_eq_true_eq, decide_eq_true_eq] at ht
  exact ⟨w, he, ht.1, ht.2, stalled_stops_senders_only hr⟩

/-! The error for an unknown object need not fit: then it stops others too. -/

/-- Any steps, as long as the writer loop of `x` takes no message. -/
def ReachesUndrained (x : ClientId) : LockedBroker → LockedBroker → Prop :=
  ReflTransGen fun s s' => ∃ l es, l ≠ .run (.write x) ∧ l ≠ .run (.writeError x) ∧
    s.step l = some (s', es)

structure Placed (s : LockedBroker) (x y : ClientId) (n : Nat) (p : Phase)
    (lock : Option ClientId) : Prop where
  owner : ∀ m, m ≠ .services ∨ lock = none → s.owner m = none
  drop : ∀ i, s.drop i = []
  todo : s.todo (.connection x) = p.locks ∧ s.todo (.connection y) = []
  phase : s.shared.phase x = p ∧ s.shared.phase y = .reading
  clients : s.shared.clients x = some ⟨x⟩
  channel : (s.shared.channel x).length = n
  objects : s.shared.objects "o" = none
  services : s.shared.services "o" = none
  servicesLock : s.shared.servicesLock = lock

theorem placed_start (hxy : y ≠ x) :
    ∃ w, lockedBroker.exec (fun _ _ => True) ⟨LockedBroker.initial [], []⟩ (spawn x ++ spawn y) =
      some w ∧ Placed w.state x y 0 .reading none := by
  simp [spawn, System.exec, System.next, lockedBroker, step, run, Action.mover, afterSection,
    LockedBroker.initial, Phase.locks, Broker.step, Broker.initial, Broker.spawnClient, Broker.kept,
    hxy]
  refine ⟨?_, ?_, ?_, ?_, ?_, ?_, ?_, ?_, ?_⟩ <;>
    simp [Ne.symm hxy, Phase.locks, loadServiceActivations]

def lockOnce (x : ClientId) : List LockAction :=
  [.lock (.connection x), .run (.handler x), .unlock (.connection x)]

def query (x : ClientId) : List LockAction :=
  [.run (.receive x (some (.request (.hasObject "o"))))] ++ lockOnce x ++ lockOnce x ++
    [.run (.handler x)]

theorem placed_query {n : Nat} (tr : List Event) (h : Placed s x y n .reading none) (hxy : y ≠ x)
    (hn : n < channelCapacity) :
    ∃ w, lockedBroker.exec (fun _ _ => True) ⟨s, tr⟩ (query x) = some w ∧
      Placed w.state x y (n + 1) .reading none := by
  have hlen : (s.shared.channel x).length < channelCapacity := h.channel.symm ▸ hn
  have howner : ∀ m, s.owner m = none := fun m => h.owner m (.inr rfl)
  simp [query, lockOnce, System.exec, System.next, lockedBroker, step, run, Action.mover, h.drop,
    h.todo, afterSection, Broker.step, h.phase, Broker.readerLoop, Broker.dispatch,
    Broker.handleRequest, Phase.locks, HandlerPc.locks, Broker.kept, h.servicesLock, howner,
    Broker.runSection, Broker.handleHasObject, Broker.afterSends, Broker.sendToClient, h.clients,
    Broker.sendToClient.send, Broker.send, hlen]
  refine ⟨?_, ?_, ?_, ?_, ?_, ?_, ?_, ?_, ?_⟩ <;>
    simp [update_apply, howner, h.drop, h.todo, h.phase, h.clients, h.channel, h.objects, h.services,
      h.servicesLock, hxy, Phase.locks, Broker.afterSends]

theorem placed_full (hxy : y ≠ x) {n : Nat} (hn : n ≤ channelCapacity) :
    ∃ w, lockedBroker.Run w ∧ Placed w.state x y n .reading none := by
  induction n with
  | zero =>
    obtain ⟨w, he, h⟩ := placed_start hxy
    have hstart : lockedBroker.Run ⟨LockedBroker.initial [], []⟩ := .start ⟨[], rfl⟩
    exact ⟨w, hstart.of_exec he, h⟩
  | succ n ih =>
    obtain ⟨w, hr, h⟩ := ih (Nat.le_of_succ_le hn)
    obtain ⟨w', he, h'⟩ := placed_query w.trace h hxy hn
    exact ⟨w', hr.of_exec he, h'⟩

def unknownCall : Call := Broker.callOf "1" "o"

def unknownError : Packet :=
  .response (.error (some unknownCall.callId) unknownCall.objectName
    ("No such object '" ++ unknownCall.objectName ++ "'"))

theorem placed_lookup {n : Nat} (tr : List Event) (h : Placed s x y n .reading none)
    (hxy : y ≠ x) : ∃ w, lockedBroker.exec (fun _ _ => True) ⟨s, tr⟩
      ([.run (.receive x (some (.request (.call unknownCall)))), .lock (.connection x)] ++
        lockOnce x ++ [.unlock (.connection x)]) = some w ∧
      Placed w.state x y n (.handling (.callInsert unknownCall none none ⟨x⟩)) none := by
  have howner : ∀ m, s.owner m = none := fun m => h.owner m (.inr rfl)
  simp [lockOnce, System.exec, System.next, lockedBroker, step, run, Action.mover, h.drop, h.todo,
    afterSection, Broker.step, h.phase, Broker.readerLoop, Broker.dispatch, Broker.handleRequest,
    Phase.locks, HandlerPc.locks, Broker.kept, h.servicesLock, howner, Broker.runSection,
    Broker.handleCall, h.clients, h.objects, unknownCall, Broker.callOf]
  refine ⟨?_, ?_, ?_, ?_, ?_, ?_, ?_, ?_, ?_⟩ <;>
    simp +contextual [update_apply, howner, h.drop, h.todo, h.phase, h.clients, h.channel, h.objects,
      h.services, h.servicesLock, hxy, Phase.locks, HandlerPc.locks]

theorem placed_insert {n : Nat} (tr : List Event)
    (h : Placed s x y n (.handling (.callInsert unknownCall none none ⟨x⟩)) none) (hxy : y ≠ x) :
    ∃ w, lockedBroker.exec (fun _ _ => True) ⟨s, tr⟩ (lockOnce x) = some w ∧
      Placed w.state x y n (.handling (.callServices unknownCall)) none := by
  have howner : ∀ m, s.owner m = none := fun m => h.owner m (.inr rfl)
  simp [lockOnce, System.exec, System.next, lockedBroker, step, run, Action.mover, h.drop, h.todo,
    afterSection, Broker.step, h.phase, Phase.locks, HandlerPc.locks, Broker.kept, h.servicesLock,
    howner, Broker.runSection, Broker.handleCall.insert, Broker.handleCall.route]
  refine ⟨?_, ?_, ?_, ?_, ?_, ?_, ?_, ?_, ?_⟩ <;>
    simp [update_apply, howner, h.drop, h.todo, h.phase, h.clients, h.channel, h.objects, h.services,
      hxy, Phase.locks, HandlerPc.locks]

theorem placed_refuse {n : Nat} (tr : List Event)
    (h : Placed s x y n (.handling (.callServices unknownCall)) none) (hxy : y ≠ x) :
    ∃ w, lockedBroker.exec (fun _ _ => True) ⟨s, tr⟩
        [.lock (.connection x), .run (.handler x)] = some w ∧
      Placed w.state x y n (.handling (.sendLookup unknownError [])) (some x) := by
  have howner : ∀ m, s.owner m = none := fun m => h.owner m (.inr rfl)
  have hservices : s.shared.services unknownCall.objectName = none := h.services
  simp [System.exec, System.next, lockedBroker, step, run, Action.mover, h.drop, h.todo,
    afterSection, Broker.step, h.phase, Phase.locks, HandlerPc.locks, Broker.kept, h.servicesLock,
    howner, Broker.runSection, Broker.handleCall.services, hservices, Broker.afterSends, unknownError]
  refine ⟨?_, ?_, ?_, ?_, ?_, ?_, ?_, ?_, ?_⟩ <;>
    simp +contextual [update_apply, howner, h.drop, h.todo, h.phase, h.clients, h.channel, h.objects,
      h.services, hxy, Phase.locks, HandlerPc.locks, Broker.afterSends]

theorem placed_reply {n : Nat} (tr : List Event)
    (h : Placed s x y n (.handling (.sendLookup unknownError [])) (some x)) (hxy : y ≠ x) :
    ∃ w, lockedBroker.exec (fun _ _ => True) ⟨s, tr⟩ (lockOnce x) = some w ∧
      Placed w.state x y n (.handling (.sendAwait ⟨x⟩ unknownError [])) (some x) := by
  have howner : ∀ m, m ≠ .services → s.owner m = none := fun m hm => h.owner m (.inl hm)
  simp [lockOnce, System.exec, System.next, lockedBroker, step, run, Action.mover, h.drop, h.todo,
    afterSection, Broker.step, h.phase, Phase.locks, HandlerPc.locks, Broker.kept, h.servicesLock,
    howner, Broker.runSection, Broker.sendToClient, h.clients]
  refine ⟨?_, ?_, ?_, ?_, ?_, ?_, ?_, ?_, ?_⟩ <;>
    simp +contextual [update_apply, howner, h.drop, h.todo, h.phase, h.clients, h.channel, h.objects,
      h.services, h.servicesLock, hxy, Phase.locks, HandlerPc.locks]

structure Wedged (s : LockedBroker) (x y : ClientId) : Prop where
  guarded : s.Guarded
  sending : s.shared.phase x = .handling (.sendAwait ⟨x⟩ unknownError [])
  full : channelCapacity ≤ (s.shared.channel x).length
  kept : s.shared.servicesLock = some x
  waiting : s.shared.phase y = .handling (.registerServices "o")
  todo : s.todo (.connection y) = [.services]

theorem wedged_register {n : Nat} {w : World LockedBroker Event} (hr : lockedBroker.Run w)
    (h : Placed w.state x y n (.handling (.sendAwait ⟨x⟩ unknownError [])) (some x)) (hxy : y ≠ x)
    (hn : channelCapacity ≤ n) : ∃ w', lockedBroker.Run w' ∧ Wedged w'.state x y := by
  have howner : ∀ m, m ≠ .services → w.state.owner m = none := fun m hm => h.owner m (.inl hm)
  have hsteps : ∃ w', lockedBroker.exec (fun _ _ => True) w
      [.run (.receive y (some (.request (.registerObject "o")))), .lock (.connection y),
        .run (.handler y)] = some w' ∧
      w'.state.shared.phase x = .handling (.sendAwait ⟨x⟩ unknownError []) ∧
      (w'.state.shared.channel x).length = n ∧ w'.state.shared.servicesLock = some x ∧
      w'.state.shared.phase y = .handling (.registerServices "o") ∧
      w'.state.todo (.connection y) = [.services] := by
    simp [System.exec, System.next, lockedBroker, step, run, Action.mover, h.drop, h.todo,
      afterSection, Broker.step, h.phase, Broker.readerLoop, Broker.dispatch, Broker.handleRequest,
      Phase.locks, HandlerPc.locks, Broker.kept, h.servicesLock, howner, Broker.runSection,
      Broker.handleRegisterObject, Ne.symm hxy, h.channel]
  obtain ⟨w', he, hx, hlen, hl, hy, ht⟩ := hsteps
  have hr' := hr.of_exec he
  exact ⟨w', hr', guarded hr', hx, hlen.symm ▸ hn, hl, hy, ht⟩

theorem exists_wedged (hxy : y ≠ x) : ∃ w, lockedBroker.Run w ∧ Wedged w.state x y := by
  obtain ⟨w₀, hr₀, h₀⟩ := placed_full hxy (Nat.le_refl channelCapacity)
  obtain ⟨w₁, he₁, h₁⟩ := placed_lookup w₀.trace h₀ hxy
  obtain ⟨w₂, he₂, h₂⟩ := placed_insert w₁.trace h₁ hxy
  obtain ⟨w₃, he₃, h₃⟩ := placed_refuse w₂.trace h₂ hxy
  obtain ⟨w₄, he₄, h₄⟩ := placed_reply w₃.trace h₃ hxy
  exact wedged_register ((((hr₀.of_exec he₁).of_exec he₂).of_exec he₃).of_exec he₄) h₄ hxy
    (Nat.le_refl _)

theorem channel_full_kept {a : Action} {b : Broker} (hT : s.shared.Transition a b es)
    (hx : s.shared.phase x ≠ .absent) (hw : a ≠ .write x) (he : a ≠ .writeError x) :
    (s.shared.channel x).length ≤ (b.channel x).length := by
  cases hT.channelChange x with
  | same hsame => exact Nat.le_of_eq (congrArg List.length hsame.symm)
  | opened habs => exact absurd habs hx
  | sent _ _ _ _ _ hpush =>
    rw [hpush, List.length_append]
    exact Nat.le_add_right _ _
  | written => exact absurd rfl hw
  | lost => exact absurd rfl he

theorem Wedged.step {l : LockAction} (h : s.Wedged x y) (hxy : y ≠ x) (hw : l ≠ .run (.write x))
    (he : l ≠ .run (.writeError x)) (hs : s.step l = some (s', es)) : s'.Wedged x y := by
  have hsteps := steps_of_step hs
  have hG := h.guarded.next hsteps
  have hx := h.sending
  have hy := h.waiting
  have hbroker : ∀ {a b}, s.shared.Transition a b es → a ≠ .write x → a ≠ .writeError x →
      a.mover ≠ some x → a.mover ≠ some y → b.phase x = s.shared.phase x ∧
        b.phase y = s.shared.phase y ∧ channelCapacity ≤ (b.channel x).length ∧
        b.servicesLock = some x := by
    intro a b hT hwa hea hmx hmy
    refine ⟨?_, ?_, ?_, ?_⟩
    · by_contra hne
      exact hmx (hT.mover hne)
    · by_contra hne
      exact hmy (hT.mover hne)
    · have hpresent : s.shared.phase x ≠ .absent := by
        intro habs
        cases hx.symm.trans habs
      exact h.full.trans (channel_full_kept hT hpresent hwa hea)
    · cases hT.guardStep h.guarded.keeps with
      | kept ha hz hk hl => cases hl.symm.trans h.kept
      | dropped ha hl =>
        cases hl.symm.trans h.kept
        exact absurd ha hmx
      | same hsame => exact hsame.trans h.kept
  cases hsteps with
  | @lock i m rest hd ht ho =>
    have hiy : i ≠ .connection y := by
      rintro rfl
      cases ht.symm.trans h.todo
      cases ho.symm.trans (owner_services h.guarded h.kept)
    exact ⟨hG, hx, h.full, h.kept, hy, (update_of_ne (Ne.symm hiy) ..).trans h.todo⟩
  | unlock => exact ⟨hG, hx, h.full, h.kept, hy, h.todo⟩
  | @list n hd ht =>
    have hne : Activity.connection y ≠ .listObjects n := fun h => by cases h
    have htodo : (s.listObjects n).todo (.connection y) = s.todo (.connection y) :=
      update_of_ne hne [.objects] s.todo
    exact ⟨hG, hx, h.full, h.kept, hy, htodo.trans h.todo⟩
  | @section_ a z b es ha hb hd ht =>
    have hT := Broker.step_transition hb
    have hzy : z ≠ y := by
      rintro rfl
      cases ht.symm.trans h.todo
    have hzx : z ≠ x := by
      rintro rfl
      -- the handler of `x` can only send, and there is no room
      obtain rfl | ⟨o, topic, args, hpc⟩ := mover_handling hT hx ha
      · have hran := hT.ran hx
        simp only [Broker.runSection, Broker.sendToClient.send, Broker.send, hx,
          if_neg (Nat.not_lt_of_le h.full)] at hran
        cases hran
      · cases hpc
    obtain ⟨hpx, hpy, hfull, hl⟩ := hbroker hT (fun h => hw (congrArg _ h)) (fun h => he (congrArg _ h))
      (by rw [ha]; exact fun h => hzx (Option.some.inj h))
      (by rw [ha]; exact fun h => hzy (Option.some.inj h))
    have hne : Activity.connection y ≠ .connection z := fun h => hzy (Activity.connection.inj h).symm
    exact ⟨hG, hpx.trans hx, hfull, hl, hpy.trans hy, (update_of_ne hne ..).trans h.todo⟩
  | @free a b es ha hb =>
    obtain ⟨hpx, hpy, hfull, hl⟩ := hbroker (Broker.step_transition hb) (fun h => hw (congrArg _ h))
      (fun h => he (congrArg _ h)) (fun h => by cases ha.symm.trans h)
      (fun h => by cases ha.symm.trans h)
    exact ⟨hG, hpx.trans hx, hfull, hl, hpy.trans hy, h.todo⟩

/-- A client that does not drain its channel can stop others for good: it calls an unknown object
while its channel is full, and no registration gets the lock of `services` any more. -/
theorem refused_call_stops_others :
    ¬ ∀ (w : World LockedBroker Event) (x y : ClientId), lockedBroker.Run w → y ≠ x →
      hasRoom w.state.shared x = false →
      ∃ s', ReachesUndrained x w.state s' ∧
        ((s'.shared.phase y).finished = true ∨ ∃ z, s'.shared.OutOfRoom y z) := by
  intro hall
  have hxy : Broker.workerA ≠ Broker.callerC := by decide
  obtain ⟨w, hr, h⟩ := exists_wedged hxy
  have hfull : hasRoom w.state.shared Broker.callerC = false :=
    decide_eq_false (Nat.not_lt_of_le h.full)
  obtain ⟨s', hreach, hend⟩ := hall w Broker.callerC Broker.workerA hr hxy hfull
  have hwedged : s'.Wedged Broker.callerC Broker.workerA := by
    clear hend
    induction hreach with
    | refl => exact h
    | tail _ hstep ih =>
      obtain ⟨l, es, hw, he, hs⟩ := hstep
      exact ih.step hxy hw he hs
  obtain hfin | ⟨z, hz, -⟩ := hend
  · rw [hwedged.waiting] at hfin
    cases hfin
  · simp [Broker.nextRecipient, hwedged.waiting, HandlerPc.sends] at hz

end LockedBroker
end IpcBroker
