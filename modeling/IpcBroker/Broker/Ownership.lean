import IpcBroker.Broker.Lifecycle

/-! Ownership is written to `objects` and to `services` one after the other: when registrations
of one name do not cross, the two maps agree whenever no handler or cleanup is part-way. -/

namespace IpcBroker
open Function Foundation

/-- The name a client has entered into `objects` but not yet into `services`. -/
def Phase.registering? : Phase → Option String
  | .handling (.registerServices o) => some o
  | _ => none

def Phase.idle : Phase → Bool
  | .absent | .reading | .stopping | .cleaned | .ended => true
  | _ => false

namespace Broker

def Quiescent (s : Broker) : Prop := ∀ x, (s.phase x).idle = true

/-- A service section of `handle_register_object` finds in `objects` a client that is itself
between its two sections for that name: the owner has not completed or left meanwhile. -/
def registrationsInOrder (s : Broker) : Action → Bool
  | .handler x =>
    match (s.phase x).registering? with
    | some o =>
      (s.services o).isNone || (s.objects o).any fun y => (s.phase y).registering? = some o
    | none => true
  | _ => true

/-- `objects` names the running owner, or a client that is about to take the service over, or
the owner is being cleaned up. -/
def OwnerAgrees (s : Broker) : Prop :=
  ∀ o e x, s.services o = some e → e.state = .running x →
    s.objects o = some x ∨
    (∃ y, s.objects o = some y ∧ (s.phase y).registering? = some o) ∨
    4 ≤ (s.phase x).rank ∧ (s.phase x).rank ≤ 7

variable {s s' : Broker} {a : Action} {es : List Event} {x y : ClientId} {o : String}

theorem registering_eq (h : (s.phase y).registering? = some o) :
    s.phase y = .handling (.registerServices o) := by
  unfold Phase.registering? at h
  split at h
  · next o' hp =>
    cases h
    exact hp
  · cases h

theorem registerServices_inv {e : ServiceEntry} (h : Transition s (.handler x) s' es)
    (hx : s.phase x = .handling (.registerServices o)) (he : s.services o = some e) :
    s'.services o = some { e with state := .running x, owner := some x, pendingCalls := [] } := by
  cases h with
  | registerServices hx' hl he' =>
    cases hx.symm.trans hx'
    cases he.symm.trans he'
    exact update_self ..
  | registerPlain hx' hl he' =>
    cases hx.symm.trans hx'
    cases he.symm.trans he'
  | send hx' hp | sendFailed hx' hp =>
    cases hx.symm.trans hx'
    cases hp
  | _ => cases hx.symm.trans ‹s.phase x = _›

theorem registering_kept (h : Transition s a s' es) (hy : (s.phase y).registering? = some o)
    (ha : a ≠ .handler y) : (s'.phase y).registering? = some o := by
  have hp := registering_eq hy
  rw [h.handling_kept hp ha]
  · rfl
  · rintro subsList rfl
    cases h with
    | snapshotNone hx | snapshot hx => cases hp.symm.trans hx

theorem cleaning_kept (h : Transition s a s' es)
    (hx : 4 ≤ (s.phase x).rank ∧ (s.phase x).rank ≤ 7)
    (hown : a = .cleanup x → (s.phase x).rank ≠ 7) :
    4 ≤ (s'.phase x).rank ∧ (s'.phase x).rank ≤ 7 := by
  have hr := h.rank x
  have hb := rank_bound h (by decide) ⟨by omega, hx.2⟩ hown
  exact ⟨by omega, hb.2⟩

theorem ownerAgrees_same (hI : OwnerAgrees s) (h : Transition s a s' es) {e : ServiceEntry}
    (he : s.services o = some e) (hx : e.state = .running x)
    (hown : a = .cleanup x → (s.phase x).rank ≠ 7)
    (hreg : ∀ y, a = .handler y → (s.phase y).registering? ≠ some o) :
    s'.objects o = some x ∨
    (∃ y, s'.objects o = some y ∧ (s'.phase y).registering? = some o) ∨
    4 ≤ (s'.phase x).rank ∧ (s'.phase x).rank ≤ 7 := by
  have hkept : ∀ y, (s.phase y).registering? = some o → (s'.phase y).registering? = some o :=
    fun y hy => registering_kept h hy fun ha => hreg y ha hy
  obtain ⟨hobj, -⟩ | ⟨z, o', -, -, hz', hobj, -⟩ | ⟨z, -, hz, hz', hobj⟩ := h.objects
  · rw [hobj]
    obtain hxo | ⟨y, hyo, hy⟩ | hclean := hI o e x he hx
    · exact .inl hxo
    · exact .inr (.inl ⟨y, hyo, hkept y hy⟩)
    · exact .inr (.inr (cleaning_kept h hclean hown))
  · by_cases ho : o = o'
    · subst ho
      refine .inr (.inl ⟨z, by rw [hobj, update_self], ?_⟩)
      rw [hz', update_self]
      rfl
    · rw [hobj, update_of_ne ho]
      obtain hxo | ⟨y, hyo, hy⟩ | hclean := hI o e x he hx
      · exact .inl hxo
      · exact .inr (.inl ⟨y, hyo, hkept y hy⟩)
      · exact .inr (.inr (cleaning_kept h hclean hown))
  · simp only [hobj]
    obtain hxo | ⟨y, hyo, hy⟩ | hclean := hI o e x he hx
    · by_cases hxz : x = z
      · subst hxz
        rw [hz', update_self]
        exact .inr (.inr (by decide))
      · have hne : s.objects o ≠ some z := by
          rw [hxo]
          exact fun hs => hxz (Option.some.inj hs)
        exact .inl (by rw [if_neg hne, hxo])
    · have hne : s.objects o ≠ some z := by
        rintro hs
        cases hyo.symm.trans hs
        cases (registering_eq hy).symm.trans hz
      exact .inr (.inl ⟨y, by rw [if_neg hne, hyo], hkept y hy⟩)
    · exact .inr (.inr (cleaning_kept h hclean hown))

theorem ownerAgrees_registered (h : Transition s (.handler y) s' es)
    (hy : (s.phase y).registering? = some o)
    (hok : registrationsInOrder s (.handler y) = true) {e : ServiceEntry}
    (he : s'.services o = some e) (hx : e.state = .running x) :
    s'.objects o = some x ∨ ∃ z, s'.objects o = some z ∧ (s'.phase z).registering? = some o := by
  have hp := registering_eq hy
  have hobj : s'.objects = s.objects := by
    obtain ⟨hobj, -⟩ | ⟨z, o', ha, hz, -⟩ | ⟨z, ha, -⟩ := h.objects
    · exact hobj
    · cases ha
      cases hp.symm.trans hz
    · cases ha
  have hserv : ∃ e₀, s.services o = some e₀ := by
    cases he₀ : s.services o with
    | some e₀ => exact ⟨e₀, rfl⟩
    | none =>
      obtain ⟨hsame, -⟩ | ⟨z, p, hs, -⟩ := h.services o
      · cases (hsame.trans he₀).symm.trans he
      · generalize s'.services o = v at hs
        cases hs with
        | registered hz he' => cases he₀.symm.trans he'
        | configured hz | stopped hz | starting hz => cases hp.symm.trans hz
  obtain ⟨e₀, he₀⟩ := hserv
  have hyx : y = x := by
    have hrun := (registerServices_inv h hp he₀).symm.trans he
    cases hrun
    exact ServiceState.running.inj hx
  subst hyx
  simp only [registrationsInOrder, hy, he₀, Option.isNone_some, Bool.false_or,
    Option.any_eq_true, decide_eq_true_eq] at hok
  obtain ⟨z, hzo, hz⟩ := hok
  rw [hobj]
  by_cases hzy : z = y
  · exact .inl (hzy ▸ hzo)
  · have hne : Action.handler y ≠ .handler z := fun ha => hzy (Action.handler.inj ha).symm
    exact .inr ⟨z, hzo, registering_kept h hz hne⟩

theorem OwnerAgrees.step (hI : OwnerAgrees s) (hL : Lifecycle s) (h : Transition s a s' es)
    (hok : registrationsInOrder s a = true) : OwnerAgrees s' := by
  intro o e x he hx
  by_cases hreg : ∃ y, a = .handler y ∧ (s.phase y).registering? = some o
  · obtain ⟨y, rfl, hy⟩ := hreg
    obtain hxo | hz := ownerAgrees_registered h hy hok he hx
    · exact .inl hxo
    · exact .inr (.inl hz)
  · have hnot : ∀ y, a = .handler y → (s.phase y).registering? ≠ some o :=
      fun y ha hy => hreg ⟨y, ha, hy⟩
    obtain ⟨hsame, hclean⟩ | ⟨z, p, hs, hp⟩ := h.services o
    · rw [hsame] at he
      refine ownerAgrees_same hI h he hx (fun ha h7 => ?_) hnot
      obtain ⟨active, hx7⟩ := rank_eq_seven.mp h7
      exact hclean x active ha hx7
    · generalize s'.services o = v at hs he
      cases hs with
      | registered hz he' => exact absurd (by rw [hz]; rfl) (hnot z rfl)
      | configured hz =>
        cases he
        obtain ⟨rfl, e', he', hx'⟩ := entry_running hx
        exact ownerAgrees_same hI h he' hx' nofun hnot
      | stopped hz ho he' hst =>
        cases he
        cases hx
      | starting hz ho he' hst =>
        cases he
        cases hst.symm.trans hx
      | cleaned hz =>
        obtain ⟨e', he', rfl⟩ := Option.map_eq_some_iff.mp he
        obtain ⟨hx', hown, -⟩ := cleanupService_running hx
        refine ownerAgrees_same hI h he' hx' (fun ha _ => ?_) hnot
        cases ha
        exact hown (hL.running o e' _ he' hx')

theorem ownerAgrees {w : World Broker Event}
    (h : broker.RunWhere (fun w a => registrationsInOrder w.state a = true) w) :
    OwnerAgrees w.state := by
  refine h.invariant (I := fun w => OwnerAgrees w.state) ?_ ?_
  · rintro _ ⟨items, rfl⟩ o e x he hx
    obtain ⟨name, rfl⟩ := loadServiceActivations_stopped items he
    cases hx
  · intro w a w' hr hI hok hn
    obtain ⟨es, hs⟩ := System.next_state hn
    exact hI.step (lifecycle hr) (step_transition hs) hok

theorem Quiescent.rank (hq : Quiescent s) (x : ClientId) :
    (s.phase x).rank ≤ 2 ∨ 8 ≤ (s.phase x).rank := by
  have h := hq x
  generalize s.phase x = p at h ⊢
  rcases p with _ | _ | _ | _ | (_ | _ | _ | _ | _) | _ | _ <;> simp_all [Phase.idle, Phase.rank]

/-- A running service is the object of its owner, which is connected. -/
def RunningMatches (s : Broker) : Prop :=
  ∀ o e x, s.services o = some e → e.state = .running x →
    s.objects o = some x ∧ e.owner = some x ∧ (s.clients x).isSome = true

/-- In a run whose registrations do not cross, ownership agrees whenever nothing is part-way. -/
theorem running_matches {w : World Broker Event}
    (h : broker.RunWhere (fun w a => registrationsInOrder w.state a = true) w)
    (hq : Quiescent w.state) : RunningMatches w.state := by
  intro o e x he hx
  have hL := lifecycle h
  have hown := hL.running o e x he hx
  have hobj : w.state.objects o = some x := by
    obtain hobj | ⟨y, -, hy⟩ | hclean := ownerAgrees h o e x he hx
    · exact hobj
    · have hidle := hq y
      rw [registering_eq hy] at hidle
      cases hidle
    · have := hq.rank x
      omega
  have hrank := hL.objects o x hobj
  have hidle := hq.rank x
  refine ⟨hobj, hown, ?_⟩
  rw [hL.clients x, if_pos (by omega)]
  rfl

theorem quiescent_of_exec {ok : World Broker Event → Action → Prop} [∀ w a, Decidable (ok w a)]
    {items : List ServiceActivationFile} {w : World Broker Event} {as : List Action}
    (he : broker.exec ok ⟨Broker.initial items, []⟩ as = some w)
    (hidle : (as.filterMap Action.mover).all (fun y => (w.state.phase y).idle) = true) :
    Quiescent w.state := by
  intro y
  by_cases hy : y ∈ as.filterMap Action.mover
  · exact List.all_eq_true.mp hidle y hy
  · rw [exec_phase he hy]
    rfl

/-! A worker registers the service `o`, alone and while another worker registers it too. -/

def registerAlone : List Action :=
  [.connect workerA, .receive workerA (some (.request (.registerObject "o"))),
    .handler workerA, .handler workerA, .handler workerA, .handler workerA]

def registerCrossing : List Action :=
  [.connect workerA, .connect workerB,
    .receive workerA (some (.request (.registerObject "o"))),
    .receive workerB (some (.request (.registerObject "o"))),
    .handler workerA, .handler workerB, .handler workerB, .handler workerA,
    .handler workerA, .handler workerA, .handler workerB, .handler workerB]

theorem running_matches_alone :
    ∃ w, broker.exec (fun w a => registrationsInOrder w.state a = true)
        ⟨Broker.initial (activationOf "o"), []⟩ registerAlone = some w ∧
      (w.state.services "o").map (·.state) = some (.running workerA) ∧
      RunningMatches w.state := by
  obtain ⟨w, hr, he, ht⟩ := System.RunWhere.of_exec_any broker
    (fun w a => registrationsInOrder w.state a = true) registerAlone
    (fun w => decide ((w.state.services "o").map (·.state) = some (.running workerA)) &&
      (registerAlone.filterMap Action.mover).all (fun y => (w.state.phase y).idle))
    ⟨activationOf "o", rfl⟩ (by decide)
  rw [Bool.and_eq_true, decide_eq_true_eq] at ht
  exact ⟨w, he, ht.1, running_matches hr (quiescent_of_exec he ht.2)⟩

theorem crossed_registrations_disagree :
    ¬ ∀ w, broker.Run w → Quiescent w.state → RunningMatches w.state := by
  intro hall
  obtain ⟨w, hr, he, ht⟩ := System.RunWhere.of_exec_any broker
    (fun _ _ => True) registerCrossing
    (fun w => decide ((w.state.services "o").map (·.state) = some (.running workerA)) &&
      decide (w.state.objects "o" = some workerB) &&
      (registerCrossing.filterMap Action.mover).all (fun y => (w.state.phase y).idle))
    ⟨activationOf "o", rfl⟩ (by decide)
  simp only [Bool.and_eq_true, decide_eq_true_eq] at ht
  obtain ⟨⟨hrun, hobj⟩, hidle⟩ := ht
  obtain ⟨e, hs, hst⟩ := Option.map_eq_some_iff.mp hrun
  have hbad := (hall w hr (quiescent_of_exec he hidle) "o" e workerA hs hst).1
  rw [hobj] at hbad
  exact absurd hbad (by decide)

end Broker
end IpcBroker
