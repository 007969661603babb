import IpcBroker.Broker.DeliveredOnce
import IpcBroker.Broker.Replies
import IpcBroker.Foundation.NameRegistry

/-! The map of objects is a registry of names, and `HasObject` reads it: the answer is that of one
moment between the request and the answer. -/

namespace IpcBroker
open Function Foundation

/-- What a step does in the registry: an object is claimed by `handle_register_object`, and
`cleanup_client` releases those of its client. -/
def nameOp? (st : BrokerStep) : Option (NameOp String ClientId) :=
  match st.action with
  | .handler x =>
    match st.before.phase x with
    | .handling (.registerObjects o) => some (.claim o x)
    | _ => none
  | .cleanup x =>
    match st.before.phase x with
    | .cleaning .objects => some (.release x)
    | _ => none
  | _ => none

def nameOps (tr : List BrokerStep) : List (NameOp String ClientId) := tr.filterMap nameOp?

/-- Since `x` sent its last packet, a `HasObject`, its handler has found the object to exist or not
in the registry of that moment. -/
def LookedUp (tr : List BrokerStep) (x : ClientId) (o : String) (exists_ : Bool) : Prop :=
  ∃ later lookup between request earlier,
    tr = later ++ lookup :: (between ++ request :: earlier) ∧
    request.action = .receive x (some (.request (.hasObject o))) ∧
    (∀ st ∈ later ++ lookup :: between, ∀ p, st.action ≠ .receive x p) ∧
    lookup.action = .handler x ∧
    exists_ = (ownerOf (nameOps (between ++ request :: earlier)) o).isSome

/-- The last packet that `x` sent is a `HasObject`. -/
def Asked (tr : List BrokerStep) (x : ClientId) (o : String) : Prop :=
  ∃ between request earlier, tr = between ++ request :: earlier ∧
    request.action = .receive x (some (.request (.hasObject o))) ∧
    ∀ st ∈ between, ∀ p, st.action ≠ .receive x p

namespace Broker
variable {s s' : Broker} {a : Action} {es : List Event} {x y : ClientId} {o : String}
  {exists_ : Bool} {st : BrokerStep} {tr : List BrokerStep} {w : World Broker BrokerStep}

theorem nameOp_handler (h : s.phase x = .handling (.registerObjects o)) :
    nameOp? ⟨s, .handler x, es, s'⟩ = some (.claim o x) := by
  simp only [nameOp?, h]

theorem nameOp_cleanup (h : s.phase x = .cleaning .objects) :
    nameOp? ⟨s, .cleanup x, es, s'⟩ = some (.release x) := by
  simp only [nameOp?, h]

theorem Transition.nameOp_none (h : Transition s a s' es)
    (hr : ∀ x o, a = .handler x → s.phase x ≠ .handling (.registerObjects o))
    (hc : ∀ x, a = .cleanup x → s.phase x ≠ .cleaning .objects) :
    nameOp? ⟨s, a, es, s'⟩ = none := by
  cases a with
  | handler x =>
    obtain ⟨pc, hx⟩ := h.at_handler
    cases pc with
    | registerObjects o => exact absurd hx (hr x o rfl)
    | _ => simp only [nameOp?, hx]
  | cleanup x =>
    simp only [nameOp?]
    split
    · next hx => exact absurd hx (hc x rfl)
    · rfl
  | _ => rfl

section Runs
variable {ok : World Broker BrokerStep → Action → Prop}

theorem objects_owner (h : broker.recorded.RunWhere ok w) :
    w.state.objects = ownerOf (nameOps w.trace) := by
  refine h.invariant (I := fun w => w.state.objects = ownerOf (nameOps w.trace)) ?_ ?_
  · rintro _ ⟨items, rfl⟩
    rfl
  · intro w a w' _ hI _ hn
    obtain ⟨es, hs, htr⟩ := System.recorded_next.mp hn
    have ht := step_transition hs
    rw [htr, nameOps, List.filterMap_cons]
    by_cases hclaim : ∃ x o, a = .handler x ∧ w.state.phase x = .handling (.registerObjects o)
    · obtain ⟨x, o, rfl, hx⟩ := hclaim
      have hran : handleRegisterObject w.state x o = (w'.state, es) := Option.some.inj (ht.ran hx)
      have hobj : w'.state.objects = update w.state.objects o (some x) := by
        rw [← (Prod.mk.inj hran).1]
        rfl
      rw [nameOp_handler hx, hobj, hI]
      rfl
    by_cases hrelease : ∃ x, a = .cleanup x ∧ w.state.phase x = .cleaning .objects
    · obtain ⟨x, rfl, hx⟩ := hrelease
      obtain ⟨-, hne⟩ | ⟨y, o, ha, -⟩ | ⟨y, ha, -, -, hobj⟩ := ht.objects
      · exact absurd hx (hne x rfl)
      · cases ha
      · cases ha
        rw [nameOp_cleanup hx, hobj, hI]
        rfl
    · have hnone := ht.nameOp_none (fun x o ha hx => hclaim ⟨x, o, ha, hx⟩)
        fun x ha hx => hrelease ⟨x, ha, hx⟩
      obtain ⟨hsame, -⟩ | ⟨x, o, ha, hx, -⟩ | ⟨x, ha, hx, -⟩ := ht.objects
      · rw [hnone, hsame]
        exact hI
      · exact absurd ⟨x, o, ha, hx⟩ hclaim
      · exact absurd ⟨x, ha, hx⟩ hrelease

theorem Asked.step (h : Asked tr x o) (ha : ∀ p, st.action ≠ .receive x p) :
    Asked (st :: tr) x o := by
  obtain ⟨between, request, earlier, rfl, hrequest, hquiet⟩ := h
  refine ⟨st :: between, request, earlier, rfl, hrequest, fun u hu p => ?_⟩
  obtain rfl | hu := List.mem_cons.mp hu
  · exact ha p
  · exact hquiet u hu p

theorem LookedUp.step (h : LookedUp tr x o exists_) (ha : ∀ p, st.action ≠ .receive x p) :
    LookedUp (st :: tr) x o exists_ := by
  obtain ⟨later, lookup, between, request, earlier, rfl, hrequest, hquiet, hlookup, hexists⟩ := h
  refine ⟨st :: later, lookup, between, request, earlier, rfl, hrequest, fun u hu p => ?_, hlookup,
    hexists⟩
  obtain rfl | hu := List.mem_cons.mp hu
  · exact ha p
  · exact hquiet u hu p

theorem Transition.entered_hasObject (h : Transition s a s' es)
    (hq : s'.phase y = .handling (.hasObject o)) :
    s.phase y = .handling (.hasObject o) ∨ a = .receive y (some (.request (.hasObject o))) := by
  obtain hq | he := h.entered rfl hq
  · exact .inl hq
  · generalize hp : Phase.handling (.hasObject o) = p at he
    cases he with
    | receive _ hd =>
      cases hp
      obtain ⟨r, rfl, hpc⟩ | ⟨resp, c, -, -, hpc⟩ := dispatch_cases hd
      · cases r <;> cases hpc
        exact .inr rfl
      · cases hpc
    | @callRoute k workerId workerTx tx hx =>
      obtain ⟨v, t, -, -, hroute⟩ | ⟨-, hroute⟩ := route_cases k workerId workerTx <;>
        · rw [hroute] at hp
          cases hp
    | _ => cases hp

structure HasObjectInv (w : World Broker BrokerStep) : Prop where
  asked : ∀ x o, w.state.phase x = .handling (.hasObject o) → Asked w.trace x o
  answered : ∀ x o b, .response (.hasObjectResult o b) ∈ (w.state.phase x).messages →
    LookedUp w.trace x o b

theorem hasObjectInv (h : broker.recorded.RunWhere ok w) : HasObjectInv w := by
  refine h.invariant ?_ ?_
  · rintro _ ⟨items, rfl⟩
    exact ⟨nofun, nofun⟩
  · intro w a w' hr hI _ hn
    obtain ⟨es, hs, htr⟩ := System.recorded_next.mp hn
    have ht := step_transition hs
    obtain ⟨s', tr'⟩ := w'
    obtain rfl : tr' = ⟨w.state, a, es, s'⟩ :: w.trace := htr
    have hbusy : ∀ x, w.state.phase x ≠ .reading → ∀ p,
        (⟨w.state, a, es, s'⟩ : BrokerStep).action ≠ .receive x p := by
      rintro x hx p rfl
      exact hx ht.at_receive
    refine ⟨fun x o hx => ?_, fun x o b hm => ?_⟩
    · obtain hold | rfl := ht.entered_hasObject hx
      · exact Asked.step (hI.asked x o hold) (hbusy x (hold ▸ Phase.noConfusion))
      · exact ⟨[], _, w.trace, rfl, rfl, List.forall_mem_nil _⟩
    · obtain hold | ⟨pc, rfl, hx, hmade⟩ := ht.own_reply hm
      · refine LookedUp.step (hI.answered x o b hold) (hbusy x fun hx => ?_)
        rw [hx] at hold
        cases hold
      · cases pc with
        | hasObject o' =>
          cases List.mem_singleton.mp hmade
          obtain ⟨between, request, earlier, hearlier, hrequest, hquiet⟩ := hI.asked x o hx
          refine ⟨[], _, between, request, earlier, congrArg _ hearlier, hrequest, fun st hst p => ?_,
            rfl, ?_⟩
          · obtain rfl | hst := List.mem_cons.mp hst
            · exact Action.noConfusion
            · exact hquiet st hst p
          · rw [objects_owner hr, hearlier]
        | _ => simp [ownReplies] at hmade

/-- `HasObject` is linearizable: every answer that is put on the channel of a client is the answer to
the last request of the client, and tells whether the object was in the registry at one moment since
the request was read. -/
theorem has_object_linearizable (h : broker.recorded.RunWhere ok w) (ht : st :: tr <:+ w.trace)
    {site : SendSite}
    (he : Event.enqueued site y x (.response (.hasObjectResult o exists_)) ∈ st.events) :
    LookedUp tr x o exists_ := by
  obtain ⟨hr, -, -, hs⟩ := h.taken ht
  have hT := step_transition hs
  obtain ⟨rfl, -, rest, hx⟩ := hT.replier (recorded_lifecycle hr) (sources hr.run_events).phase
    (subscriptionsInserted hr).phase he nofun
  refine (hasObjectInv hr).answered y o exists_ ?_
  rw [hx]
  exact List.mem_cons_self

/-- Over every run, an object is mapped to `x` if and only if the last registration of the object is
that of `x`, and the objects of `x` have not been cleaned up since. -/
theorem registered_iff (h : broker.recorded.RunWhere ok w) : w.state.objects o = some x ↔
    ∃ later registration earlier, w.trace = later ++ registration :: earlier ∧
      nameOp? registration = some (.claim o x) ∧
      ∀ st ∈ later, nameOp? st ≠ some (.release x) ∧ ∀ y, nameOp? st ≠ some (.claim o y) := by
  rw [objects_owner h, ownerOf_eq_some]
  constructor
  · rintro ⟨later, earlier, hops, hrelease, hclaim⟩
    -- the steps behind the operations; those in `quiet` do nothing in the registry
    obtain ⟨since, rest, htrace, rfl, hrest⟩ := List.filterMap_eq_append_iff.mp hops
    obtain ⟨quiet, registration, before, rfl, hquiet, hreg, -⟩ :=
      List.filterMap_eq_cons_iff.mp hrest
    refine ⟨since ++ quiet, registration, before, ?_, hreg, fun st hst => ?_⟩
    · rw [htrace, List.append_assoc]
    · obtain hst | hst := List.mem_append.mp hst
      · exact ⟨fun hop => hrelease (List.mem_filterMap.mpr ⟨st, hst, hop⟩),
          fun y hop => hclaim y (List.mem_filterMap.mpr ⟨st, hst, hop⟩)⟩
      · rw [hquiet st hst]
        exact ⟨(Option.some_ne_none _).symm, fun y => (Option.some_ne_none _).symm⟩
  · rintro ⟨later, registration, earlier, htrace, hreg, hlater⟩
    refine ⟨nameOps later, nameOps earlier, ?_, fun hmem => ?_, fun y hmem => ?_⟩
    · rw [htrace, nameOps, List.filterMap_append, List.filterMap_cons_some hreg]
      rfl
    · obtain ⟨st, hst, hop⟩ := List.mem_filterMap.mp hmem
      exact (hlater st hst).1 hop
    · obtain ⟨st, hst, hop⟩ := List.mem_filterMap.mp hmem
      exact (hlater st hst).2 y hop

end Runs

def registersThenAsks (x : ClientId) : List Action :=
  .connect x :: request x (.registerObject "o") 4 ++ request x (.hasObject "o") 3

def tellsExists (x : ClientId) : List BrokerStep → Bool
  | [] => false
  | st :: _ => st.events.any fun
    | .enqueued _ _ y (.response (.hasObjectResult "o" true)) => y = x
    | _ => false

theorem has_object_linearizable_registered :
    ∃ w st tr, broker.recorded.exec (fun _ _ => True) ⟨Broker.initial [], []⟩
        (registersThenAsks workerA) = some w ∧ w.trace = st :: tr ∧
      LookedUp tr workerA "o" true := by
  obtain ⟨w, hr, he, ht⟩ := System.RunWhere.of_exec_any broker.recorded (fun _ _ => True)
    (registersThenAsks workerA) (fun w => tellsExists workerA w.trace) ⟨[], rfl⟩ (by decide)
  unfold tellsExists at ht
  split at ht
  · cases ht
  · next st tr htr =>
    obtain ⟨e, hmem, htells⟩ := List.any_eq_true.mp ht
    split at htells
    · next site y z =>
      obtain rfl : z = workerA := of_decide_eq_true htells
      exact ⟨w, st, tr, he, htr, has_object_linearizable hr (htr ▸ List.suffix_rfl) hmem⟩
    · cases htells

theorem registered_iff_registersThenAsks :
    ∃ w, broker.recorded.exec (fun _ _ => True) ⟨Broker.initial [], []⟩
        (registersThenAsks workerA) = some w ∧
      ∃ later registration earlier, w.trace = later ++ registration :: earlier ∧
        nameOp? registration = some (.claim "o" workerA) ∧
        ∀ st ∈ later, nameOp? st ≠ some (.release workerA) ∧
          ∀ y, nameOp? st ≠ some (.claim "o" y) := by
  obtain ⟨w, hr, he, ht⟩ := System.RunWhere.of_exec_any broker.recorded (fun _ _ => True)
    (registersThenAsks workerA) (fun w => w.state.objects "o" = some workerA) ⟨[], rfl⟩ (by decide)
  exact ⟨w, he, (registered_iff hr).mp (of_decide_eq_true ht)⟩

end Broker
end IpcBroker
