import IpcBroker.Deployment.RemoteCalls
import Mathlib.Data.List.Lattice

/-! The object that the broker itself shares, by a worker of its own: the list of the registered
objects that a caller gets is that of one moment during its call. -/

namespace IpcBroker.Deployment
open Function Foundation

def rob : String := "rob"

/-- A broker whose own worker shares `ListObjects`, as no other worker does under that name. -/
structure Host where
  setup : Setup
  own : ClientId
  shares : setup.objects own = some [rob]
  alone : ∀ y objects, setup.objects y = some objects → rob ∈ objects → y = own

/-- The whole, with the keys of the map of objects. -/
structure Hub where
  whole : Deployment
  keys : List String

/-- `own` is a turn of the broker's own worker: `names` are the keys in the order in which the hash map
gives them, `method` is the one that is called, if the next packet is a call. -/
inductive HubAction
  | turn (a : Action)
  | own (names : List String) (method : String) (fault : Option String)

def registeredName? : Event → Option String
  | .broker (.registered _ o) => some o
  | _ => none

def keysAfter (b : Broker) (es : List Event) (keys : List String) : List String :=
  (es.filterMap registeredName? ∪ keys).filter fun o => (b.objects o).isSome

namespace Hub
variable (H : Host) (s : Hub)

/-- The call that the broker's own worker is to execute next. -/
def ownCall : Option Call :=
  (s.whole.toClient H.own).head?.bind (Worker.knownCall H.setup.text.worker [rob])

/-- The step of the whole: what the broker's own worker returns is what `ListObjects::call` does. -/
def taken? : HubAction → Option Action
  | .turn (.work x value fault) => if x = H.own then none else some (.work x value fault)
  | .turn a => some a
  | .own names method fault =>
    if names.Perm s.keys ∧ (s.ownCall H).all (·.method = method) then
      some (.work H.own (Worker.listObjects names method) fault)
    else none

def step (a : HubAction) : Option (Hub × List Event) :=
  (s.taken? H a).bind fun d => (s.whole.step H.setup d).map fun r =>
    (⟨r.1, keysAfter r.1.broker r.2 s.keys⟩, r.2)

end Hub

def hub (H : Host) : System Hub HubAction Event where
  initial s := ∃ items, s = ⟨initial H.setup items, []⟩
  step := Hub.step H

def wholeWorld (w : World Hub Event) : World Deployment Event := ⟨w.state.whole, w.trace⟩

/-- The step is an orderly one of the whole. -/
def OrderlyHub (H : Host) (w : World Hub Event) (a : HubAction) : Prop :=
  ∀ d, w.state.taken? H a = some d → Orderly H.setup (wholeWorld w) d

abbrev HubStep : Type := Taken Hub HubAction Event

/-- The names are the keys of the map of objects, each once. -/
structure Keys (names : List String) (b : Broker) : Prop where
  nodup : names.Nodup
  mem : ∀ o, o ∈ names ↔ (b.objects o).isSome = true

/-- While the call `k` of `x` was under way, the map of objects was what `value` tells. -/
def Listed (tr : List HubStep) (x : ClientId) (k : Call) (value : Value) : Prop :=
  ∃ later look earlier names, tr = later ++ look :: earlier ∧
    Event.broker (.received x (.request (.call k))) ∈ earlier.flatMap (·.events) ∧
    Keys names look.before.whole.broker ∧ value = Worker.listObjects names k.method

variable {T : Setup} {H : Host} {s s' : Deployment} {u u' : Hub} {a : Action} {b : HubAction}
  {es : List Event} {x y z : ClientId} {k : Call} {c : CallId} {v : Value} {st : HubStep}
  {tr : List HubStep} {w w' : World Hub Event}

theorem hub_step (h : u.step H b = some (u', es)) : ∃ d, u.taken? H b = some d ∧
    u.whole.step H.setup d = some (u'.whole, es) ∧ u'.keys = keysAfter u'.whole.broker es u.keys := by
  obtain ⟨d, hd, hs⟩ := Option.bind_eq_some_iff.mp h
  obtain ⟨r, hr, hpair⟩ := Option.map_eq_some_iff.mp hs
  cases hpair
  exact ⟨d, hd, hr, rfl⟩

theorem hub_next (h : (hub H).next w b = some w') :
    ∃ d, w.state.taken? H b = some d ∧ (deployment H.setup).next (wholeWorld w) d = some (wholeWorld w') := by
  obtain ⟨es, hs, htr⟩ := System.next_eq_some.mp h
  obtain ⟨d, hd, hwhole, -⟩ := hub_step hs
  exact ⟨d, hd, System.next_eq_some.mpr ⟨es, hwhole, htr⟩⟩

theorem whole_run (h : (hub H).RunWhere (OrderlyHub H) w) :
    (deployment H.setup).RunWhere (Orderly H.setup) (wholeWorld w) := by
  refine h.mapped wholeWorld ?_ ?_
  · rintro _ ⟨items, rfl⟩
    exact ⟨_, ⟨items, rfl⟩, rfl⟩
  · intro w b w' _ _ hok hn
    obtain ⟨d, hd, hwhole⟩ := hub_next hn
    exact .step (hok d hd) hwhole

theorem Transition.object_back (h : Transition T s a s' es) {o : String}
    (ho : (s'.broker.objects o).isSome = true) :
    (s.broker.objects o).isSome = true ∨ o ∈ es.filterMap registeredName? := by
  obtain ⟨hsame, -⟩ | ⟨b, -, hb⟩ := h.brokerStep
  · exact .inl (hsame ▸ ho)
  · obtain ⟨hobj, -⟩ | ⟨y, o', -, -, -, hobj, hes⟩ | ⟨y, -, -, -, hobj⟩ :=
      (Broker.step_transition hb).objects
    · exact .inl (hobj ▸ ho)
    · rw [hobj] at ho
      by_cases hoo : o = o'
      · subst hoo
        have hreg : Event.broker (.registered y o) ∈ es := mem_broker.mp (hes ▸ List.mem_singleton_self _)
        exact .inr (List.mem_filterMap.mpr ⟨_, hreg, rfl⟩)
      · rw [update_of_ne hoo] at ho
        exact .inl ho
    · rw [hobj] at ho
      simp only at ho
      split_ifs at ho
      · cases ho
      · exact .inl ho

theorem Keys.step (h : Keys u.keys u.whole.broker) (hs : u.step H b = some (u', es)) :
    Keys u'.keys u'.whole.broker := by
  obtain ⟨d, -, hwhole, hkeys⟩ := hub_step hs
  rw [hkeys]
  refine ⟨(List.Nodup.union _ h.nodup).filter _, fun o => ?_⟩
  rw [keysAfter, List.mem_filter, List.mem_union_iff, and_iff_right_iff_imp]
  intro ho
  obtain hold | hnew := (step_transition hwhole).object_back ho
  · exact .inr ((h.mem o).mpr hold)
  · exact .inl hnew

theorem keys_run {ok : World Hub HubStep → HubAction → Prop} {w : World Hub HubStep}
    (h : (hub H).recorded.RunWhere ok w) : Keys w.state.keys w.state.whole.broker := by
  refine h.invariant (I := fun w => Keys w.state.keys w.state.whole.broker) ?_ ?_
  · rintro _ ⟨items, rfl⟩
    exact ⟨List.nodup_nil, fun o => iff_of_false List.not_mem_nil Bool.false_ne_true⟩
  · intro w b w' _ hI _ hn
    obtain ⟨es, hs, -⟩ := System.recorded_next.mp hn
    exact hI.step hs

theorem own_lists (hkeys : Keys u.keys u.whole.broker) {fault : Option String} {data : List UInt8}
    (ht : u.taken? H b = some (.work H.own v fault)) (hhead : (u.whole.toClient H.own).head? = some data)
    (hk : Worker.knownCall H.setup.text.worker [rob] data = some k) :
    ∃ names, Keys names u.whole.broker ∧ v = Worker.listObjects names k.method := by
  cases b with
  | own names method fault' =>
    simp only [Hub.taken?] at ht
    split_ifs at ht with hown
    cases ht
    obtain ⟨hperm, hmethod⟩ := hown
    refine ⟨names, ⟨hperm.nodup_iff.mpr hkeys.nodup, fun o => hperm.mem_iff.trans (hkeys.mem o)⟩, ?_⟩
    rw [Hub.ownCall, hhead, Option.bind_some, hk, Option.all_some, decide_eq_true_eq] at hmethod
    rw [hmethod]
  | turn d =>
    cases d with
    | work x value fault' =>
      simp only [Hub.taken?] at ht
      split_ifs at ht with hx
      cases ht
      exact absurd rfl hx
    | _ => cases ht

theorem Transition.execution (h : Transition T s a s' es) (he : Event.executed z k v ∈ es) :
    ∃ fault objects data, a = .work z v fault ∧ T.objects z = some objects ∧
      (s.toClient z).head? = some data ∧ Worker.knownCall T.text.worker objects data = some k := by
  cases h with
  | @work y value fault objects data rest hx hs hn hd =>
    obtain ⟨k', hk, heq⟩ := List.mem_map.mp he
    cases heq
    exact ⟨fault, objects, data, rfl, hx, hd ▸ rfl, Option.mem_toList.mp hk⟩
  | broker | readerLoop | writerLoop =>
    obtain ⟨e, -, heq⟩ := List.mem_map.mp he
    cases heq
  | _ => cases he

theorem knownCall_mem {json : WorkerJson} {objects : List String} {data : List UInt8}
    (h : Worker.knownCall json objects data = some k) : k.objectName ∈ objects := by
  unfold Worker.knownCall at h
  split at h
  · split_ifs at h with hmem
    cases h
    exact hmem
  · cases h

def listing : Call := ⟨⟨"1"⟩, rob, "listObjects", .null⟩

def listMessages : List Packet :=
  [.request (.registerObject rob), .response (.registered rob), .request (.call listing),
    .response (.result ⟨"1"⟩ rob (.array [.string rob]))]

def inListing : Packet → Bool
  | .request (.registerObject "rob") | .response (.registered "rob")
  | .request (.call ⟨⟨"1"⟩, "rob", "listObjects", .null⟩)
  | .response (.result ⟨"1"⟩ "rob" (.array [.string "rob"])) => true
  | _ => false

def listWorker : Setup where
  text := compactJson (fun _ => []) fun data =>
    (listMessages.map Packet.serialize).find? fun v => v.text (fun _ => []) = data
  objects x := if x = Broker.workerA then some [rob] else none

def listHost : Host where
  setup := listWorker
  own := Broker.workerA
  shares := by simp only [listWorker, if_true]
  alone y objects hy _ := by
    by_contra hne
    simp only [listWorker, if_neg hne] at hy
    cases hy

def listTest (w : World Hub HubStep) (b : HubAction) : Bool :=
  (w.state.taken? listHost b).all fun d =>
    (wire listHost.setup w.state.whole d).all inListing &&
      (brokerAction? listHost.setup w.state.whole d).all
        (Broker.freshCall (brokerWorld (wholeWorld w.events)))

theorem inListing_inverts {p : Packet} (h : inListing p = true) : listWorker.text.Inverts p := by
  unfold inListing at h
  split at h
  · rfl
  · rfl
  · rfl
  · rfl
  · cases h

theorem orderly_of_listTest {w : World Hub HubStep} (h : listTest w b = true) :
    OrderlyHub listHost w.events b := by
  intro d hd
  have hd' : w.state.taken? listHost b = some d := hd
  simp only [listTest, hd', Option.all_some, Bool.and_eq_true] at h
  obtain ⟨hknown, hfresh⟩ := h
  refine ⟨fun p hp => inListing_inverts (List.all_eq_true.mp hknown p hp), fun e he => ?_⟩
  have he' : brokerAction? listHost.setup w.state.whole d = some e := he
  rw [he'] at hfresh
  exact hfresh

def callsList : List Action :=
  [.broker (.connect Broker.workerA), .broker (.connect Broker.callerC),
    .register Broker.workerA none, .readerLoop Broker.workerA] ++ handlers Broker.workerA 4 ++
    [.request Broker.callerC (.call listing), .readerLoop Broker.callerC] ++
    handlers Broker.callerC 3 ++ [.writerLoop Broker.workerA]

def listed : List HubAction :=
  callsList.map .turn ++
    [.own [rob] "listObjects" none, .turn (.writerLoop Broker.workerA), .own [rob] "listObjects" none,
      .turn (.readerLoop Broker.workerA)] ++ (handlers Broker.workerA 2).map .turn ++
    [.turn (.writerLoop Broker.callerC)]

def writesResult (x : ClientId) : List HubStep → Bool
  | [] => false
  | st :: _ => st.events.any fun
    | .broker (.delivered y (.response (.result ⟨"1"⟩ "rob" (.array [.string "rob"])))) => y = x
    | _ => false

end IpcBroker.Deployment
