import IpcBroker.Broker.QueuedCalls
import IpcBroker.Broker.WorkerLoss

/-! A call is put only on the channel of a client that registered its object before, by either of
the two ways it can take: forwarded at once, or queued and sent when the object is registered. -/

namespace IpcBroker
open Function Foundation

def Registers (tr : List Event) (x : ClientId) (o : String) : Prop :=
  Event.received x (.request (.registerObject o)) ∈ tr

def TargetsOwner (tr : List Event) (x : ClientId) : Phase → Prop
  | .handling (.callInsert k _ workerTx _) =>
    ∀ tx, workerTx = some tx → Registers tr tx.channel k.objectName
  | .handling (.callForward k tx) => Registers tr tx.channel k.objectName
  | .handling (.sendLookup msg rest) | .handling (.sendAwait _ msg rest) =>
    ∀ k, Packet.request (.call k) ∈ msg :: rest → Registers tr x k.objectName
  | _ => True

variable {es tr : List Event} {x y : ClientId} {o : String}

theorem Registers.append (h : Registers tr x o) (es : List Event) : Registers (es ++ tr) x o :=
  List.mem_append_right es h

theorem TargetsOwner.append {p : Phase} (h : TargetsOwner tr x p) (es : List Event) :
    TargetsOwner (es ++ tr) x p := by
  unfold TargetsOwner at h ⊢
  split at h
  · exact fun tx htx => (h tx htx).append es
  · exact Registers.append h es
  · exact fun k hk => (h k hk).append es
  · exact fun k hk => (h k hk).append es
  · trivial

namespace Broker
variable {s s' : Broker} {a : Action} {w w' : World Broker Event}

theorem targets_afterSends {msgs : List Packet}
    (h : ∀ k, Packet.request (.call k) ∈ msgs → Registers tr x k.objectName) :
    TargetsOwner tr x (afterSends msgs) := by
  cases msgs with
  | nil => trivial
  | cons msg rest => exact h

theorem targets_next (event : RpcResponse) (txs : List ClientSender) :
    TargetsOwner tr x (handlePublish.next event txs) := by
  cases txs <;> trivial

theorem targets_response (r : RpcResponse) : TargetsOwner tr x (afterSends [.response r]) :=
  targets_afterSends fun k hk => by cases List.mem_singleton.mp hk

structure OwnersRegistered (w : World Broker Event) : Prop where
  objects : ∀ o x, w.state.objects o = some x → Registers w.trace x o
  phase : ∀ x, TargetsOwner w.trace x (w.state.phase x)

theorem registers_of_sent {seg : List Event}
    (h : handled x tr = some (.request (.registerObject o), seg)) : Registers tr x o := by
  obtain ⟨e, he, hp⟩ := lastOf_mem h
  unfold Event.packetOf? at hp
  split at hp
  · next y p =>
    split_ifs at hp with hy
    cases hp
    exact hy ▸ he
  · cases hp

theorem Transition.targets (h : Transition s a s' es) (hI : OwnersRegistered ⟨s, tr⟩)
    (hL : Lifecycle s) (hQ : CallOwners ⟨s, tr⟩) (hR : RegistrationSent ⟨s, tr⟩) :
    ∀ y, TargetsOwner (es ++ tr) y (s'.phase y) := by
  have hkeep : ∀ {x p}, TargetsOwner (es ++ tr) x p → ∀ y,
      TargetsOwner (es ++ tr) y (update s.phase x p y) := by
    intro x p hp y
    by_cases hy : y = x
    · subst hy
      rw [update_self]
      exact hp
    · rw [update_of_ne hy]
      exact (hI.phase y).append es
  cases h with
  | receiveInvalid | receiveIdle | write | writeError | stopWriter | spawnEnd =>
    exact fun y => (hI.phase y).append _
  | @receive x p pc hx hd =>
    refine hkeep ?_
    obtain ⟨r, rfl, rfl⟩ | ⟨resp, c, rfl, hc, rfl⟩ := dispatch_cases hd
    · cases r <;> trivial
    · trivial
  | @registerServices x o e hx hl he =>
    refine hkeep (targets_afterSends fun k hk => ?_)
    obtain ⟨seg, hsent⟩ := hR x o (.inr hx)
    obtain hk | hk := List.mem_append.mp hk
    · -- the calls in the queue of a service are calls of its own object
      obtain ⟨r, hr, hrk⟩ := List.mem_map.mp hk
      obtain ⟨z, k', rfl, ho, -⟩ := hQ.pending o e r he hr
      cases hrk
      rw [ho]
      exact (registers_of_sent hsent).append _
    · cases List.mem_singleton.mp hk
  | registerPlain | callGone | callUnknown | subscribe | hasObject =>
    exact hkeep (targets_response _)
  | @callLookup x k tx hx hc =>
    refine hkeep fun t ht => ?_
    obtain ⟨v, hv, hvt⟩ := Option.bind_eq_some_iff.mp ht
    have htv : t = ⟨v⟩ := by
      rw [hL.clients v] at hvt
      split_ifs at hvt
      exact (Option.some.inj hvt).symm
    rw [htv]
    exact (hI.objects _ v hv).append _
  | @callInsert x k workerId workerTx tx hx =>
    refine hkeep ?_
    have hsrc := hI.phase x
    simp only [hx] at hsrc
    obtain ⟨v, t, -, ht, hroute⟩ | ⟨-, hroute⟩ := route_cases k workerId workerTx
    · rw [hroute]
      exact Registers.append (hsrc t ht) _
    · rw [hroute]
      trivial
  | publishSenders => exact hkeep (targets_next _ _)
  | @sendLookup x msg rest tx hx =>
    have hsrc := hI.phase x
    simp only [hx] at hsrc
    exact hkeep fun k hk => (hsrc k hk).append _
  | @sendLookupGone x msg rest hx =>
    have hsrc := hI.phase x
    simp only [hx] at hsrc
    exact hkeep (targets_afterSends fun k hk => (hsrc k (List.mem_cons_of_mem _ hk)).append _)
  | @send x pc site tx msg p hx hs | @sendFailed x pc site tx msg p hx hs =>
    have hsrc := hI.phase x
    simp only [hx] at hsrc
    refine hkeep ?_
    obtain ⟨k, rfl, -, rfl, rfl⟩ | ⟨resp, rfl, -, rfl, rfl⟩ | ⟨event, rest, rfl, -, rfl, rfl⟩ |
      ⟨rest, rfl, -, rfl⟩ := HandlerPc.sends_cases hs
    · trivial
    · trivial
    · exact targets_next event rest
    · exact targets_afterSends fun k hk => (hsrc k (List.mem_cons_of_mem _ hk)).append _
  | _ => exact hkeep trivial

theorem ownersRegistered {ok : World Broker Event → Action → Prop} (h : broker.RunWhere ok w) :
    OwnersRegistered w := by
  refine h.invariant ?_ ?_
  · rintro _ ⟨items, rfl⟩
    exact ⟨nofun, fun _ => trivial⟩
  · intro w a w' hr hI _ hn
    obtain ⟨es, ht, htr⟩ := next_transition hn
    have hR := registrationSent hr
    constructor
    · intro o x ho
      rw [htr]
      obtain ⟨hobj, -⟩ | ⟨z, o', -, hz, -, hobj, -⟩ | ⟨z, -, -, -, hobj⟩ := ht.objects
      · rw [hobj] at ho
        exact (hI.objects o x ho).append es
      · rw [hobj] at ho
        by_cases hoo : o = o'
        · subst hoo
          rw [update_self] at ho
          cases ho
          obtain ⟨seg, hsent⟩ := hR x o (.inl hz)
          exact (registers_of_sent hsent).append es
        · rw [update_of_ne hoo] at ho
          exact (hI.objects o x ho).append es
      · simp only [hobj] at ho
        split_ifs at ho
        exact (hI.objects o x ho).append es
    · rw [htr]
      exact ht.targets hI (lifecycle hr) (callOwners hr) hR

theorem Transition.target {site : SendSite} {k : Call} (h : Transition s a s' es)
    (hI : OwnersRegistered ⟨s, tr⟩) (hL : Lifecycle s)
    (he : Event.enqueued site x y (.request (.call k)) ∈ es) : Registers tr y k.objectName := by
  obtain ⟨pc, tx, p, rfl, hz, hs, rfl, -⟩ := h.sender he
  have hsrc := hI.phase x
  simp only [hz] at hsrc
  obtain ⟨k', rfl, -, hk, -⟩ | ⟨resp, rfl, -, hk, -⟩ | ⟨event, rest, rfl, -, hk, -⟩ |
    ⟨rest, rfl, -, -⟩ := HandlerPc.sends_cases hs
  · cases hk
    exact hsrc
  · cases hk
  · cases hk
  · rw [hL.ownTx x tx _ _ hz]
    exact hsrc k List.mem_cons_self

def flushesTo (z : ClientId) : Event → Bool
  | .enqueued .sendToClient x y (.request (.call _)) => x = z && y = z
  | _ => false

theorem flushed_of_any (h : tr.any (flushesTo x) = true) :
    ∃ k, Event.enqueued .sendToClient x x (.request (.call k)) ∈ tr := by
  obtain ⟨e, he, hf⟩ := List.any_eq_true.mp h
  unfold flushesTo at hf
  split at hf
  · next z y k =>
    rw [Bool.and_eq_true, decide_eq_true_eq, decide_eq_true_eq] at hf
    obtain ⟨rfl, rfl⟩ := hf
    exact ⟨k, he⟩
  · cases hf

/-- Every request on its way to a client is a call that some client sent, unchanged, of an object
that its receiver had registered before the call was put on its channel. -/
theorem calls_reach_owners {ok : World Broker Event → Action → Prop} (h : broker.RunWhere ok w)
    {site : SendSite} {r : RpcRequest}
    (he : Event.enqueued site x y (.request r) :: tr <:+ w.trace) :
    ∃ k, r = .call k ∧ Registers tr y k.objectName ∧ ∃ z, Issued tr z k := by
  obtain ⟨w₀, a, w₁, es₁, es₂, hr, -, hn, hs, rfl, -⟩ := h.emitted he
  have ht := step_transition hs
  have hmem : Event.enqueued site x y (.request r) ∈ es₁ ++ .enqueued site x y (.request r) :: es₂ :=
    List.mem_append_right _ List.mem_cons_self
  have hS := sources hr
  obtain ⟨z, k, rfl, hk⟩ := ht.enqueued hS.phase (callOwners hr) (lifecycle hr) hmem
  have hreg : Registers w₀.trace y k.objectName :=
    ht.target (ownersRegistered hr) (lifecycle hr) hmem
  exact ⟨k, rfl, hreg.append es₂, z, hk.append es₂⟩

def callFlushed : List Action :=
  [.connect workerA, .connect callerC] ++ request callerC (.call (callOf "1" "o")) 4 ++
    request workerA (.registerObject "o") 4

theorem calls_reach_owners_flushed :
    ∃ w tr k, broker.exec (fun _ _ => True) ⟨Broker.initial (activationOf "o"), []⟩ callFlushed =
        some w ∧
      Event.enqueued .sendToClient workerA workerA (.request (.call k)) :: tr <:+ w.trace ∧
      Registers tr workerA k.objectName ∧ ∃ z, Issued tr z k := by
  obtain ⟨w, hr, he, ht⟩ := System.RunWhere.of_exec_any broker (fun _ _ => True) callFlushed
    (fun w => w.trace.any (flushesTo workerA)) ⟨activationOf "o", rfl⟩ (by decide)
  obtain ⟨k, hk⟩ := flushed_of_any ht
  obtain ⟨tr₁, tr, htr⟩ := List.append_of_mem hk
  have hsuffix : Event.enqueued .sendToClient workerA workerA (.request (.call k)) :: tr <:+
      w.trace := ⟨tr₁, htr.symm⟩
  obtain ⟨k', hkk, hreg, hissued⟩ := calls_reach_owners hr hsuffix
  cases hkk
  exact ⟨w, tr, k, he, hsuffix, hreg, hissued⟩

end Broker
end IpcBroker
