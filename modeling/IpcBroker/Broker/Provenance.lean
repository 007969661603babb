import IpcBroker.Broker.ResponseCopies

/-! Responses are routed by the id of the call alone: the first one to find the entry of the call
is forwarded to its caller, whoever sent it, and any later one changes nothing. -/

namespace IpcBroker
open Function Foundation
namespace Broker
variable {s s' : Broker} {es tr : List Event} {x y z : ClientId} {c : CallId}
  {w w' : World Broker Event}

/-- What `handle_response` makes of the responses that clients send. -/
structure RoutedById (w : World Broker Event) : Prop where
  asReceived : ∀ z y resp tr c,
    Event.enqueued .handleResponse z y (.response resp) :: tr <:+ w.trace →
      resp.callId? = some c → Event.received z (.response resp) ∈ tr ∧ ForCaller tr y c
  once : ∀ c, w.trace.countP (Event.forwards c) ≤ 1
  taken : ∀ z resp c caller tx w', w.state.phase z = .handling (.responseTake resp c) →
    w.state.calls c = some (caller, tx) → broker.next w (.handler z) = some w' →
      w'.state.phase z = .handling (.responseForward resp ⟨caller⟩) ∧
        w'.state.calls = update w.state.calls c none ∧ w'.state.channel = w.state.channel
  spent : ∀ z resp c w', w.state.phase z = .handling (.responseTake resp c) →
    w.state.calls c = none → broker.next w (.handler z) = some w' →
      w'.state.phase z = .reading ∧ w'.state.calls = w.state.calls ∧
        w'.state.channel = w.state.channel

theorem Transition.ran_responseTake {resp : RpcResponse} (h : Transition s (.handler z) s' es)
    (hz : s.phase z = .handling (.responseTake resp c)) :
    s' = (handleResponse s z resp c).1 :=
  (congrArg Prod.fst (Option.some.inj (h.ran hz))).symm

/-- With distinct ids, a response is forwarded to the client that issued the call, once, and
unchanged; which client sent it does not matter. -/
theorem responses_routed_by_id (h : broker.RunWhere (fun w a => freshCall w a = true) w) :
    RoutedById w := by
  refine ⟨?_, ?_, ?_, ?_⟩
  · intro z y resp tr c he hid
    obtain ⟨w₀, a, w₁, es₁, es₂, hr, -, hn, hs, rfl, -⟩ := h.emitted he
    have hS := sources hr
    have hmem : Event.enqueued .handleResponse z y (.response resp) ∈
        es₁ ++ .enqueued .handleResponse z y (.response resp) :: es₂ :=
      List.mem_append_right _ List.mem_cons_self
    have hsrc := (step_transition hs).enqueued hS.phase (callOwners hr) (lifecycle hr) hmem
    obtain ⟨hcaller, ⟨-, hrec⟩ | ⟨hsite, -⟩⟩ := hsrc c hid
    · exact ⟨List.mem_append_right _ hrec, hcaller.append es₂⟩
    · cases hsite
  · intro c
    exact (responseCopies_atMostOne (fun _ _ hok => hok) h c).le_one .forwarded
  · intro z resp c caller tx w' hz hc hn
    obtain ⟨es, ht, -⟩ := next_transition hn
    have htx : tx = ⟨caller⟩ := ((lifecycle h).calls c caller tx hc).1
    rw [ht.ran_responseTake hz]
    simp only [handleResponse, hc, htx]
    exact ⟨update_self .., rfl, rfl⟩
  · intro z resp c w' hz hc hn
    obtain ⟨es, ht, -⟩ := next_transition hn
    rw [ht.ran_responseTake hz]
    simp only [handleResponse, hc]
    exact ⟨update_self .., rfl, rfl⟩

def answeredByAnother : List Action :=
  [.connect workerA, .connect callerC, .connect callerD] ++
    request workerA (.registerObject "o") 4 ++ request callerC (.call (callOf "1" "o")) 3 ++
    [.receive callerD (some (.response (.result ⟨"1"⟩ "o" .null))), .handler callerD]

def forwardingFor (s : Broker) (z : ClientId) (c : CallId) : Bool :=
  match s.phase z with
  | .handling (.responseForward resp _) => resp.callId? = some c
  | _ => false

theorem responses_routed_by_id_answered :
    ∃ w, broker.exec (fun w a => freshCall w a = true) ⟨Broker.initial [], []⟩ answeredByAnother =
      some w ∧ forwardingFor w.state callerD ⟨"1"⟩ = true ∧ RoutedById w := by
  obtain ⟨w, hr, he, ht⟩ := System.RunWhere.of_exec_any broker
    (fun w a => freshCall w a = true) answeredByAnother
    (fun w => forwardingFor w.state callerD ⟨"1"⟩) ⟨[], rfl⟩ (by decide)
  exact ⟨w, he, ht, responses_routed_by_id hr⟩

def forwardsFrom (z : ClientId) (c : CallId) : Event → Bool
  | .enqueued .handleResponse x _ (.response resp) => x = z && resp.callId? = some c
  | _ => false

/-- The response that is forwarded need not come from a client the call was sent to. -/
theorem response_of_another_forwarded :
    ¬ ∀ (w : World Broker Event) (z y : ClientId) (resp : RpcResponse) (c : CallId),
      broker.RunWhere (fun w a => freshCall w a = true) w →
      Event.enqueued .handleResponse z y (.response resp) ∈ w.trace → resp.callId? = some c →
      ∃ site x k, Event.enqueued site x z (.request (.call k)) ∈ w.trace ∧ k.callId = c := by
  intro hall
  obtain ⟨w, hr, he, ht⟩ := System.RunWhere.of_exec_any broker
    (fun w a => freshCall w a = true) (answeredByAnother ++ [.handler callerD])
    (fun w => w.trace.any (forwardsFrom callerD ⟨"1"⟩) &&
      w.trace.all fun e => !sendsTo callerD ⟨"1"⟩ e)
    ⟨[], rfl⟩ (by decide)
  rw [Bool.and_eq_true, List.all_eq_true] at ht
  obtain ⟨hforward, hnone⟩ := ht
  obtain ⟨e, he, hf⟩ := List.any_eq_true.mp hforward
  unfold forwardsFrom at hf
  split at hf
  · next z y resp =>
    rw [Bool.and_eq_true, decide_eq_true_eq, decide_eq_true_eq] at hf
    obtain ⟨rfl, hid⟩ := hf
    obtain ⟨site, x, k, hsent, hk⟩ := hall w callerD y resp _ hr he hid
    have hno := hnone _ hsent
    simp [sendsTo, hk] at hno
  · cases hf

end Broker
end IpcBroker
