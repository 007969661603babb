import IpcBroker.Broker.AnswerCopies
import IpcBroker.Broker.MessageSources

/-! The routing of responses: a call is answered at most once, on the channel of its caller, with
what the worker sent to which it had been delivered. -/

namespace IpcBroker
open Function Foundation
namespace Broker
variable {a : Action} {x : ClientId} {k : Call} {c : CallId} {w : World Broker Event}

theorem delivered_of_answersReceived {resp : RpcResponse}
    (h : answersReceived w (.receive x (some (.response resp))) = true)
    (hc : resp.callId? = some c) :
    ∃ k, k.callId = c ∧ Event.delivered x (.request (.call k)) ∈ w.trace := by
  simp only [answersReceived, hc, Option.all_some, List.any_eq_true] at h
  obtain ⟨e, he, htest⟩ := h
  split at htest
  · next y p =>
    rw [Bool.and_eq_true, decide_eq_true_eq] at htest
    obtain ⟨rfl, hp⟩ := htest
    obtain ⟨k, hk, hid⟩ := (Option.any_eq_true _ _).mp hp
    refine ⟨k, of_decide_eq_true hid, ?_⟩
    cases p with
    | request r =>
      cases r <;> cases hk
      exact he
    | response r => cases hk
  · cases htest

section Honest
variable {ok : World Broker Event → Action → Prop}

theorem answered_delivered (hans : ∀ w a, ok w a → answersReceived w a = true)
    (h : broker.RunWhere ok w) {resp : RpcResponse}
    (hr : Event.received x (.response resp) ∈ w.trace) (hc : resp.callId? = some c) :
    ∃ k, k.callId = c ∧ Event.delivered x (.request (.call k)) ∈ w.trace := by
  revert x resp c
  refine h.invariant (I := fun w => ∀ {x resp c}, Event.received x (.response resp) ∈ w.trace →
    resp.callId? = some c → ∃ k, k.callId = c ∧
      Event.delivered x (.request (.call k)) ∈ w.trace) nofun ?_
  intro w a w' hr hI hok hn x resp c hrec hc
  obtain ⟨es, ht, htr⟩ := next_transition hn
  rw [htr, List.mem_append] at hrec
  have hbefore : ∃ k, k.callId = c ∧ Event.delivered x (.request (.call k)) ∈ w.trace := by
    obtain hrec | hrec := hrec
    · obtain ⟨rfl, -, -⟩ := ht.received hrec
      exact delivered_of_answersReceived (hans w _ hok) hc
    · exact hI hrec hc
  obtain ⟨k, hid, hk⟩ := hbefore
  exact ⟨k, hid, htr ▸ List.mem_append_right es hk⟩

theorem sent_of_delivered (hS : Sources w) (hk : k.callId = c)
    (hd : Event.delivered x (.request (.call k)) ∈ w.trace) :
    0 < w.trace.countP (Event.sendsCall c) := by
  obtain ⟨site, z, he⟩ := hS.delivered x _ hd
  refine List.countP_pos_iff.mpr ⟨_, he, ?_⟩
  simp [Event.sendsCall, Packet.calls, Packet.call?, RpcRequest.call?, hk]

theorem answerCopies_atMostOne (hfresh : ∀ w a, ok w a → freshCall w a = true)
    (hans : ∀ w a, ok w a → answersReceived w a = true) (h : broker.RunWhere ok w)
    (c : CallId) : AtMostOne (answerCopies w c) := by
  refine h.invariant (I := fun w => AtMostOne (answerCopies w c)) ?_ ?_
  · rintro _ ⟨items, rfl⟩
    refine ⟨.undecided, Nat.le_refl _, fun q hq => ?_⟩
    cases q with
    | undecided => exact absurd rfl hq
    | task | outstanding | answered => rfl
  · intro w a w' hr hI hok hn
    obtain ⟨es, ht, htr⟩ := next_transition hn
    have hS := sources hr
    have hcopies := callCopies_atMostOne hfresh hr c
    have hsent : ∀ x resp c, a = .handler x →
        w.state.phase x = .handling (.responseTake resp c) →
        resp.callId? = some c ∧ 0 < w.trace.countP (Event.sendsCall c) := by
      intro x resp c' _ hx
      have hsrc := hS.phase x
      rw [hx] at hsrc
      obtain ⟨hid, hrec⟩ := hsrc
      obtain ⟨k, hk, hd⟩ := answered_delivered hans hr hrec hid
      exact ⟨hid, sent_of_delivered hS hk hd⟩
    have hstep : ∃ i j, Flows (answerCopies ⟨w.state, w.trace⟩ c)
        (answerCopies ⟨w'.state, es ++ w.trace⟩ c) i j := ht.answerFlow hcopies hsent
    obtain ⟨i, j, hflow⟩ := hstep
    rw [← htr] at hflow
    exact hI.flows hflow

end Honest

/-- Call ids are distinct, and workers answer only calls they received. -/
def honestRun (w : World Broker Event) (a : Action) : Bool := freshCall w a && answersReceived w a

theorem honestRun_fresh (w : World Broker Event) (a : Action) (h : honestRun w a = true) :
    freshCall w a = true := ((Bool.and_eq_true _ _).mp h).1

theorem honestRun_answers (w : World Broker Event) (a : Action) (h : honestRun w a = true) :
    answersReceived w a = true := ((Bool.and_eq_true _ _).mp h).2

/-- The call `k` of `x` led to one terminal message at most, on the channel of `x`; one that was
forwarded is what a worker sent to which the call had been delivered. -/
structure AnsweredOnce (tr : List Event) (x : ClientId) (k : Call) : Prop where
  once : tr.countP (Event.answers k.callId) ≤ 1
  toCaller : ∀ site z y resp, Event.enqueued site z y (.response resp) ∈ tr →
    resp.callId? = some k.callId → y = x
  asSent : ∀ z y resp, Event.enqueued .handleResponse z y (.response resp) ∈ tr →
    resp.callId? = some k.callId →
      Event.received z (.response resp) ∈ tr ∧ Event.delivered z (.request (.call k)) ∈ tr

/-- Responses are routed correctly and at most once, in every run with distinct ids whose
workers answer only what they received. -/
theorem responses_routed (h : broker.RunWhere (fun w a => honestRun w a = true) w)
    (hk : Issued w.trace x k) : AnsweredOnce w.trace x k := by
  have hS := sources h
  refine ⟨?_, ?_, ?_⟩
  · exact (answerCopies_atMostOne honestRun_fresh honestRun_answers h k.callId).le_one .answered
  · intro site z y resp he hid
    obtain ⟨⟨k', hk', hid'⟩, -⟩ := hS.enqueued site z y _ he k.callId hid
    exact (issued_unique honestRun_fresh h hk' hk hid').1
  · intro z y resp he hid
    obtain ⟨-, ⟨-, hrec⟩ | ⟨hsite, -⟩⟩ := hS.enqueued .handleResponse z y _ he k.callId hid
    swap
    · cases hsite
    obtain ⟨j, hj, hdel⟩ := answered_delivered honestRun_answers h hrec hid
    obtain ⟨site, z', he'⟩ := hS.delivered z _ hdel
    obtain ⟨z'', j', hjj, hissued⟩ := hS.enqueued site z' z _ he'
    cases hjj
    obtain ⟨-, rfl⟩ := issued_unique honestRun_fresh h hissued hk hj
    exact ⟨hrec, hdel⟩

def callAnswered : List Action :=
  [.connect workerA, .connect callerC] ++ request workerA (.registerObject "o") 4 ++
    request callerC (.call (callOf "1" "o")) 3 ++ [.write workerA, .write workerA,
      .receive workerA (some (.response (.result ⟨"1"⟩ "o" .null))), .handler workerA,
      .handler workerA, .write callerC]

theorem responses_routed_callAnswered :
    ∃ w k, broker.exec (fun w a => honestRun w a = true) ⟨Broker.initial [], []⟩ callAnswered =
        some w ∧
      w.trace.countP (Event.answers k.callId) = 1 ∧ AnsweredOnce w.trace callerC k := by
  obtain ⟨w, hr, he, ht⟩ := System.RunWhere.of_exec_any broker
    (fun w a => honestRun w a = true) callAnswered
    (fun w => w.trace.any (Event.reads callerC ⟨"1"⟩) &&
      w.trace.countP (Event.answers ⟨"1"⟩) = 1)
    ⟨[], rfl⟩ (by decide)
  rw [Bool.and_eq_true, decide_eq_true_eq] at ht
  obtain ⟨k, hk, hid⟩ := issued_of_reads ht.1
  exact ⟨w, k, he, hid ▸ ht.2, responses_routed hr hk⟩

end Broker
end IpcBroker
