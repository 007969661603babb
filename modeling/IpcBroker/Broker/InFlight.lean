import Mathlib.Data.Set.Card
import IpcBroker.Broker.ResponseCopies
import IpcBroker.Broker.ResponseRouting

/-! An entry of `calls` stands for a call without an answer, as long as the error that refuses a
call is sent only when the entry of the call is gone. -/

namespace IpcBroker
open Function Foundation

/-- The call with the id `c` has been entered in `calls`, and its entry is gone. -/
def Settled (w : World Broker Event) (c : CallId) : Prop :=
  0 < w.trace.countP (Event.records c) ∧ w.state.calls c = none

/-- The calls of `x` that no `Result` or `Error` has been put on a channel for. -/
def unansweredCalls (tr : List Event) (x : ClientId) : List Call :=
  (tr.filterMap (Event.callFrom? x)).filter fun k => tr.countP (Event.answers k.callId) = 0

namespace Broker

/-- The error that refuses a call is sent only when the entry of the call has been taken. -/
def refusalSettled (w : World Broker Event) : Action → Bool
  | .handler x =>
    match w.state.phase x with
    | .handling (.sendAwait _ (.response r) _) =>
      r.callId?.all fun c => (w.state.calls c).isNone
    | _ => true
  | _ => true

/-- Call ids are distinct, and refusals find no entry left. -/
def entriesTaken (w : World Broker Event) (a : Action) : Bool := freshCall w a && refusalSettled w a

variable {s s' : Broker} {a : Action} {es tr : List Event} {x y : ClientId} {k : Call}
  {c : CallId} {w w' : World Broker Event}

theorem countP_records_append (h : 0 < tr.countP (Event.records c)) (es : List Event) :
    0 < (es ++ tr).countP (Event.records c) := by
  rw [List.countP_append]
  omega

theorem services_recorded {ok : World Broker Event → Action → Prop} (h : broker.RunWhere ok w)
    (hx : w.state.phase x = .handling (.callServices k)) :
    0 < w.trace.countP (Event.records k.callId) := by
  revert hx
  refine h.invariant (I := fun w => w.state.phase x = .handling (.callServices k) →
    0 < w.trace.countP (Event.records k.callId)) ?_ ?_
  · rintro _ ⟨items, rfl⟩ hx
    cases hx
  · intro w a w' hr hI _ hn hx
    obtain ⟨es, ht, htr⟩ := next_transition hn
    rw [htr]
    obtain hold | ⟨workerId, workerTx, tx, -, rfl⟩ := ht.entered_callServices hx
    · exact countP_records_append (hI hold) es
    · exact List.countP_pos_iff.mpr ⟨_, List.mem_cons_self, decide_eq_true rfl⟩

theorem Transition.refused (h : Transition s a s' es) (hk : Event.refused x k ∈ es) :
    s.phase x = .handling (.callServices k) ∨
      s.phase x = .handling (.callLookup k) ∧ s.clients x = none := by
  cases h with
  | callUnknown hx =>
    cases List.mem_singleton.mp hk
    exact .inl hx
  | callGone hx hc =>
    simp only [List.mem_cons, List.not_mem_nil, or_false, Event.refused.injEq, reduceCtorEq] at hk
    obtain ⟨rfl, rfl⟩ := hk
    exact .inr ⟨hx, hc⟩
  | _ => simp at hk

theorem refused_recorded {ok : World Broker Event → Action → Prop} (h : broker.RunWhere ok w)
    (hk : Event.refused x k ∈ w.trace) : 0 < w.trace.countP (Event.records k.callId) := by
  revert hk
  refine h.invariant (I := fun w => Event.refused x k ∈ w.trace →
    0 < w.trace.countP (Event.records k.callId)) nofun ?_
  intro w a w' hr hI _ hn hk
  obtain ⟨es, ht, htr⟩ := next_transition hn
  rw [htr] at hk ⊢
  obtain hk | hk := List.mem_append.mp hk
  · obtain hx | ⟨hx, hgone⟩ := ht.refused hk
    · exact countP_records_append (services_recorded hr hx) es
    · rw [(lifecycle hr).clients x, hx] at hgone
      cases hgone
  · exact countP_records_append (hI hk) es

theorem refusal_taken {pc : HandlerPc} {tx : ClientSender} {r : RpcResponse} {p : Phase}
    (hx : w.state.phase x = .handling pc)
    (hs : pc.sends = some (.sendToClient, tx, .response r, p)) (hid : r.callId? = some c)
    (hok : refusalSettled w (.handler x) = true) : w.state.calls c = none := by
  obtain ⟨k, -, hsite, -⟩ | ⟨resp, -, hsite, -⟩ | ⟨event, rest, -, hsite, -⟩ | ⟨rest, rfl, -⟩ :=
    HandlerPc.sends_cases hs
  · cases hsite
  · cases hsite
  · cases hsite
  · simp only [refusalSettled, hx, hid, Option.all_some] at hok
    exact Option.isNone_iff_eq_none.mp hok

section Distinct
variable {ok : World Broker Event → Action → Prop}

theorem settled_next (h : Settled w c) (hfresh : ∀ w a, ok w a → freshCall w a = true)
    (hr : broker.RunWhere ok w) (hn : broker.next w a = some w') : Settled w' c := by
  obtain ⟨hrec, hnone⟩ := h
  obtain ⟨es, ht, htr⟩ := next_transition hn
  refine ⟨htr ▸ countP_records_append hrec es, ?_⟩
  obtain ⟨hsame, -⟩ | ⟨z, j, workerId, workerTx, tx, -, hz, hcalls, -⟩ |
    ⟨z, resp, c', caller, tx, -, -, -, hcalls, -, -⟩ | ⟨z, -, -, hcalls⟩ := ht.calls
  · rw [hsame]
    exact hnone
  · -- only a call that has never been entered is entered now
    have hnew := unrecorded_fresh hfresh hr (x := z) (k := j) (by rw [hz]; rfl)
    have hid : c ≠ j.callId := by
      rintro rfl
      rw [hnew] at hrec
      exact absurd hrec (Nat.lt_irrefl 0)
    rw [hcalls, update_of_ne hid]
    exact hnone
  · rw [hcalls]
    by_cases hid : c = c'
    · rw [hid, update_self]
    · rw [update_of_ne hid]
      exact hnone
  · simp only [hcalls, hnone, Option.filter_none]

theorem settled_of_forwarded (hfresh : ∀ w a, ok w a → freshCall w a = true)
    (h : broker.RunWhere ok w) (hc : 0 < w.trace.countP (Event.forwards c)) : Settled w c := by
  have hone := responseCopies_atMostOne hfresh h c
  have hentry : ResponsePlace.entry ≠ .forwarded := fun h => by cases h
  have hunrecorded : ResponsePlace.unrecorded ≠ .forwarded := fun h => by cases h
  have hpos : 0 < responseCopies w c .forwarded := hc
  have h₁ : responseCopies w c .entry = 0 := hone.eq_zero hpos hentry
  have h₂ : responseCopies w c .unrecorded = 0 := hone.eq_zero hpos hunrecorded
  simp only [responseCopies] at h₁ h₂
  constructor
  · split_ifs at h₂ with hzero
    omega
  · split_ifs at h₁ with hsome
    exact Option.not_isSome_iff_eq_none.mp hsome

theorem answer_settled (hfresh : ∀ w a, ok w a → freshCall w a = true)
    (hrefuse : ∀ w a, ok w a → refusalSettled w a = true) (h : broker.RunWhere ok w)
    (hc : 0 < w.trace.countP (Event.answers c)) : Settled w c := by
  revert hc
  refine h.invariant (I := fun w => 0 < w.trace.countP (Event.answers c) → Settled w c) nofun ?_
  intro w a w' hr hI hok hn hc
  obtain ⟨es, ht, htr⟩ := next_transition hn
  by_cases hold : 0 < w.trace.countP (Event.answers c)
  · exact settled_next (hI hold) hfresh hr hn
  · have hr' : broker.RunWhere ok w' := .step hr hok hn
    have hnew : 0 < es.countP (Event.answers c) := by
      rw [htr, List.countP_append] at hc
      omega
    obtain ⟨e, he, hans⟩ := List.countP_pos_iff.mp hnew
    unfold Event.answers at hans
    split at hans
    · next site z y msg =>
      have hmem : Event.enqueued site z y msg ∈ w'.trace := htr ▸ List.mem_append_left _ he
      cases msg with
      | request r => cases hans
      | response r =>
        have hid : r.callId? = some c := of_decide_eq_true hans
        obtain ⟨pc, tx, p, rfl, hz, hs, -, -, rfl, hs'⟩ := ht.sender he
        have hsrc := ht.enqueued (sources hr).phase (callOwners hr) (lifecycle hr) he c hid
        obtain ⟨-, ⟨rfl, -⟩ | ⟨rfl, j, rfl, hj⟩⟩ := hsrc
        · exact settled_of_forwarded hfresh hr' (List.countP_pos_iff.mpr ⟨_, hmem, hans⟩)
        · refine ⟨refused_recorded hr' (htr ▸ List.mem_append_right _ hj), ?_⟩
          rw [hs']
          exact refusal_taken hz hs hid (hrefuse w _ hok)
    · cases hans

end Distinct

/-- Every entry of `calls` is that of a call without an answer, and a client has no more entries
than unanswered calls. -/
structure EntriesInFlight (w : World Broker Event) : Prop where
  unanswered : ∀ c caller tx, w.state.calls c = some (caller, tx) →
    w.trace.countP (Event.answers c) = 0
  bounded : ∀ x, {c | ∃ tx, w.state.calls c = some (x, tx)}.encard ≤
    (unansweredCalls w.trace x).length

theorem mem_unansweredCalls (hk : Issued tr x k) (hc : tr.countP (Event.answers k.callId) = 0) :
    k ∈ unansweredCalls tr x :=
  List.mem_filter.mpr ⟨List.mem_filterMap.mpr ⟨_, hk, if_pos rfl⟩, decide_eq_true hc⟩

/-- No entry of `calls` outlives its answer, in every run with distinct ids whose refusals find
the entry of the call gone. -/
theorem no_entry_outlives_answer (h : broker.RunWhere (fun w a => entriesTaken w a = true) w) :
    EntriesInFlight w := by
  have hfresh : ∀ w a, entriesTaken w a = true → freshCall w a = true := fun w a hok =>
    ((Bool.and_eq_true _ _).mp hok).1
  have hrefuse : ∀ w a, entriesTaken w a = true → refusalSettled w a = true := fun w a hok =>
    ((Bool.and_eq_true _ _).mp hok).2
  have hun : ∀ c caller tx, w.state.calls c = some (caller, tx) →
      w.trace.countP (Event.answers c) = 0 := by
    intro c caller tx hc
    by_contra hne
    have hnone := (answer_settled hfresh hrefuse h (Nat.pos_of_ne_zero hne)).2
    cases hnone.symm.trans hc
  refine ⟨hun, fun x => ?_⟩
  have hsub : {c | ∃ tx, w.state.calls c = some (x, tx)} ⊆
      ↑((unansweredCalls w.trace x).map (·.callId)).toFinset := by
    rintro c ⟨tx, hc⟩
    obtain ⟨k, hk, rfl⟩ := (callOwners h).calls c x tx hc
    exact List.mem_toFinset.mpr (List.mem_map_of_mem (mem_unansweredCalls hk (hun _ x tx hc)))
  calc {c | ∃ tx, w.state.calls c = some (x, tx)}.encard
      ≤ (↑((unansweredCalls w.trace x).map (·.callId)).toFinset : Set CallId).encard :=
        Set.encard_le_encard hsub
    _ = ((unansweredCalls w.trace x).map (·.callId)).toFinset.card := Set.encard_coe_eq_coe_finsetCard _
    _ ≤ ((unansweredCalls w.trace x).map (·.callId)).length :=
        Nat.cast_le.mpr (List.toFinset_card_le _)
    _ = (unansweredCalls w.trace x).length := by rw [List.length_map]

theorem no_entry_outlives_answer_callAnswered :
    ∃ w, broker.exec (fun w a => entriesTaken w a = true) ⟨Broker.initial [], []⟩ callAnswered =
        some w ∧
      w.trace.countP (Event.answers ⟨"1"⟩) = 1 ∧ EntriesInFlight w := by
  obtain ⟨w, hr, he, ht⟩ := System.RunWhere.of_exec_any broker
    (fun w a => entriesTaken w a = true) callAnswered
    (fun w => w.trace.countP (Event.answers ⟨"1"⟩) = 1) ⟨[], rfl⟩ (by decide)
  exact ⟨w, he, of_decide_eq_true ht, no_entry_outlives_answer hr⟩

def callRefused : List Action := [.connect callerC] ++ request callerC (.call (callOf "1" "o")) 5

theorem refused_call_keeps_entry :
    ¬ ∀ (w : World Broker Event) (c : CallId) (caller : ClientId) (tx : ClientSender),
      broker.RunWhere (fun w a => freshCall w a = true) w →
      w.state.calls c = some (caller, tx) → w.trace.countP (Event.answers c) = 0 := by
  intro hall
  obtain ⟨w, hr, he, ht⟩ := System.RunWhere.of_exec_any broker
    (fun w a => freshCall w a = true) callRefused
    (fun w => (w.state.calls ⟨"1"⟩).isSome && w.trace.countP (Event.answers ⟨"1"⟩) = 1)
    ⟨[], rfl⟩ (by decide)
  rw [Bool.and_eq_true, decide_eq_true_eq] at ht
  obtain ⟨⟨caller, tx⟩, hc⟩ := Option.isSome_iff_exists.mp ht.1
  have hzero := hall w ⟨"1"⟩ caller tx hr hc
  rw [ht.2] at hzero
  cases hzero

end Broker
end IpcBroker
