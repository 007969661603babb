import IpcBroker.Broker.AnswerCopies
import IpcBroker.Broker.ChannelOrder

/-! What is put on the channels once is written to the connections once; and a result on a channel is
always one that a client sent. -/

namespace IpcBroker
open Function Foundation

def Event.enqueues (q : Packet → Bool) : Event → Bool
  | .enqueued _ _ _ m => q m
  | _ => false

def Event.delivers (q : Packet → Bool) : Event → Bool
  | .delivered _ m => q m
  | _ => false

namespace Broker
variable {s s' : Broker} {a : Action} {es tr : List Event} {x y : ClientId} {m m' : Packet}
  {q : Packet → Bool} {w : World Broker Event} {ok : World Broker Event → Action → Prop}

theorem eq_of_countP_le_one {α : Type} {l : List α} {p : α → Bool} {a b : α}
    (h : l.countP p ≤ 1) (ha : a ∈ l) (hb : b ∈ l) (hpa : p a = true) (hpb : p b = true) : a = b := by
  rw [List.countP_eq_length_filter] at h
  have ha' := List.mem_filter.mpr ⟨ha, hpa⟩
  have hb' := List.mem_filter.mpr ⟨hb, hpb⟩
  cases hl : l.filter p with
  | nil =>
    rw [hl] at ha'
    cases ha'
  | cons c rest =>
    rw [hl] at ha' hb' h
    obtain rfl := List.eq_nil_of_length_eq_zero (Nat.le_zero.mp (Nat.le_of_succ_le_succ h))
    rw [List.mem_singleton.mp ha', List.mem_singleton.mp hb']

theorem mem_enqueuedOn : m ∈ enqueuedOn tr y ↔ ∃ site x, Event.enqueued site x y m ∈ tr := by
  rw [enqueuedOn, chronicle, List.mem_reverse, List.mem_filterMap]
  constructor
  · rintro ⟨e, he, hm⟩
    unfold Event.enqueuedOn? at hm
    split at hm
    · next site x z m' =>
      split_ifs at hm with hz
      cases hm
      exact ⟨site, x, hz ▸ he⟩
    · cases hm
  · rintro ⟨site, x, he⟩
    exact ⟨_, he, if_pos rfl⟩

theorem mem_deliveredTo : m ∈ deliveredTo tr y ↔ Event.delivered y m ∈ tr := by
  rw [deliveredTo, chronicle, List.mem_reverse, List.mem_filterMap]
  constructor
  · rintro ⟨e, he, hm⟩
    unfold Event.deliveredTo? at hm
    split at hm
    · next z m' =>
      split_ifs at hm with hz
      cases hm
      exact hz ▸ he
    · cases hm
  · exact fun he => ⟨_, he, if_pos rfl⟩

theorem countP_enqueuedOn_le (tr : List Event) (y : ClientId) :
    (enqueuedOn tr y).countP q ≤ tr.countP (Event.enqueues q) := by
  rw [enqueuedOn, chronicle, List.countP_reverse]
  induction tr with
  | nil => exact Nat.le_refl _
  | cons e tr ih =>
    rw [List.filterMap_cons, List.countP_cons]
    cases e with
    | enqueued site x z m =>
      by_cases hz : z = y
      · simp only [Event.enqueuedOn?, if_pos hz, Event.enqueues, List.countP_cons]
        exact Nat.add_le_add_right ih _
      · simp only [Event.enqueuedOn?, if_neg hz]
        exact Nat.le_add_right_of_le ih
    | _ => exact Nat.le_add_right_of_le ih

theorem countP_delivers (h : ∀ z m, Event.delivered z m ∈ tr → q m = true → z = y) :
    tr.countP (Event.delivers q) = (deliveredTo tr y).countP q := by
  rw [deliveredTo, chronicle, List.countP_reverse]
  induction tr with
  | nil => rfl
  | cons e tr ih =>
    have hrest := ih fun z m he => h z m (List.mem_cons_of_mem e he)
    rw [List.filterMap_cons, List.countP_cons, hrest]
    cases e with
    | delivered z m =>
      by_cases hz : z = y
      · simp only [Event.deliveredTo?, if_pos hz, List.countP_cons]
        rfl
      · have hq : q m ≠ true := fun hq => hz (h z m List.mem_cons_self hq)
        simp only [Event.deliveredTo?, if_neg hz]
        exact Nat.add_eq_left.mpr (if_neg hq)
    | _ => rfl

theorem delivered_enqueued (h : broker.RunWhere ok w) (hd : Event.delivered y m ∈ w.trace) :
    ∃ site x, Event.enqueued site x y m ∈ w.trace := (sources h).delivered y m hd

theorem countP_deliveredTo_le (h : broker.RunWhere ok w) (y : ClientId) :
    (deliveredTo w.trace y).countP q ≤ w.trace.countP (Event.enqueues q) := by
  obtain ⟨w', hw', rfl⟩ := h.exists_recorded
  exact (delivered_inOrder hw' y).sublist.countP_le.trans (countP_enqueuedOn_le _ y)

theorem delivered_unique (h : broker.RunWhere ok w) (hone : w.trace.countP (Event.enqueues q) ≤ 1)
    (hx : Event.delivered x m ∈ w.trace) (hy : Event.delivered y m' ∈ w.trace) (hm : q m = true)
    (hm' : q m' = true) : x = y ∧ m = m' := by
  obtain ⟨site, z, hx'⟩ := delivered_enqueued h hx
  obtain ⟨site', z', hy'⟩ := delivered_enqueued h hy
  have heq := eq_of_countP_le_one hone hx' hy' hm hm'
  cases heq
  exact ⟨rfl, rfl⟩

theorem delivered_once (h : broker.RunWhere ok w)
    (hone : w.trace.countP (Event.enqueues q) ≤ 1) : w.trace.countP (Event.delivers q) ≤ 1 := by
  by_cases hex : ∃ x m, Event.delivered x m ∈ w.trace ∧ q m = true
  · obtain ⟨x, m, hx, hm⟩ := hex
    rw [countP_delivers (y := x) fun z m' hz hm' => (delivered_unique h hone hz hx hm' hm).1]
    exact (countP_deliveredTo_le h x).trans hone
  · have hzero : w.trace.countP (Event.delivers q) = 0 := by
      refine List.countP_eq_zero.mpr fun e he hq => ?_
      unfold Event.delivers at hq
      split at hq
      · next z m => exact hex ⟨z, m, he, hq⟩
      · cases hq
    omega

/-! What a task sends to its own client. -/

def ownReplies (s : Broker) : HandlerPc → List RpcResponse
  | .registerServices o => [.registered o]
  | .callLookup k => [.error (some k.callId) k.objectName "Caller disconnected"]
  | .callServices k =>
    [.error (some k.callId) k.objectName ("No such object '" ++ k.objectName ++ "'")]
  | .subscribe o topic => [.subscribed o topic]
  | .hasObject o => [.hasObjectResult o (s.objects o).isSome]
  | _ => []

theorem own_reply_made {r : RpcResponse} {p : Phase} {msgs : List Packet}
    (hp : p.messages = msgs) (hm : .response r ∈ (update s.phase y p x).messages)
    (hmsgs : x = y → .response r ∈ msgs → .response r ∈ (s.phase x).messages ∨
      ∃ pc, a = .handler x ∧ s.phase x = .handling pc ∧ r ∈ ownReplies s pc) :
    .response r ∈ (s.phase x).messages ∨
      ∃ pc, a = .handler x ∧ s.phase x = .handling pc ∧ r ∈ ownReplies s pc := by
  by_cases hxy : x = y
  · subst hxy
    rw [update_self, hp] at hm
    exact hmsgs rfl hm
  · rw [update_of_ne hxy] at hm
    exact .inl hm

theorem Transition.own_reply {r : RpcResponse} (h : Transition s a s' es)
    (hm : .response r ∈ (s'.phase x).messages) :
    .response r ∈ (s.phase x).messages ∨
      ∃ pc, a = .handler x ∧ s.phase x = .handling pc ∧ r ∈ ownReplies s pc := by
  have hnone : ∀ {y p}, p.messages = [] → .response r ∈ (update s.phase y p x).messages →
      .response r ∈ (s.phase x).messages ∨
        ∃ pc, a = .handler x ∧ s.phase x = .handling pc ∧ r ∈ ownReplies s pc :=
    fun hp hm => own_reply_made hp hm fun _ hmem => absurd hmem List.not_mem_nil
  cases h with
  | receiveInvalid | receiveIdle | write | writeError | stopWriter | spawnEnd => exact .inl hm
  | receive hx hd =>
    refine hnone ?_ hm
    obtain ⟨r, rfl, rfl⟩ | ⟨resp, c, rfl, -, rfl⟩ := dispatch_cases hd
    · cases r <;> rfl
    · rfl
  | registerServices hx =>
    refine own_reply_made (messages_afterSends _) hm fun hxy hmem => ?_
    subst hxy
    obtain hmem | hmem := List.mem_append.mp hmem
    · obtain ⟨r', -, hr'⟩ := List.mem_map.mp hmem
      cases hr'
    · cases List.mem_singleton.mp hmem
      exact .inr ⟨_, rfl, hx, List.mem_singleton_self _⟩
  | registerPlain hx | callGone hx | callUnknown hx | subscribe hx | hasObject hx =>
    refine own_reply_made (messages_afterSends _) hm fun hxy hmem => ?_
    subst hxy
    cases List.mem_singleton.mp hmem
    exact .inr ⟨_, rfl, hx, List.mem_singleton_self _⟩
  | @callInsert y k workerId workerTx tx =>
    refine hnone ?_ hm
    obtain ⟨w, t, -, -, hroute⟩ | ⟨-, hroute⟩ := route_cases k workerId workerTx <;> rw [hroute] <;> rfl
  | publishSenders => exact hnone (messages_next _ _) hm
  | @sendLookup y msg rest tx hx =>
    refine own_reply_made (y := y) rfl hm fun hxy hmem => .inl ?_
    subst hxy
    rw [hx]
    exact hmem
  | @sendLookupGone y msg rest hx =>
    refine own_reply_made (messages_afterSends _) hm fun hxy hmem => .inl ?_
    subst hxy
    rw [hx]
    exact List.mem_cons_of_mem msg hmem
  | send hx hs | sendFailed hx hs =>
    obtain ⟨k, rfl, -, -, rfl⟩ | ⟨resp, rfl, -, -, rfl⟩ | ⟨event, rest, rfl, -, -, rfl⟩ |
      ⟨rest, rfl, -, rfl⟩ := HandlerPc.sends_cases hs
    · exact hnone rfl hm
    · exact hnone rfl hm
    · exact hnone (messages_next _ _) hm
    · refine own_reply_made (messages_afterSends _) hm fun hxy hmem => .inl ?_
      subst hxy
      rw [hx]
      exact List.mem_cons_of_mem _ hmem
  | _ => exact hnone rfl hm

theorem noResult (h : broker.RunWhere ok w) {c : CallId} {o : String} {v : Value} :
    .response (.result c o v) ∉ (w.state.phase x).messages := by
  refine h.stateInvariant (I := fun s => .response (.result c o v) ∉ (s.phase x).messages) ?_ ?_
  · rintro _ ⟨items, rfl⟩
    exact List.not_mem_nil
  · intro s a s' es hI hs hm
    obtain hm | ⟨pc, -, -, hr⟩ := (step_transition hs).own_reply hm
    · exact hI hm
    · cases pc <;> simp [ownReplies] at hr

theorem result_forwarded (h : broker.RunWhere ok w) {site : SendSite} {c : CallId} {o : String}
    {v : Value} (he : Event.enqueued site x y (.response (.result c o v)) ∈ w.trace) :
    site = .handleResponse := by
  refine h.invariant (I := fun w => ∀ {site x y},
    Event.enqueued site x y (.response (.result c o v)) ∈ w.trace → site = .handleResponse)
    nofun ?_ he
  intro w a w' hr hI _ hn site x y he
  obtain he | ⟨es, ht, -, he⟩ := next_event hn he
  · exact hI he
  · obtain ⟨pc, tx, p, -, hx, hs, -⟩ := ht.sender he
    obtain ⟨k, -, -, hm, -⟩ | ⟨resp, -, rfl, -, -⟩ | ⟨event, rest, rfl, -, hm, -⟩ |
      ⟨rest, rfl, -, -⟩ := HandlerPc.sends_cases hs
    · cases hm
    · rfl
    · -- what is published is an event
      cases hm
      have hsrc := (sources hr).phase x
      rw [hx] at hsrc
      cases hsrc
    · have hown := noResult (x := x) hr (c := c) (o := o) (v := v)
      rw [hx] at hown
      exact absurd List.mem_cons_self hown

end Broker
end IpcBroker
