import IpcBroker.Client.ActorLoop

/-! Which events get to which subscribers: every receiver is sent the arguments of the events of its
topic that the actor reads, from its registration on, until its channel is full or closed. -/

namespace IpcBroker.IpcClient
open Function Foundation

def Event.eventOf? (json : SerdeJson) (o topic : String) : Event → Option Value
  | .returned data =>
    match data, json.fromSlice data with
    | _ :: _, .ok (.event o' topic' args) => if o' = o ∧ topic' = topic then some args else none
    | _, _ => none
  | _ => none

def Event.sentTo? (c : Nat) : Event → Option Value
  | .delivered c' args => if c' = c then some args else none
  | _ => none

def eventsRead (json : SerdeJson) (o topic : String) (tr : List Event) : List Value :=
  chronicle (Event.eventOf? json o topic) tr

def sentTo (c : Nat) (tr : List Event) : List Value := chronicle (Event.sentTo? c) tr

/-- The packet that the actor reads for a request is no event of a topic with a receiver. -/
def awaitsNoEvent (json : SerdeJson) (s : IpcClient) : Action → Bool
  | .poll =>
    match s.phase with
    | .awaiting _ _ reading =>
      match s.read reading with
      | .ready (.ok data) _ =>
        match json.fromSlice data with
        | .ok (.event o topic _) => (s.subs o topic).isEmpty
        | _ => true
      | _ => true
    | _ => true
  | _ => true

/-- What each receiver is sent: from its registration on all events of its topic, in order and each
once, up to the first one for which its own channel is full or closed. -/
structure GapFree (json : SerdeJson) (tr : List ClientStep) : Prop where
  sent : ∀ o topic c since before,
    tr.flatMap (·.events) = since ++ .registered o topic c :: before → .pruned c ∉ since →
      sentTo c since = eventsRead json o topic since
  pruned : ∀ o topic c since before after mid,
    tr.flatMap (·.events) = since ++ .registered o topic c :: before →
    since = after ++ .pruned c :: mid →
      ∃ args, eventsRead json o topic mid = sentTo c since ++ [args]
  buffered : ∀ st ∈ tr, ∀ c args, Event.delivered c args ∈ st.events →
    (st.after.receivers c).buffer = (st.before.receivers c).buffer ++ [args]
  refused : ∀ st ∈ tr, ∀ c, Event.pruned c ∈ st.events → st.before.trySend c = false

def Event.channel? : Event → Option Nat
  | .registered _ _ c | .delivered c _ | .pruned c => some c
  | _ => none

def ClientMsg.updates? : ClientMsg → Option Nat
  | .subscribe _ _ c => some c
  | .request _ _ => none

def waiting (s : IpcClient) : List Nat := s.mailbox.filterMap ClientMsg.updates?

def handOut (s : IpcClient) (args : Value) (subscribers : List Nat) : List Event :=
  (subscribers.map fun c => if s.trySend c then .delivered c args else .pruned c).reverse

inductive Effect (json : SerdeJson) (s s' : IpcClient) (es : List Event) : Prop
  | quiet (hsubs : s'.subs = s.subs) (hes : ∀ e ∈ es, e.channel? = none)
      (hread : ∀ o topic, s.subs o topic ≠ [] ∨ s.phase = .ended → eventsRead json o topic es = [])
      (hended : s.phase = .ended → s'.phase = .ended) (hwaiting : s'.waiting = s.waiting)
      (hnext : s.nextChannel ≤ s'.nextChannel)
  | issued (hsubs : s'.subs = s.subs) (hes : ∀ e ∈ es, e.channel? = none)
      (hread : ∀ o topic, eventsRead json o topic es = []) (hp : s.phase ≠ .ended)
      (hwaiting : s'.waiting = s.waiting ++ [s.nextChannel])
      (hnext : s'.nextChannel = s.nextChannel + 1)
  | registered {o topic : String} {c : Nat} {sent : List Event} (hp : s.phase ≠ .ended)
      (hsubs : s'.subs = update s.subs o (update (s.subs o) topic (s.subs o topic ++ [c])))
      (hes : es = sent ++ [.registered o topic c]) (hsent : ∀ e ∈ sent, e.channel? = none)
      (hread : ∀ data, Event.returned data ∉ sent)
      (hwaiting : s.waiting = c :: s'.waiting) (hnext : s'.nextChannel = s.nextChannel)
  | event {o topic : String} {args : Value} {data : List UInt8} (hp : s.phase ≠ .ended)
      (hne : data ≠ []) (hdata : json.fromSlice data = .ok (.event o topic args))
      (hsubs : s'.subs =
        update s.subs o (update (s.subs o) topic ((s.subs o topic).filter s.trySend)))
      (hes : es = s.handOut args (s.subs o topic) ++ [.returned data])
      (hwaiting : s'.waiting = s.waiting) (hnext : s'.nextChannel = s.nextChannel)
  | ended (hp : s'.phase = .ended) (hsubs : ∀ o topic, s'.subs o topic = [])
      (hes : ∀ e ∈ es, e.channel? = none) (hread : ∀ o topic, eventsRead json o topic es = [])
      (hwaiting : s'.waiting = []) (hnext : s'.nextChannel = s.nextChannel)

variable {json : SerdeJson} {s s' : IpcClient} {a : Action} {es tr : List Event} {o topic : String}
  {c : Nat} {args : Value} {data : List UInt8} {w : World IpcClient ClientStep}

theorem eventsRead_append : eventsRead json o topic (es ++ tr) =
    eventsRead json o topic tr ++ eventsRead json o topic es := chronicle_append

theorem sentTo_append : sentTo c (es ++ tr) = sentTo c tr ++ sentTo c es := chronicle_append

theorem sentTo_none (h : ∀ e ∈ es, e.channel? ≠ some c) : sentTo c es = [] := by
  refine chronicle_none fun e he => ?_
  have hc := h e he
  cases e with
  | delivered c' args => exact if_neg fun heq => hc (congrArg some heq)
  | _ => rfl

theorem eventsRead_none (h : ∀ data, Event.returned data ∉ es) :
    eventsRead json o topic es = [] := by
  refine chronicle_none fun e he => ?_
  cases e with
  | returned data => exact absurd he (h data)
  | _ => rfl

theorem eventsRead_returned (h : ∀ data, Event.returned data ∉ es) (data : List UInt8) :
    eventsRead json o topic (es ++ [.returned data]) =
      (Event.eventOf? json o topic (.returned data)).toList := by
  rw [eventsRead_append, eventsRead_none h, List.append_nil, eventsRead, chronicle]
  cases hev : Event.eventOf? json o topic (.returned data) with
  | none => rw [List.filterMap_cons_none hev]; rfl
  | some args => rw [List.filterMap_cons_some hev]; rfl

theorem eventOf_event (hne : data ≠ []) (h : json.fromSlice data = .ok (.event o topic args))
    (o' topic' : String) : Event.eventOf? json o' topic' (.returned data) =
      if o = o' ∧ topic = topic' then some args else none := by
  cases data with
  | nil => exact absurd rfl hne
  | cons b data => simp only [Event.eventOf?, h]

theorem eventOf_other (h : ∀ o topic args, json.fromSlice data ≠ .ok (.event o topic args)) :
    Event.eventOf? json o topic (.returned data) = none := by
  simp only [Event.eventOf?]
  split
  · next hdata => exact absurd hdata (h _ _ _)
  · rfl

theorem exit_channel : ∀ e ∈ s.exit.2, e.channel? = none := by
  intro e he
  obtain ⟨req, respTx, rfl⟩ := exit_event he
  rfl

theorem exit_returned : ∀ data, Event.returned data ∉ s.exit.2 := by
  intro data he
  obtain ⟨req, respTx, hreq⟩ := exit_event he
  cases hreq

theorem Effect.of_silent (hsubs : s'.subs = s.subs) (hes : ∀ e ∈ es, e.channel? = none)
    (hdata : ∀ data, Event.returned data ∉ es) (hended : s.phase = .ended → s'.phase = .ended)
    (hwaiting : s'.waiting = s.waiting) (hnext : s.nextChannel ≤ s'.nextChannel) :
    Effect json s s' es :=
  .quiet hsubs hes (fun _ _ _ => eventsRead_none hdata) hended hwaiting hnext

theorem waiting_request {req : RpcRequest} {respTx : Nat} {rest : List ClientMsg}
    (hm : s.mailbox = .request req respTx :: rest) :
    rest.filterMap ClientMsg.updates? = s.waiting := by
  rw [waiting, hm]
  rfl

theorem readArm_effect (hp : s.phase ≠ .ended) (rest data : List UInt8) :
    Effect json s ({ s with arrived := rest }.readArm json data).1
      (({ s with arrived := rest }.readArm json data).2 ++ [.returned data]) := by
  unfold readArm
  split_ifs with hdata
  · subst hdata
    refine .ended rfl (fun _ _ => rfl) (fun e he => ?_) (fun o topic => ?_) rfl rfl
    · obtain he | he := List.mem_append.mp he
      · exact exit_channel e he
      · rw [List.mem_singleton.mp he]
        rfl
    · rw [eventsRead_returned exit_returned]
      rfl
  · split
    · next o topic args hev => exact .event hp hdata hev rfl rfl rfl rfl
    · next hother =>
      have hnone : ∀ e ∈ [] ++ [Event.returned data], e.channel? = none := by
        intro e he
        rw [List.mem_singleton.mp he]
        rfl
      refine .quiet rfl hnone (fun o topic _ => ?_) (fun h => absurd h hp) rfl
        (Nat.le_refl _)
      rw [eventsRead_returned fun _ => List.not_mem_nil, eventOf_other fun o topic args h =>
        hother o topic args h]
      rfl

theorem await_effect {req : RpcRequest} {respTx : Nat} {reading : ReadPacket} {rest : List UInt8}
    (hp : s.phase = .awaiting req respTx reading) (hr : s.read reading = .ready (.ok data) rest)
    (ha : awaitsNoEvent json s .poll = true) :
    Effect json s ({ s with arrived := rest }.select)
      [.replied req respTx (replyOf json data), .returned data] := by
  have hnoEnd : s.phase ≠ .ended := fun h => by cases hp.symm.trans h
  have hes : ∀ e ∈ [Event.replied req respTx (replyOf json data), .returned data],
      e.channel? = none := by
    intro e he
    simp only [List.mem_cons, List.not_mem_nil, or_false] at he
    obtain rfl | rfl := he <;> rfl
  refine .quiet rfl hes (fun o topic hsubs => ?_) (fun h => absurd h hnoEnd) rfl
    (Nat.le_refl _)
  have hnone : ∀ data', Event.returned data' ∉ [Event.replied req respTx (replyOf json data)] := by
    simp
  refine (eventsRead_returned hnone data).trans ?_
  have hsubs := hsubs.resolve_right hnoEnd
  simp only [awaitsNoEvent, hp, hr] at ha
  simp only [Event.eventOf?]
  split
  · next hdata =>
    rw [hdata] at ha
    split_ifs with heq
    · obtain ⟨rfl, rfl⟩ := heq
      exact absurd (List.isEmpty_iff.mp ha) hsubs
    · rfl
  · rfl

theorem Transition.effect (h : Transition json s a s' es) (ha : awaitsNoEvent json s a = true) :
    Effect json s s' es := by
  cases h with
  | @issue op hp hroom =>
    cases op with
    | subscribe o topic =>
      refine .issued rfl (by simp [Operation.msg, Event.channel?]) (fun _ _ => rfl) hp ?_ rfl
      exact List.filterMap_append
    | _ =>
      refine .of_silent rfl (by simp [Event.channel?]) (by simp) (fun h => absurd h hp) ?_
        (Nat.le_succ _)
      exact List.filterMap_append.trans (List.append_nil _)
  | @issueEnded op hp =>
    refine .of_silent rfl (fun e he => ?_) (fun data he => ?_) id rfl (Nat.le_succ _)
    · obtain ⟨req, respTx, rfl⟩ := abandon_event (Option.mem_toList.mp he)
      rfl
    · obtain ⟨req, respTx, hreq⟩ := abandon_event (Option.mem_toList.mp he)
      cases hreq
  | requestFailed hp hm | requestAwaits hp hm | requestDone hp hm =>
    refine .of_silent rfl (by simp [Event.channel?]) (by simp)
      (fun h => by cases hp.symm.trans h) ?_ (Nat.le_refl _)
    exact waiting_request hm
  | @subscribe fault reading o topic c rest hp hm =>
    refine .registered (fun h => by cases hp.symm.trans h) rfl rfl (fun e he => ?_)
      (fun data he => ?_) ?_ rfl
    · split at he
      · rw [List.mem_singleton.mp he]
        rfl
      · cases he
    · split at he
      · cases List.mem_singleton.mp he
      · cases he
    · rw [waiting, hm]
      rfl
  | pollPacket hp hr =>
    have hnoEnd : s.phase ≠ .ended := fun h => by cases hp.symm.trans h
    exact readArm_effect hnoEnd _ _
  | awaitPacket hp hr => exact await_effect hp hr ha
  | awaitFailed hp hr =>
    exact .of_silent rfl (by simp [Event.channel?]) (by simp) (fun h => by cases hp.symm.trans h)
      rfl (Nat.le_refl _)
  | exit =>
    refine .ended rfl ?_ exit_channel (fun _ _ => eventsRead_none exit_returned) rfl rfl
    exact fun _ _ => rfl
  | write => exact .of_silent rfl (by simp [Event.channel?]) (by simp) id rfl (Nat.le_refl _)
  | pollPending hp | pollFailed hp | awaitPending hp =>
    exact .of_silent rfl (List.forall_mem_nil _) (fun _ => List.not_mem_nil)
      (fun h => by cases hp.symm.trans h) rfl (Nat.le_refl _)
  | dropHandles | arrive | hangUp | receive | dropReceiver =>
    exact .of_silent rfl (List.forall_mem_nil _) (fun _ => List.not_mem_nil) id rfl (Nat.le_refl _)

/-! The course of one receiver. -/

theorem handOut_append (l₁ l₂ : List Nat) :
    s.handOut args (l₁ ++ l₂) = s.handOut args l₂ ++ s.handOut args l₁ := by
  rw [handOut, List.map_append, List.reverse_append]
  rfl

theorem handOut_channel {l : List Nat} (h : c ∉ l) :
    ∀ e ∈ s.handOut args l, e.channel? ≠ some c := by
  intro e he
  obtain ⟨c', hc', rfl⟩ := List.mem_map.mp (List.mem_reverse.mp he)
  have hne : c' ≠ c := fun heq => h (heq ▸ hc')
  split_ifs
  · exact fun heq => hne (Option.some.inj heq)
  · exact fun heq => hne (Option.some.inj heq)

theorem handOut_returned (l : List Nat) : ∀ data, Event.returned data ∉ s.handOut args l := by
  intro data he
  obtain ⟨c', -, hev⟩ := List.mem_map.mp (List.mem_reverse.mp he)
  split_ifs at hev

theorem exists_split {l : List Nat} (h : l.count c = 1) :
    ∃ l₁ l₂, l = l₁ ++ c :: l₂ ∧ c ∉ l₁ ∧ c ∉ l₂ := by
  have hmem : c ∈ l := List.count_pos_iff.mp (h ▸ Nat.zero_lt_one)
  obtain ⟨l₁, l₂, rfl⟩ := List.append_of_mem hmem
  rw [List.count_append, List.count_cons_self] at h
  exact ⟨l₁, l₂, rfl, List.count_eq_zero.mp (by omega), List.count_eq_zero.mp (by omega)⟩

/-- The receiver of `c` before its registration, while it is subscribed, and afterwards; `since` is
the history from its registration on. -/
inductive Course (json : SerdeJson) (c : Nat) (s : IpcClient) (tr : List Event) : Prop
  | unregistered (htr : ∀ e ∈ tr, e.channel? ≠ some c) (hsubs : ∀ o topic, c ∉ s.subs o topic)
      (hcount : s.waiting.count c ≤ 1) (hnext : c ∈ s.waiting → c < s.nextChannel)
  | live {o topic : String} {since before : List Event}
      (htr : tr = since ++ .registered o topic c :: before)
      (hbefore : ∀ e ∈ before, e.channel? ≠ some c)
      (hsince : ∀ e ∈ since, e.channel? = some c → ∃ args, e = .delivered c args)
      (hsent : sentTo c since = eventsRead json o topic since)
      (hcount : (s.subs o topic).count c = 1)
      (hother : ∀ o' topic', ¬ (o' = o ∧ topic' = topic) → c ∉ s.subs o' topic')
      (hwaiting : c ∉ s.waiting) (hnext : c < s.nextChannel)
  | ended {o topic : String} {since before : List Event}
      (htr : tr = since ++ .registered o topic c :: before)
      (hbefore : ∀ e ∈ before, e.channel? ≠ some c)
      (hsince : ∀ e ∈ since, e.channel? = some c → ∃ args, e = .delivered c args)
      (hsent : sentTo c since = eventsRead json o topic since) (hp : s.phase = .ended)
      (hsubs : ∀ o topic, c ∉ s.subs o topic) (hwaiting : c ∉ s.waiting) (hnext : c < s.nextChannel)
  | pruned {o topic : String} {after mid before : List Event} {args : Value}
      (htr : tr = (after ++ .pruned c :: mid) ++ .registered o topic c :: before)
      (hbefore : ∀ e ∈ before, e.channel? ≠ some c)
      (hmid : ∀ e ∈ mid, e.channel? = some c → ∃ args, e = .delivered c args)
      (hafter : ∀ e ∈ after, e.channel? ≠ some c)
      (hsent : eventsRead json o topic mid = sentTo c mid ++ [args])
      (hsubs : ∀ o topic, c ∉ s.subs o topic) (hwaiting : c ∉ s.waiting) (hnext : c < s.nextChannel)

theorem Effect.registered_waiting (h : Effect json s s' es) (hmem : .registered o topic c ∈ es) :
    c ∈ s.waiting := by
  cases h with
  | quiet hsubs hes | issued hsubs hes | ended hp hsubs hes => cases hes _ hmem
  | @registered o' topic' c' sent hp hsubs hes hsent hread hwaiting =>
    rw [hes] at hmem
    obtain hmem | hmem := List.mem_append.mp hmem
    · cases hsent _ hmem
    · cases List.mem_singleton.mp hmem
      rw [hwaiting]
      exact List.mem_cons_self
  | event hp hne hdata hsubs hes =>
    rw [hes] at hmem
    obtain hmem | hmem := List.mem_append.mp hmem
    · obtain ⟨c', -, hev⟩ := List.mem_map.mp (List.mem_reverse.mp hmem)
      split_ifs at hev
    · cases List.mem_singleton.mp hmem

theorem Effect.passed_over (h : Effect json s s' es) (hsubs : ∀ o topic, c ∉ s.subs o topic)
    (hnot : ∀ o topic, .registered o topic c ∉ es) :
    (∀ e ∈ es, e.channel? ≠ some c) ∧ ∀ o topic, c ∉ s'.subs o topic := by
  cases h with
  | quiet hsubs' hes | issued hsubs' hes =>
    refine ⟨fun e he hc => ?_, hsubs' ▸ hsubs⟩
    cases (hes e he).symm.trans hc
  | ended hp hsubs' hes =>
    refine ⟨fun e he hc => ?_, fun o topic hmem => ?_⟩
    · cases (hes e he).symm.trans hc
    · rw [hsubs'] at hmem
      cases hmem
  | @registered o' topic' c' sent hp hsubs' hes hsent =>
    subst hes
    have hne : c ≠ c' := by
      rintro rfl
      exact hnot o' topic' (List.mem_append_right _ List.mem_cons_self)
    refine ⟨fun e he hc => ?_, fun o topic hmem => ?_⟩
    · obtain he | he := List.mem_append.mp he
      · cases (hsent e he).symm.trans hc
      · cases List.mem_singleton.mp he
        exact hne (Option.some.inj hc).symm
    · rw [hsubs', update_apply] at hmem
      split_ifs at hmem
      · rw [update_apply] at hmem
        split_ifs at hmem
        · obtain hmem | hmem := List.mem_append.mp hmem
          · exact hsubs _ _ hmem
          · exact hne (List.mem_singleton.mp hmem)
        · exact hsubs _ _ hmem
      · exact hsubs _ _ hmem
  | @event o' topic' args data hp hne hdata hsubs' hes =>
    subst hes
    refine ⟨fun e he => ?_, fun o topic hmem => ?_⟩
    · obtain he | he := List.mem_append.mp he
      · exact handOut_channel (hsubs _ _) e he
      · rw [List.mem_singleton.mp he]
        exact fun hc => by cases hc
    · rw [hsubs', update_apply] at hmem
      split_ifs at hmem
      · rw [update_apply] at hmem
        split_ifs at hmem
        · exact hsubs _ _ (List.mem_filter.mp hmem).1
        · exact hsubs _ _ hmem
      · exact hsubs _ _ hmem

theorem Effect.waiting_count (h : Effect json s s' es) (hcount : s.waiting.count c ≤ 1)
    (hnext : c ∈ s.waiting → c < s.nextChannel) :
    s'.waiting.count c ≤ 1 ∧ (c ∈ s'.waiting → c < s'.nextChannel) := by
  cases h with
  | quiet _ _ _ _ hwaiting hle =>
    rw [hwaiting]
    exact ⟨hcount, fun hmem => Nat.lt_of_lt_of_le (hnext hmem) hle⟩
  | issued _ _ _ _ hwaiting hnext' =>
    rw [hwaiting, hnext', List.count_append]
    refine ⟨?_, fun hmem => ?_⟩
    · by_cases hmem : c ∈ s.waiting
      · have hlt := hnext hmem
        rw [List.count_singleton, if_neg (by simp only [beq_iff_eq]; omega)]
        exact hcount
      · rw [List.count_eq_zero.mpr hmem, Nat.zero_add]
        exact List.count_le_length
    · obtain hmem | hmem := List.mem_append.mp hmem
      · exact Nat.lt_succ_of_lt (hnext hmem)
      · rw [List.mem_singleton.mp hmem]
        exact Nat.lt_succ_self _
  | registered _ _ _ _ _ hwaiting hnext' =>
    rw [hwaiting] at hcount hnext
    rw [hnext']
    exact ⟨Nat.le_trans (List.count_le_count_cons ..) hcount,
      fun hmem => hnext (List.mem_cons_of_mem _ hmem)⟩
  | event _ _ _ _ _ hwaiting hnext' =>
    rw [hwaiting, hnext']
    exact ⟨hcount, hnext⟩
  | ended _ _ _ _ hwaiting =>
    rw [hwaiting]
    exact ⟨Nat.zero_le _, fun hmem => by cases hmem⟩

theorem Effect.stays_away (h : Effect json s s' es) (hwaiting : c ∉ s.waiting)
    (hnext : c < s.nextChannel) : c ∉ s'.waiting ∧ c < s'.nextChannel := by
  cases h with
  | quiet _ _ _ _ hw hle => exact ⟨hw ▸ hwaiting, Nat.lt_of_lt_of_le hnext hle⟩
  | issued _ _ _ _ hw hnext' =>
    rw [hw, hnext']
    refine ⟨fun hmem => ?_, Nat.lt_succ_of_lt hnext⟩
    obtain hmem | hmem := List.mem_append.mp hmem
    · exact hwaiting hmem
    · exact Nat.ne_of_lt hnext (List.mem_singleton.mp hmem)
  | registered _ _ _ _ _ hw hnext' =>
    rw [hw] at hwaiting
    exact ⟨fun hmem => hwaiting (List.mem_cons_of_mem _ hmem), hnext' ▸ hnext⟩
  | event _ _ _ _ _ hw hnext' => exact ⟨hw ▸ hwaiting, hnext' ▸ hnext⟩
  | ended _ _ _ _ hw hnext' =>
    rw [hw, hnext']
    exact ⟨List.not_mem_nil, hnext⟩

theorem handOut_cons {l : List Nat} : s.handOut args (c :: l) =
    s.handOut args l ++ [if s.trySend c then .delivered c args else .pruned c] :=
  handOut_append [c] l

theorem sentTo_handOut {l : List Nat} (h : l.count c = 1) (hc : s.trySend c = true) :
    sentTo c (s.handOut args l) = [args] := by
  obtain ⟨l₁, l₂, rfl, h₁, h₂⟩ := exists_split h
  rw [handOut_append, handOut_cons, if_pos hc, sentTo_append, sentTo_append,
    sentTo_none (handOut_channel h₁), sentTo_none (handOut_channel h₂)]
  simp [sentTo, chronicle, Event.sentTo?]

theorem handOut_accepted {l : List Nat} (hc : s.trySend c = true) :
    ∀ e ∈ s.handOut args l, e.channel? = some c → ∃ args, e = .delivered c args := by
  intro e he hch
  obtain ⟨c', -, rfl⟩ := List.mem_map.mp (List.mem_reverse.mp he)
  split_ifs at hch ⊢ with hs
  · obtain rfl := Option.some.inj hch
    exact ⟨args, rfl⟩
  · obtain rfl := Option.some.inj hch
    exact absurd hc hs

theorem eventsRead_handOut {l : List Nat} (hne : data ≠ [])
    (hdata : json.fromSlice data = .ok (.event o topic args)) (o' topic' : String) :
    eventsRead json o' topic' (s.handOut args l ++ [.returned data]) =
      if o = o' ∧ topic = topic' then [args] else [] := by
  rw [eventsRead_returned (handOut_returned l), eventOf_event hne hdata]
  split_ifs <;> rfl

theorem count_update {l : List Nat} {subs : String → String → List Nat}
    (hl : l.count c = (subs o topic).count c) (o' topic' : String) :
    (update subs o (update (subs o) topic l) o' topic').count c = (subs o' topic').count c := by
  rw [update_apply]
  split_ifs with ho
  · subst ho
    rw [update_apply]
    split_ifs with htopic
    · subst htopic
      exact hl
    · rfl
  · rfl

section Live
variable {since before : List Event} (hbefore : ∀ e ∈ before, e.channel? ≠ some c)
  (hsince : ∀ e ∈ since, e.channel? = some c → ∃ args, e = .delivered c args)
  (hsent : sentTo c since = eventsRead json o topic since) (hcount : (s.subs o topic).count c = 1)
  (hother : ∀ o' topic', ¬ (o' = o ∧ topic' = topic) → c ∉ s.subs o' topic')
  (hwaiting : c ∉ s.waiting) (hnext : c < s.nextChannel)
include hbefore hsince hsent hcount hother hwaiting hnext

theorem Course.stay (he : Effect json s s' es)
    (hsubs : ∀ o topic, (s'.subs o topic).count c = (s.subs o topic).count c)
    (hes : ∀ e ∈ es, e.channel? = some c → ∃ args, e = .delivered c args)
    (hstep : sentTo c es = eventsRead json o topic es) :
    Course json c s' (es ++ (since ++ .registered o topic c :: before)) := by
  obtain ⟨hwaiting', hnext'⟩ := he.stays_away hwaiting hnext
  refine .live (List.append_assoc ..).symm hbefore (fun e hmem => ?_) ?_
    ((hsubs o topic).trans hcount) (fun o' topic' hne => ?_) hwaiting' hnext'
  · exact (List.mem_append.mp hmem).elim (hes e) (hsince e)
  · rw [sentTo_append, eventsRead_append, hsent, hstep]
  · rw [← List.count_eq_zero, hsubs]
    exact List.count_eq_zero.mpr (hother o' topic' hne)

theorem Course.refuse (he : Effect json s s' (s.handOut args (s.subs o topic) ++ [.returned data]))
    (hne : data ≠ []) (hdata : json.fromSlice data = .ok (.event o topic args))
    (hsubs : s'.subs =
      update s.subs o (update (s.subs o) topic ((s.subs o topic).filter s.trySend)))
    (hc : s.trySend c = false) :
    Course json c s' ((s.handOut args (s.subs o topic) ++ [.returned data]) ++
      (since ++ .registered o topic c :: before)) := by
  obtain ⟨hwaiting', hnext'⟩ := he.stays_away hwaiting hnext
  obtain ⟨l₁, l₂, hl, h₁, h₂⟩ := exists_split hcount
  have hlate : ∀ e ∈ s.handOut args l₁ ++ [.returned data], e.channel? ≠ some c := by
    intro e hmem
    obtain hmem | hmem := List.mem_append.mp hmem
    · exact handOut_channel h₁ e hmem
    · rw [List.mem_singleton.mp hmem]
      exact fun hch => by cases hch
  have htr : s.handOut args (s.subs o topic) ++ [.returned data] ++
      (since ++ .registered o topic c :: before) =
      (s.handOut args l₂ ++ .pruned c :: (s.handOut args l₁ ++ [.returned data] ++ since)) ++
        .registered o topic c :: before := by
    rw [hl, handOut_append, handOut_cons, if_neg (Bool.eq_false_iff.mp hc)]
    simp only [List.append_assoc, List.cons_append, List.nil_append]
  have hread : eventsRead json o topic (s.handOut args l₁ ++ [.returned data] ++ since) =
      sentTo c (s.handOut args l₁ ++ [.returned data] ++ since) ++ [args] := by
    rw [eventsRead_append, sentTo_append, eventsRead_handOut hne hdata, if_pos ⟨rfl, rfl⟩,
      sentTo_none hlate, List.append_nil, hsent]
  refine .pruned htr hbefore (fun e hmem hch => ?_) (handOut_channel h₂) hread
    (fun o' topic' hmem => ?_) hwaiting' hnext'
  · obtain hmem | hmem := List.mem_append.mp hmem
    · exact absurd hch (hlate e hmem)
    · exact hsince e hmem hch
  · rw [hsubs, update_apply] at hmem
    split_ifs at hmem with ho
    · rw [update_apply] at hmem
      split_ifs at hmem with htopic
      · exact Bool.false_ne_true (hc.symm.trans (List.mem_filter.mp hmem).2)
      · exact hother _ _ (fun heq => htopic heq.2) hmem
    · exact hother _ _ (fun heq => ho heq.1) hmem

theorem Course.step_live (he : Effect json s s' es) :
    Course json c s' (es ++ (since ++ .registered o topic c :: before)) := by
  have hmem : c ∈ s.subs o topic := List.count_pos_iff.mp (hcount ▸ Nat.zero_lt_one)
  have hstay := Course.stay hbefore hsince hsent hcount hother hwaiting hnext he
  have hquiet : (∀ e ∈ es, e.channel? = none) → ∀ e ∈ es, e.channel? ≠ some c := by
    intro hes e he hch
    cases (hes e he).symm.trans hch
  cases id he with
  | quiet hsubs hes hread =>
    refine hstay (fun _ _ => by rw [hsubs]) (fun e h hch => absurd hch (hquiet hes e h)) ?_
    rw [sentTo_none (hquiet hes), hread o topic (.inl (List.ne_nil_of_mem hmem))]
  | issued hsubs hes hread =>
    refine hstay (fun _ _ => by rw [hsubs]) (fun e h hch => absurd hch (hquiet hes e h)) ?_
    rw [sentTo_none (hquiet hes), hread]
  | @registered o' topic' c' sent hp hsubs hes hnone hread hw =>
    have hne : c' ≠ c := by
      rintro rfl
      exact hwaiting (hw ▸ List.mem_cons_self)
    have hsilent : ∀ e ∈ es, e.channel? ≠ some c := by
      rw [hes]
      intro e hmem hch
      obtain hmem | hmem := List.mem_append.mp hmem
      · cases (hnone e hmem).symm.trans hch
      · cases List.mem_singleton.mp hmem
        exact hne (Option.some.inj hch)
    refine hstay ?_ (fun e h hch => absurd hch (hsilent e h)) ?_
    · rw [hsubs]
      refine count_update ?_
      rw [List.count_append, List.count_eq_zero.mpr fun h => hne (List.mem_singleton.mp h).symm,
        Nat.add_zero]
    · rw [sentTo_none hsilent, eventsRead_none]
      intro data hmem
      rw [hes] at hmem
      obtain hmem | hmem := List.mem_append.mp hmem
      · exact hread data hmem
      · cases List.mem_singleton.mp hmem
  | @event o' topic' args data hp hne hdata hsubs hes =>
    subst hes
    by_cases htopic : o' = o ∧ topic' = topic
    · obtain ⟨rfl, rfl⟩ := htopic
      cases hc : s.trySend c with
      | false =>
        exact Course.refuse hbefore hsince hsent hcount hother hwaiting hnext he hne hdata hsubs hc
      | true =>
        refine hstay ?_ (fun e h hch => ?_) ?_
        · rw [hsubs]
          exact count_update (List.count_filter hc)
        · obtain h | h := List.mem_append.mp h
          · exact handOut_accepted hc e h hch
          · rw [List.mem_singleton.mp h] at hch
            cases hch
        · rw [eventsRead_handOut hne hdata, if_pos ⟨rfl, rfl⟩, sentTo_append,
            sentTo_handOut hcount hc]
          rfl
    · have hnot := hother o' topic' htopic
      have hsilent : ∀ e ∈ s.handOut args (s.subs o' topic') ++ [.returned data],
          e.channel? ≠ some c := by
        intro e hmem
        obtain hmem | hmem := List.mem_append.mp hmem
        · exact handOut_channel hnot e hmem
        · rw [List.mem_singleton.mp hmem]
          exact fun hch => by cases hch
      refine hstay ?_ (fun e h hch => absurd hch (hsilent e h)) ?_
      · rw [hsubs]
        refine count_update ?_
        rw [List.count_eq_zero.mpr hnot, List.count_eq_zero]
        exact fun h => hnot (List.mem_filter.mp h).1
      · rw [sentTo_none hsilent, eventsRead_handOut hne hdata, if_neg htopic]
  | ended hp hsubs hes hread =>
    obtain ⟨hwaiting', hnext'⟩ := he.stays_away hwaiting hnext
    refine .ended (List.append_assoc ..).symm hbefore (fun e hmem hch => ?_) ?_ hp
      (fun o topic h => ?_) hwaiting' hnext'
    · obtain hmem | hmem := List.mem_append.mp hmem
      · exact absurd hch (hquiet hes e hmem)
      · exact hsince e hmem hch
    · rw [sentTo_append, eventsRead_append, hsent, hread, sentTo_none (hquiet hes)]
    · rw [hsubs] at h
      cases h

end Live

theorem Course.step (h : Course json c s tr) (he : Effect json s s' es) :
    Course json c s' (es ++ tr) := by
  cases h with
  | unregistered htr hsubs hcount hnext =>
    obtain ⟨hcount', hnext'⟩ := he.waiting_count hcount hnext
    by_cases hreg : ∃ o topic, .registered o topic c ∈ es
    · obtain ⟨o, topic, hmem⟩ := hreg
      have hlt := hnext (he.registered_waiting hmem)
      cases he with
      | quiet _ hes | issued _ hes | ended _ _ hes => cases hes _ hmem
      | event _ _ _ _ hes =>
        rw [hes] at hmem
        obtain hmem | hmem := List.mem_append.mp hmem
        · obtain ⟨c', -, hev⟩ := List.mem_map.mp (List.mem_reverse.mp hmem)
          split_ifs at hev
        · cases List.mem_singleton.mp hmem
      | @registered o' topic' c' sent hp hsubs' hes hsent hread hw hnextc =>
        rw [hes] at hmem
        obtain hmem | hmem := List.mem_append.mp hmem
        · cases hsent _ hmem
        cases List.mem_singleton.mp hmem
        have hone : (s'.subs o topic).count c = 1 := by
          rw [hsubs', update_self, update_self, List.count_append,
            List.count_eq_zero.mpr (hsubs o topic), Nat.zero_add, List.count_singleton_self]
        have hsilent : ∀ e ∈ sent, e.channel? ≠ some c := by
          intro e he hch
          cases (hsent e he).symm.trans hch
        have htr' : es ++ tr = sent ++ .registered o topic c :: tr := by
          rw [hes, List.append_assoc]
          rfl
        refine .live htr' htr (fun e he hch => absurd hch (hsilent e he)) ?_ hone
          (fun o' topic' hne => ?_) (fun hmem => ?_) (hnextc ▸ hlt)
        · rw [sentTo_none hsilent, eventsRead_none hread]
        · rw [hsubs', update_apply]
          split_ifs with ho
          · subst ho
            rw [update_of_ne fun heq => hne ⟨rfl, heq⟩]
            exact hsubs _ _
          · exact hsubs _ _
        · rw [hw, List.count_cons_self] at hcount
          have hzero : s'.waiting.count c = 0 := by omega
          exact List.count_eq_zero.mp hzero hmem
    · have hnot : ∀ o topic, .registered o topic c ∉ es := fun o topic hmem => hreg ⟨o, topic, hmem⟩
      obtain ⟨hes, hsubs'⟩ := he.passed_over hsubs hnot
      exact .unregistered (fun e hmem => (List.mem_append.mp hmem).elim (hes e) (htr e)) hsubs'
        hcount' hnext'
  | live htr hbefore hsince hsent hcount hother hwaiting hnext =>
    subst htr
    exact Course.step_live hbefore hsince hsent hcount hother hwaiting hnext he
  | @ended o topic since before htr hbefore hsince hsent hp hsubs hwaiting hnext =>
    subst htr
    obtain ⟨hwaiting', hnext'⟩ := he.stays_away hwaiting hnext
    have hnot : ∀ o topic, .registered o topic c ∉ es := fun o topic hmem =>
      hwaiting (he.registered_waiting hmem)
    obtain ⟨hes, hsubs'⟩ := he.passed_over hsubs hnot
    -- an actor that has left its loop reads nothing
    have hlate : s'.phase = .ended ∧ eventsRead json o topic es = [] := by
      cases he with
      | quiet _ _ hread hended => exact ⟨hended hp, hread o topic (.inr hp)⟩
      | issued _ _ _ hne | registered hne | event hne => exact absurd hp hne
      | ended hp' _ _ hread => exact ⟨hp', hread o topic⟩
    refine .ended (List.append_assoc ..).symm hbefore (fun e hmem hch => ?_) ?_ hlate.1 hsubs'
      hwaiting' hnext'
    · obtain hmem | hmem := List.mem_append.mp hmem
      · exact absurd hch (hes e hmem)
      · exact hsince e hmem hch
    · rw [sentTo_append, eventsRead_append, hsent, hlate.2, sentTo_none hes]
  | @pruned o topic after mid before args htr hbefore hmid hafter hsent hsubs hwaiting hnext =>
    subst htr
    obtain ⟨hwaiting', hnext'⟩ := he.stays_away hwaiting hnext
    have hnot : ∀ o topic, .registered o topic c ∉ es := fun o topic hmem =>
      hwaiting (he.registered_waiting hmem)
    obtain ⟨hes, hsubs'⟩ := he.passed_over hsubs hnot
    have htr : es ++ (after ++ .pruned c :: mid ++ .registered o topic c :: before) =
        (es ++ after) ++ .pruned c :: mid ++ .registered o topic c :: before := by
      simp only [List.append_assoc]
    exact .pruned htr hbefore hmid
      (fun e hmem => (List.mem_append.mp hmem).elim (hes e) (hafter e)) hsent hsubs' hwaiting'
      hnext'

theorem run_course
    (h : (client json).recorded.RunWhere (fun w a => awaitsNoEvent json w.state a = true) w)
    (c : Nat) : Course json c w.state (w.trace.flatMap (·.events)) := by
  refine h.invariant (I := fun w => Course json c w.state (w.trace.flatMap (·.events))) ?_ ?_
  · rintro s rfl
    exact .unregistered (List.forall_mem_nil _) (fun _ _ => List.not_mem_nil) (Nat.zero_le _)
      (fun h => absurd h List.not_mem_nil)
  · intro w a w' _ hI hok hn
    obtain ⟨es, hs, ht⟩ := System.recorded_next.mp hn
    rw [ht, List.flatMap_cons]
    exact hI.step ((step_transition hs).effect hok)

theorem registration_unique {o' topic' : String} {since since' before before' : List Event}
    (h : since' ++ Event.registered o' topic' c :: before' =
      since ++ .registered o topic c :: before)
    (hsince : .registered o topic c ∉ since') (hbefore : ∀ e ∈ before', e.channel? ≠ some c) :
    since' = since ∧ o' = o ∧ topic' = topic := by
  have hnot : Event.registered o topic c ∉ before' := fun hmem => hbefore _ hmem rfl
  obtain ⟨hsince, hev, -⟩ := (List.append_cons_inj_of_notMem hsince hnot).mp h
  cases hev
  exact ⟨hsince, rfl, rfl⟩

theorem Course.since {since before : List Event}
    (htr : tr = since ++ .registered o topic c :: before) (h : Course json c s tr) :
    ((.pruned c ∉ since) ∧ sentTo c since = eventsRead json o topic since) ∨
      ∃ after mid args, since = after ++ .pruned c :: mid ∧ .pruned c ∉ after ∧ .pruned c ∉ mid ∧
        eventsRead json o topic mid = sentTo c since ++ [args] := by
  have hdelivered : ∀ {seg : List Event} {e : Event},
      (∀ e ∈ seg, e.channel? = some c → ∃ args, e = .delivered c args) → e.channel? = some c →
      (∀ args, e ≠ .delivered c args) → e ∉ seg := by
    intro seg e hseg hch hne hmem
    obtain ⟨args, rfl⟩ := hseg e hmem hch
    exact hne args rfl
  cases h with
  | unregistered hnone =>
    subst htr
    exact absurd rfl (hnone _ (List.mem_append_right _ List.mem_cons_self))
  | live htr' hbefore hsince hsent | ended htr' hbefore hsince hsent =>
    obtain ⟨rfl, rfl, rfl⟩ := registration_unique (htr'.symm.trans htr)
      (hdelivered hsince rfl fun _ h => by cases h) hbefore
    exact .inl ⟨hdelivered hsince rfl (fun _ h => by cases h), hsent⟩
  | @pruned o' topic' after mid before' args htr' hbefore hmid hafter hsent =>
    have hreg : Event.registered o topic c ∉ after ++ .pruned c :: mid := by
      intro hmem
      obtain hmem | hmem := List.mem_append.mp hmem
      · exact hafter _ hmem rfl
      · obtain hmem | hmem := List.mem_cons.mp hmem
        · cases hmem
        · exact hdelivered hmid rfl (fun _ h => by cases h) hmem
    obtain ⟨rfl, rfl, rfl⟩ := registration_unique (htr'.symm.trans htr) hreg hbefore
    refine .inr ⟨after, mid, args, rfl, fun hmem => hafter _ hmem rfl,
      hdelivered hmid rfl (fun _ h => by cases h), ?_⟩
    have hcons : sentTo c (.pruned c :: mid) = sentTo c mid := by
      rw [sentTo, chronicle, List.filterMap_cons_none rfl]
      rfl
    rw [sentTo_append, sentTo_none hafter, List.append_nil, hcons, hsent]

/-! What the hand-out of an event does to the channels. -/

theorem Transition.handed_out (h : Transition json s a s' es) {e : Event} (he : e ∈ es)
    (hc : (∃ args, e = .delivered c args) ∨ e = .pruned c) :
    ∃ o topic args, e ∈ s.handOut args (s.subs o topic) ∧
      s'.receivers = (s.publishTo o topic args).1.receivers := by
  have hne : e.channel? ≠ none := by
    obtain ⟨args, rfl⟩ | rfl := hc
    · exact Option.some_ne_none _
    · exact Option.some_ne_none _
  cases h with
  | issue | requestFailed | requestAwaits | awaitFailed | write =>
    rw [List.mem_singleton.mp he] at hne
    exact absurd rfl hne
  | requestDone | awaitPacket =>
    simp only [List.mem_cons, List.not_mem_nil, or_false] at he
    obtain rfl | rfl := he
    · exact absurd rfl hne
    · exact absurd rfl hne
  | issueEnded =>
    obtain ⟨req, respTx, rfl⟩ := abandon_event (Option.mem_toList.mp he)
    exact absurd rfl hne
  | exit => exact absurd (exit_channel e he) hne
  | subscribe =>
    obtain rfl | rfl := subscribe_event he
    · exact absurd rfl hne
    · obtain ⟨args, hev⟩ | hev := hc
      · cases hev
      · cases hev
  | @pollPacket reading data rest hp hr =>
    obtain he | he := List.mem_append.mp he
    · unfold readArm at he ⊢
      split_ifs at he ⊢ with hdata
      · exact absurd (exit_channel e he) hne
      · split at he
        · next o topic args _ => exact ⟨o, topic, args, he, rfl⟩
        · cases he
    · rw [List.mem_singleton.mp he] at hne
      exact absurd rfl hne
  | dropHandles | pollPending | pollFailed | awaitPending | arrive | hangUp | receive
  | dropReceiver => cases he

theorem Transition.buffered (h : Transition json s a s' es) (he : .delivered c args ∈ es) :
    (s'.receivers c).buffer = (s.receivers c).buffer ++ [args] := by
  obtain ⟨o, topic, args', hmem, hrecv⟩ := h.handed_out he (.inl ⟨args, rfl⟩)
  obtain ⟨c', hc', hev⟩ := List.mem_map.mp (List.mem_reverse.mp hmem)
  split_ifs at hev with hs
  cases hev
  rw [hrecv]
  simp only [publishTo, if_pos (And.intro hc' hs)]

theorem Transition.refused (h : Transition json s a s' es) (he : .pruned c ∈ es) :
    s.trySend c = false := by
  obtain ⟨o, topic, args, hmem, -⟩ := h.handed_out he (.inr rfl)
  obtain ⟨c', -, hev⟩ := List.mem_map.mp (List.mem_reverse.mp hmem)
  split_ifs at hev with hs
  cases hev
  exact Bool.eq_false_iff.mpr hs

/-- No event is lost when no read after a request takes an event of a topic with a receiver. -/
theorem events_gap_free
    (h : (client json).recorded.RunWhere (fun w a => awaitsNoEvent json w.state a = true) w) :
    GapFree json w.trace where
  sent o topic c since before htr hnot := by
    obtain ⟨-, hsent⟩ | ⟨after, mid, args, rfl, -⟩ := (run_course h c).since htr
    · exact hsent
    · exact absurd (List.mem_append_right _ List.mem_cons_self) hnot
  pruned o topic c since before after mid htr hsplit := by
    obtain ⟨hnot, -⟩ | ⟨after', mid', args, hsplit', hafter, hmid, hsent⟩ :=
      (run_course h c).since htr
    · rw [hsplit] at hnot
      exact absurd (List.mem_append_right _ List.mem_cons_self) hnot
    · obtain ⟨-, -, rfl⟩ :=
        (List.append_cons_inj_of_notMem hafter hmid).mp (hsplit'.symm.trans hsplit)
      exact ⟨args, hsent⟩
  buffered st hst c args he := by
    obtain ⟨later, earlier, htr⟩ := List.append_of_mem hst
    exact (taken_transition h ⟨later, htr.symm⟩).buffered he
  refused st hst c he := by
    obtain ⟨later, earlier, htr⟩ := List.append_of_mem hst
    exact (taken_transition h ⟨later, htr.symm⟩).refused he

def eventInSelect : List Action :=
  [.issue (.subscribe "o" "t"), .take none, .write eventText, .arrive 100, .poll]

theorem events_gap_free_inSelect :
    ∃ w, (client textJson).recorded.RunWhere
        (fun w a => awaitsNoEvent textJson w.state a = true) w ∧
      w.trace.map (·.action) = eventInSelect.reverse ∧
      ((w.state.receivers 0).buffer.length = 1) ∧ GapFree textJson w.trace := by
  let ok : World IpcClient ClientStep → Action → Prop := fun w a =>
    awaitsNoEvent textJson w.state a = true
  have hstart : (client textJson).recorded.RunWhere ok ⟨initial, []⟩ := .start rfl
  have hissue := hstart.step (a := .issue (.subscribe "o" "t")) rfl rfl
  have htake := hissue.step (a := .take none) rfl rfl
  have hwrite := htake.step (a := .write eventText) rfl rfl
  have harrive := hwrite.step (a := .arrive 100) rfl rfl
  have hpoll := harrive.step (a := .poll) rfl rfl
  exact ⟨_, hpoll, rfl, rfl, events_gap_free hpoll⟩

/-- An event arrives behind a request, and is read for the response to it: the subscriber of its
topic is not sent it, and stays subscribed. -/
theorem event_read_for_response :
    ∃ w since before, (client textJson).recorded.Run w ∧
      w.trace.flatMap (·.events) = since ++ .registered "o" "t" 0 :: before ∧
      eventsRead textJson "o" "t" since = [.null] ∧ sentTo 0 since = [] ∧
      w.state.subs "o" "t" = [0] ∧ w.state.trySend 0 = true ∧ ¬ GapFree textJson w.trace := by
  have hstart : (client textJson).recorded.Run ⟨initial, []⟩ := .start rfl
  have hissue := hstart.step (a := .issue (.subscribe "o" "t")) trivial rfl
  have htake := hissue.step (a := .take none) trivial rfl
  have hcall := htake.step (a := .issue (.remoteCall (callOf "1"))) trivial rfl
  have hsend := hcall.step (a := .take none) trivial rfl
  have hwrite := hsend.step (a := .write eventText) trivial rfl
  have harrive := hwrite.step (a := .arrive 100) trivial rfl
  have hpoll := harrive.step (a := .poll) trivial rfl
  refine ⟨_, [_, _, _, _, _, _], _, hpoll, rfl, rfl, rfl, rfl, rfl, fun h => ?_⟩
  have hsent := h.sent "o" "t" 0 [_, _, _, _, _, _] _ rfl (by simp)
  cases hsent

end IpcBroker.IpcClient
