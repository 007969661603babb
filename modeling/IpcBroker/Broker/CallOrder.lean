import IpcBroker.Broker.CallCustody
import IpcBroker.Broker.ChannelOrder

/-! The order of the calls of one caller for one object: as long as no call is forwarded past an
earlier one that is queued or being flushed, they reach the channel of a worker in order. -/

namespace IpcBroker
open Function Foundation

def sentCalls (y : ClientId) : List BrokerStep → List SentCall
  | [] => []
  | st :: tr => sentCalls y tr ++ (handed tr st).arrivals (callCustody tr) (.channel y)

def InOrder (c d : SentCall) : Prop :=
  c.caller = d.caller → c.call.objectName = d.call.objectName → c.number < d.number

namespace Broker

/-- A call is not put on the channel of a worker while an earlier call of its caller for the object
waits in the queue of the service, or is in the hands of the registration of the worker. -/
def flushedFirst (w : World Broker BrokerStep) : Action → Bool
  | .handler x =>
    match w.state.phase x with
    | .handling (.callForward k workerTx) => (callCustody w.trace).all fun t =>
        !((t.1 = .service k.objectName || t.1 = .flush workerTx.channel) && t.2.caller = x &&
          t.2.call.objectName = k.objectName)
    | _ => true
  | _ => true

variable {s s' : Broker} {a : Action} {es : List Event} {x y : ClientId} {k : Call}
  {w w' : World Broker BrokerStep} {c d : SentCall}

/-- The calls that have been put on the channel of `y`, then those its registration is to put
there, then those queued for `o`. -/
def callLine (w : World Broker BrokerStep) (y : ClientId) (o : String) : List SentCall :=
  sentCalls y w.trace ++ (held (.flush y) (callCustody w.trace) ++
    held (.service o) (callCustody w.trace))

structure CallsLined (w : World Broker BrokerStep) : Prop where
  lined : ∀ y o, (callLine w y o).Pairwise InOrder
  queued : ∀ o c, (.service o, c) ∈ callCustody w.trace → c.call.objectName = o

theorem flushedFirst_spec {tx : ClientSender} {p : Holder} (hok : flushedFirst w (.handler x) = true)
    (hx : w.state.phase x = .handling (.callForward k tx))
    (hp : p = .service k.objectName ∨ p = .flush tx.channel) (hd : (p, d) ∈ callCustody w.trace)
    (hcaller : d.caller = x) : d.call.objectName ≠ k.objectName := by
  intro ho
  simp only [flushedFirst, hx] at hok
  have hfree := List.all_eq_true.mp hok _ hd
  obtain rfl | rfl := hp <;> simp [hcaller, ho] at hfree

section Runs
variable {ok : World Broker BrokerStep → Action → Prop}

theorem sentCalls_next (hn : broker.recorded.next w a = some w') (y : ClientId) :
    sentCalls y w'.trace = sentCalls y w.trace ++
      (w.state.handing (fun x => (callsFrom w.events.trace x).length) a).arrivals
        (callCustody w.trace) (.channel y) := by
  obtain ⟨es, hs, htr⟩ := System.recorded_next.mp hn
  rw [htr]
  rfl

structure SentNumbered (w : World Broker BrokerStep) : Prop where
  sent : ∀ y c, c ∈ sentCalls y w.trace →
    (callsFrom w.events.trace c.caller)[c.number]? = some c.call
  older : ∀ y c d, c ∈ sentCalls y w.trace → (.caller c.caller, d) ∈ callCustody w.trace →
    c.number < d.number

theorem newest (h : broker.recorded.RunWhere ok w) {p : Holder} (hc : (p, c) ∈ callCustody w.trace)
    (hp : ∀ x, p ≠ .caller x) (hd : (.caller c.caller, d) ∈ callCustody w.trace) :
    c.number < d.number := by
  have hN := callsNumbered h
  obtain ⟨hcaller, hnumber⟩ := hN.caller _ d hd
  have hlt := (List.getElem?_eq_some_iff.mp (hN.sent p c hc)).1
  have hne : c.number ≠ d.number := by
    intro heq
    have hsent := hN.sent _ d hd
    rw [hcaller, ← heq] at hsent
    have hcall : c.call = d.call := Option.some.inj ((hN.sent p c hc).symm.trans hsent)
    have hcd : c = d := by
      cases c
      cases d
      simp only at hcaller heq hcall
      rw [hcaller, heq, hcall]
    subst hcd
    exact hp _ (place_unique hN.distinct hc hd)
  omega

theorem arrivals_channel {number : ClientId → Nat} {l : CallCustody}
    (hc : c ∈ (s.handing number a).arrivals l (.channel y)) :
    (∃ x k tx, a = .handler x ∧ s.phase x = .handling (.callForward k tx) ∧ tx.channel = y ∧
      s.handing number a = .pass (.caller x) (.channel y) ∧ (held (.caller x) l).head? = some c) ∨
    ∃ x tx k rest, a = .handler x ∧ s.phase x = .handling (.sendAwait tx (.request (.call k)) rest) ∧
      tx.channel = y ∧ s.handing number a = .pass (.flush x) (.channel y) ∧
        (held (.flush x) l).head? = some c := by
  have hcases := handing_cases s number a
  generalize s.handing number a = m at hcases hc
  cases hcases with
  | stay | lose | keep => cases hc
  | enter | write => simp [Move.arrivals] at hc
  | handler hx hm =>
    cases hm with
    | stay | lose | answer => cases hc
    | queue | take => simp [Move.arrivals] at hc
    | forward =>
      simp only [Move.arrivals, Holder.channel.injEq] at hc
      split_ifs at hc with hy
      · exact .inl ⟨_, _, _, rfl, hx, hy.symm, by rw [hy], Option.mem_toList.mp hc⟩
      · cases hc
    | flush =>
      simp only [Move.arrivals, Holder.channel.injEq] at hc
      split_ifs at hc with hy
      · exact .inr ⟨_, _, _, _, rfl, hx, hy.symm, by rw [hy], Option.mem_toList.mp hc⟩
      · cases hc

theorem SentNumbered.step (hI : SentNumbered w) (h : broker.recorded.RunWhere ok w)
    (hn : broker.recorded.next w a = some w') : SentNumbered w' := by
  obtain ⟨es, ht, hev, hcust⟩ := custody_next hn
  have hN := callsNumbered h
  have hmem : ∀ {p c}, (held p (callCustody w.trace)).head? = some c →
      (p, c) ∈ callCustody w.trace := fun hhead => mem_held.mp (List.mem_of_mem_head? hhead)
  have hsent : ∀ y c, c ∈ sentCalls y w'.trace →
      (callsFrom w.events.trace c.caller)[c.number]? = some c.call := by
    intro y c hc
    rw [sentCalls_next hn, List.mem_append] at hc
    obtain hc | hc := hc
    · exact hI.sent y c hc
    · obtain ⟨x, k, tx, -, -, -, -, hhead⟩ | ⟨x, tx, k, rest, -, -, -, -, hhead⟩ :=
        arrivals_channel hc <;> exact hN.sent _ c (hmem hhead)
  refine ⟨fun y c hc => hev ▸ callsFrom_kept ht (hsent y c hc), fun y c d hc hd => ?_⟩
  have hlt := (List.getElem?_eq_some_iff.mp (hsent y c hc)).1
  have hd' := hd
  rw [hcust] at hd'
  obtain hold | henter | ⟨p, ⟨hp, -⟩ | hp, -⟩ := mem_apply hd'
  · rw [sentCalls_next hn, List.mem_append] at hc
    obtain hc | hc := hc
    · exact hI.older y c d hc hold
    · obtain ⟨x, k, tx, -, hx, -, hmove, hhead⟩ | ⟨x, tx, k, rest, -, -, -, -, hhead⟩ :=
        arrivals_channel hc
      · -- the call was the one in hand, and its handler has no other
        obtain ⟨e, hheld, rfl, -⟩ := held_caller h (x := x) (k := k) (by rw [hx]; rfl)
        rw [hheld] at hhead
        cases hhead
        have hgone : held (.caller c.caller) (callCustody w'.trace) = [] := by
          rw [hcust, held_apply, hmove]
          simp [Move.at, hheld]
        have hin := mem_held.mpr hd
        rw [hgone] at hin
        cases hin
      · exact newest h (hmem hhead) (fun _ hp => by cases hp) hold
  · obtain ⟨x, k, -, hx, rfl⟩ := handing_enter henter
    cases hx
    exact hlt
  · exact absurd hp handing_caller.1
  · exact absurd hp handing_caller.2

theorem sentNumbered (h : broker.recorded.RunWhere ok w) : SentNumbered w := by
  refine h.invariant ?_ ?_
  · rintro _ ⟨items, rfl⟩
    exact ⟨nofun, nofun⟩
  · intro w a w' hr hI _ hn
    exact hI.step hr hn

theorem arrivals_send (h : broker.recorded.RunWhere ok w) {pc : HandlerPc} {site : SendSite}
    {tx : ClientSender} {msg : Packet} {p : Phase} (hx : w.state.phase x = .handling pc)
    (hs : pc.sends = some (site, tx, msg, p)) (ho : w.state.phase tx.channel ≠ .ended) :
    ((w.state.handlerMove x pc).arrivals (callCustody w.trace) (.channel tx.channel)).map (·.call) =
      msg.call?.toList := by
  obtain ⟨k, rfl, -, rfl, -⟩ | ⟨resp, rfl, -, rfl, -⟩ | ⟨event, rest, rfl, -, rfl, -⟩ |
    ⟨rest, rfl, -, -⟩ := HandlerPc.sends_cases hs
  · obtain ⟨c, hheld, -, hcall⟩ := held_caller h (x := x) (k := k) (by rw [hx]; rfl)
    rw [handlerMove, handToChannel_open ho, Move.arrivals, if_pos rfl, hheld]
    exact congrArg (fun k => [k]) hcall
  · rfl
  · rfl
  · cases hk : msg.call? with
    | none =>
      cases msg with
      | request r => cases r <;> first | rfl | cases hk
      | response r => rfl
    | some k =>
      obtain rfl : msg = .request (.call k) := by
        cases msg with
        | request r => cases r <;> cases hk; rfl
        | response r => cases hk
      have hheld : (held (.flush x) (callCustody w.trace)).map (·.call) =
          k :: rest.filterMap Packet.call? := by
        refine (custody_mirrors h (.flush x) fun _ hp => by cases hp).trans ?_
        rw [callsAt, hx]
        rfl
      obtain ⟨c, cs, hcs, rfl, -⟩ := List.map_eq_cons_iff.mp hheld
      rw [handlerMove, handToChannel_open ho, Move.arrivals, if_pos rfl, hcs]
      rfl

theorem sentCalls_enqueued (h : broker.recorded.RunWhere ok w) (y : ClientId) :
    (sentCalls y w.trace).map (·.call) =
      (enqueuedOn w.events.trace y).filterMap Packet.call? := by
  refine h.invariant (I := fun w => (sentCalls y w.trace).map (·.call) =
    (enqueuedOn w.events.trace y).filterMap Packet.call?) (fun _ _ => rfl) ?_
  intro w a w' hr hI _ hn
  obtain ⟨es, ht, hev, -⟩ := custody_next hn
  rw [sentCalls_next hn, List.map_append, hI, hev, enqueuedOn_append, List.filterMap_append]
  refine congrArg _ ?_
  by_cases hsend : ∃ x pc site tx msg p, a = .handler x ∧ w.state.phase x = .handling pc ∧
      pc.sends = some (site, tx, msg, p) ∧ tx.channel = y ∧ w.state.phase y ≠ .ended
  · obtain ⟨x, pc, site, tx, msg, p, rfl, hx, hs, rfl, ho⟩ := hsend
    obtain hended | rfl := ht.sends hx hs
    · exact absurd hended ho
    · simp only [handing, hx]
      rw [arrivals_send hr hx hs ho]
      cases hk : msg.call? <;> simp [enqueuedOn, chronicle, Event.enqueuedOn?, hk]
  · have hputs : enqueuedOn es y = [] := by
      refine chronicle_none fun e he => ?_
      unfold Event.enqueuedOn?
      split
      · next site x z msg =>
        refine if_neg fun hz => hsend ?_
        obtain ⟨pc, tx, p, ha, hx, hs, htx, ho, -⟩ := ht.sender (hz ▸ he)
        exact ⟨x, pc, site, tx, msg, p, ha, hx, hs, htx, ho⟩
      · rfl
    rw [hputs]
    refine List.map_eq_nil_iff.mpr (List.eq_nil_iff_forall_not_mem.mpr fun c hc => hsend ?_)
    have hopen : ∀ {x p}, {tx : ClientSender} → tx.channel = y →
        w.state.handToChannel p tx = .pass x (.channel y) → w.state.phase y ≠ .ended := by
      rintro x p tx rfl hpass hended
      rw [handToChannel_ended hended] at hpass
      cases hpass
    obtain ⟨x, k, tx, rfl, hx, htx, hmove, -⟩ | ⟨x, tx, k, rest, rfl, hx, htx, hmove, -⟩ :=
      arrivals_channel hc
    all_goals
      simp only [handing, hx] at hmove
      exact ⟨x, _, _, tx, _, _, rfl, hx, rfl, htx, hopen htx hmove⟩

theorem CallsLined.quiet (hI : CallsLined w) (hn : broker.recorded.next w a = some w')
    {m : Move Holder SentCall} {o : String}
    (hm : w.state.handing (fun x => (callsFrom w.events.trace x).length) a = m)
    (hchan : m.arrivals (callCustody w.trace) (.channel y) = [])
    (hflush : m.arrivals (callCustody w.trace) (.flush y) = [])
    (hserv : m.arrivals (callCustody w.trace) (.service o) = []) :
    (callLine w' y o).Pairwise InOrder := by
  obtain ⟨es, -, -, hcust⟩ := custody_next hn
  subst hm
  rw [callLine, sentCalls_next hn, hchan, List.append_nil, hcust]
  exact (hI.lined y o).sublist
    ((List.Sublist.refl _).append ((held_sublist hflush).append (held_sublist hserv)))

theorem CallsLined.queueStep (hI : CallsLined w) (h : broker.recorded.RunWhere ok w)
    (hn : broker.recorded.next w a = some w')
    (hm : w.state.handing (fun x => (callsFrom w.events.trace x).length) a =
      .pass (.caller x) (.service k.objectName))
    (hx : w.state.phase x = .handling (.callServices k)) (y : ClientId) :
    (callLine w' y k.objectName).Pairwise InOrder := by
  obtain ⟨es, -, -, hcust⟩ := custody_next hn
  obtain ⟨c, hheld, hcaller, -⟩ := held_caller h (x := x) (k := k) (by rw [hx]; rfl)
  have hc : (.caller c.caller, c) ∈ callCustody w.trace :=
    hcaller ▸ mem_held.mp (hheld ▸ List.mem_singleton_self c)
  have hline : callLine w' y k.objectName = callLine w y k.objectName ++ [c] := by
    rw [callLine, sentCalls_next hn, hcust, held_apply, held_apply, hm]
    simp [Move.arrivals, Move.at, callLine, hheld]
  rw [hline, List.pairwise_append]
  refine ⟨hI.lined y k.objectName, List.pairwise_singleton _ _, fun d hd e he hde _ => ?_⟩
  cases List.mem_singleton.mp he
  rw [callLine, List.mem_append, List.mem_append] at hd
  obtain hd | hd | hd := hd
  · exact (sentNumbered h).older y d c hd (hde ▸ hc)
  · exact newest h (mem_held.mp hd) (fun _ hp => by cases hp) (hde ▸ hc)
  · exact newest h (mem_held.mp hd) (fun _ hp => by cases hp) (hde ▸ hc)

theorem CallsLined.forwardStep {tx : ClientSender} {o : String} (hI : CallsLined w)
    (h : broker.recorded.RunWhere ok w) (hfirst : flushedFirst w (.handler x) = true)
    (hn : broker.recorded.next w (.handler x) = some w')
    (hm : w.state.handing (fun x => (callsFrom w.events.trace x).length) (.handler x) =
      .pass (.caller x) (.channel tx.channel))
    (hx : w.state.phase x = .handling (.callForward k tx)) :
    (callLine w' tx.channel o).Pairwise InOrder := by
  obtain ⟨es, -, -, hcust⟩ := custody_next hn
  obtain ⟨c, hheld, hcaller, hcall⟩ := held_caller h (x := x) (k := k) (by rw [hx]; rfl)
  have hc : (.caller c.caller, c) ∈ callCustody w.trace :=
    hcaller ▸ mem_held.mp (hheld ▸ List.mem_singleton_self c)
  have hline : callLine w' tx.channel o = sentCalls tx.channel w.trace ++ ([c] ++
      (held (.flush tx.channel) (callCustody w.trace) ++
        held (.service o) (callCustody w.trace))) := by
    rw [callLine, sentCalls_next hn, hcust, held_apply, held_apply, hm]
    simp [Move.arrivals, Move.at, hheld]
  obtain ⟨hsent, hrest, hcross⟩ := List.pairwise_append.mp (hI.lined tx.channel o)
  rw [hline]
  refine List.pairwise_append.mpr ⟨hsent, List.pairwise_cons.mpr ⟨fun e he hce ho => ?_, hrest⟩,
    fun d hd e he => ?_⟩
  · have he : e ∈ held (.flush tx.channel) (callCustody w.trace) ++
        held (.service o) (callCustody w.trace) := he
    have hfree : ∀ {p}, (p = .service k.objectName ∨ p = .flush tx.channel) →
        (p, e) ∈ callCustody w.trace → False := fun hp hmem =>
      flushedFirst_spec hfirst hx hp hmem (hce.symm.trans hcaller) (by rw [← ho, hcall])
    rw [List.mem_append] at he
    obtain he | he := he
    · exact (hfree (.inr rfl) (mem_held.mp he)).elim
    · have hmem := mem_held.mp he
      have heo : o = k.objectName := by rw [← hI.queued o e hmem, ← ho, hcall]
      exact (hfree (.inl (heo ▸ rfl)) hmem).elim
  · rw [List.singleton_append] at he
    obtain rfl | he := List.mem_cons.mp he
    · exact fun hde _ => (sentNumbered h).older _ d e hd (hde ▸ hc)
    · exact hcross d hd e he

theorem CallsLined.takeStep {o o' : String} (hI : CallsLined w)
    (hn : broker.recorded.next w a = some w')
    (hm : w.state.handing (fun x => (callsFrom w.events.trace x).length) a =
      .passAll (.service o') (.flush y)) :
    (callLine w' y o).Pairwise InOrder := by
  obtain ⟨es, -, -, hcust⟩ := custody_next hn
  have hline : callLine w' y o = callLine w y o' ++
      if o = o' then [] else held (.service o) (callCustody w.trace) := by
    rw [callLine, sentCalls_next hn, hcust, held_apply, held_apply, hm]
    simp [Move.arrivals, Move.at, callLine]
  rw [hline]
  split_ifs with ho
  · rw [List.append_nil]
    exact hI.lined y o'
  · obtain ⟨hsent, hrest, hcross⟩ := List.pairwise_append.mp (hI.lined y o)
    obtain ⟨hflush, hserv, hfs⟩ := List.pairwise_append.mp hrest
    refine List.pairwise_append.mpr ⟨hI.lined y o', hserv, fun d hd e he => ?_⟩
    rw [callLine, List.mem_append, List.mem_append] at hd
    obtain hd | hd | hd := hd
    · exact hcross d hd e (List.mem_append_right _ he)
    · exact hfs d hd e he
    · -- calls for two objects
      intro _ hobj
      rw [hI.queued o' d (mem_held.mp hd), hI.queued o e (mem_held.mp he)] at hobj
      exact absurd hobj.symm ho

theorem CallsLined.flushStep {o : String} (hI : CallsLined w)
    (hn : broker.recorded.next w a = some w')
    (hm : w.state.handing (fun x => (callsFrom w.events.trace x).length) a =
      .pass (.flush y) (.channel y)) :
    (callLine w' y o).Pairwise InOrder := by
  obtain ⟨es, -, -, hcust⟩ := custody_next hn
  have hline : callLine w' y o = callLine w y o := by
    rw [callLine, sentCalls_next hn, hcust, held_apply, held_apply, hm]
    simp only [Move.arrivals, Move.at, callLine, if_true, reduceCtorEq, if_false, List.append_nil]
    cases held (.flush y) (callCustody w.trace) with
    | nil => simp
    | cons c rest => simp
  rw [hline]
  exact hI.lined y o

theorem handing_service {number : ClientId → Nat} {p : Holder} {o : String} :
    (s.handing number a = .pass p (.service o) → ∃ x k, s.phase x = .handling (.callServices k) ∧
      p = .caller x ∧ o = k.objectName) ∧ s.handing number a ≠ .passAll p (.service o) := by
  have hc := handing_cases s number a
  constructor <;> intro hm <;> rw [hm] at hc
  · cases hc with
    | handler hx hmove =>
      cases hmove with
      | queue => exact ⟨_, _, hx, rfl, rfl⟩
  · cases hc with
    | handler hx hmove => cases hmove

theorem queued_step (hI : CallsLined w) (h : broker.recorded.RunWhere ok w)
    (hn : broker.recorded.next w a = some w') {o : String}
    (hc : (.service o, c) ∈ callCustody w'.trace) : c.call.objectName = o := by
  obtain ⟨es, -, -, hcust⟩ := custody_next hn
  rw [hcust] at hc
  obtain hold | henter | ⟨p, ⟨hpass, hhead⟩ | hpass, -⟩ := mem_apply hc
  · exact hI.queued o c hold
  · obtain ⟨x, k, -, hp, -⟩ := handing_enter henter
    cases hp
  · obtain ⟨x, k, hx, rfl, rfl⟩ := handing_service.1 hpass
    obtain ⟨c', hheld, -, hcall⟩ := held_caller h (x := x) (k := k) (by rw [hx]; rfl)
    rw [hheld] at hhead
    cases hhead
    rw [hcall]
  · exact absurd hpass handing_service.2

theorem CallsLined.step (hI : CallsLined w) (h : broker.recorded.RunWhere ok w)
    (hfirst : flushedFirst w a = true) (hn : broker.recorded.next w a = some w') :
    CallsLined w' := by
  refine ⟨fun y o => ?_, fun o c => queued_step hI h hn⟩
  have hcases := handing_cases w.state (fun x => (callsFrom w.events.trace x).length) a
  generalize hm : w.state.handing (fun x => (callsFrom w.events.trace x).length) a = m at hcases
  cases hcases with
  | stay | lose | keep => exact hI.quiet hn hm rfl rfl rfl
  | enter | write => exact hI.quiet hn hm rfl rfl rfl
  | @handler x pc _ hx hmove =>
    cases hmove with
    | stay | lose | answer => exact hI.quiet hn hm rfl rfl rfl
    | @queue k =>
      by_cases ho : o = k.objectName
      · subst ho
        exact hI.queueStep h hn hm hx y
      · exact hI.quiet hn hm rfl rfl (if_neg (fun hp => ho (Holder.service.inj hp)))
    | @forward k tx =>
      by_cases hy : y = tx.channel
      · subst hy
        exact hI.forwardStep h hfirst hn hm hx
      · exact hI.quiet hn hm (if_neg fun hp => hy (Holder.channel.inj hp)) rfl rfl
    | @take o' =>
      by_cases hy : y = x
      · subst hy
        exact hI.takeStep hn hm
      · exact hI.quiet hn hm rfl (if_neg fun hp => hy (Holder.flush.inj hp)) rfl
    | @flush tx k rest =>
      by_cases hy : y = x
      · subst hy
        rw [(recorded_lifecycle h).ownTx y tx _ rest hx] at hm
        exact hI.flushStep hn hm
      · have hown : tx.channel = x := by rw [(recorded_lifecycle h).ownTx x tx _ rest hx]
        refine hI.quiet hn hm (if_neg fun hp => hy ?_) rfl rfl
        rw [Holder.channel.inj hp, hown]

theorem callsLined (hrun : broker.recorded.RunWhere (fun w a => flushedFirst w a = true) w) :
    CallsLined w := by
  refine hrun.invariant ?_ ?_
  · rintro _ ⟨items, rfl⟩
    exact ⟨fun _ _ => List.Pairwise.nil, nofun⟩
  · intro w a w' hr hI hfirst hn
    exact hI.step hr hfirst hn

end Runs

/-- The calls on the channel of a worker are calls of their callers, numbered as these sent them,
and none comes before an earlier one of its caller for its object. -/
structure CallsInOrder (w : World Broker BrokerStep) : Prop where
  sent : ∀ y, (sentCalls y w.trace).map (·.call) =
    (enqueuedOn w.events.trace y).filterMap Packet.call?
  numbered : ∀ y c, c ∈ sentCalls y w.trace →
    (callsFrom w.events.trace c.caller)[c.number]? = some c.call
  inOrder : ∀ y, (sentCalls y w.trace).Pairwise InOrder

/-- When no call is forwarded past an earlier one of its caller for its object that is queued or
being flushed, the calls of every client for an object come to the channel of a worker in the order
in which the client has sent them. -/
theorem calls_in_order (h : broker.recorded.RunWhere (fun w a => flushedFirst w a = true) w) :
    CallsInOrder w := by
  refine ⟨sentCalls_enqueued h, (sentNumbered h).sent, fun y => ?_⟩
  exact ((callsLined h).lined y "").sublist (List.sublist_append_left ..)

def sentNumbers (tr : List BrokerStep) : List (ClientId × Nat × String) :=
  (sentCalls workerA tr).map fun c => (c.caller, c.number, c.call.objectName)

def flushedThenForwarded : List Action :=
  callFlushed ++ request callerC (.call (callOf "2" "o")) 3

theorem calls_in_order_flushed :
    ∃ w, broker.recorded.exec (fun w a => flushedFirst w a = true)
        ⟨Broker.initial (activationOf "o"), []⟩ flushedThenForwarded = some w ∧
      sentNumbers w.trace = [(callerC, 0, "o"), (callerC, 1, "o")] ∧ CallsInOrder w := by
  obtain ⟨w, hr, he, ht⟩ := System.RunWhere.of_exec_any broker.recorded
    (fun w a => flushedFirst w a = true) flushedThenForwarded
    (fun w => sentNumbers w.trace = [(callerC, 0, "o"), (callerC, 1, "o")]) ⟨activationOf "o", rfl⟩
    (by decide)
  exact ⟨w, he, of_decide_eq_true ht, calls_in_order hr⟩

/-- The worker is in `objects` before it takes the queue: the next call is forwarded at once, and
then the one that was queued. -/
def forwardedThenFlushed : List Action :=
  [.connect workerA, .connect callerC] ++ request callerC (.call (callOf "1" "o")) 4 ++
    request workerA (.registerObject "o") 1 ++ request callerC (.call (callOf "2" "o")) 3 ++
    List.replicate 3 (.handler workerA)

theorem queued_call_overtaken :
    ¬ ∀ w, broker.recorded.RunWhere (fun _ _ => True) w → CallsInOrder w := by
  intro hall
  obtain ⟨w, hr, -, ht⟩ := System.RunWhere.of_exec_any broker.recorded (fun _ _ => True)
    forwardedThenFlushed (fun w => sentNumbers w.trace = [(callerC, 1, "o"), (callerC, 0, "o")])
    ⟨activationOf "o", rfl⟩ (by decide)
  have hnumbers := of_decide_eq_true ht
  unfold sentNumbers at hnumbers
  obtain ⟨c, rest, hsent, hc, hrest⟩ := List.map_eq_cons_iff.mp hnumbers
  obtain ⟨d, rfl, hd⟩ := List.map_eq_singleton_iff.mp hrest
  rw [Prod.mk.injEq, Prod.mk.injEq] at hc hd
  obtain ⟨hcx, hcn, hco⟩ := hc
  obtain ⟨hdx, hdn, hdo⟩ := hd
  have hline := (hall w hr).inOrder workerA
  rw [hsent] at hline
  have hlt := (List.pairwise_cons.mp hline).1 d (List.mem_singleton_self d)
    (hcx.trans hdx.symm) (hco.trans hdo.symm)
  omega

end Broker
end IpcBroker
