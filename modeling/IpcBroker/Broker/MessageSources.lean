import IpcBroker.Broker.CallHistory

/-! Where the messages come from that the handlers send, and those on the channels. -/

namespace IpcBroker
open Function Foundation

def ForCaller (tr : List Event) (x : ClientId) (c : CallId) : Prop :=
  ∃ k, Issued tr x k ∧ k.callId = c

def RefusedCall (tr : List Event) (x : ClientId) (c : CallId) : Prop :=
  ∃ k, k.callId = c ∧ Event.refused x k ∈ tr

def OwnMessage (tr : List Event) (x : ClientId) : Packet → Prop
  | .request r => ∃ y k, r = .call k ∧ Issued tr y k
  | .response r => ∀ c, r.callId? = some c → ForCaller tr x c ∧ RefusedCall tr x c

def PhaseSourced (tr : List Event) (x : ClientId) : Phase → Prop
  | .handling (.responseTake resp c) =>
    resp.callId? = some c ∧ Event.received x (.response resp) ∈ tr
  | .handling (.responseForward resp tx) =>
    ∃ c, resp.callId? = some c ∧ Event.received x (.response resp) ∈ tr ∧
      ForCaller tr tx.channel c
  | .handling (.publishSenders event _) | .handling (.publishSend event _) =>
    event.callId? = none
  | .handling (.sendLookup msg rest) | .handling (.sendAwait _ msg rest) =>
    ∀ m ∈ msg :: rest, OwnMessage tr x m
  | _ => True

def MessageSourced (tr : List Event) (site : SendSite) (x y : ClientId) : Packet → Prop
  | .request r => ∃ z k, r = .call k ∧ Issued tr z k
  | .response r => ∀ c, r.callId? = some c →
      ForCaller tr y c ∧
        (site = .handleResponse ∧ Event.received x (.response r) ∈ tr ∨
          site = .sendToClient ∧ RefusedCall tr y c)

variable {tr : List Event} {x y : ClientId} {k : Call} {c : CallId}

theorem ForCaller.append (h : ForCaller tr x c) (es : List Event) : ForCaller (es ++ tr) x c := by
  obtain ⟨k, hk, hid⟩ := h
  exact ⟨k, hk.append es, hid⟩

theorem RefusedCall.append (h : RefusedCall tr x c) (es : List Event) :
    RefusedCall (es ++ tr) x c := by
  obtain ⟨k, hid, hk⟩ := h
  exact ⟨k, hid, List.mem_append_right _ hk⟩

theorem OwnMessage.append {m : Packet} (h : OwnMessage tr x m) (es : List Event) :
    OwnMessage (es ++ tr) x m := by
  cases m with
  | request r =>
    obtain ⟨y, k, hr, hk⟩ := h
    exact ⟨y, k, hr, hk.append es⟩
  | response r => exact fun c hc => ⟨(h c hc).1.append es, (h c hc).2.append es⟩

theorem PhaseSourced.append {p : Phase} (h : PhaseSourced tr x p) (es : List Event) :
    PhaseSourced (es ++ tr) x p := by
  unfold PhaseSourced at h ⊢
  split at h
  · exact ⟨h.1, List.mem_append_right es h.2⟩
  · obtain ⟨c, hc, hrec, hx⟩ := h
    exact ⟨c, hc, List.mem_append_right es hrec, hx.append es⟩
  · exact h
  · exact h
  · exact fun m hm => (h m hm).append es
  · exact fun m hm => (h m hm).append es
  · trivial

theorem MessageSourced.append {site : SendSite} {m : Packet} (h : MessageSourced tr site x y m)
    (es : List Event) : MessageSourced (es ++ tr) site x y m := by
  cases m with
  | request r =>
    obtain ⟨z, k, hr, hk⟩ := h
    exact ⟨z, k, hr, hk.append es⟩
  | response r =>
    intro c hc
    obtain ⟨hx, hrec | href⟩ := h c hc
    · exact ⟨hx.append es, .inl ⟨hrec.1, List.mem_append_right es hrec.2⟩⟩
    · exact ⟨hx.append es, .inr ⟨href.1, href.2.append es⟩⟩

namespace Broker
variable {s s' : Broker} {a : Action} {es : List Event} {w w' : World Broker Event}

theorem sourced_afterSends {msgs : List Packet} (h : ∀ m ∈ msgs, OwnMessage tr x m) :
    PhaseSourced tr x (afterSends msgs) := by
  cases msgs with
  | nil => trivial
  | cons msg rest => exact h

theorem sourced_next {event : RpcResponse} (h : event.callId? = none) (txs : List ClientSender) :
    PhaseSourced tr x (handlePublish.next event txs) := by
  cases txs with
  | nil => trivial
  | cons tx txs => exact h

theorem ownMessage_plain {r : RpcResponse} (h : r.callId? = none) :
    ∀ m ∈ [Packet.response r], OwnMessage tr x m := by
  intro m hm
  cases List.mem_singleton.mp hm
  intro c hc
  cases h.symm.trans hc

theorem ownMessage_error {o message : String} (hk : Issued tr x k)
    (href : Event.refused x k ∈ tr) :
    ∀ m ∈ [Packet.response (.error (some k.callId) o message)], OwnMessage tr x m := by
  intro m hm
  cases List.mem_singleton.mp hm
  rintro c hc
  cases hc
  exact ⟨⟨k, hk, rfl⟩, k, rfl, href⟩

theorem Transition.sourced (h : Transition s a s' es)
    (hI : ∀ y, PhaseSourced tr y (s.phase y)) (hO : CallOwners ⟨s, tr⟩) (hL : Lifecycle s) :
    ∀ y, PhaseSourced (es ++ tr) y (s'.phase y) := by
  have hkeep : ∀ {x p}, PhaseSourced (es ++ tr) x p → ∀ y,
      PhaseSourced (es ++ tr) y (update s.phase x p y) := by
    intro x p hp y
    by_cases hy : y = x
    · subst hy
      rw [update_self]
      exact hp
    · rw [update_of_ne hy]
      exact (hI y).append es
  cases h with
  | receiveInvalid | receiveIdle | write | writeError | stopWriter | spawnEnd =>
    exact fun y => (hI y).append _
  | @receive x p pc hx hd =>
    refine hkeep ?_
    obtain ⟨r, rfl, rfl⟩ | ⟨resp, c', rfl, hc, rfl⟩ := dispatch_cases hd
    · cases r <;> trivial
    · exact ⟨hc, List.mem_cons_self⟩
  | @registerServices x o e hx hl he =>
    refine hkeep (sourced_afterSends fun m hm => ?_)
    obtain hm | hm := List.mem_append.mp hm
    · obtain ⟨r, hr, rfl⟩ := List.mem_map.mp hm
      obtain ⟨z, k, hrk, -, hk⟩ := hO.pending o e r he hr
      exact ⟨z, k, hrk, hk.append _⟩
    · exact ownMessage_plain rfl m hm
  | registerPlain | subscribe | hasObject =>
    exact hkeep (sourced_afterSends (ownMessage_plain rfl))
  | @callGone x k hx | @callUnknown x k hx =>
    have hk : Issued tr x k := hO.held x k (by rw [hx]; rfl)
    exact hkeep (sourced_afterSends (ownMessage_error (hk.append _) List.mem_cons_self))
  | @callInsert x k workerId workerTx tx hx =>
    refine hkeep ?_
    obtain ⟨w, t, -, -, hroute⟩ | ⟨-, hroute⟩ := route_cases k workerId workerTx <;>
      · rw [hroute]
        trivial
  | @responseTake x resp c' caller tx hx hc =>
    have hsrc := hI x
    rw [hx] at hsrc
    obtain ⟨hid, hrec⟩ := hsrc
    have hcaller : ForCaller tr tx.channel c' := by
      rw [(hL.calls c' caller tx hc).1]
      exact hO.calls c' caller tx hc
    exact hkeep ⟨c', hid, List.mem_append_right _ hrec, hcaller.append _⟩
  | snapshot => exact hkeep rfl
  | @publishSenders x event subsList hx =>
    have hsrc := hI x
    rw [hx] at hsrc
    exact hkeep (sourced_next hsrc _)
  | @sendLookup x msg rest tx hx hc =>
    have hsrc := hI x
    rw [hx] at hsrc
    exact hkeep fun m hm => (hsrc m hm).append _
  | @sendLookupGone x msg rest hx =>
    have hsrc := hI x
    rw [hx] at hsrc
    exact hkeep (sourced_afterSends fun m hm => (hsrc m (List.mem_cons_of_mem _ hm)).append _)
  | @send x pc site tx msg p hx hs | @sendFailed x pc site tx msg p hx hs =>
    have hsrc := hI x
    rw [hx] at hsrc
    refine hkeep ?_
    obtain ⟨k, rfl, -, rfl, rfl⟩ | ⟨resp, rfl, -, rfl, rfl⟩ | ⟨event, rest, rfl, -, rfl, rfl⟩ |
      ⟨rest, rfl, -, rfl⟩ := HandlerPc.sends_cases hs
    · trivial
    · trivial
    · exact sourced_next hsrc rest
    · exact sourced_afterSends fun m hm => (hsrc m (List.mem_cons_of_mem _ hm)).append _
  | _ => exact hkeep trivial

theorem Transition.enqueued {site : SendSite} {m : Packet} (h : Transition s a s' es)
    (hI : ∀ y, PhaseSourced tr y (s.phase y)) (hO : CallOwners ⟨s, tr⟩) (hL : Lifecycle s)
    (he : Event.enqueued site x y m ∈ es) : MessageSourced tr site x y m := by
  obtain ⟨pc, tx, p, rfl, hz, hs, rfl, -⟩ := h.sender he
  have hsrc := hI x
  rw [hz] at hsrc
  obtain ⟨k, rfl, -, rfl, -⟩ | ⟨resp, rfl, hsite, rfl, -⟩ | ⟨event, rest, rfl, -, rfl, -⟩ |
    ⟨rest, rfl, hsite, -⟩ := HandlerPc.sends_cases hs
  · exact ⟨x, k, rfl, hO.held x k (by rw [hz]; rfl)⟩
  · obtain ⟨c', hid, hrec, hcaller⟩ := hsrc
    rintro c hc
    cases hid.symm.trans hc
    exact ⟨hcaller, .inl ⟨hsite, hrec⟩⟩
  · intro c hc
    cases hsrc.symm.trans hc
  · have hown := hsrc m List.mem_cons_self
    cases m with
    | request r => exact hown
    | response r =>
      intro c hc
      rw [hL.ownTx x tx _ _ hz]
      exact ⟨(hown c hc).1, .inr ⟨hsite, (hown c hc).2⟩⟩

theorem Transition.channel {m : Packet} (h : Transition s a s' es) (hm : m ∈ s'.channel y) :
    m ∈ s.channel y ∨ ∃ site x, Event.enqueued site x y m ∈ es := by
  cases h.channelChange y with
  | same hsame => exact .inl (hsame ▸ hm)
  | opened hy hnew =>
    rw [hnew] at hm
    cases hm
  | @sent x pc site tx msg p hx hs htx hroom hp hpush =>
    rw [hpush] at hm
    obtain hm | hm := List.mem_append.mp hm
    · exact .inl hm
    · rw [List.mem_singleton.mp hm]
      exact .inr ⟨site, x, List.mem_singleton_self _⟩
  | written htaken | lost htaken =>
    rw [htaken]
    exact .inl (List.mem_cons_of_mem _ hm)

theorem Transition.delivered {m : Packet} (h : Transition s a s' es)
    (he : Event.delivered y m ∈ es) : m ∈ s.channel y := by
  cases h with
  | write hw hc =>
    cases List.mem_singleton.mp he
    rw [hc]
    exact List.mem_cons_self
  | _ => simp at he

/-- The origins of everything on its way and of everything that has been sent. -/
structure Sources (w : World Broker Event) : Prop where
  phase : ∀ x, PhaseSourced w.trace x (w.state.phase x)
  enqueued : ∀ site x y m, Event.enqueued site x y m ∈ w.trace →
    MessageSourced w.trace site x y m
  channel : ∀ y m, m ∈ w.state.channel y → ∃ site x, Event.enqueued site x y m ∈ w.trace
  delivered : ∀ y m, Event.delivered y m ∈ w.trace →
    ∃ site x, Event.enqueued site x y m ∈ w.trace

theorem sources {ok : World Broker Event → Action → Prop} (h : broker.RunWhere ok w) :
    Sources w := by
  refine h.invariant ?_ ?_
  · rintro _ ⟨items, rfl⟩
    exact ⟨fun _ => trivial, nofun, nofun, nofun⟩
  · intro w a w' hr hI _ hn
    obtain ⟨es, ht, htr⟩ := next_transition hn
    have hO := callOwners hr
    have hmem : ∀ y m, (∃ site x, Event.enqueued site x y m ∈ w.trace) →
        ∃ site x, Event.enqueued site x y m ∈ es ++ w.trace := by
      rintro y m ⟨site, x, he⟩
      exact ⟨site, x, List.mem_append_right es he⟩
    constructor
    · rw [htr]
      exact ht.sourced hI.phase hO (lifecycle hr)
    · intro site x y m he
      rw [htr] at he ⊢
      obtain he | he := List.mem_append.mp he
      · exact (ht.enqueued hI.phase hO (lifecycle hr) he).append es
      · exact (hI.enqueued site x y m he).append es
    · intro y m hm
      rw [htr]
      obtain hm | ⟨site, x, he⟩ := ht.channel hm
      · exact hmem y m (hI.channel y m hm)
      · exact ⟨site, x, List.mem_append_left _ he⟩
    · intro y m he
      rw [htr] at he ⊢
      obtain he | he := List.mem_append.mp he
      · exact hmem y m (hI.channel y m (ht.delivered he))
      · exact hmem y m (hI.delivered y m he)

end Broker
end IpcBroker
