import IpcBroker.Broker.CallTargets
import IpcBroker.Broker.PublishDelivery

/-! The channel of a client is a queue: what its writer loop has written, followed by what is on
the channel, is what has been put there. -/

namespace IpcBroker
open Function Foundation

def Event.enqueuedOn? (y : ClientId) : Event → Option Packet
  | .enqueued _ _ z m => if z = y then some m else none
  | _ => none

def Event.deliveredTo? (y : ClientId) : Event → Option Packet
  | .delivered z m => if z = y then some m else none
  | _ => none

def enqueuedOn (tr : List Event) (y : ClientId) : List Packet := chronicle (Event.enqueuedOn? y) tr

def deliveredTo (tr : List Event) (y : ClientId) : List Packet := chronicle (Event.deliveredTo? y) tr

namespace Broker
variable {s s' : Broker} {a : Action} {es : List Event} {x y : ClientId}
  {w w' : World Broker BrokerStep}

section Runs
variable {ok : World Broker BrokerStep → Action → Prop}

theorem receiver_rank (h : broker.recorded.RunWhere ok w) {site : SendSite} {m : Packet}
    (ht : Transition w.state a s' es) (he : Event.enqueued site x y m ∈ es) :
    1 ≤ (w.state.phase y).rank := by
  have hr : broker.Run w.events := h.run_events
  obtain ⟨pc, tx, p, rfl, hx, hs, rfl, -⟩ := ht.sender he
  obtain ⟨k, rfl, -⟩ | ⟨resp, rfl, -⟩ | ⟨event, rest, rfl, -⟩ | ⟨rest, rfl, -⟩ :=
    HandlerPc.sends_cases hs
  · have htarget := (ownersRegistered hr).phase x
    rw [World.events, hx] at htarget
    exact received_rank hr htarget
  · have hsrc := (sources hr).phase x
    rw [World.events, hx] at hsrc
    obtain ⟨c, -, -, k, hk, -⟩ := hsrc
    exact received_rank hr hk
  · have hsubs := (subscriptionsInserted h).phase x
    rw [hx] at hsubs
    obtain ⟨-, e, -, htxs⟩ := hsubs
    exact received_rank hr (inserted_subscribes h (htxs tx List.mem_cons_self))
  · rw [(recorded_lifecycle h).ownTx x tx m rest hx, hx]
    exact Nat.le_refl _

end Runs

theorem channel_untouched (hchan : s'.channel y = s.channel y) (hputs : enqueuedOn es y = [])
    (hwrites : deliveredTo es y = []) :
    s.channel y ++ enqueuedOn es y = deliveredTo es y ++ s'.channel y := by
  rw [hputs, hwrites, hchan, List.append_nil]
  rfl

theorem Transition.channelStep (ht : Transition s a s' es) (y : ClientId)
    (hw : s'.writing y = true) :
    (s.phase y = .absent ∧ s'.channel y = [] ∧ es = [.connected y]) ∨
      s.writing y = true ∧ s.channel y ++ enqueuedOn es y = deliveredTo es y ++ s'.channel y := by
  cases ht with
  | @connect x hx =>
    by_cases hy : y = x
    · subst hy
      exact .inl ⟨hx, update_self .., rfl⟩
    · simp only [spawnClient, update_of_ne hy] at hw
      exact .inr ⟨hw, channel_untouched (update_of_ne hy _ _) rfl rfl⟩
  | @send x pc site tx msg p hx hs ho =>
    refine .inr ⟨hw, ?_⟩
    rw [goto_channel, push_channel]
    by_cases hy : y = tx.channel
    · rw [hy, update_self]
      simp [enqueuedOn, deliveredTo, chronicle, Event.enqueuedOn?, Event.deliveredTo?]
    · simp [enqueuedOn, deliveredTo, chronicle, Event.enqueuedOn?, Event.deliveredTo?, Ne.symm hy,
        update_of_ne hy]
  | @write x msg rest hwx hc =>
    by_cases hy : y = x
    · subst hy
      refine .inr ⟨hwx, ?_⟩
      simp [enqueuedOn, deliveredTo, chronicle, Event.enqueuedOn?, Event.deliveredTo?, hc]
    · simp only [update_of_ne hy] at hw
      refine .inr ⟨hw, ?_⟩
      simp [enqueuedOn, deliveredTo, chronicle, Event.enqueuedOn?, Event.deliveredTo?, Ne.symm hy,
        update_of_ne hy]
  | @writeError x msg rest hwx hc =>
    by_cases hy : y = x
    · subst hy
      simp at hw
    · simp only [update_of_ne hy] at hw
      exact .inr ⟨hw, channel_untouched (update_of_ne hy _ _) rfl rfl⟩
  | @stopWriter x hx =>
    by_cases hy : y = x
    · subst hy
      simp at hw
    · simp only [update_of_ne hy] at hw
      exact .inr ⟨hw, channel_untouched rfl rfl rfl⟩
  | _ => exact .inr ⟨hw, channel_untouched rfl rfl rfl⟩

theorem Transition.writes {m : Packet} (ht : Transition s a s' es)
    (he : Event.delivered y m ∈ es) : s.writing y = true ∧ ∃ rest, s.channel y = m :: rest := by
  cases ht with
  | write hw hc =>
    cases List.mem_singleton.mp he
    exact ⟨hw, _, hc⟩
  | _ => simp at he

theorem Transition.written {m : Packet} (ht : Transition s a s' es)
    (he : Event.delivered y m ∈ es) : es = [.delivered y m] := by
  cases ht with
  | write =>
    cases List.mem_singleton.mp he
    rfl
  | _ => simp at he

theorem Transition.writes_none (ht : Transition s a s' es) (ha : ∀ x, a ≠ .write x) (m : Packet) :
    Event.delivered y m ∉ es := by
  intro he
  cases ht with
  | @write x => exact ha x rfl
  | _ => simp at he

theorem write_events {msg : Packet} {rest : List Packet} (hm : s.channel x = msg :: rest)
    (h : s.step (.write x) = some (s', es)) : es = [.delivered x msg] := by
  cases step_transition h with
  | write hw hc =>
    cases hm.symm.trans hc
    rfl

section Runs
variable {ok : World Broker BrokerStep → Action → Prop}

theorem enqueuedOn_append (es tr : List Event) (y : ClientId) :
    enqueuedOn (es ++ tr) y = enqueuedOn tr y ++ enqueuedOn es y := chronicle_append

theorem deliveredTo_append (es tr : List Event) (y : ClientId) :
    deliveredTo (es ++ tr) y = deliveredTo tr y ++ deliveredTo es y := chronicle_append

/-- While the writer loop of a client runs, it has written the messages put on the channel of the
client in order, and those it has not written are on the channel. -/
theorem channel_inOrder (h : broker.recorded.RunWhere ok w) (hw : w.state.writing y = true) :
    enqueuedOn w.events.trace y = deliveredTo w.events.trace y ++ w.state.channel y := by
  have hboth : (w.state.writing y = true → enqueuedOn w.events.trace y =
      deliveredTo w.events.trace y ++ w.state.channel y) ∧
    ((w.state.phase y).rank = 0 → enqueuedOn w.events.trace y = [] ∧
      deliveredTo w.events.trace y = []) := by
    refine h.invariant (I := fun w => (w.state.writing y = true → enqueuedOn w.events.trace y =
        deliveredTo w.events.trace y ++ w.state.channel y) ∧
      ((w.state.phase y).rank = 0 → enqueuedOn w.events.trace y = [] ∧
        deliveredTo w.events.trace y = [])) ?_ ?_
    · rintro _ ⟨items, rfl⟩
      exact ⟨nofun, fun _ => ⟨rfl, rfl⟩⟩
    · rintro w a w' hr ⟨hrun, hnew⟩ - hn
      obtain ⟨es, hs, htr⟩ := System.recorded_next.mp hn
      have ht := step_transition hs
      have hev : w'.events.trace = es ++ w.events.trace := by
        simp only [World.events, htr, List.flatMap_cons]
      rw [hev, enqueuedOn_append, deliveredTo_append]
      refine ⟨fun hw => ?_, fun hrank => ?_⟩
      · obtain ⟨habs, hchan, rfl⟩ | ⟨hw', hstep⟩ := ht.channelStep y hw
        · obtain ⟨he, hd⟩ := hnew (by rw [habs]; rfl)
          rw [he, hd, hchan]
          rfl
        · rw [hrun hw', List.append_assoc, hstep, List.append_assoc]
      · have hle := ht.rank y
        have hzero : (w.state.phase y).rank = 0 := by omega
        obtain ⟨he, hd⟩ := hnew hzero
        have hputs : enqueuedOn es y = [] := by
          refine chronicle_none fun e hmem => ?_
          unfold Event.enqueuedOn?
          split
          · next site x z m =>
            refine if_neg fun hz => ?_
            have hrank := receiver_rank hr ht hmem
            rw [hz, hzero] at hrank
            cases hrank
          · rfl
        have hwrites : deliveredTo es y = [] := by
          refine chronicle_none fun e hmem => ?_
          unfold Event.deliveredTo?
          split
          · next z m =>
            refine if_neg fun hz => ?_
            obtain ⟨hwriting, rest, hchan⟩ := ht.writes hmem
            rw [hz] at hwriting hchan
            rw [he, hd, hchan] at hrun
            cases hrun hwriting
          · rfl
        rw [he, hd, hputs, hwrites]
        exact ⟨rfl, rfl⟩
  exact hboth.1 hw

theorem deliveredTo_none (h : ∀ m, Event.delivered y m ∉ es) : deliveredTo es y = [] := by
  refine chronicle_none fun e he => ?_
  unfold Event.deliveredTo?
  split
  · next z m =>
    refine if_neg fun hz => ?_
    exact h m (hz ▸ he)
  · rfl

theorem delivered_inOrder (h : broker.recorded.RunWhere ok w) (y : ClientId) :
    deliveredTo w.events.trace y <+: enqueuedOn w.events.trace y := by
  refine h.invariant (I := fun w => deliveredTo w.events.trace y <+: enqueuedOn w.events.trace y)
    ?_ ?_
  · rintro _ ⟨items, rfl⟩
    exact List.prefix_rfl
  · intro w a w' hr hI _ hn
    obtain ⟨es, hs, htr⟩ := System.recorded_next.mp hn
    have hev : w'.events.trace = es ++ w.events.trace := by
      simp only [World.events, htr, List.flatMap_cons]
    rw [hev, enqueuedOn_append, deliveredTo_append]
    by_cases hd : ∃ m, Event.delivered y m ∈ es
    · obtain ⟨m, hm⟩ := hd
      -- the message was on the channel, and nothing is put there in this step
      have ht := step_transition hs
      obtain ⟨hwriting, rest, hchan⟩ := ht.writes hm
      have hone : deliveredTo es y = [m] := by
        rw [ht.written hm]
        simp [deliveredTo, chronicle, Event.deliveredTo?]
      rw [channel_inOrder hr hwriting, hchan, hone, List.append_assoc]
      exact (List.prefix_append_right_inj _).mpr (List.cons_prefix_cons.mpr ⟨rfl, List.nil_prefix⟩)
    · rw [deliveredTo_none fun m hm => hd ⟨m, hm⟩, List.append_nil]
      exact hI.trans (List.prefix_append _ _)

end Runs

end Broker
end IpcBroker
