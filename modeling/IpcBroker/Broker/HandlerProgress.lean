import IpcBroker.Broker.LockSections
import IpcBroker.Foundation.Simulation

/-! When the next section of a handler can run: it waits only for room on a channel, and for the
guard of `services` that another handler keeps. -/

namespace IpcBroker.Broker
open Function Foundation

/-- The handler of `x` is at a message for `y`, whose channel is full. -/
def AwaitsRoom (s : Broker) (x y : ClientId) : Prop :=
  ∃ pc site tx msg p, s.phase x = .handling pc ∧ pc.sends = some (site, tx, msg, p) ∧
    tx.channel = y ∧ s.phase y ≠ .ended ∧ channelCapacity ≤ (s.channel y).length

/-- The next section of `x` locks `services`, whose guard is kept. -/
def AwaitsServices (s : Broker) (x : ClientId) : Prop :=
  ∃ pc, s.phase x = .handling pc ∧ .services ∈ pc.locks ∧ s.servicesLock ≠ none

/-- The handler of `x` can take its next step. -/
def Enabled (s : Broker) (x : ClientId) : Prop :=
  ∃ a s' es, (a = .handler x ∨ ∃ subsList, a = .snapshot x subsList) ∧ s.step a = some (s', es)

variable {s s' : Broker} {a : Action} {es : List Event} {x y : ClientId} {pc : HandlerPc}
  {site : SendSite} {tx : ClientSender} {msg : Packet} {p : Phase}

theorem enabled_of_runs {r : Broker × List Event} (hx : s.phase x = .handling pc)
    (hr : s.runSection x pc = some r) : s.Enabled x := by
  refine ⟨.handler x, r.1, r.2, .inl rfl, ?_⟩
  simp only [step, hx]
  exact hr

theorem section_enabled (hx : s.phase x = .handling pc) (hs : pc.sends = none)
    (hfree : .services ∈ pc.locks → s.servicesLock = none) : s.Enabled x := by
  cases pc with
  | callForward | responseForward | sendAwait => cases hs
  | publishSend event senders =>
    cases senders with
    | nil => exact enabled_of_runs hx rfl
    | cons => cases hs
  | publishSnapshot o topic args =>
    have hstep : ∃ b es, s.step (.snapshot x (s.subscriptions o topic)) = some (b, es) := by
      simp only [step, hx, handlePublish, List.Perm.refl, if_true]
      exact ⟨_, _, rfl⟩
    obtain ⟨b, es, hb⟩ := hstep
    exact ⟨_, b, es, .inr ⟨_, rfl⟩, hb⟩
  | registerServices o =>
    have hl := hfree (List.mem_singleton_self _)
    cases he : s.services o <;>
      exact enabled_of_runs hx (by simp only [runSection, handleRegisterObject.services, hl, he]; rfl)
  | registerService o name =>
    have hl := hfree (List.mem_singleton_self _)
    exact enabled_of_runs hx (by simp only [runSection, handleRegisterService, hl]; rfl)
  | callServices k =>
    have hl := hfree (List.mem_singleton_self _)
    cases he : s.services k.objectName with
    | none => exact enabled_of_runs hx (by simp only [runSection, handleCall.services, hl, he]; rfl)
    | some e =>
      cases hst : e.state <;>
        exact enabled_of_runs hx (by simp only [runSection, handleCall.services, hl, he, hst]; rfl)
  | _ => exact enabled_of_runs hx rfl

theorem send_enabled (hx : s.phase x = .handling pc) (hs : pc.sends = some (site, tx, msg, p))
    (hroom : s.phase tx.channel = .ended ∨ (s.channel tx.channel).length < channelCapacity) :
    ∃ b es, s.step (.handler x) = some (b, es) ∧ b.phase x = p ∧ b.writing = s.writing := by
  simp only [step, hx, runSection_sends hs, send]
  split
  · exact ⟨_, _, rfl, update_self .., rfl⟩
  · next hopen =>
    rw [if_pos (hroom.resolve_left fun hended => hopen hended)]
    exact ⟨_, _, rfl, update_self .., rfl⟩

theorem handler_goesOn (hx : s.phase x = .handling pc) :
    s.Enabled x ∨ (∃ y, s.AwaitsRoom x y) ∨ s.AwaitsServices x := by
  cases hs : pc.sends with
  | none =>
    by_cases hserv : .services ∈ pc.locks ∧ s.servicesLock ≠ none
    · exact .inr (.inr ⟨pc, hx, hserv.1, hserv.2⟩)
    · exact .inl (section_enabled hx hs fun hm => by_contra fun hl => hserv ⟨hm, hl⟩)
  | some sent =>
    obtain ⟨site, tx, msg, p⟩ := sent
    by_cases hroom : s.phase tx.channel = .ended ∨ (s.channel tx.channel).length < channelCapacity
    · obtain ⟨b, es, hb, -⟩ := send_enabled hx hs hroom
      exact .inl ⟨_, b, es, .inl rfl, hb⟩
    · rw [not_or, Nat.not_lt] at hroom
      exact .inr (.inl ⟨_, pc, site, tx, msg, p, hx, hs, rfl, hroom⟩)

theorem keeps_run {ok : World Broker Event → Action → Prop} {w : World Broker Event}
    (h : broker.RunWhere ok w) : Keeps w.state := by
  refine h.stateInvariant ?_ ?_
  · rintro _ ⟨items, rfl⟩ y hy
    cases hy
  · intro s a s' es hK hs
    exact ((step_transition hs).guardStep hK).keeps

end IpcBroker.Broker
