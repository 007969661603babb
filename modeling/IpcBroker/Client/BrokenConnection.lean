import IpcBroker.Client.ActorLoop

/-! What the client actor does after a read in its `select!` has failed: the read branch is disabled
for the rest of this turn only, and the actor stops if the other branch is disabled as well. -/

namespace IpcBroker.IpcClient
open Function Foundation

def readFails (s : IpcClient) : Bool :=
  match s.phase with
  | .selecting (some reading) =>
    match s.read reading with
    | .ready (.error _) _ => true
    | _ => false
  | _ => false

/-- A read of `select!` fails only when nothing is in the mailbox and no handle is alive. -/
def failsAlone (s : IpcClient) : Action → Bool
  | .poll => !s.readFails || s.mailbox.isEmpty && !s.handles
  | _ => true

/-- The actor has left its loop and dropped its ends of all channels, or its next step is to leave
the loop and it has no other. -/
def Stopping (json : SerdeJson) (s : IpcClient) : Prop :=
  (s.phase = .ended ∧ s.mailbox = [] ∧ ∀ o topic, s.subs o topic = []) ∨
    (s.step json .exit = some s.exit ∧ s.step json .poll = none ∧
      ∀ fault, s.step json (.take fault) = none)

/-- What comes after a failed read, newest first: no read, no request that is taken and no remote
call without an error, and the actor stops. -/
structure StopsAfter (json : SerdeJson) (later : List ClientStep) (s : IpcClient) : Prop where
  reads : ∀ st ∈ later, st.action ≠ .poll
  takes : ∀ st ∈ later, ∀ fault, st.action ≠ .take fault
  calls : ∀ st ∈ later, ∀ k, st.action = .issue (.remoteCall k) →
    ∃ respTx, st.events = [.replied (.call k) respTx .actorDropped]
  stopping : Stopping json s

variable {json : SerdeJson} {s s' : IpcClient} {a : Action} {es : List Event}
  {w : World IpcClient ClientStep}

/-- The state that a read which fails alone leaves, and the one after the loop. -/
def Alone (s : IpcClient) : Prop :=
  s.mailbox = [] ∧ s.handles = false ∧
    (s.phase = .selecting none ∨ s.phase = .ended ∧ ∀ o topic, s.subs o topic = [])

theorem Alone.poll_none (h : Alone s) : s.step json .poll = none := by
  obtain ⟨-, -, hp | ⟨hp, -⟩⟩ := h
  · simp only [step, poll, hp]
  · simp only [step, poll, hp]

theorem Alone.take_none (h : Alone s) (fault : Option String) :
    s.step json (.take fault) = none := by
  obtain ⟨hm, -, hp | ⟨hp, -⟩⟩ := h
  · simp only [step, hm, hp]
  · simp only [step, hm, hp]

theorem Alone.issue_none (h : Alone s) (op : Operation) : s.step json (.issue op) = none := by
  simp only [step, issue, h.2.1]

theorem Alone.stopping (h : Alone s) : Stopping json s := by
  obtain ⟨hm, hh, hp | ⟨hp, hsubs⟩⟩ := id h
  · refine .inr ⟨?_, h.poll_none, h.take_none⟩
    simp only [step, hp, hm, hh]
  · exact .inl ⟨hp, hm, hsubs⟩

theorem Alone.step (h : Alone s) (hs : s.step json a = some (s', es)) :
    Alone s' ∧ a ≠ .poll ∧ (∀ fault, a ≠ .take fault) ∧ ∀ op, a ≠ .issue op := by
  refine ⟨?_, ?_, fun fault => ?_, fun op => ?_⟩
  · obtain ⟨hm, hh, hp⟩ := id h
    cases step_transition hs with
    | issue | issueEnded => cases (h.issue_none _).symm.trans hs
    | requestFailed | requestAwaits | requestDone | subscribe =>
      cases (h.take_none _).symm.trans hs
    | pollPending | pollPacket | pollFailed | awaitPending | awaitPacket | awaitFailed =>
      cases h.poll_none.symm.trans hs
    | exit => exact ⟨rfl, hh, .inr ⟨rfl, fun _ _ => rfl⟩⟩
    | dropHandles => exact ⟨hm, rfl, hp⟩
    | write | arrive | hangUp | receive | dropReceiver => exact ⟨hm, hh, hp⟩
  · rintro rfl
    cases h.poll_none.symm.trans hs
  · rintro rfl
    cases (h.take_none fault).symm.trans hs
  · rintro rfl
    cases (h.issue_none op).symm.trans hs

theorem readFails_step (hf : s.readFails = true) (hs : s.step json .poll = some (s', es)) :
    s'.phase = .selecting none ∧ s'.mailbox = s.mailbox ∧ s'.handles = s.handles := by
  unfold readFails at hf
  split at hf
  · next reading hp =>
    split at hf
    · next e rest hr =>
      simp only [IpcClient.step, poll, hp, hr, Option.some.injEq, Prod.mk.injEq] at hs
      obtain ⟨rfl, -⟩ := hs
      exact ⟨rfl, rfl, rfl⟩
    · cases hf
  · cases hf

/-- When a read of `select!` fails with an empty mailbox and no handle alive, the actor stops. -/
theorem stops_after_failed_read
    (h : (client json).recorded.RunWhere (fun w a => failsAlone w.state a = true) w)
    {later earlier : List ClientStep} {st : ClientStep} (htr : w.trace = later ++ st :: earlier)
    (hpoll : st.action = .poll) (hfail : st.before.readFails = true) :
    StopsAfter json later w.state := by
  have hinv : ∀ later earlier st, w.trace = later ++ st :: earlier → st.action = .poll →
      st.before.readFails = true → Alone w.state ∧ ∀ st' ∈ later, st'.action ≠ .poll ∧
        (∀ fault, st'.action ≠ .take fault) ∧ ∀ op, st'.action ≠ .issue op := by
    refine h.invariant (I := fun w => ∀ later earlier st, w.trace = later ++ st :: earlier →
      st.action = .poll → st.before.readFails = true → Alone w.state ∧ ∀ st' ∈ later,
        st'.action ≠ .poll ∧ (∀ fault, st'.action ≠ .take fault) ∧
          ∀ op, st'.action ≠ .issue op) ?_ ?_
    · intro s _ later earlier st htr
      exact absurd htr.symm (List.append_ne_nil_of_right_ne_nil _ (List.cons_ne_nil _ _))
    · intro w a w' _ hI hok hn later earlier st htr hpoll hfail
      obtain ⟨es, hs, ht⟩ := System.recorded_next.mp hn
      rw [ht] at htr
      cases later with
      | nil =>
        -- the step is the failed read itself
        obtain ⟨rfl, -⟩ := List.cons_eq_cons.mp htr
        simp only at hpoll hfail
        subst hpoll
        obtain ⟨hp, hm, hh⟩ := readFails_step hfail hs
        have hquiet : w.state.mailbox = [] ∧ w.state.handles = false := by
          simpa [failsAlone, hfail] using hok
        refine ⟨⟨hm.trans hquiet.1, hh.trans hquiet.2, .inl hp⟩, List.forall_mem_nil _⟩
      | cons st' later =>
        obtain ⟨rfl, htail⟩ := List.cons_eq_cons.mp htr
        obtain ⟨halone, hlater⟩ := hI later earlier st htail hpoll hfail
        obtain ⟨halone', hpoll', htake, hissue⟩ := halone.step hs
        exact ⟨halone', List.forall_mem_cons.mpr ⟨⟨hpoll', htake, hissue⟩, hlater⟩⟩
  obtain ⟨halone, hlater⟩ := hinv later earlier st htr hpoll hfail
  refine ⟨fun st' hst' => (hlater st' hst').1, fun st' hst' => (hlater st' hst').2.1,
    fun st' hst' k hk => ?_, halone.stopping⟩
  exact absurd hk ((hlater st' hst').2.2 _)

def hangsUpAlone : List Action := [.dropHandles, .hangUp "reset" 0, .poll, .exit]

theorem stops_after_failed_read_alone :
    ∃ w later st, (client textJson).recorded.RunWhere (fun w a => failsAlone w.state a = true) w ∧
      w.trace.map (·.action) = hangsUpAlone.reverse ∧
      st ∈ w.trace ∧ st.action = .poll ∧ st.before.readFails = true ∧
      StopsAfter textJson later w.state := by
  let ok : World IpcClient ClientStep → Action → Prop := fun w a => failsAlone w.state a = true
  have hstart : (client textJson).recorded.RunWhere ok ⟨initial, []⟩ := .start rfl
  have hdrop := hstart.step (a := .dropHandles) rfl rfl
  have hhang := hdrop.step (a := .hangUp "reset" 0) rfl rfl
  have hpoll := hhang.step (a := .poll) rfl rfl
  have hexit := hpoll.step (a := .exit) rfl rfl
  exact ⟨_, [_], _, hexit, rfl, List.mem_cons_of_mem _ List.mem_cons_self, rfl, rfl,
    stops_after_failed_read hexit rfl rfl rfl⟩

/-- While a handle is alive, a failed read does not stop the actor: it waits for the next message,
and reads the same stream again when it has dealt with it. -/
theorem failed_read_goes_on :
    ∃ w later st earlier, (client textJson).recorded.Run w ∧ w.trace = later ++ st :: earlier ∧
      st.action = .poll ∧ st.before.readFails = true ∧
      later.map (·.action) = [.poll, .take none, .issue (.publish "o" "t" .null)] ∧
      ¬ StopsAfter textJson later w.state := by
  have hstart : (client textJson).recorded.Run ⟨initial, []⟩ := .start rfl
  have hhang := hstart.step (a := .hangUp "reset" 0) trivial rfl
  have hpoll := hhang.step (a := .poll) trivial rfl
  have hissue := hpoll.step (a := .issue (.publish "o" "t" .null)) trivial rfl
  have htake := hissue.step (a := .take none) trivial rfl
  have hagain := htake.step (a := .poll) trivial rfl
  refine ⟨_, [_, _, _], _, _, hagain, rfl, rfl, rfl, rfl, fun h => ?_⟩
  exact h.reads _ List.mem_cons_self rfl

end IpcBroker.IpcClient
