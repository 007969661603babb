import IpcBroker.Client.RequestOrder

/-! No caller waits for ever on a connection that has ended: the actor goes on until it has answered
every request, and that takes it a bounded number of steps. -/

namespace IpcBroker.IpcClient
open Function Foundation

def AtEnd (s : IpcClient) : Prop := s.hungUp ≠ none ∧ s.coming = []

def Action.ofActor : Action → Bool
  | .take _ | .poll | .exit => true
  | _ => false

def Phase.readsLeft : Phase → Nat
  | .awaiting _ _ _ => 2
  | .selecting (some _) => 1
  | .selecting none | .ended => 0

/-- A bound on the steps of the actor until it has answered a request, with `n` messages to take up
to the request. -/
def stepsLeft (s : IpcClient) (n : Nat) : Nat :=
  3 * n + s.phase.readsLeft + (s.phase.held.length + s.arrived.length)

inductive Waits (s : IpcClient) (req : RpcRequest) (respTx : Nat) : Nat → Prop
  | awaited {reading} (h : s.phase = .awaiting req respTx reading) : Waits s req respTx 0
  | queued {before after} (h : s.mailbox = before ++ .request req respTx :: after) :
      Waits s req respTx (before.length + 1)

variable {json : SerdeJson} {s s' : IpcClient} {a : Action} {es : List Event} {req : RpcRequest}
  {respTx n : Nat} {reading : ReadPacket} {data rest : List UInt8} {w w' : World IpcClient Event}

theorem held_start : ReadPacket.start.held = [] := rfl

theorem AtEnd.read_ready (h : s.AtEnd) (reading : ReadPacket) :
    ∃ result rest, s.read reading = .ready result rest := by
  obtain ⟨hup, hcoming⟩ := h
  obtain ⟨message, hmessage⟩ := Option.ne_none_iff_exists'.mp hup
  unfold read
  rw [hcoming, hmessage]
  cases reading.poll s.arrived with
  | pending reading' => exact ⟨_, _, rfl⟩
  | ready result rest => exact ⟨result, rest, rfl⟩

theorem AtEnd.not_pending (h : s.AtEnd) {reading' : ReadPacket} :
    s.read reading ≠ .pending reading' := by
  obtain ⟨result, rest, hr⟩ := h.read_ready reading
  rw [hr]
  nofun

theorem read_leaves {result : Except IoError (List UInt8)} (h : s.read reading = .ready result rest) :
    rest.length ≤ reading.held.length + s.arrived.length := by
  cases result with
  | ok data =>
    have hlength := congrArg List.length (read_ready h).1
    simp only [List.length_append] at hlength
    omega
  | error e =>
    obtain ⟨rfl, -⟩ | ⟨hdr, -, -, hbytes⟩ := read_error h
    · exact Nat.zero_le _
    · have hlength := congrArg List.length hbytes
      simp only [List.length_append] at hlength
      omega

theorem read_packet_rest (h : s.read reading = .ready (.ok data) rest) :
    rest.length + 4 ≤ reading.held.length + s.arrived.length := by
  have hlength := congrArg List.length (read_ready h).1
  simp only [List.length_append, frame, length_beBytes] at hlength
  omega

theorem AtEnd.step (h : s.AtEnd) (ht : Transition json s a s' es) : s'.AtEnd := by
  obtain ⟨hup, hcoming⟩ := id h
  cases ht with
  | write hnone | hangUp hnone => exact absurd hnone hup
  | arrive => exact ⟨hup, by simp only [hcoming, List.drop_nil]⟩
  | @pollPacket reading data rest =>
    obtain ⟨-, hc, hu⟩ := readArm_stream json { s with arrived := rest } data
    exact ⟨fun hnone => hup (hu.symm.trans hnone), hc.trans hcoming⟩
  | _ => exact h

theorem Waits.taken {msg : ClientMsg} {rest : List ClientMsg} {reading : Option ReadPacket}
    (h : Waits s req respTx n) (hp : s.phase = .selecting reading) (hm : s.mailbox = msg :: rest) :
    msg = .request req respTx ∧ n = 1 ∨ ∃ m, n = m + 1 ∧ ∃ before after,
      rest = before ++ .request req respTx :: after ∧ m = before.length + 1 := by
  cases h with
  | awaited h => cases hp.symm.trans h
  | @queued before after h =>
    rw [hm] at h
    cases before with
    | nil =>
      cases h
      exact .inl ⟨rfl, rfl⟩
    | cons msg' before =>
      obtain ⟨rfl, rfl⟩ := List.cons.inj h
      exact .inr ⟨_, rfl, before, after, rfl, rfl⟩

theorem Waits.kept (h : Waits s req respTx n) (hp : s'.phase = s.phase)
    (hm : ∃ more, s'.mailbox = s.mailbox ++ more) (ha : s'.arrived.length = s.arrived.length) :
    ∃ m, Waits s' req respTx m ∧ s'.stepsLeft m ≤ s.stepsLeft n := by
  refine ⟨n, ?_, Nat.le_of_eq (by rw [stepsLeft, stepsLeft, hp, ha])⟩
  cases h with
  | awaited h => exact .awaited (hp.trans h)
  | queued h =>
    obtain ⟨more, hmore⟩ := hm
    rw [h, List.append_assoc] at hmore
    exact .queued hmore

theorem Waits.behind {before after : List ClientMsg}
    (hm : s'.mailbox = before ++ .request req respTx :: after) (hr : s'.phase.readsLeft ≤ 2)
    (hh : s'.phase.held = []) (ha : s'.arrived = s.arrived) :
    ∃ m, Waits s' req respTx m ∧ s'.stepsLeft m + 1 ≤ s.stepsLeft (before.length + 1 + 1) := by
  refine ⟨_, .queued hm, ?_⟩
  rw [stepsLeft, stepsLeft, hh, ha, List.length_nil]
  omega

theorem Waits.step (h : Waits s req respTx n) (hend : s.AtEnd) (ht : Transition json s a s' es) :
    (∃ reply, Event.replied req respTx reply ∈ es) ∨ ∃ m, Waits s' req respTx m ∧
      s'.stepsLeft m + (if a.ofActor = true then 1 else 0) ≤ s.stepsLeft n := by
  have hsame : s'.phase = s.phase → (∃ more, s'.mailbox = s.mailbox ++ more) →
      s'.arrived.length = s.arrived.length → a.ofActor = false →
      ∃ m, Waits s' req respTx m ∧
        s'.stepsLeft m + (if a.ofActor = true then 1 else 0) ≤ s.stepsLeft n := by
    intro hp hm ha hactor
    obtain ⟨m, hw, hle⟩ := h.kept hp hm ha
    exact ⟨m, hw, by rw [hactor]; exact hle⟩
  cases ht with
  | issue => exact .inr (hsame rfl ⟨_, rfl⟩ rfl rfl)
  | write hnone | hangUp hnone => exact absurd hnone hend.1
  | arrive => exact .inr (hsame rfl ⟨[], (List.append_nil _).symm⟩ (by simp [hend.2]) rfl)
  | issueEnded | dropHandles | receive | dropReceiver =>
    exact .inr (hsame rfl ⟨[], (List.append_nil _).symm⟩ rfl rfl)
  | requestFailed hp hm | requestDone hp hm =>
    obtain ⟨hmsg, rfl⟩ | ⟨m, rfl, before, after, hrest, rfl⟩ := h.taken hp hm
    · cases hmsg
      exact .inl ⟨_, List.mem_cons_self⟩
    · exact .inr (Waits.behind hrest (Nat.le_succ 1) rfl rfl)
  | requestAwaits hp hm =>
    obtain ⟨hmsg, rfl⟩ | ⟨m, rfl, before, after, hrest, rfl⟩ := h.taken hp hm
    · cases hmsg
      refine .inr ⟨0, .awaited rfl, ?_⟩
      simp only [stepsLeft, Phase.readsLeft, Phase.held, held_start, Action.ofActor, if_true,
        List.length_nil]
      omega
    · exact .inr (Waits.behind hrest (Nat.le_refl 2) rfl rfl)
  | subscribe hp hm =>
    obtain ⟨hmsg, -⟩ | ⟨m, rfl, before, after, hrest, rfl⟩ := h.taken hp hm
    · cases hmsg
    · exact .inr (Waits.behind hrest (Nat.le_succ 1) rfl rfl)
  | pollPending hp hr | awaitPending hp hr => exact absurd hr hend.not_pending
  | @pollPacket reading data rest hp hr =>
    cases h with
    | awaited h => cases hp.symm.trans h
    | @queued before after hm =>
      obtain hexit | ⟨hphase, hmailbox⟩ := readArm_goes_on json { s with arrived := rest } data
      · -- the loop ends, and with it the mailbox
        refine .inl ⟨.actorEnded, List.mem_append_left _ ?_⟩
        rw [hexit]
        refine List.mem_reverse.mpr (List.mem_filterMap.mpr ⟨.request req respTx, ?_, rfl⟩)
        simp only [hm]
        exact List.mem_append_right _ List.mem_cons_self
      · have hbytes := read_packet_rest hr
        obtain ⟨harrived, -⟩ := readArm_stream json { s with arrived := rest } data
        refine .inr ⟨_, .queued (hmailbox.trans hm), ?_⟩
        rw [stepsLeft, stepsLeft, hphase, harrived, hp]
        simp only [Phase.readsLeft, Phase.held, held_start, Action.ofActor, if_true,
          List.length_nil]
        omega
  | @pollFailed reading e rest hp hr =>
    cases h with
    | awaited h => cases hp.symm.trans h
    | queued hm =>
      have hbytes := read_leaves hr
      refine .inr ⟨_, .queued hm, ?_⟩
      simp only [stepsLeft, hp, Phase.readsLeft, Phase.held, Action.ofActor, if_true,
        List.length_nil]
      omega
  | awaitPacket hp hr | awaitFailed hp hr =>
    cases h with
    | awaited h =>
      cases hp.symm.trans h
      exact .inl ⟨_, List.mem_cons_self⟩
    | queued hm =>
      have hbytes := read_leaves hr
      refine .inr ⟨_, .queued hm, ?_⟩
      simp only [stepsLeft, select, hp, Phase.readsLeft, Phase.held, held_start, Action.ofActor,
        if_true, List.length_nil]
      omega
  | exit hp hm =>
    cases h with
    | awaited h => cases hp.symm.trans h
    | queued h =>
      rw [hm] at h
      exact absurd h.symm (List.append_ne_nil_of_right_ne_nil _ (List.cons_ne_nil _ _))

theorem Waits.enabled (h : Waits s req respTx n) (hend : s.AtEnd)
    (hended : s.phase = .ended → s.mailbox = []) :
    ∃ a, a.ofActor = true ∧ (s.step json a).isSome = true := by
  have hpoll : ∀ req respTx reading, s.phase = .awaiting req respTx reading →
      (s.step json .poll).isSome = true := by
    intro req respTx reading hp
    obtain ⟨result, rest, hr⟩ := hend.read_ready reading
    simp only [IpcClient.step, poll, hp, hr]
    cases result <;> rfl
  cases h with
  | awaited h => exact ⟨.poll, rfl, hpoll _ _ _ h⟩
  | @queued before after hm =>
    cases hp : s.phase with
    | selecting reading =>
      refine ⟨.take none, rfl, ?_⟩
      obtain ⟨msg, rest, hne⟩ := List.exists_cons_of_ne_nil
        (List.append_ne_nil_of_right_ne_nil before (List.cons_ne_nil (.request req respTx) after))
      simp only [IpcClient.step, hp, hm, hne]
      rfl
    | awaiting req' respTx' reading => exact ⟨.poll, rfl, hpoll _ _ _ hp⟩
    | ended =>
      rw [hended hp] at hm
      exact absurd hm.symm (List.append_ne_nil_of_right_ne_nil _ (List.cons_ne_nil _ _))

theorem answered_or_waits (h : (client json).Run w)
    (hreq : Event.issued (.request req respTx) ∈ w.trace) :
    (∃ reply, Event.replied req respTx reply ∈ w.trace) ∨
      ∃ n ≤ w.state.mailbox.length, Waits w.state req respTx n := by
  have hmem : (req, respTx) ∈ requests (issuedMsgs w.trace) :=
    List.mem_filterMap.mpr ⟨_, List.mem_reverse.mpr (List.mem_filterMap.mpr ⟨_, hreq, rfl⟩), rfl⟩
  rw [answered_inOrder h] at hmem
  obtain hmem | hmem := List.mem_append.mp hmem
  · obtain ⟨e, he, hans⟩ := List.mem_filterMap.mp (List.mem_reverse.mp hmem)
    unfold Event.answered? at hans
    split at hans
    · cases hans
    · cases hans
      exact .inl ⟨_, he⟩
    · cases hans
  · obtain hmem | hmem := List.mem_append.mp hmem
    · unfold Phase.awaited at hmem
      split at hmem
      · next reading hp =>
        cases List.mem_singleton.mp hmem
        exact .inr ⟨0, Nat.zero_le _, .awaited hp⟩
      · cases hmem
    · obtain ⟨msg, hmsg, hrequest⟩ := List.mem_filterMap.mp hmem
      obtain ⟨before, after, hsplit⟩ := List.append_of_mem hmsg
      cases msg with
      | request req' respTx' =>
        cases hrequest
        refine .inr ⟨_, ?_, .queued hsplit⟩
        rw [hsplit, List.length_append, List.length_cons]
        omega
      | subscribe => cases hrequest

theorem exec_trace {as : List Action} {e : Event}
    (he : (client json).exec (fun _ _ => True) w as = some w') (hmem : e ∈ w.trace) :
    e ∈ w'.trace := by
  induction as generalizing w with
  | nil =>
    cases he
    exact hmem
  | cons a as ih =>
    rw [System.exec, if_pos trivial] at he
    obtain ⟨w₁, hn, hrest⟩ := Option.bind_eq_some_iff.mp he
    obtain ⟨es, -, htr⟩ := next_transition hn
    exact ih hrest (htr ▸ List.mem_append_right es hmem)

theorem Waits.answered_within {as : List Action} (h : Waits w.state req respTx n)
    (hend : w.state.AtEnd) (he : (client json).exec (fun _ _ => True) w as = some w')
    (hsteps : w.state.stepsLeft n ≤ as.countP Action.ofActor) :
    ∃ reply, Event.replied req respTx reply ∈ w'.trace := by
  induction as generalizing w n with
  | nil =>
    -- a request that waits has a step left
    rw [List.countP_nil, stepsLeft] at hsteps
    cases h with
    | awaited h =>
      rw [h, Phase.readsLeft] at hsteps
      omega
    | queued => omega
  | cons a as ih =>
    rw [System.exec, if_pos trivial] at he
    obtain ⟨w₁, hn, hrest⟩ := Option.bind_eq_some_iff.mp he
    obtain ⟨es, ht, htr⟩ := next_transition hn
    obtain ⟨reply, hreply⟩ | ⟨m, hwaits, hless⟩ := h.step hend ht
    · exact ⟨reply, exec_trace hrest (htr ▸ List.mem_append_left _ hreply)⟩
    · rw [List.countP_cons] at hsteps
      exact ih hwaits (hend.step ht) hrest (by omega)

/-- What the end of a connection means for a request that was put in the mailbox: while it is not
answered the actor can go on, and it is answered when the actor has taken three steps for each
message, the reads left, and one for each byte left. -/
structure AnsweredAtEnd (json : SerdeJson) (w : World IpcClient Event) (req : RpcRequest)
    (respTx : Nat) : Prop where
  goesOn : (∃ reply, Event.replied req respTx reply ∈ w.trace) ∨
    ∃ a, a.ofActor = true ∧ (w.state.step json a).isSome = true
  within : ∀ as w', (client json).exec (fun _ _ => True) w as = some w' →
    w.state.stepsLeft w.state.mailbox.length ≤ as.countP Action.ofActor →
    ∃ reply, Event.replied req respTx reply ∈ w'.trace

/-- Every request is answered after the connection has ended, whatever else the handles, the
subscribers and the transport do meanwhile. -/
theorem answered_at_end (h : (client json).Run w) (hend : w.state.AtEnd)
    (hreq : Event.issued (.request req respTx) ∈ w.trace) : AnsweredAtEnd json w req respTx := by
  obtain ⟨reply, hreply⟩ | ⟨n, hn, hwaits⟩ := answered_or_waits h hreq
  · exact ⟨.inl ⟨reply, hreply⟩, fun as w' he _ => ⟨reply, exec_trace he hreply⟩⟩
  · refine ⟨.inr (hwaits.enabled hend (ended_mailbox h)), fun as w' he hsteps => ?_⟩
    refine hwaits.answered_within hend he (Nat.le_trans ?_ hsteps)
    rw [stepsLeft, stepsLeft]
    omega

def callThenHangUp : List Action := [.issue (.remoteCall (callOf "1")), .hangUp "reset" 0]

def isCall (respTx : Nat) : Event → Bool
  | .issued (.request (.call _) c) => c = respTx
  | _ => false

theorem answered_at_end_callThenHangUp :
    ∃ w k, (client textJson).exec (fun _ _ => True) ⟨initial, []⟩ callThenHangUp = some w ∧
      AnsweredAtEnd textJson w (.call k) 0 := by
  obtain ⟨w, hr, he, ht⟩ := System.RunWhere.of_exec_any (client textJson) (fun _ _ => True)
    callThenHangUp (fun w => w.state.hungUp.isSome && w.state.coming.isEmpty &&
      w.trace.any (isCall 0)) rfl (by decide)
  simp only [Bool.and_eq_true, List.isEmpty_iff] at ht
  obtain ⟨⟨hup, hcoming⟩, hissued⟩ := ht
  obtain ⟨e, hmem, hcall⟩ := List.any_eq_true.mp hissued
  unfold isCall at hcall
  split at hcall
  · next k c =>
    obtain rfl : c = 0 := of_decide_eq_true hcall
    exact ⟨w, k, he, answered_at_end hr ⟨Option.isSome_iff_ne_none.mp hup, hcoming⟩ hmem⟩
  · cases hcall

end IpcBroker.IpcClient
