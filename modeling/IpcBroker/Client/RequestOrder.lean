import IpcBroker.Client.FrameIntegrity

/-! The requests that the handles send are served one after the other: what has been answered, is
awaited and is in the mailbox are together the requests sent, in their order; and an actor whose
connection has ended answers all of them. -/

namespace IpcBroker.IpcClient
open Function Foundation

def ClientMsg.request? : ClientMsg → Option (RpcRequest × Nat)
  | .request req respTx => some (req, respTx)
  | .subscribe _ _ _ => none

def ClientMsg.channel : ClientMsg → Nat
  | .request _ c | .subscribe _ _ c => c

def Event.issued? : Event → Option ClientMsg
  | .issued msg => some msg
  | _ => none

def Event.sent? : Event → Option RpcRequest
  | .sent req => some req
  | _ => none

def Event.answered? : Event → Option (RpcRequest × Nat)
  | .replied _ _ .actorDropped => none
  | .replied req respTx _ => some (req, respTx)
  | _ => none

def issuedMsgs (tr : List Event) : List ClientMsg := chronicle Event.issued? tr

def sentRequests (tr : List Event) : List RpcRequest := chronicle Event.sent? tr

def answeredRequests (tr : List Event) : List (RpcRequest × Nat) := chronicle Event.answered? tr

def requests (msgs : List ClientMsg) : List (RpcRequest × Nat) := msgs.filterMap ClientMsg.request?

def Phase.awaited : Phase → List (RpcRequest × Nat)
  | .awaiting req respTx _ => [(req, respTx)]
  | _ => []

/-- Every request is answered once, in the order of the requests, and what is written to the
connection is in that order too. -/
structure ServedInOrder (w : World IpcClient Event) : Prop where
  answered : requests (issuedMsgs w.trace) =
    answeredRequests w.trace ++ (w.state.phase.awaited ++ requests w.state.mailbox)
  once : ((requests (issuedMsgs w.trace)).map Prod.snd).Nodup
  sent : (sentRequests w.trace).Sublist ((issuedMsgs w.trace).map ClientMsg.toWrite)
  ended : w.state.phase = .ended → answeredRequests w.trace = requests (issuedMsgs w.trace)

variable {json : SerdeJson} {s s' : IpcClient} {a : Action} {es tr : List Event}
  {data : List UInt8} {req : RpcRequest} {respTx : Nat} {w w' : World IpcClient Event}

theorem issuedMsgs_append : issuedMsgs (es ++ tr) = issuedMsgs tr ++ issuedMsgs es :=
  chronicle_append

theorem sentRequests_append : sentRequests (es ++ tr) = sentRequests tr ++ sentRequests es :=
  chronicle_append

theorem answeredRequests_append :
    answeredRequests (es ++ tr) = answeredRequests tr ++ answeredRequests es := chronicle_append

theorem requests_append (msgs msgs' : List ClientMsg) :
    requests (msgs ++ msgs') = requests msgs ++ requests msgs' := List.filterMap_append

theorem exit_answered : answeredRequests s.exit.2 = requests s.mailbox := by
  rw [answeredRequests, chronicle, exit, List.filterMap_reverse, List.reverse_reverse,
    List.filterMap_filterMap, requests]
  refine List.filterMap_congr fun msg _ => ?_
  cases msg <;> rfl

theorem exit_quiet : issuedMsgs s.exit.2 = [] ∧ sentRequests s.exit.2 = [] := by
  constructor <;> refine chronicle_none fun e he => ?_
  all_goals
    obtain ⟨req, respTx, rfl⟩ := exit_event he
    rfl

theorem readArm_answered (json : SerdeJson) (s : IpcClient) (data : List UInt8) :
    answeredRequests (s.readArm json data).2 ++
      ((s.readArm json data).1.phase.awaited ++ requests (s.readArm json data).1.mailbox) =
        requests s.mailbox ∧
      issuedMsgs (s.readArm json data).2 = [] ∧ sentRequests (s.readArm json data).2 = [] ∧
      (s.readArm json data).1.mailbox.Sublist s.mailbox := by
  unfold readArm
  split_ifs
  · refine ⟨?_, exit_quiet.1, exit_quiet.2, List.nil_sublist _⟩
    rw [exit_answered]
    exact List.append_nil _
  · split
    · next o topic args _ =>
      have hquiet : ∀ e ∈ (s.publishTo o topic args).2,
          e.answered? = none ∧ e.issued? = none ∧ e.sent? = none := by
        intro e he
        obtain ⟨c, -, rfl⟩ := List.mem_map.mp (List.mem_reverse.mp he)
        split_ifs <;> exact ⟨rfl, rfl, rfl⟩
      have hanswered : answeredRequests (s.publishTo o topic args).2 = [] :=
        chronicle_none fun e he => (hquiet e he).1
      refine ⟨?_, chronicle_none fun e he => (hquiet e he).2.1,
        chronicle_none fun e he => (hquiet e he).2.2, List.Sublist.refl _⟩
      rw [hanswered]
      rfl
    · exact ⟨rfl, rfl, rfl, List.Sublist.refl _⟩

theorem readArm_goes_on (json : SerdeJson) (s : IpcClient) (data : List UInt8) :
    s.readArm json data = s.exit ∨ (s.readArm json data).1.phase = .selecting (some .start) ∧
      (s.readArm json data).1.mailbox = s.mailbox := by
  unfold readArm
  split_ifs
  · exact .inl rfl
  · split <;> exact .inr ⟨rfl, rfl⟩

theorem subscribe_answered (json : SerdeJson) (s : IpcClient) (o topic : String) (updates : Nat)
    (fault : Option String) :
    answeredRequests (s.subscribe json o topic updates fault).2 = [] ∧
      issuedMsgs (s.subscribe json o topic updates fault).2 = [] ∧
      (sentRequests (s.subscribe json o topic updates fault).2).Sublist [.subscribe o topic] := by
  refine ⟨chronicle_none fun e he => ?_, chronicle_none fun e he => ?_, ?_⟩
  · obtain rfl | rfl := subscribe_event he <;> rfl
  · obtain rfl | rfl := subscribe_event he <;> rfl
  · unfold subscribe
    split
    · exact List.Sublist.refl _
    · exact List.nil_sublist _

theorem Transition.answered (h : Transition json s a s' es) :
    answeredRequests es ++ (s'.phase.awaited ++ requests s'.mailbox) =
      s.phase.awaited ++ requests s.mailbox ++ requests (issuedMsgs es) := by
  cases h with
  | @issue op =>
    have hmade : answeredRequests [.issued (op.msg s.nextChannel)] = [] := rfl
    rw [hmade, requests_append, List.nil_append, List.append_assoc]
    rfl
  | @issueEnded op =>
    have hquiet : ∀ e ∈ ((op.msg s.nextChannel).abandon .actorDropped).toList,
        e.answered? = none ∧ e.issued? = none := by
      intro e he
      obtain ⟨req, respTx, rfl⟩ := abandon_event (Option.mem_toList.mp he)
      exact ⟨rfl, rfl⟩
    have hanswered : answeredRequests ((op.msg s.nextChannel).abandon .actorDropped).toList = [] :=
      chronicle_none fun e he => (hquiet e he).1
    have hissued : issuedMsgs ((op.msg s.nextChannel).abandon .actorDropped).toList = [] :=
      chronicle_none fun e he => (hquiet e he).2
    rw [hanswered, hissued]
    exact (List.append_nil _).symm
  | requestFailed h hm | requestAwaits h hm | requestDone h hm =>
    rw [h, hm]
    exact (List.append_nil _).symm
  | @subscribe fault reading o topic updates rest h hm =>
    obtain ⟨hanswered, hissued, -⟩ := subscribe_answered json { s with mailbox := rest } o topic
      updates fault
    rw [hanswered, hissued, h, hm]
    exact (List.append_nil _).symm
  | @pollPacket reading data rest h =>
    obtain ⟨hanswered, hissued, -⟩ := readArm_answered json { s with arrived := rest } data
    rw [answeredRequests_append, issuedMsgs_append, hissued, h]
    refine Eq.trans hanswered (List.append_nil _).symm
  | exit h hm =>
    rw [exit_answered, exit_quiet.1, h, hm]
    rfl
  | awaitPacket h | awaitFailed h | awaitPending h | pollPending h | pollFailed h =>
    rw [h]
    exact (List.append_nil _).symm
  | _ => exact (List.append_nil _).symm

theorem Transition.sentInOrder (h : Transition json s a s' es) :
    (sentRequests es ++ s'.mailbox.map ClientMsg.toWrite).Sublist
      (s.mailbox.map ClientMsg.toWrite ++ (issuedMsgs es).map ClientMsg.toWrite) := by
  cases h with
  | @issue op =>
    have hsent : sentRequests [.issued (op.msg s.nextChannel)] = [] := rfl
    rw [hsent, List.map_append]
    exact List.Sublist.refl _
  | @issueEnded op =>
    have hsent : sentRequests ((op.msg s.nextChannel).abandon .actorDropped).toList = [] := by
      refine chronicle_none fun e he => ?_
      obtain ⟨req, respTx, rfl⟩ := abandon_event (Option.mem_toList.mp he)
      rfl
    rw [hsent]
    exact List.sublist_append_left _ _
  | requestFailed h hm =>
    rw [hm]
    exact (List.sublist_cons_self _ _).trans (List.sublist_append_left _ _)
  | requestAwaits h hm | requestDone h hm =>
    rw [hm]
    exact List.sublist_append_left _ _
  | @subscribe fault reading o topic updates rest h hm =>
    obtain ⟨-, -, hsent⟩ := subscribe_answered json { s with mailbox := rest } o topic
      updates fault
    rw [hm, List.map_cons]
    exact (hsent.append (List.Sublist.refl _)).trans (List.sublist_append_left _ _)
  | @pollPacket reading data rest h =>
    obtain ⟨-, -, hsent, hmailbox⟩ := readArm_answered json { s with arrived := rest } data
    rw [sentRequests_append, hsent]
    exact (hmailbox.map _).trans (List.sublist_append_left _ _)
  | exit =>
    rw [exit_quiet.2]
    exact List.nil_sublist _
  | _ => exact List.sublist_append_left _ _

theorem Transition.issued (h : Transition json s a s' es) :
    (issuedMsgs es = [] ∧ s.nextChannel ≤ s'.nextChannel) ∨
      ∃ msg, issuedMsgs es = [msg] ∧ msg.channel = s.nextChannel ∧
        s'.nextChannel = s.nextChannel + 1 := by
  cases h with
  | @issue op =>
    refine .inr ⟨_, rfl, ?_, rfl⟩
    cases op <;> rfl
  | issueEnded =>
    refine .inl ⟨chronicle_none fun e he => ?_, Nat.le_succ _⟩
    obtain ⟨req, respTx, rfl⟩ := abandon_event (Option.mem_toList.mp he)
    rfl
  | subscribe => exact .inl ⟨(subscribe_answered _ _ _ _ _ _).2.1, Nat.le_refl _⟩
  | @pollPacket reading data rest =>
    left
    rw [issuedMsgs_append, (readArm_answered _ _ _).2.1]
    refine ⟨rfl, ?_⟩
    unfold readArm
    split_ifs
    · exact Nat.le_refl _
    · split <;> exact Nat.le_refl _
  | exit => exact .inl ⟨exit_quiet.1, Nat.le_refl _⟩
  | _ => exact .inl ⟨rfl, Nat.le_refl _⟩

theorem Transition.ended (h : Transition json s a s' es) (hs : s.phase = .ended → s.mailbox = [])
    (hp : s'.phase = .ended) : s'.mailbox = [] := by
  cases h with
  | issue hne => exact absurd hp hne
  | requestFailed | requestAwaits | requestDone | subscribe | pollPending | pollFailed
  | awaitPending | awaitPacket | awaitFailed => cases hp
  | pollPacket =>
    unfold readArm at hp ⊢
    split_ifs at hp ⊢
    · rfl
    · split at hp <;> cases hp
  | exit => rfl
  | _ => exact hs hp

section Runs
variable {ok : World IpcClient Event → Action → Prop}

theorem ended_mailbox (h : (client json).RunWhere ok w) (hp : w.state.phase = .ended) :
    w.state.mailbox = [] := by
  refine h.stateInvariant (I := fun s => s.phase = .ended → s.mailbox = []) ?_ ?_ hp
  · rintro _ rfl hp
    rfl
  · exact fun s a s' es hI hs => (step_transition hs).ended hI

theorem issued_channels (h : (client json).RunWhere ok w) :
    ((issuedMsgs w.trace).map ClientMsg.channel).Nodup ∧
      ∀ msg ∈ issuedMsgs w.trace, msg.channel < w.state.nextChannel := by
  refine h.invariant (I := fun w => ((issuedMsgs w.trace).map ClientMsg.channel).Nodup ∧
    ∀ msg ∈ issuedMsgs w.trace, msg.channel < w.state.nextChannel) ?_ ?_
  · rintro _ rfl
    exact ⟨List.nodup_nil, nofun⟩
  · rintro w a w' - ⟨hnodup, hlt⟩ - hn
    obtain ⟨es, ht, htr⟩ := next_transition hn
    rw [htr, issuedMsgs_append]
    obtain ⟨hnone, hle⟩ | ⟨msg, hone, hchannel, hnext⟩ := ht.issued
    · rw [hnone, List.append_nil]
      exact ⟨hnodup, fun msg hmsg => Nat.lt_of_lt_of_le (hlt msg hmsg) hle⟩
    · rw [hone, List.map_append, hnext]
      refine ⟨List.nodup_append.mpr ⟨hnodup, ?_, ?_⟩, fun m hm => ?_⟩
      · exact List.nodup_cons.mpr ⟨List.not_mem_nil, List.nodup_nil⟩
      · intro c hc c' hc' heq
        obtain ⟨m, hm, rfl⟩ := List.mem_map.mp hc
        have hfresh := hlt m hm
        rw [heq, List.mem_singleton.mp hc', hchannel] at hfresh
        exact Nat.lt_irrefl _ hfresh
      · obtain hm | hm := List.mem_append.mp hm
        · exact Nat.lt_succ_of_lt (hlt m hm)
        · rw [List.mem_singleton.mp hm, hchannel]
          exact Nat.lt_succ_self _

theorem requests_channels (msgs : List ClientMsg) :
    ((requests msgs).map Prod.snd).Sublist (msgs.map ClientMsg.channel) := by
  induction msgs with
  | nil => exact List.Sublist.refl _
  | cons msg msgs ih =>
    cases msg with
    | request req respTx => exact ih.cons_cons _
    | subscribe o topic updates => exact ih.cons _

theorem answered_inOrder (h : (client json).RunWhere ok w) :
    requests (issuedMsgs w.trace) =
      answeredRequests w.trace ++ (w.state.phase.awaited ++ requests w.state.mailbox) := by
  refine h.invariant (I := fun w => requests (issuedMsgs w.trace) =
    answeredRequests w.trace ++ (w.state.phase.awaited ++ requests w.state.mailbox)) ?_ ?_
  · rintro _ rfl
    rfl
  · intro w a w' _ hI _ hn
    obtain ⟨es, ht, htr⟩ := next_transition hn
    rw [htr, issuedMsgs_append, requests_append, answeredRequests_append, hI, List.append_assoc,
      List.append_assoc (answeredRequests w.trace), ht.answered]

theorem sent_inOrder (h : (client json).RunWhere ok w) :
    (sentRequests w.trace ++ w.state.mailbox.map ClientMsg.toWrite).Sublist
      ((issuedMsgs w.trace).map ClientMsg.toWrite) := by
  refine h.invariant (I := fun w => (sentRequests w.trace ++
    w.state.mailbox.map ClientMsg.toWrite).Sublist ((issuedMsgs w.trace).map ClientMsg.toWrite)) ?_ ?_
  · rintro _ rfl
    exact List.Sublist.refl _
  · intro w a w' _ hI _ hn
    obtain ⟨es, ht, htr⟩ := next_transition hn
    rw [htr, issuedMsgs_append, sentRequests_append, List.map_append, List.append_assoc]
    have hstep := (List.Sublist.refl (sentRequests w.trace)).append ht.sentInOrder
    rw [← List.append_assoc] at hstep
    rw [← List.append_assoc (sentRequests w.trace) (w.state.mailbox.map _)] at hstep
    rw [← List.append_assoc]
    exact hstep.trans (hI.append (List.Sublist.refl _))

end Runs

/-- Requests are served in their order, each is answered once, and none is left when the actor
ends. -/
theorem served_inOrder (h : (client json).Run w) : ServedInOrder w := by
  refine ⟨answered_inOrder h, ?_, ?_, fun hp => ?_⟩
  · exact (issued_channels h).1.sublist (requests_channels _)
  · exact (List.sublist_append_left _ _).trans (sent_inOrder h)
  · rw [answered_inOrder h, ended_mailbox h hp, hp]
    exact (List.append_nil _).symm

def callsInMailbox : List Action :=
  [.issue (.remoteCall (callOf "1")), .issue (.subscribe "o" "t"),
    .issue (.remoteCall (callOf "2")), .take none, .write resultText, .arrive 100, .poll,
    .take none, .take none, .write resultText, .arrive 100, .poll]

theorem served_inOrder_callsInMailbox :
    ∃ w, (client textJson).exec (fun _ _ => True) ⟨initial, []⟩ callsInMailbox = some w ∧
      (answeredRequests w.trace).map Prod.snd = [0, 2] ∧ ServedInOrder w := by
  obtain ⟨w, hr, he, ht⟩ := System.RunWhere.of_exec_any (client textJson) (fun _ _ => True)
    callsInMailbox (fun w => (answeredRequests w.trace).map Prod.snd = [0, 2]) rfl (by decide)
  exact ⟨w, he, of_decide_eq_true ht, served_inOrder hr⟩

end IpcBroker.IpcClient
