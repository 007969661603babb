import IpcBroker.Client.ActorLoop
import IpcBroker.Protocol.CompactText

/-! `publish`: what it returns, and what the actor makes of its message after it has returned. -/

namespace IpcBroker.IpcClient
open Function Foundation

/-- `publish` returns when its message is in the mailbox: the receiver of the reply is dropped. -/
def publish (s : IpcClient) (o topic : String) (args : Value) :
    Option ((IpcClient × List Event) × Except IoError Unit) :=
  (s.issue (.publish o topic args)).map fun r =>
    (r, match s.phase with
      | .ended => .error (.custom .brokenPipe "Actor dropped")
      | _ => .ok ())

variable {json : SerdeJson} {s s' : IpcClient} {a : Action} {es : List Event} {data : List UInt8}
  {w : World IpcClient ClientStep} {o topic : String} {args : Value}

theorem readArm_mailbox {msg : ClientMsg} (h : msg ∈ (s.readArm json data).1.mailbox) :
    msg ∈ s.mailbox := by
  unfold readArm at h
  split_ifs at h
  · cases h
  · split at h <;> exact h

theorem Transition.mailbox {msg : ClientMsg} (h : Transition json s a s' es)
    (hm : msg ∈ s'.mailbox) :
    msg ∈ s.mailbox ∨
      ∃ op, a = .issue op ∧ msg = op.msg s.nextChannel ∧ s.phase ≠ .ended := by
  cases h with
  | @issue op hp hroom =>
    obtain hm | hm := List.mem_append.mp hm
    · exact .inl hm
    · exact .inr ⟨op, rfl, List.mem_singleton.mp hm, hp⟩
  | requestFailed hp hbox | requestAwaits hp hbox | requestDone hp hbox | subscribe hp hbox =>
    rw [hbox]
    exact .inl (List.mem_cons_of_mem _ hm)
  | pollPacket =>
    have hold := readArm_mailbox hm
    exact .inl hold
  | exit => cases hm
  | _ => exact .inl hm

theorem mailbox_issued (h : (client json).recorded.Run w) :
    ∀ msg ∈ w.state.mailbox, ∃ st ∈ w.trace, ∃ op, st.action = .issue op ∧
      msg = op.msg st.before.nextChannel ∧ st.before.phase ≠ .ended := by
  refine h.invariant (I := fun w => ∀ msg ∈ w.state.mailbox, ∃ st ∈ w.trace, ∃ op,
    st.action = .issue op ∧ msg = op.msg st.before.nextChannel ∧ st.before.phase ≠ .ended) ?_ ?_
  · rintro _ rfl msg hm
    cases hm
  · intro w a w' _ hI _ hn msg hm
    obtain ⟨es, hs, ht⟩ := System.recorded_next.mp hn
    rw [ht]
    obtain hm | ⟨op, rfl, hmsg, hp⟩ := (step_transition hs).mailbox hm
    · obtain ⟨st, hst, hissue⟩ := hI msg hm
      exact ⟨st, List.mem_cons_of_mem _ hst, hissue⟩
    · exact ⟨_, List.mem_cons_self, op, rfl, hmsg, hp⟩

/-- What comes of every `publish` of a run: what it returns, and what the actor does with its message
when it takes it from the mailbox. -/
structure FireAndForget (json : SerdeJson) (tr : List ClientStep) : Prop where
  returned : ∀ st ∈ tr, ∀ o topic args, st.action = .issue (.publish o topic args) →
    (st.before.phase ≠ .ended ∧
      st.before.publish o topic args = some ((st.after, st.events), .ok ()) ∧
      st.after.mailbox =
        st.before.mailbox ++ [.request (.publish o topic args) st.before.nextChannel]) ∨
    (st.before.phase = .ended ∧
      st.before.publish o topic args =
        some ((st.after, st.events), .error (.custom .brokenPipe "Actor dropped")) ∧
      st.after.mailbox = st.before.mailbox)
  processed : ∀ later st earlier, tr = later ++ st :: earlier → ∀ fault o topic args respTx rest,
    st.action = .take fault →
    st.before.mailbox = .request (.publish o topic args) respTx :: rest →
    (∃ st₀ ∈ earlier, st₀.action = .issue (.publish o topic args) ∧
      st₀.before.nextChannel = respTx ∧ st₀.before.phase ≠ .ended) ∧
    ((json.toVec (.publish o topic args)).length ≤ bufSize ∧ fault = none ∧
        st.events = [.replied (.publish o topic args) respTx (.received (.ok (.event "" "" .null))),
          .sent (.publish o topic args)] ∨
      (bufSize < (json.toVec (.publish o topic args)).length ∨ fault ≠ none) ∧
        ∃ e, writePacket (json.toVec (.publish o topic args)) fault = .error e ∧
          st.events = [.replied (.publish o topic args) respTx (.received (.error e))])

theorem publish_issue (h : s.issue (.publish o topic args) = some (s', es)) :
    (s.phase ≠ .ended ∧ s.publish o topic args = some ((s', es), .ok ()) ∧
      s'.mailbox = s.mailbox ++ [.request (.publish o topic args) s.nextChannel]) ∨
    (s.phase = .ended ∧
      s.publish o topic args =
        some ((s', es), .error (.custom .brokenPipe "Actor dropped")) ∧
      s'.mailbox = s.mailbox) := by
  have hT : Transition ⟨fun _ => [], fun _ => .error ""⟩ s (.issue (.publish o topic args)) s' es :=
    issue_transition h
  rw [publish, h, Option.map_some]
  cases hT with
  | issue hp =>
    refine .inl ⟨hp, ?_, rfl⟩
    split
    · next hended => exact absurd hended hp
    · rfl
  | issueEnded hp =>
    refine .inr ⟨hp, ?_, rfl⟩
    rw [hp]

theorem Transition.processed {fault : Option String} {respTx : Nat} {rest : List ClientMsg}
    (h : Transition json s (.take fault) s' es)
    (hm : s.mailbox = .request (.publish o topic args) respTx :: rest) :
    (json.toVec (.publish o topic args)).length ≤ bufSize ∧ fault = none ∧
        es = [.replied (.publish o topic args) respTx (.received (.ok (.event "" "" .null))),
          .sent (.publish o topic args)] ∨
      (bufSize < (json.toVec (.publish o topic args)).length ∨ fault ≠ none) ∧
        ∃ e, writePacket (json.toVec (.publish o topic args)) fault = .error e ∧
          es = [.replied (.publish o topic args) respTx (.received (.error e))] := by
  cases h with
  | requestFailed hp hbox hw =>
    cases hm.symm.trans hbox
    refine .inr ⟨?_, _, hw, rfl⟩
    by_contra hok
    obtain ⟨hlen, hfault⟩ := not_or.mp hok
    cases not_not.mp hfault
    rw [writePacket, if_neg hlen] at hw
    cases hw
  | requestAwaits hp hbox hw he =>
    cases hm.symm.trans hbox
    cases he
  | requestDone hp hbox hw =>
    cases hm.symm.trans hbox
    unfold writePacket at hw
    split_ifs at hw with hlen
    split at hw
    · cases hw
    · exact .inl ⟨Nat.le_of_not_lt hlen, rfl, rfl⟩
  | subscribe hp hbox => cases hm.symm.trans hbox

/-- `publish` is fire-and-forget: it returns `Ok` exactly when its message is in the mailbox of an
actor that has not ended, and what comes of the message gets to nobody. -/
theorem publish_fire_and_forget (h : (client json).recorded.Run w) : FireAndForget json w.trace where
  returned st hst o topic args ha := by
    obtain ⟨later, earlier, htr⟩ := List.append_of_mem hst
    obtain ⟨-, -, -, hs⟩ := h.taken ⟨later, htr.symm⟩
    rw [ha] at hs
    exact publish_issue hs
  processed later st earlier htr fault o topic args respTx rest ha hm := by
    obtain ⟨hr, -⟩ := h.taken ⟨later, htr.symm⟩
    have hT := taken_transition h ⟨later, htr.symm⟩
    rw [ha] at hT
    refine ⟨?_, hT.processed hm⟩
    have hmem : ClientMsg.request (.publish o topic args) respTx ∈ st.before.mailbox :=
      hm ▸ List.mem_cons_self
    obtain ⟨st₀, hst₀, op, ha₀, hmsg, hp₀⟩ := mailbox_issued hr _ hmem
    cases op with
    | publish o' topic' args' =>
      cases hmsg
      exact ⟨st₀, hst₀, ha₀, rfl, hp₀⟩
    | _ => cases hmsg

def publishJson : SerdeJson where
  toVec req := (Packet.request req).serialize.text fun _ => []
  fromSlice _ := .error "expected value"

def publishStep (o topic : String) (args : Value) : ClientStep where
  before := initial
  action := .issue (.publish o topic args)
  events := [.issued (.request (.publish o topic args) 0)]
  after := { initial with mailbox := [.request (.publish o topic args) 0], nextChannel := 1 }

theorem publish_run (json : SerdeJson) (o topic : String) (args : Value) :
    ∃ s es, (client json).recorded.Run
      ⟨s, [⟨(publishStep o topic args).after, .take none, es, s⟩, publishStep o topic args]⟩ := by
  have hstart : (client json).recorded.Run ⟨initial, []⟩ := .start rfl
  have hissue : (client json).recorded.Run
      ⟨(publishStep o topic args).after, [publishStep o topic args]⟩ :=
    hstart.step (a := .issue (.publish o topic args)) trivial rfl
  exact ⟨_, _, hissue.step (a := .take none) trivial (System.recorded_next.mpr ⟨_, rfl, rfl⟩)⟩

theorem publish_fire_and_forget_taken :
    ∃ w : World IpcClient ClientStep, (client textJson).recorded.Run w ∧
      w.trace.map (·.action) = [.take none, .issue (.publish "o" "t" .null)] ∧
      FireAndForget textJson w.trace := by
  obtain ⟨s, es, h⟩ := publish_run textJson "o" "t" .null
  exact ⟨_, h, rfl, publish_fire_and_forget h⟩

/-- A `publish` whose frame is too long returns `Ok`; the actor takes its message, and writes
nothing, on a transport that works. -/
theorem oversized_publish_returns_ok :
    ∃ (o : String) (st₀ st : ClientStep), (client publishJson).recorded.Run ⟨st.after, [st, st₀]⟩ ∧
      st₀.before.publish o "" .null = some ((st₀.after, st₀.events), .ok ()) ∧
      st.action = .take none ∧ st.before.mailbox = [.request (.publish o "" .null) 0] ∧
      ∀ req, Event.sent req ∉ st.events := by
  have hname := escapedLength_replicate bufSize
  generalize String.ofList (List.replicate bufSize 'x') = o at hname
  have hsize : (Packet.request (.publish o "" .null)).size (fun _ => []) =
      49 + escapedLength o + escapedLength "" + (Value.null.text fun _ => []).length :=
    size_publish o "" .null
  have hlong : bufSize < (publishJson.toVec (.publish o "" .null)).length := by
    refine Nat.lt_of_lt_of_eq ?_ hsize.symm
    rw [hname]
    omega
  obtain ⟨s, es, h⟩ := publish_run publishJson o "" .null
  refine ⟨o, publishStep o "" .null, ⟨_, .take none, es, s⟩, h, rfl, rfl, rfl, fun req hreq => ?_⟩
  have hT := taken_transition h (List.suffix_refl _)
  obtain ⟨hlen, -⟩ | ⟨-, e, -, hes⟩ := hT.processed rfl
  · exact absurd hlen (Nat.not_le_of_lt hlong)
  · rw [hes] at hreq
    cases List.mem_singleton.mp hreq

end IpcBroker.IpcClient
