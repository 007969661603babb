import IpcBroker.Broker.MessageSources
import IpcBroker.Protocol.CompactText

/-! What is true of every message that the broker holds, when it is true of what its handlers read
and of the replies they make; and the size of the messages. -/

namespace IpcBroker
open Function Foundation

def HandlerPc.Holds (good : Packet → Prop) : HandlerPc → Prop
  | .registerObjects o | .registerServices o => good (.response (.registered o))
  | .callLookup k | .callInsert k _ _ _ | .callForward k _ | .callServices k =>
    good (.request (.call k))
  | .responseTake resp _ | .responseForward resp _ => good (.response resp)
  | .subscribe o topic => good (.response (.subscribed o topic))
  | .publishSnapshot o topic args => good (.response (.event o topic args))
  | .publishSenders event _ | .publishSend event _ => good (.response event)
  | .sendLookup msg rest | .sendAwait _ msg rest => ∀ m ∈ msg :: rest, good m
  | .registerService _ _ | .callStart _ _ | .hasObject _ => True

def Phase.Holds (good : Packet → Prop) : Phase → Prop
  | .handling pc => pc.Holds good
  | _ => True

namespace Broker

structure Holds (good : Packet → Prop) (s : Broker) : Prop where
  phase : ∀ x, (s.phase x).Holds good
  pending : ∀ o e, s.services o = some e → ∀ r ∈ e.pendingCalls, good (.request r)
  channel : ∀ y m, m ∈ s.channel y → good m

def Admits (good : Packet → Prop) (s : Broker) : Action → Prop
  | .receive _ (some p) => ∀ pc, dispatch p = some pc → pc.Holds good
  | .handler x =>
    match s.phase x with
    | .handling (.hasObject o) => good (.response (.hasObjectResult o (s.objects o).isSome))
    | .handling (.callServices k) => s.services k.objectName = none →
        good (.response (.error (some k.callId) k.objectName
          ("No such object '" ++ k.objectName ++ "'")))
    | _ => True
  | _ => True

variable {good : Packet → Prop} {s s' : Broker} {a : Action} {es : List Event} {x y : ClientId}

theorem holds_afterSends {msgs : List Packet} (h : ∀ m ∈ msgs, good m) :
    (afterSends msgs).Holds good := by
  cases msgs with
  | nil => trivial
  | cons msg rest => exact h

theorem holds_next {event : RpcResponse} (h : good (.response event)) (txs : List ClientSender) :
    (handlePublish.next event txs).Holds good := by
  cases txs with
  | nil => trivial
  | cons tx txs => exact h

theorem holds_one {m : Packet} (h : good m) : (afterSends [m]).Holds good :=
  holds_afterSends (List.forall_mem_singleton.mpr h)

theorem holds_sends {pc : HandlerPc} {site : SendSite} {tx : ClientSender} {msg : Packet} {p : Phase}
    (hpc : pc.Holds good) (h : pc.sends = some (site, tx, msg, p)) : good msg ∧ p.Holds good := by
  obtain ⟨k, rfl, -, rfl, rfl⟩ | ⟨resp, rfl, -, rfl, rfl⟩ | ⟨event, rest, rfl, -, rfl, rfl⟩ |
    ⟨rest, rfl, -, rfl⟩ := HandlerPc.sends_cases h
  · exact ⟨hpc, trivial⟩
  · exact ⟨hpc, trivial⟩
  · exact ⟨hpc, holds_next hpc rest⟩
  · exact ⟨hpc msg List.mem_cons_self,
      holds_afterSends fun m hm => hpc m (List.mem_cons_of_mem msg hm)⟩

theorem Holds.handling {pc : HandlerPc} (hI : Holds good s) (hx : s.phase x = .handling pc) :
    pc.Holds good := by
  have h := hI.phase x
  rwa [hx] at h

theorem holds_update {p : Phase} (hI : Holds good s) (hp : p.Holds good) (y : ClientId) :
    (update s.phase x p y).Holds good := by
  by_cases hy : y = x
  · subst hy
    rwa [update_self]
  · rw [update_of_ne hy]
    exact hI.phase y

theorem Holds.step_phase (hI : Holds good s) (hL : Lifecycle s) (h : Transition s a s' es)
    (ha : Admits good s a) (y : ClientId) : (s'.phase y).Holds good := by
  cases h with
  | receiveInvalid | receiveIdle | write | writeError | stopWriter | spawnEnd => exact hI.phase y
  | receive hx hd =>
    refine holds_update hI ?_ y
    exact ha _ hd
  | registerObjects hx | callLookup hx | responseTake hx | snapshot hx | sendLookup hx =>
    refine holds_update hI ?_ y
    exact hI.handling hx
  | @registerServices x o e hx hl he =>
    refine holds_update hI (holds_afterSends fun m hm => ?_) y
    obtain hm | hm := List.mem_append.mp hm
    · obtain ⟨r, hr, rfl⟩ := List.mem_map.mp hm
      exact hI.pending o e he r hr
    · rw [List.mem_singleton.mp hm]
      exact hI.handling hx
  | registerPlain hx | subscribe hx => exact holds_update hI (holds_one (hI.handling hx)) y
  | @callGone x k hx hc =>
    -- a client is in `clients` as long as its handler runs
    rw [hL.clients x, hx] at hc
    cases hc
  | @callInsert x k workerId workerTx tx hx =>
    have hk := hI.handling hx
    refine holds_update hI ?_ y
    obtain ⟨w, t, -, -, hroute⟩ | ⟨-, hroute⟩ := route_cases k workerId workerTx
    · rw [hroute]
      exact hk
    · rw [hroute]
      exact hk
  | @callUnknown x k hx hl he =>
    rw [Admits, hx] at ha
    exact holds_update hI (holds_one (ha he)) y
  | @hasObject x o hx =>
    rw [Admits, hx] at ha
    exact holds_update hI (holds_one ha) y
  | publishSenders hx => exact holds_update hI (holds_next (hI.handling hx) _) y
  | @sendLookupGone x msg rest hx =>
    have hmsgs := hI.handling hx
    exact holds_update hI (holds_afterSends fun m hm => hmsgs m (List.mem_cons_of_mem msg hm)) y
  | send hx hs | sendFailed hx hs => exact holds_update hI (holds_sends (hI.handling hx) hs).2 y
  | _ =>
    refine holds_update hI ?_ y
    trivial

theorem Holds.step_pending (hI : Holds good s) (h : Transition s a s' es) (o : String)
    (e : ServiceEntry) (he : s'.services o = some e) : ∀ r ∈ e.pendingCalls, good (.request r) := by
  obtain ⟨hsame, -⟩ | ⟨x, p, hstep, -⟩ := h.services o
  · exact hI.pending o e (hsame ▸ he)
  · rw [he] at hstep
    intro r hr
    generalize hv : some e = v at hstep
    cases hstep with
    | registered =>
      cases hv
      cases hr
    | configured =>
      cases hv
      cases hold : s.services o with
      | none =>
        rw [hold] at hr
        cases hr
      | some e' =>
        rw [hold] at hr
        exact hI.pending o e' hold r hr
    | stopped hx ho hold | starting hx ho hold =>
      cases hv
      obtain hr | hr := List.mem_append.mp hr
      · exact hI.pending o _ hold r hr
      · rw [List.mem_singleton.mp hr]
        exact hI.handling hx
    | cleaned =>
      obtain ⟨e', hold, rfl⟩ := Option.map_eq_some_iff.mp hv.symm
      unfold cleanupService at hr
      split_ifs at hr
      · cases hr
      · exact hI.pending o e' hold r (List.mem_of_mem_filter hr)

theorem Holds.enqueued {site : SendSite} {m : Packet} (hI : Holds good s)
    (h : Transition s a s' es) (he : Event.enqueued site x y m ∈ es) : good m := by
  obtain ⟨pc, tx, p, -, hx, hs, -⟩ := h.sender he
  exact (holds_sends (hI.handling hx) hs).1

theorem Holds.step_channel (hI : Holds good s) (h : Transition s a s' es) (y : ClientId)
    (m : Packet) (hm : m ∈ s'.channel y) : good m := by
  obtain hm | ⟨site, x, he⟩ := h.channel hm
  · exact hI.channel y m hm
  · exact hI.enqueued h he

theorem holds_initial (items : List ServiceActivationFile) : Holds good (Broker.initial items) where
  phase x := trivial
  pending o e h := by
    obtain ⟨name, rfl⟩ := loadServiceActivations_stopped items h
    exact List.forall_mem_nil _
  channel y m hm := by cases hm

variable {ok : World Broker Event → Action → Prop} {w : World Broker Event}

theorem holds (h : broker.RunWhere ok w) (hok : ∀ w a, ok w a → Admits good w.state a) :
    Holds good w.state := by
  refine h.invariant (I := fun w => Holds good w.state) ?_ ?_
  · rintro _ ⟨items, rfl⟩
    exact holds_initial items
  · intro w a w' hr hI ha hn
    obtain ⟨es, ht, -⟩ := next_transition hn
    exact ⟨hI.step_phase (lifecycle hr) ht (hok w a ha), hI.step_pending ht, hI.step_channel ht⟩

theorem enqueued_good (h : broker.RunWhere ok w) (hok : ∀ w a, ok w a → Admits good w.state a)
    {site : SendSite} {m : Packet} (he : Event.enqueued site x y m ∈ w.trace) : good m := by
  obtain ⟨tr, hpre⟩ := List.append_of_mem he
  obtain ⟨tr', hpre⟩ := hpre
  obtain ⟨w₀, a, w₁, es₁, es₂, hr, -, -, hs, -⟩ := h.emitted ⟨tr, hpre.symm⟩
  exact (holds hr hok).enqueued (step_transition hs)
    (List.mem_append_right es₁ List.mem_cons_self)

/-! Sizes. -/

section FrameSize
variable (float : UInt64 → List UInt8)

/-- The packet that a reader loop reads is the compact text of its message, and fits a frame. -/
def readable : Action → Bool
  | .receive _ (some p) => p.size float ≤ bufSize
  | _ => true

/-- There is room for what the reply is longer than its request: a `Subscribe` is shorter than a
frame may be, a `HasObject` by the 20 or 21 bytes of the field `exists` and the longer tag, and a
call that is refused by what repeating the name of its object takes. -/
def replyFits (s : Broker) : Action → Bool
  | .receive _ (some (.request (.subscribe o topic))) =>
    (Packet.request (.subscribe o topic)).size float < bufSize
  | .handler x =>
    match s.phase x with
    | .handling (.hasObject o) =>
      (Packet.request (.hasObject o)).size float + (if (s.objects o).isSome then 20 else 21) ≤ bufSize
    | .handling (.callServices k) =>
      (s.services k.objectName).isSome ||
        71 + escapedLength k.callId.id + 2 * escapedLength k.objectName ≤ bufSize
    | _ => true
  | _ => true

variable {float}

theorem readable_receive {p : Packet} :
    readable float (.receive x (some p)) = true ↔ p.size float ≤ bufSize := decide_eq_true_iff

theorem admits_fits (hr : readable float a = true) (hf : replyFits float s a = true) :
    Admits (fun m => m.size float ≤ bufSize) s a := by
  cases a with
  | receive x p =>
    cases p with
    | none => trivial
    | some p =>
      have hp : p.size float ≤ bufSize := readable_receive.mp hr
      intro pc hd
      obtain ⟨r, rfl, rfl⟩ | ⟨resp, c, rfl, hc, rfl⟩ := dispatch_cases hd
      · cases r with
        | registerObject o =>
          have hsize : (Packet.response (.registered o)).size float + 4 =
              (Packet.request (.registerObject o)).size float := size_registered o
          exact Nat.le_trans (Nat.le.intro hsize) hp
        | registerService o name => trivial
        | call k => exact hp
        | subscribe o topic =>
          have hlt : (Packet.request (.subscribe o topic)).size float < bufSize := of_decide_eq_true hf
          exact Nat.le_trans (Nat.le_of_eq (size_subscribed o topic)) hlt
        | publish o topic args =>
          have hsize : (Packet.response (.event o topic args)).size float + 2 =
              (Packet.request (.publish o topic args)).size float := size_event o topic args
          exact Nat.le_trans (Nat.le.intro hsize) hp
        | hasObject o => trivial
      · exact hp
  | handler x =>
    simp only [replyFits] at hf
    simp only [Admits]
    split
    · next o hx =>
      rw [hx] at hf
      exact Nat.le_trans (Nat.le_of_eq (size_hasObjectResult o _)) (of_decide_eq_true hf)
    · next k hx =>
      intro hnone
      rw [hx] at hf
      simp only [hnone, Option.isSome_none, Bool.false_or, decide_eq_true_eq] at hf
      exact Nat.le_trans (Nat.le_of_eq (size_noSuchObject k.callId k.objectName)) hf
    · trivial
  | _ => trivial

/-- Every message that is put on a channel fits a frame, so that a writer loop ends only when its
transport fails. -/
theorem replies_fit_frames (fromSlice : List UInt8 → Option Value)
    (h : broker.RunWhere
      (fun (w : World Broker Event) a => readable float a = true ∧ replyFits float w.state a = true) w) :
    (∀ site x y m, Event.enqueued site x y m ∈ w.trace →
      ((compactJson float fromSlice).encode m).length ≤ bufSize) ∧
    ∀ y m, m ∈ w.state.channel y → ∀ fault e,
      writePacket ((compactJson float fromSlice).encode m) fault = .error e →
        ∃ message, fault = some message ∧ e = .transport message := by
  have hadmits : ∀ (w : World Broker Event) a, readable float a = true ∧ replyFits float w.state a = true →
      Admits (fun m => m.size float ≤ bufSize) w.state a :=
    fun w a hok => admits_fits hok.1 hok.2
  refine ⟨fun site x y m he => enqueued_good h hadmits he, fun y m hm fault e hw => ?_⟩
  have hfits : ¬ bufSize < ((compactJson float fromSlice).encode m).length :=
    Nat.not_lt.mpr ((holds h hadmits).channel y m hm)
  unfold writePacket at hw
  rw [if_neg hfits] at hw
  cases fault with
  | none => cases hw
  | some message =>
    cases hw
    exact ⟨message, rfl, rfl⟩

def acknowledges (x : ClientId) (o topic : String) : Event → Bool
  | .enqueued .sendToClient y z (.response (.subscribed o' topic')) =>
    y = x && z = x && o' = o && topic' = topic
  | _ => false

theorem replies_fit_frames_subscribed :
    ∃ w, broker.RunWhere
        (fun w a => readable (fun _ => []) a = true ∧ replyFits (fun _ => []) w.state a = true) w ∧
      Event.enqueued .sendToClient workerA workerA (.response (.subscribed "o" "t")) ∈ w.trace ∧
      ((compactJson (fun _ => []) fun _ => none).encode
        (.response (.subscribed "o" "t"))).length ≤ bufSize := by
  obtain ⟨w, hr, -, ht⟩ := System.RunWhere.of_exec_any broker
    (fun w a => readable (fun _ => []) a = true ∧ replyFits (fun _ => []) w.state a = true)
    (.connect workerA :: request workerA (.subscribe "o" "t") 3)
    (fun w => w.trace.any (acknowledges workerA "o" "t")) ⟨[], rfl⟩ (by decide)
  obtain ⟨e, he, htest⟩ := List.any_eq_true.mp ht
  unfold acknowledges at htest
  split at htest
  · simp only [Bool.and_eq_true, decide_eq_true_eq] at htest
    obtain ⟨⟨⟨rfl, rfl⟩, rfl⟩, rfl⟩ := htest
    exact ⟨w, hr, he, (replies_fit_frames (fun _ => none) hr).1 _ _ _ _ he⟩
  · cases htest

theorem subscribe_run {ok : World Broker Event → Action → Prop} (o topic : String)
    (hconnect : ∀ w, ok w (.connect workerA))
    (hreceive : ∀ w, ok w (.receive workerA (some (.request (.subscribe o topic)))))
    (hhandler : ∀ w, ok w (.handler workerA)) (hwrite : ∀ w, ok w (.writeError workerA)) :
    ∃ w, broker.RunWhere ok w ∧
      Event.enqueued .sendToClient workerA workerA (.response (.subscribed o topic)) ∈ w.trace ∧
      w.state.writing workerA = false ∧ w.state.clients workerA = some ⟨workerA⟩ ∧
      w.state.phase workerA = .reading := by
  have h₀ : broker.RunWhere ok ⟨Broker.initial [], []⟩ := .start ⟨[], rfl⟩
  have h₁ := h₀.step (hconnect _) rfl
  have h₂ := h₁.step (hreceive _) rfl
  have h₃ := h₂.step (hhandler _) rfl
  have h₄ := h₃.step (hhandler _) rfl
  have h₅ := h₄.step (hhandler _) rfl
  have h₆ := h₅.step (hwrite _) rfl
  exact ⟨_, h₆, List.mem_cons_self, rfl, rfl, rfl⟩

def longName : String := String.ofList (List.replicate 65493 'x')

/-- The reply to a `Subscribe` of 65536 bytes has one byte more: it ends the writer loop of a client
that stays registered, with its reader loop. -/
theorem subscribed_exceeds_frame :
    (Packet.request (.subscribe longName "")).size (fun _ => []) = bufSize ∧
      bufSize < (Packet.response (.subscribed longName "")).size (fun _ => []) ∧
      ∃ w, broker.RunWhere (fun _ a => readable (fun _ => []) a = true) w ∧
        Event.enqueued .sendToClient workerA workerA (.response (.subscribed longName "")) ∈ w.trace ∧
        w.state.writing workerA = false ∧ w.state.clients workerA = some ⟨workerA⟩ ∧
        w.state.phase workerA = .reading := by
  have hname : escapedLength longName = 65493 := escapedLength_replicate 65493
  have htopic : escapedLength "" = 0 := rfl
  have hsize : (Packet.request (.subscribe longName "")).size (fun _ => []) = bufSize := by
    rw [size_subscribe, hname, htopic]
    rfl
  have hreply : (Packet.response (.subscribed longName "")).size (fun _ => []) =
      (Packet.request (.subscribe longName "")).size (fun _ => []) + 1 := size_subscribed longName ""
  rw [hsize] at hreply
  refine ⟨hsize, hreply ▸ Nat.lt_succ_self _, ?_⟩
  exact subscribe_run longName "" (fun _ => rfl) (fun _ => readable_receive.mpr (Nat.le_of_eq hsize))
    (fun _ => rfl) fun _ => rfl

end FrameSize
end Broker
end IpcBroker
