import IpcBroker.Broker.HandlerProgress
import IpcBroker.Broker.Replies

/-! The replies come: every registration of an object, subscription and query of a client gets one; a
service registration gets none, although the client waits for one, and the registration of an object
can be held up by the refused call of another client. -/

namespace IpcBroker
open Function Foundation
namespace Broker

/-- The steps that a reply to `x` needs: those of its handler and its writer loop, and of the handler
that keeps `services`. -/
def answering (x : ClientId) (w : World Broker Event) (a : Action) : Prop :=
  a = .handler x ∨ a = .write x ∨ ∃ y, w.state.servicesLock = some y ∧ a = .handler y

/-- The replies on the channel of `x` match its requests, one each and in order. Only the last one may
be on its way while its handler is at work, and it comes, if the writer loop of `x` still runs. -/
structure RepliesMatch (w : World Broker Event) (x : ClientId) : Prop where
  inOrder : ∃ answered late, requestsOf w.trace x = answered ++ late ∧
    List.Forall₂ Matches answered (repliesTo w.trace x) ∧ late.length ≤ 1 ∧
      (w.state.idle x → late = [])
  awaited : w.state.idle x → ∀ (i : Nat) r, (requestsOf w.trace x)[i]? = some r →
    IpcClient.expectsResponse r = true →
      ∃ resp, (repliesTo w.trace x)[i]? = some resp ∧ Matches r resp
  comes : w.state.writing x = true → ∃ w', broker.From (answering x) w w' ∧
    List.Forall₂ Matches (requestsOf w.trace x) (repliesTo w'.trace x)

/-- The registration of an object that `x` has sent need not wait for a handler that keeps `services`
and has no room for its own message. -/
def CanAnswer (s : Broker) (x : ClientId) : Prop :=
  ∀ o y, s.phase x = .handling (.registerObjects o) ∨ s.phase x = .handling (.registerServices o) →
    s.servicesLock = some y → (s.channel y).length < channelCapacity

variable {s s' : Broker} {a : Action} {es : List Event} {x y : ClientId} {w w' : World Broker Event}
  {pc : HandlerPc} {msg : Packet} {rest : List Packet} {o : String}

theorem next_of_step (h : w.state.step a = some (s', es)) :
    broker.next w a = some ⟨s', es ++ w.trace⟩ := System.next_eq_some.mpr ⟨es, h, rfl⟩

theorem own_step (h : w.state.step (.handler x) = some (s', es)) :
    broker.From (answering x) w ⟨s', es ++ w.trace⟩ :=
  .step .here (Or.inl rfl) (next_of_step h)

theorem keeper_step (hl : w.state.servicesLock = some y)
    (h : w.state.step (.handler y) = some (s', es)) :
    broker.From (answering x) w ⟨s', es ++ w.trace⟩ :=
  .step .here (Or.inr (Or.inr ⟨y, hl, rfl⟩)) (next_of_step h)

theorem answering_run (h : broker.Run w) (hfrom : broker.From (answering x) w w') : broker.Run w' :=
  (hfrom.mono fun _ _ _ => trivial).run h

theorem answering_requests (h : broker.From (answering x) w w') :
    requestsOf w'.trace x = requestsOf w.trace x := by
  induction h with
  | here => rfl
  | @step w₁ w₂ a _ ha hn ih =>
    obtain ⟨es, ht, htr⟩ := next_transition hn
    have hnone : requestsOf es x = [] := chronicle_none fun e he => requestFrom_none fun p hev => by
      obtain ⟨rfl, -⟩ := ht.received (hev ▸ he)
      obtain ha | ha | ⟨y, -, ha⟩ := ha <;> cases ha
    rw [htr, requestsOf_append, hnone, List.append_nil, ih]

theorem sendLookup_step (hL : Lifecycle s) (hx : s.phase x = .handling (.sendLookup msg rest)) :
    s.step (.handler x) = some (s.enter x (.sendAwait ⟨x⟩ msg rest), []) := by
  -- a client is in `clients` as long as its handler runs
  have hclients : s.clients x = some ⟨x⟩ := by
    rw [hL.clients x, hx]
    rfl
  simp only [step, hx, runSection, sendToClient, hclients]

/-! The way to a reply. -/

theorem drain (hx : w.state.phase x = .handling pc) (hw : w.state.writing x = true) :
    ∃ w', broker.From (answering x) w w' ∧ w'.state.phase x = .handling pc ∧
      w'.state.writing x = true ∧ (w'.state.channel x).length < channelCapacity := by
  induction hn : (w.state.channel x).length generalizing w with
  | zero =>
    have hroom : (w.state.channel x).length < channelCapacity := by
      rw [hn]
      decide
    exact ⟨w, .here, hx, hw, hroom⟩
  | succ n ih =>
    obtain ⟨m, ms, hch⟩ := List.exists_cons_of_length_eq_add_one hn
    have hstep : w.state.step (.write x) = some ({ w.state with
        channel := update w.state.channel x ms, writing := update w.state.writing x true },
        [.delivered x m]) := by
      simp only [step, writerLoop, hw, hch, if_true]
    have hlen : ms.length = n := by
      rw [hch] at hn
      exact Nat.succ.inj hn
    obtain ⟨v, hwrite, hxv, hwv, hlenv⟩ : ∃ v, broker.From (answering x) w v ∧
        v.state.phase x = .handling pc ∧ v.state.writing x = true ∧
        (v.state.channel x).length = n :=
      ⟨_, .step .here (Or.inr (Or.inl rfl)) (next_of_step hstep), hx, update_self ..,
        (congrArg List.length (update_self x ms w.state.channel)).trans hlen⟩
    obtain ⟨w', hfrom, hend⟩ := ih hxv hwv hlenv
    exact ⟨w', hwrite.trans hfrom, hend⟩

theorem send_reach (hx : w.state.phase x = .handling (.sendAwait ⟨x⟩ msg rest))
    (hw : w.state.writing x = true) : ∃ w', broker.From (answering x) w w' ∧
      w'.state.phase x = afterSends rest ∧ w'.state.writing x = true := by
  obtain ⟨w₁, hfrom, hx₁, hw₁, hroom⟩ := drain hx hw
  obtain ⟨b, es, hb, hp, hwriting⟩ := send_enabled hx₁ rfl (.inr hroom)
  exact ⟨_, hfrom.trans (own_step hb), hp, hwriting ▸ hw₁⟩

theorem sends_reach (msgs : List Packet) (h : broker.Run w) (hx : w.state.phase x = afterSends msgs)
    (hw : w.state.writing x = true) :
    ∃ w', broker.From (answering x) w w' ∧ w'.state.phase x = .reading := by
  induction msgs generalizing w with
  | nil => exact ⟨w, .here, hx⟩
  | cons msg rest ih =>
    have hfrom : broker.From (answering x) w _ := own_step (sendLookup_step (lifecycle h) hx)
    obtain ⟨w₁, hfrom₁, hx₁, hw₁⟩ := send_reach
      (w := ⟨w.state.enter x (.sendAwait ⟨x⟩ msg rest), _⟩) (update_self ..) hw
    have hfrom' := hfrom.trans hfrom₁
    obtain ⟨w₂, hfrom₂, hx₂⟩ := ih (answering_run h hfrom') hx₁ hw₁
    exact ⟨w₂, hfrom'.trans hfrom₂, hx₂⟩

theorem guard_released (h : broker.Run w) (hx : w.state.phase x = .handling (.registerServices o))
    (hw : w.state.writing x = true) (hcan : CanAnswer w.state x) :
    ∃ w', broker.From (answering x) w w' ∧ w'.state.phase x = .handling (.registerServices o) ∧
      w'.state.writing x = true ∧ w'.state.servicesLock = none := by
  cases hl : w.state.servicesLock with
  | none => exact ⟨w, .here, hx, hw, hl⟩
  | some y =>
    have hroom := hcan o y (.inr hx) hl
    have hrep := keeps_run h y hl
    have hyx : x ≠ y := by
      rintro rfl
      rw [hx] at hrep
      cases hrep
    -- the message is put on the channel, and the guard is dropped
    have hsend : ∀ {v : World Broker Event} {msg}, v.state.phase x = .handling (.registerServices o) →
        v.state.writing x = true → v.state.servicesLock = some y →
        v.state.phase y = .handling (.sendAwait ⟨y⟩ msg []) →
        (v.state.channel y).length < channelCapacity → ∃ w', broker.From (answering x) v w' ∧
          w'.state.phase x = .handling (.registerServices o) ∧ w'.state.writing x = true ∧
          w'.state.servicesLock = none := by
      intro v msg hx hw hl hy hroom
      have hstep : v.state.step (.handler y) = some ((v.state.push ⟨y⟩ msg).goto y .reading,
          [.enqueued .sendToClient y y msg]) := by
        simp only [step, hy, runSection, sendToClient.send, send, if_pos hroom, afterSends]
      refine ⟨_, keeper_step hl hstep, ?_, hw, ?_⟩
      · exact (update_of_ne hyx ..).trans hx
      · exact if_pos hl
    unfold replying at hrep
    split at hrep
    · next msg hy =>
      have hfrom : broker.From (answering x) w _ :=
        keeper_step hl (sendLookup_step (lifecycle h) hy)
      obtain ⟨w', hfrom', hend⟩ := hsend (v := ⟨w.state.enter y _, _⟩)
        ((update_of_ne hyx ..).trans hx) hw hl (update_self ..) hroom
      exact ⟨w', hfrom.trans hfrom', hend⟩
    · next tx msg hy =>
      cases (lifecycle h).ownTx y tx msg [] hy
      exact hsend hx hw hl hy hroom
    · cases hrep

theorem registers_reach (h : broker.Run w) (hx : w.state.phase x = .handling (.registerServices o))
    (hw : w.state.writing x = true) (hcan : CanAnswer w.state x) :
    ∃ w', broker.From (answering x) w w' ∧ w'.state.phase x = .reading := by
  obtain ⟨w₁, hfrom, hx₁, hw₁, hl⟩ := guard_released h hx hw hcan
  have hsection : ∃ b msgs es, w₁.state.step (.handler x) = some (b, es) ∧
      b.phase x = afterSends msgs ∧ b.writing = w₁.state.writing := by
    simp only [step, hx₁, runSection, handleRegisterObject.services, hl, if_true]
    split <;> exact ⟨_, _, _, rfl, update_self .., rfl⟩
  obtain ⟨b, msgs, es, hb, hp, hwriting⟩ := hsection
  have hfrom₁ := hfrom.trans (own_step hb)
  obtain ⟨w₂, hfrom₂, hx₂⟩ := sends_reach msgs (answering_run h hfrom₁) hp (hwriting ▸ hw₁)
  exact ⟨w₂, hfrom₁.trans hfrom₂, hx₂⟩

theorem reply_reached (h : broker.Run w) (hw : w.state.writing x = true)
    (hcan : CanAnswer w.state x)
    (hp : (w.state.phase x).unanswered ≠ [] ∨ (w.state.phase x).replies ≠ []) :
    ∃ w', broker.From (answering x) w w' ∧ w'.state.phase x = .reading := by
  have hsend : ∀ {b es} msgs, w.state.step (.handler x) = some (b, es) →
      b.phase x = afterSends msgs → b.writing = w.state.writing →
      ∃ w', broker.From (answering x) w w' ∧ w'.state.phase x = .reading := by
    intro b es msgs hb hp hwriting
    have hfrom : broker.From (answering x) w _ := own_step hb
    obtain ⟨w', hfrom', hx'⟩ := sends_reach msgs (answering_run h hfrom) hp (hwriting ▸ hw)
    exact ⟨w', hfrom.trans hfrom', hx'⟩
  cases hx : w.state.phase x with
  | handling pc =>
    rw [hx] at hp
    cases pc with
    | registerObjects o =>
      have hstep : w.state.step (.handler x) = some (handleRegisterObject w.state x o) := by
        simp only [step, hx, runSection]
      have hfrom : broker.From (answering x) w _ := own_step hstep
      have hcan' : CanAnswer (handleRegisterObject w.state x o).1 x := fun _ y _ hl =>
        hcan o y (.inl hx) hl
      obtain ⟨w', hfrom', hx'⟩ :=
        registers_reach (answering_run h hfrom) (update_self ..) hw hcan'
      exact ⟨w', hfrom.trans hfrom', hx'⟩
    | registerServices o => exact registers_reach h hx hw hcan
    | subscribe o topic =>
      have hstep : w.state.step (.handler x) = some (handleSubscribe w.state x o topic) := by
        simp only [step, hx, runSection]
      exact hsend _ hstep (update_self ..) rfl
    | hasObject o =>
      have hstep : w.state.step (.handler x) = some (handleHasObject w.state x o) := by
        simp only [step, hx, runSection]
      exact hsend _ hstep (update_self ..) rfl
    | sendLookup msg rest => exact sends_reach (msg :: rest) h hx hw
    | sendAwait tx msg rest =>
      cases (lifecycle h).ownTx x tx msg rest hx
      obtain ⟨w₁, hfrom₁, hx₁, hw₁⟩ := send_reach hx hw
      obtain ⟨w₂, hfrom₂, hx₂⟩ := sends_reach rest (answering_run h hfrom₁) hx₁ hw₁
      exact ⟨w₂, hfrom₁.trans hfrom₂, hx₂⟩
    | _ => exact (hp.elim (fun hp => hp rfl) fun hp => hp rfl).elim
  | _ =>
    rw [hx] at hp
    exact (hp.elim (fun hp => hp rfl) fun hp => hp rfl).elim

/-! A registration that is held up. -/

/-- The handler of `x` comes to the section that needs `services`, and that of `y` keeps the guard and
waits for room on its own channel. -/
structure HeldUp (s : Broker) (x y : ClientId) : Prop where
  registering : ∃ o,
    s.phase x = .handling (.registerObjects o) ∨ s.phase x = .handling (.registerServices o)
  kept : s.servicesLock = some y
  full : channelCapacity ≤ (s.channel y).length

theorem HeldUp.unanswered (h : HeldUp s x y) : (s.phase x).unanswered.length = 1 := by
  obtain ⟨o, hx | hx⟩ := h.registering <;>
    · rw [hx]
      rfl

theorem HeldUp.ne (h : HeldUp s x y) (hK : Keeps s) : x ≠ y := by
  rintro rfl
  have hrep := hK x h.kept
  obtain ⟨o, hx | hx⟩ := h.registering <;>
    · rw [hx] at hrep
      cases hrep

theorem HeldUp.handler (h : HeldUp s x y) (ht : Transition s (.handler x) s' es) : HeldUp s' x y := by
  obtain ⟨o, hx | hx⟩ := h.registering
  · obtain ⟨rfl, -⟩ := Prod.mk.inj (Option.some.inj (ht.ran hx))
    exact ⟨⟨o, .inr (update_self ..)⟩, h.kept, h.full⟩
  · have hran : handleRegisterObject.services s x o = some (s', es) := ht.ran hx
    have hlocked : s.servicesLock ≠ none := h.kept ▸ Option.some_ne_none y
    rw [handleRegisterObject.services, if_neg hlocked] at hran
    cases hran

theorem HeldUp.keeper (h : HeldUp s x y) (hL : Lifecycle s) (hK : Keeps s)
    (ht : Transition s (.handler y) s' es) : HeldUp s' x y := by
  have hxy := h.ne hK
  have hrep := hK y h.kept
  unfold replying at hrep
  split at hrep
  · next msg hy =>
    have hclients : s.clients y = some ⟨y⟩ := by
      rw [hL.clients y, hy]
      rfl
    have hran : some (sendToClient s y msg []) = some (s', es) := ht.ran hy
    rw [sendToClient, hclients] at hran
    obtain ⟨rfl, -⟩ := Prod.mk.inj (Option.some.inj hran)
    refine ⟨?_, h.kept, h.full⟩
    simp only [goto_phase, update_of_ne hxy]
    exact h.registering
  · next tx msg hy =>
    cases hL.ownTx y tx msg [] hy
    have hran : s.send y .sendToClient ⟨y⟩ msg .reading = some (s', es) := ht.ran hy
    simp only [send, hy, if_neg (Nat.not_lt.mpr h.full)] at hran
    cases hran
  · cases hrep

theorem HeldUp.writer (h : HeldUp s x y) (hK : Keeps s) (ht : Transition s (.write x) s' es) :
    HeldUp s' x y := by
  have hxy := h.ne hK
  cases ht with
  | write hw hch =>
    refine ⟨h.registering, h.kept, ?_⟩
    simp only [update_of_ne hxy.symm]
    exact h.full

theorem HeldUp.stays (hH : HeldUp w.state x y) (h : broker.Run w)
    (hfrom : broker.From (answering x) w w') : HeldUp w'.state x y := by
  induction hfrom with
  | here => exact hH
  | @step w₁ w₂ a hfrom ha hn ih =>
    have hr := answering_run h hfrom
    obtain ⟨es, ht, -⟩ := next_transition hn
    obtain rfl | rfl | ⟨z, hl, rfl⟩ := ha
    · exact ih.handler ht
    · exact ih.writer (keeps_run hr) ht
    · cases hl.symm.trans ih.kept
      exact ih.keeper (lifecycle hr) (keeps_run hr) ht

/-! The replies and the requests. -/

theorem idle_phase (h : s.idle x) : (s.phase x).unanswered = [] ∧ (s.phase x).replies = [] := by
  unfold idle at h
  cases hp : s.phase x with
  | handling pc => exact absurd hp (h pc)
  | _ => exact ⟨rfl, rfl⟩

theorem answerable_match (h : broker.Run w) (x : ClientId) :
    ∃ answered late, answerable (requestsOf w.trace x) = answered ++ late ∧
      List.Forall₂ Matches answered (repliesTo w.trace x) ∧ late.length ≤ 1 ∧
        ((w.state.phase x).unanswered = [] ∧ (w.state.phase x).replies = [] → late = []) := by
  obtain ⟨u, hu, rfl⟩ := System.RunWhere.exists_recorded h
  obtain ⟨⟨answered, hrequests, hmatch⟩, hone⟩ := repliesMade hu x
  have hlen := hmatch.length_eq
  rw [List.length_append] at hlen
  refine ⟨answered.take (repliesTo u.events.trace x).length,
    answered.drop (repliesTo u.events.trace x).length ++ (u.state.phase x).unanswered, ?_,
    List.forall₂_take_append _ _ _ hmatch, ?_, fun hquiet => ?_⟩
  · rw [← List.append_assoc, List.take_append_drop, hrequests]
  · rw [List.length_append, List.length_drop]
    omega
  · have hquiet' : (u.state.phase x).unanswered = [] ∧ (u.state.phase x).replies = [] := hquiet
    obtain ⟨hunanswered, hreplies⟩ := hquiet'
    rw [hreplies, List.length_nil] at hlen
    rw [hunanswered, List.append_nil, List.drop_eq_nil_iff]
    omega

theorem replies_le (h : broker.Run w) (x : ClientId) :
    (repliesTo w.trace x).length + (w.state.phase x).unanswered.length ≤
      (answerable (requestsOf w.trace x)).length := by
  obtain ⟨u, hu, rfl⟩ := System.RunWhere.exists_recorded h
  obtain ⟨⟨answered, hrequests, hmatch⟩, -⟩ := repliesMade hu x
  have hlen := hmatch.length_eq
  rw [List.length_append] at hlen
  rw [hrequests, List.length_append, hlen]
  exact Nat.add_le_add_right (Nat.le_add_right _ _) _

theorem answerable_eq {rs : List RpcRequest} (h : ∀ r ∈ rs, r.registersService = false) :
    answerable rs = rs :=
  List.filter_eq_self.mpr fun r hr => by rw [h r hr]; rfl

theorem none_registers {rs : List RpcRequest} (h : rs.length ≤ (answerable rs).length) :
    ∀ r ∈ rs, r.registersService = false := by
  intro r hr
  have hlen := Nat.le_antisymm (List.length_filter_le _ _) h
  have hkept := List.length_filter_eq_length_iff.mp hlen r hr
  simpa using hkept

theorem replies_match (h : broker.Run w)
    (hnone : ∀ r ∈ requestsOf w.trace x, r.registersService = false)
    (hcan : CanAnswer w.state x) : RepliesMatch w x := by
  obtain ⟨answered, late, hrequests, hmatch, hlate, hquiet⟩ := answerable_match h x
  rw [answerable_eq hnone] at hrequests
  refine ⟨⟨answered, late, hrequests, hmatch, hlate, fun hi => hquiet (idle_phase hi)⟩,
    fun hi i r hr _ => ?_, fun hw => ?_⟩
  · rw [hrequests, hquiet (idle_phase hi), List.append_nil] at hr
    obtain ⟨hlt, rfl⟩ := List.getElem?_eq_some_iff.mp hr
    have hlt' := hmatch.length_eq ▸ hlt
    exact ⟨_, List.getElem?_eq_getElem hlt', hmatch.get hlt hlt'⟩
  · by_cases hp : (w.state.phase x).unanswered = [] ∧ (w.state.phase x).replies = []
    · rw [hrequests, hquiet hp, List.append_nil]
      exact ⟨w, .here, hmatch⟩
    · -- the handler can come to its end, and then nothing is missing
      obtain ⟨w', hfrom, hx⟩ := reply_reached h hw hcan (not_and_or.mp hp)
      obtain ⟨answered', late', hrequests', hmatch', -, hquiet'⟩ :=
        answerable_match (answering_run h hfrom) x
      rw [hquiet' (by rw [hx]; exact ⟨rfl, rfl⟩), List.append_nil, answering_requests hfrom,
        answerable_eq hnone] at hrequests'
      exact ⟨w', hfrom, hrequests' ▸ hmatch'⟩

/-- The replies of the broker match the requests of a client, and come, as long as no service
registration is among these and no registration waits for `services` behind a handler without room;
and no longer, once its handler is through, or as long as its writer loop runs. -/
theorem replies_match_iff (h : broker.Run w) (x : ClientId) :
    ((∀ r ∈ requestsOf w.trace x, r.registersService = false) ∧ CanAnswer w.state x →
        RepliesMatch w x) ∧
      (w.state.idle x ∨ w.state.writing x = true → (RepliesMatch w x ↔
        (∀ r ∈ requestsOf w.trace x, r.registersService = false) ∧ CanAnswer w.state x)) := by
  have hall : (∀ r ∈ requestsOf w.trace x, r.registersService = false) ∧ CanAnswer w.state x →
      RepliesMatch w x := fun hc => replies_match h hc.1 hc.2
  refine ⟨hall, fun hlive => ⟨fun hm => ?_, hall⟩⟩
  obtain hi | hw := hlive
  · refine ⟨none_registers ?_, fun o y hx => ?_⟩
    · obtain ⟨answered, late, hrequests, hmatch, -, hidle⟩ := hm.inOrder
      rw [hidle hi, List.append_nil] at hrequests
      have hle := replies_le h x
      rw [← hmatch.length_eq, ← hrequests] at hle
      exact (Nat.le_add_right _ _).trans hle
    · obtain hx | hx := hx <;> exact absurd hx (hi _)
  · obtain ⟨w', hfrom, hmatch⟩ := hm.comes hw
    have hle := replies_le (answering_run h hfrom) x
    rw [← hmatch.length_eq, answering_requests hfrom] at hle
    refine ⟨none_registers ((Nat.le_add_right _ _).trans hle), fun o y hx hl => ?_⟩
    by_contra hfull
    have hheld : HeldUp w'.state x y := HeldUp.stays ⟨⟨o, hx⟩, hl, Nat.not_lt.mp hfull⟩ h hfrom
    rw [hheld.unanswered] at hle
    have hfilter : (answerable (requestsOf w.trace x)).length ≤ (requestsOf w.trace x).length :=
      List.length_filter_le _ _
    omega

def registersAndAsks : List Action :=
  [.connect callerC, .connect workerA] ++ request callerC (.call (callOf "1" "o")) 4 ++
    request workerA (.registerObject "o") 6 ++ request workerA (.subscribe "o" "t") 3 ++
    request workerA (.hasObject "o") 3

theorem replies_match_iff_registersAndAsks :
    ∃ w, broker.exec (fun _ _ => True) ⟨Broker.initial (activationOf "o"), []⟩ registersAndAsks =
        some w ∧ (requestsOf w.trace workerA).length = 3 ∧
      (repliesTo w.trace workerA).length = 3 ∧ RepliesMatch w workerA := by
  obtain ⟨w, hr, he, ht⟩ := System.RunWhere.of_exec_any broker (fun _ _ => True) registersAndAsks
    (fun w => (requestsOf w.trace workerA).length = 3 && (repliesTo w.trace workerA).length = 3 &&
      ((requestsOf w.trace workerA).all fun r => !r.registersService) && w.state.servicesLock = none)
    ⟨activationOf "o", rfl⟩ (by decide)
  simp only [Bool.and_eq_true, decide_eq_true_eq, List.all_eq_true, Bool.not_eq_true'] at ht
  obtain ⟨⟨⟨hrequests, hreplies⟩, hnone⟩, hlock⟩ := ht
  have hcan : CanAnswer w.state workerA := fun o y _ hl => by
    rw [hlock] at hl
    cases hl
  exact ⟨w, he, hrequests, hreplies, (replies_match_iff hr workerA).1 ⟨hnone, hcan⟩⟩

/-- A service registration is handled without a reply, which the client that sends it waits for. -/
theorem service_registration_unanswered :
    ∃ w, broker.Run w ∧ w.state.idle callerC ∧
      requestsOf w.trace callerC = [.registerService "o" "o.service"] ∧
      IpcClient.expectsResponse (.registerService "o" "o.service") = true ∧
      repliesTo w.trace callerC = [] ∧ ¬ RepliesMatch w callerC := by
  have hstart : broker.Run ⟨Broker.initial [], []⟩ := .start ⟨[], rfl⟩
  have hconnect := hstart.step (a := .connect callerC) trivial rfl
  have hread := hconnect.step
    (a := .receive callerC (some (.request (.registerService "o" "o.service")))) trivial rfl
  have hhandled := hread.step (a := .handler callerC) trivial rfl
  have hidle : ∀ pc, Phase.reading ≠ .handling pc := fun pc h => by cases h
  refine ⟨_, hhandled, hidle, rfl, rfl, rfl, fun hm => ?_⟩
  obtain ⟨resp, hresp, -⟩ := hm.awaited hidle 0 _ rfl rfl
  cases hresp

end Broker
end IpcBroker
