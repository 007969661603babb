import Mathlib.Data.List.Nodup
import IpcBroker.Client.EventDelivery
import IpcBroker.Client.RequestOrder

/-! What a receiver is sent is part of the events of its topic that the actor reads, in their order
and none twice, whatever becomes of the packets that are read for responses. -/

namespace IpcBroker.IpcClient
open Function Foundation

structure Registration where
  objectName : String
  topic : String
  updates : Nat

def ClientMsg.registration? : ClientMsg → Option Registration
  | .subscribe o topic c => some ⟨o, topic, c⟩
  | .request _ _ => none

def Event.registration? : Event → Option Registration
  | .registered o topic c => some ⟨o, topic, c⟩
  | _ => none

def Registration.for? (o topic : String) (reg : Registration) : Option Nat :=
  if reg.objectName = o ∧ reg.topic = topic then some reg.updates else none

def registrations (tr : List Event) : List Registration := chronicle Event.registration? tr

structure RegistrationInv (s : IpcClient) (tr : List Event) : Prop where
  asked : (registrations tr ++ s.mailbox.filterMap ClientMsg.registration?).Sublist
    ((issuedMsgs tr).filterMap ClientMsg.registration?)
  subs : ∀ o topic, (s.subs o topic).Sublist
    ((registrations tr).filterMap (Registration.for? o topic))

variable {json : SerdeJson} {s s' : IpcClient} {a : Action} {es tr : List Event} {o topic : String}
  {c : Nat} {data : List UInt8} {w w' : World IpcClient Event}

theorem registrations_append : registrations (es ++ tr) = registrations tr ++ registrations es :=
  chronicle_append

theorem mem_registrations {reg : Registration} :
    reg ∈ registrations tr ↔ .registered reg.objectName reg.topic reg.updates ∈ tr := by
  rw [registrations, chronicle, List.mem_reverse, List.mem_filterMap]
  constructor
  · rintro ⟨e, he, hreg⟩
    unfold Event.registration? at hreg
    split at hreg <;> cases hreg
    exact he
  · exact fun he => ⟨_, he, rfl⟩

/-! One step. -/

theorem RegistrationInv.kept (h : RegistrationInv s tr) (hes : registrations es = [])
    (hmailbox : (s'.mailbox.filterMap ClientMsg.registration?).Sublist
      (s.mailbox.filterMap ClientMsg.registration? ++
        (issuedMsgs es).filterMap ClientMsg.registration?))
    (hsubs : ∀ o topic, (s'.subs o topic).Sublist (s.subs o topic)) :
    RegistrationInv s' (es ++ tr) := by
  have hall : registrations (es ++ tr) = registrations tr := by
    rw [registrations_append, hes, List.append_nil]
  refine ⟨?_, fun o topic => hall ▸ (hsubs o topic).trans (h.subs o topic)⟩
  rw [hall, issuedMsgs_append, List.filterMap_append]
  have hmore := (List.Sublist.refl (registrations tr)).append hmailbox
  rw [← List.append_assoc] at hmore
  exact hmore.trans (h.asked.append (List.Sublist.refl _))

theorem exit_registrations : registrations s.exit.2 = [] :=
  chronicle_none fun e he => by
    obtain ⟨req, respTx, rfl⟩ := exit_event he
    rfl

theorem publishTo_subs (s : IpcClient) (o topic : String) (args : Value) (o' topic' : String) :
    ((s.publishTo o topic args).1.subs o' topic').Sublist (s.subs o' topic') := by
  simp only [publishTo]
  by_cases ho : o' = o
  · subst ho
    rw [update_self]
    by_cases ht : topic' = topic
    · subst ht
      rw [update_self]
      exact List.filter_sublist
    · rw [update_of_ne ht]
  · rw [update_of_ne ho]

theorem RegistrationInv.step (h : RegistrationInv s tr) (ht : Transition json s a s' es) :
    RegistrationInv s' (es ++ tr) := by
  cases ht with
  | @issue op =>
    refine h.kept rfl ?_ fun _ _ => List.Sublist.refl _
    rw [List.filterMap_append]
    exact List.Sublist.refl _
  | issueEnded =>
    refine h.kept (chronicle_none fun e he => ?_) (List.sublist_append_left _ _) fun _ _ =>
      List.Sublist.refl _
    obtain ⟨req, respTx, rfl⟩ := abandon_event (Option.mem_toList.mp he)
    rfl
  | requestFailed hp hm | requestAwaits hp hm | requestDone hp hm =>
    refine h.kept rfl ?_ fun _ _ => List.Sublist.refl _
    rw [hm]
    exact List.sublist_append_left _ _
  | @subscribe fault reading o topic c rest hp hm =>
    have hreg : registrations (subscribe json { s with mailbox := rest } o topic c fault).2 =
        [⟨o, topic, c⟩] := by
      simp only [subscribe]
      split <;> rfl
    refine ⟨?_, fun o' topic' => ?_⟩
    · have hasked := h.asked
      rw [hm] at hasked
      rw [registrations_append, hreg, issuedMsgs_append, (subscribe_answered _ _ _ _ _ _).2.1,
        List.append_nil, List.append_assoc]
      exact hasked
    · rw [registrations_append, hreg, List.filterMap_append]
      simp only [subscribe, select]
      by_cases ho : o' = o
      · subst ho
        rw [update_self]
        by_cases htopic : topic' = topic
        · subst htopic
          rw [update_self]
          refine (h.subs _ _).append ?_
          simp [Registration.for?]
        · rw [update_of_ne htopic]
          exact (h.subs _ _).trans (List.sublist_append_left _ _)
      · rw [update_of_ne ho]
        exact (h.subs _ _).trans (List.sublist_append_left _ _)
  | @pollPacket reading data rest hp hr =>
    unfold readArm
    split_ifs with hdata
    · refine h.kept ?_ (List.nil_sublist _) fun _ _ => List.nil_sublist _
      rw [registrations_append, exit_registrations]
      rfl
    · split
      · next o topic args hev =>
        refine h.kept (chronicle_none fun e he => ?_) (List.sublist_append_left _ _)
          fun o' topic' => publishTo_subs _ o topic args o' topic'
        obtain he | he := List.mem_append.mp he
        · obtain ⟨c, -, rfl⟩ := List.mem_map.mp (List.mem_reverse.mp he)
          split_ifs <;> rfl
        · rw [List.mem_singleton.mp he]
          rfl
      · exact h.kept rfl (List.sublist_append_left _ _) fun _ _ => List.Sublist.refl _
  | exit =>
    exact h.kept exit_registrations (List.nil_sublist _) fun _ _ => List.nil_sublist _
  | _ => exact h.kept rfl (List.sublist_append_left _ _) fun _ _ => List.Sublist.refl _

theorem handOut_sent {args : Value} {l : List Nat} (hl : l.Nodup) (c : Nat) :
    sentTo c (s.handOut args l) = [] ∨ c ∈ l ∧ sentTo c (s.handOut args l) = [args] := by
  by_cases hc : c ∈ l
  · cases hsend : s.trySend c with
    | true => exact .inr ⟨hc, sentTo_handOut (List.count_eq_one_of_mem hl hc) hsend⟩
    | false =>
      refine .inl (chronicle_none fun e he => ?_)
      obtain ⟨c', -, rfl⟩ := List.mem_map.mp (List.mem_reverse.mp he)
      split_ifs with hs
      · refine if_neg fun heq => ?_
        rw [heq, hsend] at hs
        cases hs
      · rfl
  · exact .inl (sentTo_none (handOut_channel hc))

theorem Transition.sends (ht : Transition json s a s' es)
    (hnodup : ∀ o topic, (s.subs o topic).Nodup) (c : Nat) : sentTo c es = [] ∨
      ∃ o topic args, c ∈ s.subs o topic ∧ sentTo c es = [args] ∧
        eventsRead json o topic es = [args] := by
  cases ht with
  | issueEnded =>
    refine .inl (chronicle_none fun e he => ?_)
    obtain ⟨req, respTx, rfl⟩ := abandon_event (Option.mem_toList.mp he)
    rfl
  | subscribe =>
    refine .inl (chronicle_none fun e he => ?_)
    obtain rfl | rfl := subscribe_event he <;> rfl
  | exit => exact .inl (sentTo_none fun e he => by simp [exit_channel e he])
  | @pollPacket reading data rest hp hr =>
    unfold readArm
    split_ifs with hdata
    · left
      have hexit : sentTo c { s with arrived := rest }.exit.2 = [] :=
        sentTo_none fun e he => by simp [exit_channel e he]
      rw [sentTo_append, hexit]
      rfl
    · split
      · next o topic args hev =>
        obtain hnone | ⟨hc, hone⟩ :=
          @handOut_sent { s with arrived := rest } args _ (hnodup o topic) c
        · left
          rw [sentTo_append]
          exact hnone
        · refine .inr ⟨o, topic, args, hc, ?_, ?_⟩
          · rw [sentTo_append]
            exact hone
          · exact (eventsRead_handOut hdata hev o topic).trans (if_pos ⟨rfl, rfl⟩)
      · exact .inl rfl
  | _ => exact .inl rfl

section Runs
variable {ok : World IpcClient Event → Action → Prop}

theorem registrationInv (h : (client json).RunWhere ok w) : RegistrationInv w.state w.trace := by
  refine h.invariant (I := fun w => RegistrationInv w.state w.trace) ?_ ?_
  · rintro _ rfl
    exact ⟨List.nil_sublist _, fun _ _ => List.nil_sublist _⟩
  · intro w a w' _ hI _ hn
    obtain ⟨es, ht, htr⟩ := next_transition hn
    exact htr ▸ hI.step ht

theorem registered_channels (msgs : List ClientMsg) :
    ((msgs.filterMap ClientMsg.registration?).map Registration.updates).Sublist
      (msgs.map ClientMsg.channel) := by
  induction msgs with
  | nil => exact List.Sublist.refl _
  | cons msg msgs ih =>
    cases msg with
    | request req respTx => exact ih.cons _
    | subscribe o topic updates => exact ih.cons_cons _

theorem registrations_nodup (h : (client json).RunWhere ok w) :
    ((registrations w.trace).map Registration.updates).Nodup := by
  have hsub := ((List.sublist_append_left _ _).trans (registrationInv h).asked).map
    Registration.updates
  exact (issued_channels h).1.sublist (hsub.trans (registered_channels _))

theorem registration_eq (h : (client json).RunWhere ok w) {reg reg' : Registration}
    (hreg : reg ∈ registrations w.trace) (hreg' : reg' ∈ registrations w.trace)
    (hupdates : reg.updates = reg'.updates) : reg = reg' :=
  List.inj_on_of_nodup_map (registrations_nodup h) hreg hreg' hupdates

theorem subs_registered (h : (client json).RunWhere ok w) (hc : c ∈ w.state.subs o topic) :
    ⟨o, topic, c⟩ ∈ registrations w.trace := by
  obtain ⟨reg, hreg, hfor⟩ := List.mem_filterMap.mp (((registrationInv h).subs o topic).subset hc)
  unfold Registration.for? at hfor
  split_ifs at hfor with htopic
  obtain ⟨rfl, rfl⟩ := htopic
  cases hfor
  exact hreg

theorem subs_nodup (h : (client json).RunWhere ok w) (o topic : String) :
    (w.state.subs o topic).Nodup := by
  refine ((registrations_nodup h).sublist ?_).sublist ((registrationInv h).subs o topic)
  have hall : ∀ regs : List Registration, (regs.filterMap (Registration.for? o topic)).Sublist
      (regs.map Registration.updates) := by
    intro regs
    induction regs with
    | nil => exact List.Sublist.refl _
    | cons reg regs ih =>
      by_cases htopic : reg.objectName = o ∧ reg.topic = topic
      · have hfor : reg.for? o topic = some reg.updates := if_pos htopic
        rw [List.filterMap_cons_some hfor]
        exact ih.cons_cons _
      · have hfor : reg.for? o topic = none := if_neg htopic
        rw [List.filterMap_cons_none hfor]
        exact ih.cons _
  exact hall _

theorem sent_sublist (h : (client json).RunWhere ok w) {reg : Registration}
    (hreg : reg ∈ registrations w.trace) :
    (sentTo reg.updates w.trace).Sublist (eventsRead json reg.objectName reg.topic w.trace) := by
  have hsent : ∀ c, sentTo c w.trace = [] ∨ ∃ o topic, ⟨o, topic, c⟩ ∈ registrations w.trace ∧
      (sentTo c w.trace).Sublist (eventsRead json o topic w.trace) := by
    refine h.invariant (I := fun w => ∀ c, sentTo c w.trace = [] ∨ ∃ o topic,
      ⟨o, topic, c⟩ ∈ registrations w.trace ∧
        (sentTo c w.trace).Sublist (eventsRead json o topic w.trace)) ?_ ?_
    · rintro _ rfl c
      exact .inl rfl
    · intro w a w' hr hI _ hn c
      obtain ⟨es, ht, htr⟩ := next_transition hn
      have hkeep : ∀ {reg}, reg ∈ registrations w.trace → reg ∈ registrations w'.trace := by
        intro reg hreg
        rw [htr, registrations_append]
        exact List.mem_append_left _ hreg
      obtain hnone | ⟨o, topic, args, hc, hone, hread⟩ := ht.sends (subs_nodup hr) c
      · obtain hempty | ⟨o, topic, hreg, hsub⟩ := hI c
        · left
          rw [htr, sentTo_append, hempty, hnone]
          rfl
        · refine .inr ⟨o, topic, hkeep hreg, ?_⟩
          rw [htr, sentTo_append, hnone, List.append_nil, eventsRead_append]
          exact hsub.trans (List.sublist_append_left _ _)
      · have hreg := subs_registered hr hc
        refine .inr ⟨o, topic, hkeep hreg, ?_⟩
        rw [htr, sentTo_append, hone, eventsRead_append, hread]
        refine List.Sublist.append ?_ (List.Sublist.refl _)
        obtain hempty | ⟨o', topic', hreg', hsub⟩ := hI c
        · rw [hempty]
          exact List.nil_sublist _
        · cases registration_eq hr hreg hreg' rfl
          exact hsub
  obtain hempty | ⟨o, topic, hreg', hsub⟩ := hsent reg.updates
  · rw [hempty]
    exact List.nil_sublist _
  · have hsame := registration_eq h hreg hreg' rfl
    rw [congrArg Registration.objectName hsame, congrArg Registration.topic hsame]
    exact hsub

end Runs
end IpcBroker.IpcClient
