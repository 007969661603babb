import Mathlib.Data.List.Nodup
import IpcBroker.Broker.LockSections

/-! The mutexes of the broker cannot deadlock: every activity locks them in one order. -/

namespace IpcBroker
open Function Foundation

namespace LockedBroker

def locks (s : LockedBroker) : Activity → List Mutex
  | .connection x => (s.shared.phase x).locks
  | .listObjects _ => [.objects]

def kept (s : LockedBroker) : Activity → List Mutex
  | .connection x => s.shared.kept x
  | .listObjects _ => []

/-- An activity holds the guards it has still to drop, those it has taken for its next section,
and the one it keeps. -/
structure Holding (s : LockedBroker) (i : Activity) : Prop where
  todo : s.todo i <:+ s.locks i
  dropping : s.drop i ≠ [] → s.todo i = s.locks i
  held : ∀ m, s.owner m = some i ↔
    m ∈ s.drop i ∨ (m ∈ s.locks i ∧ m ∉ s.todo i) ∨ m ∈ s.kept i
  nodup : (s.drop i).Nodup
  disjoint : ∀ m ∈ s.drop i, m ∉ s.kept i

structure Guarded (s : LockedBroker) : Prop where
  keeps : s.shared.Keeps
  holding : ∀ i, s.Holding i

variable {s s' : LockedBroker} {i j : Activity} {m : Mutex} {x : ClientId} {es : List Event}

theorem locks_cases (p : Phase) :
    p.locks = [] ∨ (∃ m, p.locks = [m]) ∨ p.locks = [.clients, .objects] := by
  cases p with
  | handling pc => cases pc <;> simp [Phase.locks, HandlerPc.locks]
  | cleaning pc => cases pc <;> simp [Phase.locks, CleanupPc.locks]
  | _ => simp [Phase.locks]

theorem locks_nodup (p : Phase) : p.locks.Nodup := by
  obtain h | ⟨m, h⟩ | h := locks_cases p
  · rw [h]
    exact List.nodup_nil
  · rw [h]
    exact List.nodup_singleton m
  · rw [h]
    decide

theorem kept_locks {b : Broker} (hK : b.Keeps) (hm : m ∈ b.kept x) :
    m = .services ∧ ∀ m' ∈ (b.phase x).locks, m' = .clients := by
  unfold Broker.kept at hm
  split_ifs at hm with hl
  · refine ⟨List.mem_singleton.mp hm, ?_⟩
    have hr := hK x hl
    unfold Broker.replying at hr
    split at hr
    · next hp =>
      rw [hp]
      exact fun m' hm' => List.mem_singleton.mp hm'
    · next hp =>
      rw [hp]
      nofun
    · cases hr
  · cases hm

theorem kept_not_locks (hK : s.shared.Keeps) (hm : m ∈ s.kept i) : m ∉ s.locks i := by
  cases i with
  | connection x =>
    obtain ⟨rfl, hlocks⟩ := kept_locks hK hm
    exact fun hm' => absurd (hlocks _ hm') nofun
  | listObjects n => cases hm

theorem locks_all_nodup (s : LockedBroker) (i : Activity) : (s.locks i).Nodup := by
  cases i with
  | connection x => exact locks_nodup _
  | listObjects n => exact List.nodup_singleton _

theorem Holding.congr (h : s.Holding i) (htodo : s'.todo i = s.todo i) (hdrop : s'.drop i = s.drop i)
    (hlocks : s'.locks i = s.locks i) (hkept : s'.kept i = s.kept i)
    (howner : ∀ m, s'.owner m = some i ↔ s.owner m = some i) : s'.Holding i := by
  refine ⟨?_, ?_, fun m => ?_, ?_, ?_⟩
  · rw [htodo, hlocks]
    exact h.todo
  · rw [hdrop, htodo, hlocks]
    exact h.dropping
  · rw [howner, h.held, hdrop, htodo, hlocks, hkept]
  · rw [hdrop]
    exact h.nodup
  · rw [hdrop, hkept]
    exact h.disjoint

theorem guarded_lock (h : s.Guarded) {rest : List Mutex} (hd : s.drop i = [])
    (ht : s.todo i = m :: rest) (ho : s.owner m = none) :
    Guarded { s with owner := update s.owner m (some i), todo := update s.todo i rest } := by
  refine ⟨h.keeps, fun j => ?_⟩
  have hj := h.holding j
  by_cases hji : j = i
  · subst hji
    have hsuffix := hj.todo
    rw [ht] at hsuffix
    have hmem : m ∈ s.locks j := hsuffix.subset List.mem_cons_self
    have hnot : m ∉ rest :=
      (List.nodup_cons.mp ((locks_all_nodup s j).sublist hsuffix.sublist)).1
    refine ⟨?_, fun hne => absurd hd hne, fun m' => ?_, hj.nodup, hj.disjoint⟩
    · simp only [update_self]
      exact (List.suffix_cons m rest).trans hsuffix
    · simp only [update_self]
      by_cases hm : m' = m
      · subst hm
        simp only [update_self, true_iff]
        exact .inr (.inl ⟨hmem, hnot⟩)
      · have hheld := hj.held m'
        rw [ht, List.mem_cons, not_or] at hheld
        rw [update_of_ne hm, hheld]
        simp only [hm, not_false_eq_true, true_and]
        rfl
  · refine hj.congr (update_of_ne hji ..) rfl rfl rfl fun m' => ?_
    by_cases hm : m' = m
    · subst hm
      simp only [update_self, Option.some.injEq, ho]
      exact iff_of_false (Ne.symm hji) nofun
    · simp only [update_of_ne hm]

theorem guarded_unlock (h : s.Guarded) {rest : List Mutex} (hd : s.drop i = m :: rest) :
    Guarded { s with owner := update s.owner m none, drop := update s.drop i rest } := by
  refine ⟨h.keeps, fun j => ?_⟩
  have hj := h.holding j
  have hi := h.holding i
  have howner : s.owner m = some i := (hi.held m).mpr (.inl (hd ▸ List.mem_cons_self))
  by_cases hji : j = i
  · subst hji
    have hfull : s.todo j = s.locks j := hj.dropping (hd ▸ List.cons_ne_nil m rest)
    obtain ⟨hnot, hnodup⟩ := List.nodup_cons.mp (hd ▸ hj.nodup)
    have hdisjoint : ∀ m' ∈ rest, m' ∉ s.kept j := fun m' hm' =>
      hj.disjoint m' (hd ▸ List.mem_cons_of_mem _ hm')
    have hkept : m ∉ s.kept j := hj.disjoint m (hd ▸ List.mem_cons_self)
    refine ⟨hj.todo, fun _ => hfull, fun m' => ?_, ?_, ?_⟩
    · simp only [update_self]
      by_cases hm : m' = m
      · subst hm
        simp only [update_self, hnot, false_or]
        refine iff_of_false nofun ?_
        rintro (⟨hin, hout⟩ | hk)
        · exact hout (hfull ▸ hin)
        · exact hkept hk
      · have hheld := hj.held m'
        rw [hd, List.mem_cons, or_iff_right hm] at hheld
        rw [update_of_ne hm, hheld]
        rfl
    · simp only [update_self]
      exact hnodup
    · simp only [update_self]
      exact hdisjoint
  · refine hj.congr rfl (update_of_ne hji ..) rfl rfl fun m' => ?_
    by_cases hm : m' = m
    · subst hm
      simp only [update_self, howner, Option.some.injEq]
      exact iff_of_false nofun (Ne.symm hji)
    · simp only [update_of_ne hm]

theorem guarded_section {a : Action} {b : Broker} (h : s.Guarded) (ha : a.mover = some x)
    (hb : s.shared.step a = some (b, es)) (hd : s.drop (.connection x) = [])
    (ht : s.todo (.connection x) = []) : Guarded (s.afterSection x b) := by
  have hT := Broker.step_transition hb
  have hG := hT.guardStep h.keeps
  refine ⟨hG.keeps, fun j => ?_⟩
  have hj := h.holding j
  by_cases hjx : j = .connection x
  · subst hjx
    have hheld : ∀ m, s.owner m = some (.connection x) ↔
        m ∈ (s.shared.phase x).locks ∨ m ∈ s.shared.kept x := by
      intro m
      rw [hj.held, hd, ht]
      simp [locks, kept]
    -- what is kept after the section was held during it
    have hsub : ∀ m ∈ b.kept x, m ∈ (s.shared.phase x).locks ∨ m ∈ s.shared.kept x := by
      intro m hm
      have hm' := hm
      unfold Broker.kept at hm
      split_ifs at hm with hl
      · cases List.mem_singleton.mp hm
        cases hG with
        | kept hz hphase he hl₀ hl' =>
          cases hl'.symm.trans hl
          rw [hphase]
          exact .inl (List.mem_singleton_self _)
        | dropped hz hl₀ hl' => cases hl'.symm.trans hl
        | same hl₀ =>
          refine .inr ?_
          rw [Broker.kept, if_pos (hl₀ ▸ hl)]
          exact List.mem_singleton_self _
      · cases hm
    have hdrop : (s.afterSection x b).drop (.connection x) =
        ((s.shared.phase x).locks.reverse ++ s.shared.kept x).filter (· ∉ b.kept x) :=
      update_self ..
    have htodo : (s.afterSection x b).todo (.connection x) = (b.phase x).locks := update_self ..
    refine ⟨?_, fun _ => htodo, fun m => ?_, ?_, ?_⟩
    · rw [htodo]
      exact List.suffix_rfl
    · rw [hdrop, htodo]
      have howner : (s.afterSection x b).owner m = s.owner m := rfl
      rw [howner, hheld]
      simp only [List.mem_filter, List.mem_append, List.mem_reverse, decide_eq_true_eq, locks, kept,
        afterSection, and_not_self, false_or]
      constructor
      · intro hm
        by_cases hk : m ∈ b.kept x
        · exact .inr hk
        · exact .inl ⟨hm, hk⟩
      · rintro (⟨hm, -⟩ | hk)
        · exact hm
        · exact hsub m hk
    · rw [hdrop]
      refine (List.Nodup.append (List.nodup_reverse.mpr (locks_nodup _)) ?_ ?_).filter _
      · unfold Broker.kept
        split_ifs <;> simp
      · intro m hm hk
        have hnot : m ∉ s.locks (.connection x) := kept_not_locks h.keeps (i := .connection x) hk
        exact hnot (List.mem_reverse.mp hm)
    · rw [hdrop]
      exact fun m hm => of_decide_eq_true (List.mem_filter.mp hm).2
  · refine hj.congr (update_of_ne hjx ..) (update_of_ne hjx ..) ?_ ?_ fun m => .rfl
    · cases j with
      | connection y =>
        have hyx : a.mover ≠ some y := fun hy => hjx (by cases ha.symm.trans hy; rfl)
        have hphase : b.phase y = s.shared.phase y := by
          by_contra hne
          exact hyx (hT.mover hne)
        simp only [locks, afterSection, hphase]
      | listObjects n => rfl
    · cases j with
      | connection y =>
        have hyx : y ≠ x := fun hy => hjx (congrArg _ hy)
        have hlock : b.servicesLock = some y ↔ s.shared.servicesLock = some y := by
          cases hG with
          | @kept z k hz hphase he hl₀ hl' =>
            cases (congrArg Action.mover hz).symm.trans ha
            rw [hl', hl₀, Option.some.injEq]
            exact iff_of_false (Ne.symm hyx) nofun
          | @dropped z hz hl₀ hl' =>
            cases hz.symm.trans ha
            rw [hl', hl₀, Option.some.injEq]
            exact iff_of_false nofun (Ne.symm hyx)
          | same hl₀ => rw [hl₀]
        simp only [kept, afterSection, Broker.kept, hlock]
      | listObjects n => rfl

inductive Steps (s : LockedBroker) : LockAction → LockedBroker → List Event → Prop
  | lock {i m rest} (hd : s.drop i = []) (ht : s.todo i = m :: rest) (ho : s.owner m = none) :
      Steps s (.lock i)
        { s with owner := update s.owner m (some i), todo := update s.todo i rest } []
  | unlock {i m rest} (hd : s.drop i = m :: rest) :
      Steps s (.unlock i)
        { s with owner := update s.owner m none, drop := update s.drop i rest } []
  | section_ {a x b es} (ha : a.mover = some x) (hb : s.shared.step a = some (b, es))
      (hd : s.drop (.connection x) = []) (ht : s.todo (.connection x) = []) :
      Steps s (.run a) (s.afterSection x b) es
  | free {a b es} (ha : a.mover = none) (hb : s.shared.step a = some (b, es)) :
      Steps s (.run a) { s with shared := b } es
  | list {n} (hd : s.drop (.listObjects n) = []) (ht : s.todo (.listObjects n) = []) :
      Steps s (.list n) (s.listObjects n) []

theorem steps_of_step {l : LockAction} (h : s.step l = some (s', es)) : Steps s l s' es := by
  cases l with
  | lock i =>
    simp only [step] at h
    split at h
    · next m rest hd ht =>
      split_ifs at h with ho
      obtain ⟨rfl, rfl⟩ := Prod.mk.inj (Option.some.inj h)
      exact .lock hd ht ho
    · cases h
  | unlock i =>
    simp only [step] at h
    split at h
    · next m rest hd =>
      obtain ⟨rfl, rfl⟩ := Prod.mk.inj (Option.some.inj h)
      exact .unlock hd
    · cases h
  | run a =>
    simp only [step, run] at h
    split at h
    · next x ha =>
      split_ifs at h with hfree
      obtain ⟨⟨b, es⟩, hb, hpair⟩ := Option.map_eq_some_iff.mp h
      cases hpair
      exact .section_ ha hb hfree.1 hfree.2
    · next ha =>
      obtain ⟨⟨b, es⟩, hb, hpair⟩ := Option.map_eq_some_iff.mp h
      cases hpair
      exact .free ha hb
  | list n =>
    simp only [step] at h
    split_ifs at h with hfree
    obtain ⟨rfl, rfl⟩ := Prod.mk.inj (Option.some.inj h)
    exact .list hfree.1 hfree.2

theorem guarded_free {a : Action} {b : Broker} (h : s.Guarded) (ha : a.mover = none)
    (hb : s.shared.step a = some (b, es)) : Guarded { s with shared := b } := by
  have hT := Broker.step_transition hb
  have hG := hT.guardStep h.keeps
  have hphase : b.phase = s.shared.phase := by
    funext y
    by_contra hne
    cases ha.symm.trans (hT.mover hne)
  have hlock : b.servicesLock = s.shared.servicesLock := by
    cases hG with
    | kept hz => cases (congrArg Action.mover hz).symm.trans ha
    | dropped hz => cases hz.symm.trans ha
    | same hl => exact hl
  refine ⟨hG.keeps, fun j => (h.holding j).congr rfl rfl ?_ ?_ fun m => .rfl⟩
  · cases j with
    | connection y => simp only [locks, hphase]
    | listObjects n => rfl
  · cases j with
    | connection y => simp only [kept, Broker.kept, hlock]
    | listObjects n => rfl

theorem guarded_list {n : Nat} (h : s.Guarded) (hd : s.drop (.listObjects n) = [])
    (ht : s.todo (.listObjects n) = []) : Guarded (s.listObjects n) := by
  refine ⟨h.keeps, fun j => ?_⟩
  have hj := h.holding j
  by_cases hjn : j = .listObjects n
  · subst hjn
    have hheld : ∀ m, s.owner m = some (.listObjects n) ↔ m = .objects := by
      intro m
      rw [hj.held, hd, ht]
      simp [locks, kept]
    have hdrop : (s.listObjects n).drop (.listObjects n) = [.objects] := update_self ..
    have htodo : (s.listObjects n).todo (.listObjects n) = [.objects] := update_self ..
    refine ⟨?_, fun _ => htodo, fun m => ?_, ?_, fun m _ => nofun⟩
    · rw [htodo]
      exact List.suffix_rfl
    · rw [hdrop, htodo]
      have howner : (s.listObjects n).owner m = s.owner m := rfl
      rw [howner, hheld]
      simp [locks, kept]
    · rw [hdrop]
      exact List.nodup_singleton _
  · refine hj.congr (update_of_ne hjn ..) (update_of_ne hjn ..) ?_ ?_ fun m => .rfl <;>
      cases j <;> rfl

theorem Guarded.next {l : LockAction} (h : s.Guarded) (hs : Steps s l s' es) : s'.Guarded := by
  cases hs with
  | lock hd ht ho => exact guarded_lock h hd ht ho
  | unlock hd => exact guarded_unlock h hd
  | section_ ha hb hd ht => exact guarded_section h ha hb hd ht
  | free ha hb => exact guarded_free h ha hb
  | list hd ht => exact guarded_list h hd ht

theorem guarded_initial (items : List ServiceActivationFile) :
    Guarded (LockedBroker.initial items) := by
  refine ⟨nofun, fun i => ?_⟩
  have htodo : (LockedBroker.initial items).todo i = (LockedBroker.initial items).locks i := by
    cases i <;> rfl
  refine ⟨htodo ▸ List.suffix_rfl, fun _ => htodo, fun m => ?_, List.nodup_nil, nofun⟩
  rw [htodo]
  have hkept : (LockedBroker.initial items).kept i = [] := by cases i <;> rfl
  rw [hkept]
  simp [LockedBroker.initial]

theorem guarded {ok : World LockedBroker Event → LockAction → Prop} {w : World LockedBroker Event}
    (h : lockedBroker.RunWhere ok w) : w.state.Guarded := by
  refine h.stateInvariant ?_ ?_
  · rintro _ ⟨items, rfl⟩
    exact guarded_initial items
  · intro s l s' es hI hs
    exact hI.next (steps_of_step hs)

theorem broker_run {ok : World LockedBroker Event → LockAction → Prop}
    {w : World LockedBroker Event} (h : lockedBroker.RunWhere ok w) :
    broker.Run ⟨w.state.shared, w.trace⟩ := by
  refine h.invariant (I := fun w => broker.Run ⟨w.state.shared, w.trace⟩) ?_ ?_
  · rintro _ ⟨items, rfl⟩
    exact .start ⟨items, rfl⟩
  · intro w l w' _ hI _ hn
    obtain ⟨es, hs, htr⟩ := System.next_eq_some.mp hn
    have hstep := steps_of_step hs
    generalize w'.state = s' at hstep ⊢
    rw [htr]
    cases hstep with
    | lock | unlock | list => exact hI
    | section_ ha hb | free ha hb =>
      exact .step hI trivial (System.next_eq_some.mpr ⟨_, hb, rfl⟩)

theorem taken_below {p : Phase} {todo : List Mutex} {m m' : Mutex} (hsuffix : todo <:+ p.locks)
    (hm : m ∈ todo) (hm' : m' ∈ p.locks) (hout : m' ∉ todo) : m' < m := by
  have hmem := hsuffix.subset hm
  obtain hl | ⟨m₁, hl⟩ | hl := locks_cases p
  · rw [hl] at hm'
    cases hm'
  · rw [hl, List.mem_singleton] at hm' hmem
    rw [hm', ← hmem] at hout
    exact absurd hm hout
  · rw [hl] at hm' hmem hsuffix
    simp only [List.mem_cons, List.not_mem_nil, or_false] at hm' hmem
    obtain rfl | rfl := hmem
    · -- nothing is taken before the first of the two
      obtain ⟨pre, hpre⟩ := hsuffix
      cases pre with
      | nil =>
        rw [List.nil_append] at hpre
        exact absurd (hpre ▸ List.mem_cons.mpr (hm'.imp_right List.mem_singleton.mpr)) hout
      | cons m₂ pre =>
        simp only [List.cons_append, List.cons.injEq] at hpre
        have hin : Mutex.clients ∈ [Mutex.objects] := hpre.2 ▸ List.mem_append_right _ hm
        cases List.mem_singleton.mp hin
    · obtain rfl | rfl := hm'
      · show Mutex.level .clients < Mutex.level .objects
        decide
      · exact absurd hm hout

theorem Guarded.ordered (h : s.Guarded) : s.table.Ordered := by
  intro i m m' hw ho
  have hi := h.holding i
  simp only [table] at hw ho
  split at hw
  · next hd =>
    obtain ⟨rest, ht⟩ := List.head?_eq_some_iff.mp hw
    have hin : m ∈ s.todo i := ht ▸ List.mem_cons_self
    rw [hi.held, hd] at ho
    cases i with
    | connection x =>
      obtain hm | ⟨hm, hout⟩ | hm := ho
      · cases hm
      · exact taken_below hi.todo hin hm hout
      · obtain ⟨rfl, hlocks⟩ := kept_locks h.keeps hm
        cases hlocks m (hi.todo.subset hin)
        show Mutex.level .services < Mutex.level .clients
        decide
    | listObjects n =>
      obtain hm | ⟨hm, hout⟩ | hm := ho
      · cases hm
      · cases List.mem_singleton.mp hm
        cases List.mem_singleton.mp (hi.todo.subset hin)
        exact absurd hin hout
      · cases hm
  · cases hw

/-- In no state is there a set of handlers, cleanups and calls of `ListObjects` each of which
waits for a mutex that another of them holds. -/
theorem mutexes_never_deadlock {ok : World LockedBroker Event → LockAction → Prop}
    {w : World LockedBroker Event} (h : lockedBroker.RunWhere ok w) (S : Set Activity) :
    ¬ w.state.table.Deadlock S :=
  (guarded h).ordered.no_deadlock S

def spawn (x : ClientId) : List LockAction :=
  [.lock (.connection x), .run (.connect x), .unlock (.connection x)]

def callWaits : List LockAction :=
  spawn Broker.workerA ++ spawn Broker.callerC ++
    [.run (.receive Broker.callerC (some (.request (.call (Broker.callOf "1" "o"))))),
      .run (.receive Broker.workerA (some (.request (.registerObject "o")))),
      .lock (.connection Broker.callerC), .lock (.connection Broker.workerA)]

theorem mutexes_never_deadlock_callWaits :
    ∃ w, lockedBroker.exec (fun _ _ => True) ⟨LockedBroker.initial [], []⟩ callWaits = some w ∧
      w.state.table.WaitsFor (.connection Broker.callerC) (.connection Broker.workerA) ∧
      ∀ S, ¬ w.state.table.Deadlock S := by
  obtain ⟨w, hr, he, ht⟩ := System.RunWhere.of_exec_any lockedBroker (fun _ _ => True) callWaits
    (fun w => w.state.table.wants (.connection Broker.callerC) = some .objects &&
      w.state.table.owner .objects = some (.connection Broker.workerA)) ⟨[], rfl⟩ (by decide)
  rw [Bool.and_eq_true, decide_eq_true_eq, decide_eq_true_eq] at ht
  exact ⟨w, he, ⟨_, ht.1, ht.2⟩, mutexes_never_deadlock hr⟩

end LockedBroker
end IpcBroker
