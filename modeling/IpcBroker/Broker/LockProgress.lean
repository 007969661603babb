import Mathlib.Logic.Relation
import IpcBroker.Broker.HandlerProgress
import IpcBroker.Broker.RefusalRoom

/-! Every mutex can be freed by the activities that hold it and those they wait for, while no
writer loop takes a message. -/

namespace IpcBroker
open Function Foundation Relation

def Action.section? : Action → Option ClientId
  | .connect x | .handler x | .snapshot x _ | .cleanup x => some x
  | _ => none

namespace LockedBroker

def works : LockAction → Bool
  | .lock _ | .unlock _ | .list _ | .run (.connect _) | .run (.handler _) | .run (.snapshot _ _)
  | .run (.cleanup _) | .run (.stopWriter _) => true
  | _ => false

/-- Running handlers and cleanups take steps in which refusals fit. -/
def Advances : LockedBroker → LockedBroker → Prop :=
  ReflTransGen fun s s' => ∃ l es, works l = true ∧ s.refusalFits l = true ∧ s.step l = some (s', es)

structure Untouched (i : Activity) (s s' : LockedBroker) : Prop where
  drop : s'.drop i = s.drop i
  todo : s'.todo i = s.todo i
  phase : ∀ x, i = .connection x → s'.shared.phase x = s.shared.phase x
  owner : ∀ m, s'.owner m = some i ↔ s.owner m = some i

variable {s s' s₁ s₂ : LockedBroker} {i j : Activity} {m : Mutex} {x y z : ClientId}
  {es : List Event} {l : LockAction} {k : Call}

theorem Untouched.refl (i : Activity) (s : LockedBroker) : Untouched i s s :=
  ⟨rfl, rfl, fun _ _ => rfl, fun _ => .rfl⟩

theorem Untouched.trans (h : Untouched i s s₁) (h' : Untouched i s₁ s₂) : Untouched i s s₂ where
  drop := h'.drop.trans h.drop
  todo := h'.todo.trans h.todo
  phase x hx := (h'.phase x hx).trans (h.phase x hx)
  owner m := (h'.owner m).trans (h.owner m)

theorem Untouched.locks (h : Untouched i s s') : s'.locks i = s.locks i := by
  cases i with
  | connection x => simp only [LockedBroker.locks, h.phase x rfl]
  | listObjects n => rfl

theorem Advances.single (hw : works l = true) (hfit : s.refusalFits l = true)
    (hs : s.step l = some (s', es)) : Advances s s' := ReflTransGen.single ⟨l, es, hw, hfit, hs⟩

theorem Advances.roomy (h : Advances s s') (hR : s.Roomy) : s'.Roomy := by
  induction h with
  | refl => exact hR
  | tail _ hstep ih =>
    obtain ⟨l, es, -, hfit, hs⟩ := hstep
    exact ih.step hfit hs

/-! One step of one activity. -/

theorem step_unlock {rest : List Mutex} (hd : s.drop i = m :: rest) :
    s.step (.unlock i) =
      some ({ s with owner := update s.owner m none, drop := update s.drop i rest }, []) := by
  simp only [step, hd]

theorem step_lock {rest : List Mutex} (hd : s.drop i = []) (ht : s.todo i = m :: rest)
    (ho : s.owner m = none) :
    s.step (.lock i) =
      some ({ s with owner := update s.owner m (some i), todo := update s.todo i rest }, []) := by
  simp only [step, hd, ht, ho, if_true]

theorem step_section {a : Action} {b : Broker} (ha : a.mover = some x)
    (hd : s.drop (.connection x) = []) (ht : s.todo (.connection x) = [])
    (hb : s.shared.step a = some (b, es)) : s.step (.run a) = some (s.afterSection x b, es) := by
  simp only [step, run, ha, hd, ht, hb, true_and, if_true, Option.map_some]

theorem drop_all (h : s.Guarded) (i : Activity) : ∃ s', Advances s s' ∧ s'.drop i = [] ∧
    s'.todo i = s.todo i ∧ s'.shared = s.shared ∧ (∀ j, j ≠ i → Untouched j s s') ∧
    (∀ m ∈ s.drop i, s'.owner m = none) ∧ ∀ m, m ∉ s.drop i → s'.owner m = s.owner m := by
  induction hd : s.drop i generalizing s with
  | nil =>
    exact ⟨s, .refl, hd, rfl, rfl, fun j _ => .refl j s, nofun, fun _ _ => rfl⟩
  | cons m rest ih =>
    have hstep := step_unlock hd
    have hown : s.owner m = some i := ((h.holding i).held m).mpr (.inl (hd ▸ List.mem_cons_self))
    obtain ⟨s', hadv, hd', ht', hsh, huntouched, hnone, hsame⟩ :=
      ih (s := { s with owner := update s.owner m none, drop := update s.drop i rest })
        (h.next (steps_of_step hstep)) (update_self ..)
    refine ⟨s', (Advances.single rfl rfl hstep).trans hadv, hd', ht', hsh, fun j hj => ?_,
      fun m' hm' => ?_, fun m' hm' => ?_⟩
    · have hj₁ : Untouched j s
          { s with owner := update s.owner m none, drop := update s.drop i rest } := by
        refine ⟨update_of_ne hj .., rfl, fun _ _ => rfl, fun m' => ?_⟩
        by_cases hm : m' = m
        · subst hm
          simp only [update_self, hown, Option.some.injEq]
          exact iff_of_false nofun (Ne.symm hj)
        · simp only [update_of_ne hm]
      exact hj₁.trans (huntouched j hj)
    · by_cases hin : m' ∈ rest
      · exact hnone m' hin
      · obtain rfl | hin' := List.mem_cons.mp hm'
        · exact (hsame m' hin).trans (update_self ..)
        · exact absurd hin' hin
    · rw [List.mem_cons, not_or] at hm'
      exact (hsame m' hm'.2).trans (update_of_ne hm'.1 ..)

/-- The mutex can come free while whoever holds nothing from it upwards stays where it is. -/
def Freeable (m : Mutex) : Prop := ∀ s : LockedBroker, s.Roomy →
  ∃ s', Advances s s' ∧ s'.owner m = none ∧
    ∀ i, (∀ m', m ≤ m' → s.owner m' ≠ some i) → Untouched i s s'

theorem Guarded.not_above (h : s.Guarded) {rest : List Mutex} (hd : s.drop i = [])
    (ht : s.todo i = m :: rest) : ∀ m', m ≤ m' → s.owner m' ≠ some i := by
  intro m' hle ho
  have hwants : s.table.wants i = some m := by simp only [table, hd, ht, List.head?_cons]
  exact absurd (h.ordered i m m' hwants ho) (not_lt_of_ge hle)

theorem take_all (h : s.Roomy) (hd : s.drop i = []) (hserv : .services ∉ s.todo i)
    (hfree : ∀ m ∈ s.todo i, Freeable m) : ∃ s', Advances s s' ∧ s'.drop i = [] ∧ s'.todo i = [] ∧
    (∀ x, i = .connection x → s'.shared.phase x = s.shared.phase x) ∧
    (∀ m, s.owner m = some i → s'.owner m = some i) ∧
    ∀ j, j ≠ i → (∀ m ∈ s.todo i, ∀ m', m ≤ m' → s.owner m' ≠ some j) → Untouched j s s' := by
  induction ht : s.todo i generalizing s with
  | nil => exact ⟨s, .refl, hd, ht, fun _ _ => rfl, fun _ ho => ho, fun j _ _ => .refl j s⟩
  | cons m rest ih =>
    rw [ht] at hserv hfree
    obtain ⟨s₁, hadv₁, hnone, hstay⟩ := hfree m List.mem_cons_self s h
    have hi := hstay i (h.guarded.not_above hd ht)
    have hstep := step_lock (hi.drop.trans hd) (hi.todo.trans ht) hnone
    have hfit : s₁.refusalFits (.lock i) = true := by
      cases i with
      | connection x =>
        have hm : m ≠ .services := by
          rintro rfl
          exact hserv List.mem_cons_self
        simp only [refusalFits, hi.todo.trans ht]
        split
        · next heq _ => exact absurd (List.cons.inj heq).1 hm
        · rfl
      | listObjects n => rfl
    have hR₂ := (hadv₁.roomy h).step hfit hstep
    obtain ⟨s', hadv, hd', ht', hphase, hown, hother⟩ :=
      ih hR₂ (hi.drop.trans hd)
        (by simpa only [update_self] using fun hin => hserv (List.mem_cons_of_mem _ hin))
        (by simpa only [update_self] using fun m' hm' => hfree m' (List.mem_cons_of_mem _ hm'))
        (update_self ..)
    refine ⟨s', (hadv₁.trans (Advances.single rfl hfit hstep)).trans hadv, hd', ht',
      fun x hx => (hphase x hx).trans (hi.phase x hx), fun m' ho => hown m' ?_, fun j hj hnot => ?_⟩
    · have ho₁ := (hi.owner m').mpr ho
      have hm : m' ≠ m := by
        rintro rfl
        cases hnone.symm.trans ho₁
      exact (update_of_ne hm ..).trans ho₁
    · have hj₁ := hstay j (hnot m List.mem_cons_self)
      have hj₂ : Untouched j s₁
          { s₁ with owner := update s₁.owner m (some i), todo := update s₁.todo i rest } := by
        refine ⟨rfl, update_of_ne hj .., fun _ _ => rfl, fun m' => ?_⟩
        by_cases hm : m' = m
        · subst hm
          simp only [update_self, hnone, Option.some.injEq]
          exact iff_of_false (Ne.symm hj) fun h => by cases h
        · simp only [update_of_ne hm]
      refine hj₁.trans (hj₂.trans (hother j hj ?_))
      intro m₁ hm₁ m' hle ho
      exact hnot m₁ (List.mem_cons_of_mem _ hm₁) m' hle
        ((hj₁.owner m').mp ((hj₂.owner m').mp ho))

/-! The section an activity has taken its locks for. -/

theorem mover_of_section {a : Action} (h : a.section? = some x) : a.mover = some x := by
  cases a <;> first | exact h | cases h

theorem works_of_section {a : Action} (h : a.section? = some x) : works (.run a) = true := by
  cases a <;> first | rfl | cases h

theorem section_advances (h : s.Roomy) {a : Action} {b : Broker} (hsec : a.section? = some x)
    (hfit : s.refusalFits (.run a) = true) (hd : s.drop (.connection x) = [])
    (ht : s.todo (.connection x) = []) (hb : s.shared.step a = some (b, es)) :
    Advances s (s.afterSection x b) ∧ (s.afterSection x b).Roomy ∧
      ∀ j, j ≠ .connection x → Untouched j s (s.afterSection x b) := by
  have ha := mover_of_section hsec
  have hstep := step_section ha hd ht hb
  refine ⟨Advances.single (works_of_section hsec) hfit hstep, h.step hfit hstep, fun j hj => ?_⟩
  refine ⟨update_of_ne hj .., update_of_ne hj .., fun y hy => ?_, fun _ => .rfl⟩
  subst hy
  by_contra hne
  exact hj (congrArg _ (Option.some.inj (ha.symm.trans ((Broker.step_transition hb).mover hne))).symm)

theorem servicesLock_section (h : s.Guarded) (hd : s.drop (.connection x) = [])
    (ht : s.todo (.connection x) = []) (hm : .services ∈ (s.shared.phase x).locks) :
    s.shared.servicesLock = none := by
  have ho : s.owner .services = some (.connection x) :=
    ((h.holding (.connection x)).owner_section hd ht).mpr (.inl hm)
  cases hl : s.shared.servicesLock with
  | none => rfl
  | some y =>
    cases ho.symm.trans (owner_services h hl)
    have hkept : Mutex.services ∈ s.kept (.connection x) := by
      simp only [kept, Broker.kept, if_pos hl]
      exact List.mem_singleton_self _
    exact absurd hm (kept_not_locks h.keeps hkept)

theorem section_runs (h : s.Guarded) {pc : HandlerPc} (hx : s.shared.phase x = .handling pc)
    (hd : s.drop (.connection x) = []) (ht : s.todo (.connection x) = [])
    (hs : pc.sends = none) : ∃ a b es, a.section? = some x ∧ s.refusalFits (.run a) = true ∧
      s.shared.step a = some (b, es) := by
  have hfree : .services ∈ pc.locks → s.shared.servicesLock = none := by
    intro hm
    refine servicesLock_section h hd ht ?_
    rw [hx]
    exact hm
  obtain ⟨a, b, es, rfl | ⟨subsList, rfl⟩, hb⟩ := Broker.section_enabled hx hs hfree
  · refine ⟨.handler x, b, es, rfl, ?_, hb⟩
    simp only [refusalFits, hx, hs, Option.all_none]
  · exact ⟨.snapshot x subsList, b, es, rfl, rfl, hb⟩

theorem dropped_after {b : Broker} (h : (s.afterSection x b).Guarded)
    (ho : s.owner m = some (.connection x)) (hk : m ∉ b.kept x) :
    m ∈ (s.afterSection x b).drop (.connection x) := by
  have htodo : (s.afterSection x b).todo (.connection x) = (b.phase x).locks := update_self ..
  obtain hm | ⟨hm, hout⟩ | hm := ((h.holding (.connection x)).held m).mp ho
  · exact hm
  · rw [htodo] at hout
    exact absurd hm hout
  · exact absurd hm hk

theorem not_kept {b : Broker} (hl : b.servicesLock ≠ some x) : m ∉ b.kept x := by
  rw [Broker.kept, if_neg hl]
  exact List.not_mem_nil

theorem free_dropping (h : s.Guarded) (hm : m ∈ s.drop i) :
    ∃ s', Advances s s' ∧ s'.owner m = none ∧ ∀ j, j ≠ i → Untouched j s s' := by
  obtain ⟨s', hadv, -, -, -, hj, hnone, -⟩ := drop_all h i
  exact ⟨s', hadv, hnone m hm, hj⟩

theorem free_sendAwait (h : s.Roomy) (hl : s.shared.servicesLock = some x) {tx : ClientSender}
    {msg : Packet} (hx : s.shared.phase x = .handling (.sendAwait tx msg [])) :
    ∃ s', Advances s s' ∧ s'.owner .services = none ∧
      ∀ j, j ≠ .connection x → Untouched j s s' := by
  obtain ⟨s₁, hadv, hd, -, hsh, hj₁, -, -⟩ := drop_all h.guarded (.connection x)
  have hR := hadv.roomy h
  have hx₁ : s₁.shared.phase x = .handling (.sendAwait tx msg []) := by rw [hsh, hx]
  have hl₁ : s₁.shared.servicesLock = some x := by rw [hsh, hl]
  have ho := owner_services hR.guarded hl₁
  have ht : s₁.todo (.connection x) = [] := by
    have hsuffix := (hR.guarded.holding (.connection x)).todo
    simp only [locks, hx₁, Phase.locks, HandlerPc.locks] at hsuffix
    exact List.suffix_nil.mp hsuffix
  cases hR.lifecycle.ownTx x tx msg [] hx₁
  have hroom := hR.room x (refusing_iff.mpr ⟨ho, .inl hl₁⟩)
  obtain ⟨b, es, hb, hreading, -⟩ :=
    Broker.send_enabled (p := .reading) hx₁ rfl (.inr (of_decide_eq_true hroom))
  have hfit : s₁.refusalFits (.run (.handler x)) = true := by
    simp [refusalFits, hx₁, HandlerPc.sends]
  obtain ⟨hadv', hR', hj₂⟩ := section_advances hR (a := .handler x) rfl hfit hd ht hb
  have hfree : b.servicesLock ≠ some x := by
    intro hkept
    have hrep := hR'.guarded.keeps x hkept
    rw [show (s₁.afterSection x b).shared.phase x = .reading from hreading] at hrep
    cases hrep
  obtain ⟨s', hadv'', hnone, hj₃⟩ :=
    free_dropping hR'.guarded (dropped_after hR'.guarded ho (not_kept hfree))
  exact ⟨s', (hadv.trans hadv').trans hadv'', hnone,
    fun j hj => (hj₁ j hj).trans ((hj₂ j hj).trans (hj₃ j hj))⟩

theorem free_kept (h : s.Roomy) (hl : s.shared.servicesLock = some x) (hc : Freeable .clients) :
    ∃ s', Advances s s' ∧ s'.owner .services = none ∧ ∀ j, j ≠ .connection x →
      (∀ m', .clients ≤ m' → s.owner m' ≠ some j) → Untouched j s s' := by
  have hrep := h.guarded.keeps x hl
  unfold Broker.replying at hrep
  split at hrep
  · next msg hx =>
    obtain ⟨s₁, hadv₁, hd₁, ht₁, hsh, hj₁, -, -⟩ := drop_all h.guarded (.connection x)
    have hR₁ := hadv₁.roomy h
    have hx₁ : s₁.shared.phase x = .handling (.sendLookup msg []) := by rw [hsh, hx]
    have ho₁ := owner_services hR₁.guarded (by rw [hsh, hl])
    have hmem : ∀ m ∈ s₁.todo (.connection x), m = .clients := by
      intro m hm
      have hin := (hR₁.guarded.holding (.connection x)).todo.subset hm
      simp only [locks, hx₁, Phase.locks, HandlerPc.locks, List.mem_singleton] at hin
      exact hin
    obtain ⟨s₂, hadv₂, hd₂, ht₂, hphase, hown, hj₂⟩ := take_all hR₁ hd₁
      (fun hs => absurd (hmem _ hs) fun h => by cases h) fun m hm => hmem m hm ▸ hc
    have hR₂ := hadv₂.roomy hR₁
    have hx₂ := (hphase x rfl).trans hx₁
    have hstep : ∃ b es, s₂.shared.step (.handler x) = some (b, es) := by
      simp only [Broker.step, hx₂, Broker.runSection]
      exact ⟨_, _, rfl⟩
    obtain ⟨b, es, hb⟩ := hstep
    have hfit : s₂.refusalFits (.run (.handler x)) = true := by
      simp only [refusalFits, hx₂, HandlerPc.sends, Option.all_none]
    obtain ⟨hadv₃, hR₃, hj₃⟩ := section_advances hR₂ (a := .handler x) rfl hfit hd₂ ht₂ hb
    have ho₃ := hown _ ho₁
    have huntouched : ∀ j, j ≠ .connection x → (∀ m', .clients ≤ m' → s.owner m' ≠ some j) →
        Untouched j s (s₂.afterSection x b) := by
      intro j hj hnot
      refine (hj₁ j hj).trans ((hj₂ j hj fun m hm m' hle => ?_).trans (hj₃ j hj))
      rw [hmem m hm] at hle
      exact fun ho => hnot m' hle (((hj₁ j hj).owner m').mp ho)
    by_cases hkept : b.servicesLock = some x
    · -- the guard is still kept, so the lookup has found the sender
      have hrep₃ : Broker.replying (b.phase x) = true := hR₃.guarded.keeps x hkept
      have hsend : ∃ tx, b.phase x = .handling (.sendAwait tx msg []) := by
        have hran := (Broker.step_transition hb).ran hx₂
        simp only [Broker.runSection, Broker.sendToClient] at hran
        split at hran
        · obtain ⟨rfl, -⟩ := Prod.mk.inj (Option.some.inj hran)
          exact ⟨_, update_self ..⟩
        · obtain ⟨rfl, -⟩ := Prod.mk.inj (Option.some.inj hran)
          rw [show (Broker.sendAll s₂.shared x []).phase x = .reading from update_self ..] at hrep₃
          cases hrep₃
      obtain ⟨tx, hx₃⟩ := hsend
      obtain ⟨s', hadv', hnone, hj'⟩ := free_sendAwait hR₃ hkept hx₃
      exact ⟨s', ((hadv₁.trans hadv₂).trans hadv₃).trans hadv', hnone,
        fun j hj hnot => (huntouched j hj hnot).trans (hj' j hj)⟩
    · obtain ⟨s', hadv', hnone, hj'⟩ :=
        free_dropping hR₃.guarded (dropped_after hR₃.guarded ho₃ (not_kept hkept))
      exact ⟨s', ((hadv₁.trans hadv₂).trans hadv₃).trans hadv', hnone,
        fun j hj hnot => (huntouched j hj hnot).trans (hj' j hj)⟩
  · next tx msg hx =>
    obtain ⟨s', hadv, hnone, hj⟩ := free_sendAwait h hl hx
    exact ⟨s', hadv, hnone, fun j hne _ => hj j hne⟩
  · cases hrep

theorem ne_of_below (ho : s.owner m = some i) (hnot : ∀ m', m ≤ m' → s.owner m' ≠ some j) :
    j ≠ i := by
  rintro rfl
  exact hnot m le_rfl ho

theorem free_listObjects {n : Nat} (h : s.Roomy) (ho : s.owner m = some (.listObjects n)) :
    ∃ s', Advances s s' ∧ s'.owner m = none ∧
      ∀ j, (∀ m', m ≤ m' → s.owner m' ≠ some j) → Untouched j s s' := by
  have hi := h.guarded.holding (.listObjects n)
  by_cases hm : m ∈ s.drop (.listObjects n)
  · obtain ⟨s', hadv, hnone, hj⟩ := free_dropping h.guarded hm
    exact ⟨s', hadv, hnone, fun j hnot => hj j (ne_of_below ho hnot)⟩
  obtain hm' | ⟨hin, hout⟩ | hm' := (hi.held m).mp ho
  · exact absurd hm' hm
  · obtain ⟨s₁, hadv₁, hd₁, ht₁, -, hj₁, -, hsame⟩ := drop_all h.guarded (.listObjects n)
    have hR₁ := hadv₁.roomy h
    have ht : s.todo (.listObjects n) = [] := by
      refine List.eq_nil_iff_forall_not_mem.mpr fun m' hm' => ?_
      have heq : m' = .objects := List.mem_singleton.mp (hi.todo.subset hm')
      rw [List.mem_singleton.mp hin, ← heq] at hout
      exact hout hm'
    have hstep : s₁.step (.list n) = some (s₁.listObjects n, []) := by
      simp only [step, hd₁, ht₁, ht, true_and, if_true]
    have hR₂ := hR₁.step rfl hstep
    have hdrop : (s₁.listObjects n).drop (.listObjects n) = [.objects] := update_self ..
    have hmem : m ∈ (s₁.listObjects n).drop (.listObjects n) := by
      rw [hdrop]
      exact hin
    obtain ⟨s', hadv, hnone, hj⟩ := free_dropping hR₂.guarded hmem
    refine ⟨s', (hadv₁.trans (Advances.single rfl rfl hstep)).trans hadv, hnone, fun j hnot => ?_⟩
    have hne := ne_of_below ho hnot
    have hj₂ : Untouched j s₁ (s₁.listObjects n) :=
      ⟨update_of_ne hne .., update_of_ne hne .., fun _ _ => rfl, fun _ => .rfl⟩
    exact (hj₁ j hne).trans (hj₂.trans (hj j hne))
  · cases hm'

theorem locked_section_runs (h : s.Roomy) (hd : s.drop (.connection x) = [])
    (ht : s.todo (.connection x) = []) (hm : m ∈ (s.shared.phase x).locks) :
    ∃ s₁ a b es, Advances s s₁ ∧ (∀ j, Untouched j s s₁) ∧ a.section? = some x ∧
      s₁.refusalFits (.run a) = true ∧ s₁.shared.step a = some (b, es) := by
  have hsame : (∃ a b es, a.section? = some x ∧ s.refusalFits (.run a) = true ∧
      s.shared.step a = some (b, es)) →
      ∃ s₁ a b es, Advances s s₁ ∧ (∀ j, Untouched j s s₁) ∧ a.section? = some x ∧
        s₁.refusalFits (.run a) = true ∧ s₁.shared.step a = some (b, es) := by
    rintro ⟨a, b, es, hrun⟩
    exact ⟨s, a, b, es, .refl, fun j => .refl j s, hrun⟩
  have hcleanup : ∀ pc, s.shared.phase x = .cleaning pc → ∃ b es,
      s.shared.step (.cleanup x) = some (b, es) := by
    intro pc hx
    simp only [Broker.step, hx]
    cases pc with
    | services active =>
      have hl := servicesLock_section h.guarded hd ht (by rw [hx]; exact List.mem_singleton_self _)
      simp only [Broker.cleanupClient, hl, if_true]
      exact ⟨_, _, rfl⟩
    | _ => exact ⟨_, _, rfl⟩
  cases hx : s.shared.phase x with
  | reading | cleaned | ended =>
    rw [hx] at hm
    cases hm
  | absent =>
    have hstep : s.shared.step (.connect x) = some (s.shared.spawnClient x) := by
      simp only [Broker.step, hx]
    exact hsame ⟨.connect x, _, _, rfl, rfl, hstep⟩
  | handling pc =>
    refine hsame (section_runs h.guarded hx hd ht ?_)
    refine Option.eq_none_iff_forall_ne_some.mpr ?_
    rintro ⟨site, tx, msg, p⟩ hs
    rw [hx] at hm
    simp only [Phase.locks, sends_locks hs, List.not_mem_nil] at hm
  | cleaning pc =>
    obtain ⟨b, es, hb⟩ := hcleanup pc hx
    exact hsame ⟨.cleanup x, b, es, rfl, rfl, hb⟩
  | stopping =>
    have hstop : s.shared.step (.stopWriter x) =
        some ({ s.shared with writing := update s.shared.writing x false }, []) := by
      simp only [Broker.step, hx]
    have hstep : s.step (.run (.stopWriter x)) = some ({ s with
        shared := { s.shared with writing := update s.shared.writing x false } }, []) := by
      simp only [step, run, Action.mover, hstop, Option.map_some]
    have hclean : ∃ b es, ({ s.shared with writing := update s.shared.writing x false } : Broker).step
        (.cleanup x) = some (b, es) := by
      simp only [Broker.step, hx, Broker.cleanupClient, update_self, if_true]
      exact ⟨_, _, rfl⟩
    obtain ⟨b, es, hb⟩ := hclean
    exact ⟨_, .cleanup x, b, es, Advances.single rfl rfl hstep,
      fun j => ⟨rfl, rfl, fun _ _ => rfl, fun _ => .rfl⟩, rfl, rfl, hb⟩

theorem free_connection (h : s.Roomy) (ho : s.owner m = some (.connection x))
    (hc : ∀ m', m < m' → Freeable m') : ∃ s', Advances s s' ∧ s'.owner m = none ∧
      ∀ j, (∀ m', m ≤ m' → s.owner m' ≠ some j) → Untouched j s s' := by
  have hi := h.guarded.holding (.connection x)
  have hclients : Mutex.services < Mutex.clients := by
    show Mutex.level .services < Mutex.level .clients
    decide
  by_cases hm : m ∈ s.drop (.connection x)
  · obtain ⟨s', hadv, hnone, hj⟩ := free_dropping h.guarded hm
    exact ⟨s', hadv, hnone, fun j hnot => hj j (ne_of_below ho hnot)⟩
  have hkeep : ∀ {s : LockedBroker}, s.Roomy → s.owner m = some (.connection x) →
      m ∈ s.shared.kept x → ∃ s', Advances s s' ∧ s'.owner m = none ∧
        ∀ j, (∀ m', m ≤ m' → s.owner m' ≠ some j) → Untouched j s s' := by
    intro s hR ho hk
    obtain ⟨rfl, -⟩ := kept_locks hR.guarded.keeps hk
    have hl : s.shared.servicesLock = some x := by
      by_contra hne
      exact not_kept hne hk
    obtain ⟨s', hadv, hnone, hj⟩ := free_kept hR hl (hc _ hclients)
    exact ⟨s', hadv, hnone, fun j hnot => hj j (ne_of_below ho hnot) fun m' hle =>
      hnot m' (hclients.le.trans hle)⟩
  obtain hm' | ⟨hin, hout⟩ | hk := (hi.held m).mp ho
  · exact absurd hm' hm
  · obtain ⟨s₁, hadv₁, hd₁, ht₁, hsh, hj₁, -, hown₁⟩ := drop_all h.guarded (.connection x)
    have hR₁ := hadv₁.roomy h
    have habove : ∀ m' ∈ s₁.todo (.connection x), m < m' := by
      rw [ht₁]
      exact fun m' hm' => taken_below hi.todo hm' hin hout
    have hserv : .services ∉ s₁.todo (.connection x) := by
      intro hs
      have hlt : m.level < Mutex.level .services := habove _ hs
      exact absurd hlt (Nat.not_lt_zero _)
    obtain ⟨s₂, hadv₂, hd₂, ht₂, hphase, hown₂, hj₂⟩ :=
      take_all hR₁ hd₁ hserv fun m' hm' => hc m' (habove m' hm')
    have hR₂ := hadv₂.roomy hR₁
    have ho₂ := hown₂ m ((hown₁ m hm).trans ho)
    have hx₂ : m ∈ (s₂.shared.phase x).locks := by
      rw [hphase x rfl, hsh]
      exact hin
    obtain ⟨s₃, a, b, es, hadv₃, hj₃, ha, hfit, hb⟩ := locked_section_runs hR₂ hd₂ ht₂ hx₂
    have hR₃ := hadv₃.roomy hR₂
    have ho₃ := ((hj₃ (.connection x)).owner m).mpr ho₂
    obtain ⟨hadv₄, hR₄, hj₄⟩ := section_advances hR₃ ha hfit
      ((hj₃ _).drop.trans hd₂) ((hj₃ _).todo.trans ht₂) hb
    have huntouched : ∀ j, (∀ m', m ≤ m' → s.owner m' ≠ some j) →
        Untouched j s (s₃.afterSection x b) := by
      intro j hnot
      have hne := ne_of_below ho hnot
      refine (hj₁ j hne).trans ((hj₂ j hne fun m₁ hm₁ m' hle => ?_).trans
        ((hj₃ j).trans (hj₄ j hne)))
      exact fun ho' => hnot m' ((habove m₁ hm₁).le.trans hle) (((hj₁ j hne).owner m').mp ho')
    have hadv := ((hadv₁.trans hadv₂).trans hadv₃).trans hadv₄
    by_cases hk : m ∈ b.kept x
    · obtain ⟨s', hadv', hnone, hj'⟩ := hkeep hR₄ ho₃ hk
      refine ⟨s', hadv.trans hadv', hnone, fun j hnot => (huntouched j hnot).trans (hj' j ?_)⟩
      exact fun m' hle ho' => hnot m' hle (((huntouched j hnot).owner m').mp ho')
    · obtain ⟨s', hadv', hnone, hj'⟩ :=
        free_dropping hR₄.guarded (dropped_after hR₄.guarded ho₃ hk)
      exact ⟨s', hadv.trans hadv', hnone,
        fun j hnot => (huntouched j hnot).trans (hj' j (ne_of_below ho hnot))⟩
  · exact hkeep h ho hk

theorem freeable (m : Mutex) : Freeable m := by
  induction m using WellFoundedGT.induction with
  | ind m ih =>
    intro s h
    cases ho : s.owner m with
    | none => exact ⟨s, .refl, ho, fun i _ => .refl i s⟩
    | some i =>
      cases i with
      | connection x => exact free_connection h ho ih
      | listObjects n => exact free_listObjects h ho

end LockedBroker
end IpcBroker
