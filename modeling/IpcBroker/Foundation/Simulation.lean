import IpcBroker.Foundation.StepHistory

/-! Simulation of one system by another: a step of the first is a step of the second, or leaves it
where it is. -/

namespace IpcBroker.Foundation
namespace System
variable {σ α ε σ' α' ε' : Type*} {M : System σ α ε} {N : System σ' α' ε'}
  {ok : World σ ε → α → Prop} {C : World σ' ε' → α' → Prop} {w : World σ ε}

theorem RunWhere.mono_run {ok₂ : World σ ε → α → Prop}
    (hok : ∀ w a, M.RunWhere ok w → ok w a → ok₂ w a) (h : M.RunWhere ok w) :
    M.RunWhere ok₂ w := by
  induction h with
  | start hs => exact .start hs
  | step hr ha hn ih => exact .step ih (hok _ _ hr ha) hn

theorem RunWhere.mono {ok₂ : World σ ε → α → Prop} (hok : ∀ w a, ok w a → ok₂ w a)
    (h : M.RunWhere ok w) : M.RunWhere ok₂ w := h.mono_run fun w a _ => hok w a

inductive StepOrStay (N : System σ' α' ε') (ok : World σ' ε' → α' → Prop) (v : World σ' ε') :
    World σ' ε' → Prop
  | stay : StepOrStay N ok v v
  | step {a : α'} {v' : World σ' ε'} : ok v a → N.next v a = some v' → StepOrStay N ok v v'

theorem RunWhere.stepOrStay {v v' : World σ' ε'} (h : N.RunWhere C v)
    (hstep : N.StepOrStay C v v') : N.RunWhere C v' := by
  cases hstep with
  | stay => exact h
  | step hok hn => exact .step h hok hn

/-- Every run of `M` is related to a run of `N`, when every step of `M` can be followed. -/
theorem RunWhere.simulated {R : World σ ε → World σ' ε' → Prop}
    (hinit : ∀ s, M.initial s → ∃ t, N.initial t ∧ R ⟨s, []⟩ ⟨t, []⟩)
    (hstep : ∀ w a w' v, M.RunWhere ok w → N.RunWhere C v → R w v → ok w a →
      M.next w a = some w' → ∃ v', N.StepOrStay C v v' ∧ R w' v')
    (h : M.RunWhere ok w) : ∃ v, N.RunWhere C v ∧ R w v := by
  induction h with
  | start hs =>
    obtain ⟨t, ht, hR⟩ := hinit _ hs
    exact ⟨_, .start ht, hR⟩
  | @step w w' a hr ha hn ih =>
    obtain ⟨v, hv, hR⟩ := ih
    obtain ⟨v', hfollow, hR'⟩ := hstep w a w' v hr hv hR ha hn
    exact ⟨v', hv.stepOrStay hfollow, hR'⟩

/-- The case of a function: what `f` shows of a run of `M` is a run of `N`. -/
theorem RunWhere.mapped (f : World σ ε → World σ' ε')
    (hinit : ∀ s, M.initial s → ∃ t, N.initial t ∧ f ⟨s, []⟩ = ⟨t, []⟩)
    (hstep : ∀ w a w', M.RunWhere ok w → N.RunWhere C (f w) → ok w a → M.next w a = some w' →
      N.StepOrStay C (f w) (f w'))
    (h : M.RunWhere ok w) : N.RunWhere C (f w) := by
  obtain ⟨v, hv, rfl⟩ := h.simulated (N := N) (C := C) (R := fun w v => v = f w)
    (fun s hs => by
      obtain ⟨t, ht, hf⟩ := hinit s hs
      exact ⟨t, ht, hf.symm⟩)
    (fun w a w' v hr hv hf ha hn => ⟨f w', hf ▸ hstep w a w' hr (hf ▸ hv) ha hn, rfl⟩)
  exact hv

/-- The worlds that steps under a condition lead to from `w₀`. -/
inductive From (M : System σ α ε) (ok : World σ ε → α → Prop) (w₀ : World σ ε) : World σ ε → Prop
  | here : From M ok w₀ w₀
  | step {w w' : World σ ε} {a : α} :
      From M ok w₀ w → ok w a → M.next w a = some w' → From M ok w₀ w'

namespace From
variable {w₀ : World σ ε}

theorem run (h : M.From ok w₀ w) (h₀ : M.RunWhere ok w₀) : M.RunWhere ok w := by
  induction h with
  | here => exact h₀
  | step _ ha hn ih => exact .step ih ha hn

theorem trans (h : M.From ok w₀ w) (h' : M.From ok w w') : M.From ok w₀ w' := by
  induction h' with
  | here => exact h
  | step _ ha hn ih => exact .step ih ha hn

theorem trace (h : M.From ok w₀ w) : w₀.trace <:+ w.trace := by
  induction h with
  | here => exact List.suffix_rfl
  | step _ _ hn ih =>
    obtain ⟨es, -, ht⟩ := next_eq_some.mp hn
    exact ih.trans (ht ▸ List.suffix_append es _)

theorem stepOrStay {v₀ v v' : World σ' ε'} (h : N.From C v₀ v) (hstep : N.StepOrStay C v v') :
    N.From C v₀ v' := by
  cases hstep with
  | stay => exact h
  | step hok hn => exact .step h hok hn

theorem mapped (f : World σ ε → World σ' ε')
    (hstep : ∀ w a w', ok w a → M.next w a = some w' → N.StepOrStay C (f w) (f w'))
    (h : M.From ok w₀ w) : N.From C (f w₀) (f w) := by
  induction h with
  | here => exact .here
  | step _ ha hn ih => exact ih.stepOrStay (hstep _ _ _ ha hn)

theorem exists_recorded {u₀ : World σ (Taken σ α ε)} (h : M.From ok u₀.events w) :
    ∃ u, M.recorded.From (fun u a => ok u.events a) u₀ u ∧ u.events = w := by
  induction h with
  | here => exact ⟨u₀, .here, rfl⟩
  | @step w w' a _ ha hn ih =>
    obtain ⟨u, hu, rfl⟩ := ih
    obtain ⟨es, hs, ht⟩ := next_eq_some.mp hn
    have hnext : M.recorded.next u a = some ⟨w'.state, ⟨u.state, a, es, w'.state⟩ :: u.trace⟩ :=
      recorded_next.mpr ⟨es, hs, rfl⟩
    refine ⟨_, .step hu ha hnext, ?_⟩
    obtain ⟨s', tr'⟩ := w'
    simp only [World.events, List.flatMap_cons, World.mk.injEq, true_and]
    exact ht.symm

theorem mono {ok₂ : World σ ε → α → Prop} (hok : ∀ w a, ok w a → ok₂ w a) (h : M.From ok w₀ w) :
    M.From ok₂ w₀ w := by
  induction h with
  | here => exact .here
  | step _ ha hn ih => exact .step ih (hok _ _ ha) hn

theorem of_exec [∀ w a, Decidable (ok w a)] {w₁ : World σ ε} {as : List α}
    (h : M.From ok w₀ w) (he : M.exec ok w as = some w₁) : M.From ok w₀ w₁ := by
  induction as generalizing w with
  | nil =>
    rw [exec, Option.some.injEq] at he
    exact he ▸ h
  | cons a as ih =>
    rw [exec] at he
    split_ifs at he with ha
    obtain ⟨w₂, hn, hrest⟩ := Option.bind_eq_some_iff.mp he
    exact ih (.step h ha hn) hrest

theorem of_exec_any (M : System σ α ε) (ok : World σ ε → α → Prop) [∀ w a, Decidable (ok w a)]
    {s : σ} (as as' : List α) (test : World σ ε → World σ ε → Bool) (hs : M.initial s)
    (he : ((M.exec ok ⟨s, []⟩ as).any fun w₀ => (M.exec ok w₀ as').any (test w₀)) = true) :
    ∃ w₀ w, M.RunWhere ok w₀ ∧ M.From ok w₀ w ∧ M.exec ok ⟨s, []⟩ as = some w₀ ∧
      M.exec ok w₀ as' = some w ∧ test w₀ w = true := by
  obtain ⟨w₀, hr, hw₀, hrest⟩ := RunWhere.of_exec_any M ok as _ hs he
  cases hw : M.exec ok w₀ as' with
  | none =>
    rw [hw] at hrest
    cases hrest
  | some w =>
    rw [hw] at hrest
    exact ⟨w₀, w, hr, .of_exec .here hw, hw₀, hw, hrest⟩

end From

end System
end IpcBroker.Foundation
