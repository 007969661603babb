import Mathlib.Data.List.Basic

/-! Systems that emit events, their runs under a condition on every step, and the induction
rules for what holds along such runs. -/

namespace IpcBroker.Foundation

structure System (σ α ε : Type*) where
  initial : σ → Prop
  step : σ → α → Option (σ × List ε)

/-- A state together with the events of the run that led to it, newest first. -/
structure World (σ ε : Type*) where
  state : σ
  trace : List ε

namespace System
variable {σ α ε : Type*} (M : System σ α ε)

def next (w : World σ ε) (a : α) : Option (World σ ε) :=
  (M.step w.state a).map fun r => ⟨r.1, r.2 ++ w.trace⟩

/-- The worlds reached by steps that all meet `ok`, a condition on the world before the step. -/
inductive RunWhere (ok : World σ ε → α → Prop) : World σ ε → Prop
  | start {s : σ} : M.initial s → RunWhere ok ⟨s, []⟩
  | step {w w' : World σ ε} {a : α} :
      RunWhere ok w → ok w a → M.next w a = some w' → RunWhere ok w'

abbrev Run : World σ ε → Prop := M.RunWhere fun _ _ => True

variable {M}

theorem next_eq_some {w w' : World σ ε} {a : α} :
    M.next w a = some w' ↔
      ∃ es, M.step w.state a = some (w'.state, es) ∧ w'.trace = es ++ w.trace := by
  obtain ⟨s, tr⟩ := w
  obtain ⟨s', tr'⟩ := w'
  simp only [next, Option.map_eq_some_iff, Prod.exists, World.mk.injEq]
  constructor
  · rintro ⟨t, es, h, rfl, rfl⟩
    exact ⟨es, h, rfl⟩
  · rintro ⟨es, h, rfl⟩
    exact ⟨s', es, h, rfl, rfl⟩

theorem next_state {w w' : World σ ε} {a : α} (h : M.next w a = some w') :
    ∃ es, M.step w.state a = some (w'.state, es) := by
  obtain ⟨es, hs, _⟩ := next_eq_some.mp h
  exact ⟨es, hs⟩

namespace RunWhere
variable {ok : World σ ε → α → Prop} {w : World σ ε}

/-- What holds initially and is kept by every step that meets the condition holds of every
world of a run; the step may use that its start is itself reached. -/
theorem invariant {I : World σ ε → Prop} (hinit : ∀ s, M.initial s → I ⟨s, []⟩)
    (hstep : ∀ w a w', M.RunWhere ok w → I w → ok w a → M.next w a = some w' → I w')
    (h : M.RunWhere ok w) : I w := by
  induction h with
  | start hi => exact hinit _ hi
  | step hr ha hn ih => exact hstep _ _ _ hr ih ha hn

theorem stateInvariant {I : σ → Prop} (hinit : ∀ s, M.initial s → I s)
    (hstep : ∀ s a s' es, I s → M.step s a = some (s', es) → I s')
    (h : M.RunWhere ok w) : I w.state := by
  refine h.invariant (I := fun w => I w.state) hinit ?_
  intro w a w' _ hi _ hn
  obtain ⟨es, hs⟩ := next_state hn
  exact hstep w.state a w'.state es hi hs

/-- An event of the history was emitted by a step of the run; what the history holds below it is
what that step began with, and the events it emitted before. -/
theorem emitted {e : ε} {tr : List ε} (h : M.RunWhere ok w) (he : e :: tr <:+ w.trace) :
    ∃ w₀ a w₁ es₁ es₂, M.RunWhere ok w₀ ∧ ok w₀ a ∧ M.next w₀ a = some w₁ ∧
      M.step w₀.state a = some (w₁.state, es₁ ++ e :: es₂) ∧ tr = es₂ ++ w₀.trace ∧
      w₁.trace <:+ w.trace := by
  induction h with
  | start => cases List.suffix_nil.mp he
  | @step w w' a hr ha hn ih =>
    obtain ⟨es, hs, ht⟩ := next_eq_some.mp hn
    have hw : w.trace <:+ w'.trace := ht ▸ List.suffix_append es w.trace
    have hold : e :: tr <:+ w.trace → ∃ w₀ a w₁ es₁ es₂, M.RunWhere ok w₀ ∧ ok w₀ a ∧
        M.next w₀ a = some w₁ ∧ M.step w₀.state a = some (w₁.state, es₁ ++ e :: es₂) ∧
        tr = es₂ ++ w₀.trace ∧ w₁.trace <:+ w'.trace := by
      intro he
      obtain ⟨w₀, b, w₁, es₁, es₂, hr₀, hb, hn₀, hs₀, htr, hw₁⟩ := ih he
      exact ⟨w₀, b, w₁, es₁, es₂, hr₀, hb, hn₀, hs₀, htr, hw₁.trans hw⟩
    obtain ⟨t, hte⟩ := he
    rw [ht] at hte
    obtain ⟨c, rfl, hc⟩ | ⟨c, rfl, hc⟩ := List.append_eq_append_iff.mp hte
    · cases c with
      | nil =>
        rw [List.nil_append] at hc
        exact hold (hc ▸ List.suffix_rfl)
      | cons e' es₂ =>
        obtain ⟨rfl, htr⟩ := List.cons_eq_cons.mp hc
        exact ⟨w, a, w', t, es₂, hr, ha, hn, hs, htr, List.suffix_rfl⟩
    · exact hold ⟨c, hc.symm⟩

end RunWhere

/-- Runs a list of actions from a world, checking the condition before each of them. -/
def exec (M : System σ α ε) (ok : World σ ε → α → Prop) [∀ w a, Decidable (ok w a)] :
    World σ ε → List α → Option (World σ ε)
  | w, [] => some w
  | w, a :: as => if ok w a then (M.next w a).bind fun w' => exec M ok w' as else none

theorem RunWhere.of_exec {ok : World σ ε → α → Prop} [∀ w a, Decidable (ok w a)]
    {w w' : World σ ε} {as : List α} (h : M.RunWhere ok w) (he : M.exec ok w as = some w') :
    M.RunWhere ok w' := by
  induction as generalizing w with
  | nil =>
    rw [exec, Option.some.injEq] at he
    exact he ▸ h
  | cons a as ih =>
    rw [exec] at he
    split_ifs at he with ha
    obtain ⟨w₁, hn, hrest⟩ := Option.bind_eq_some_iff.mp he
    exact ih (.step h ha hn) hrest

/-- A concrete run, with a test of the world it ends in. -/
theorem RunWhere.of_exec_any (M : System σ α ε) (ok : World σ ε → α → Prop)
    [∀ w a, Decidable (ok w a)] {s : σ} (as : List α) (test : World σ ε → Bool)
    (hs : M.initial s) (he : (M.exec ok ⟨s, []⟩ as).any test = true) :
    ∃ w, M.RunWhere ok w ∧ M.exec ok ⟨s, []⟩ as = some w ∧ test w = true := by
  cases hw : M.exec ok ⟨s, []⟩ as with
  | none =>
    rw [hw] at he
    cases he
  | some w =>
    rw [hw] at he
    exact ⟨w, (RunWhere.start hs).of_exec hw, rfl, he⟩

theorem RunWhere.of_exec_next (M : System σ α ε) (ok : World σ ε → α → Prop)
    [∀ w a, Decidable (ok w a)] {s : σ} (as : List α) (a : α)
    (test : World σ ε → World σ ε → Bool) (hs : M.initial s)
    (he : ((M.exec ok ⟨s, []⟩ as).any fun w =>
      decide (ok w a) && (M.next w a).any (test w)) = true) :
    ∃ w w', M.RunWhere ok w ∧ M.exec ok ⟨s, []⟩ as = some w ∧ ok w a ∧ M.next w a = some w' ∧
      test w w' = true := by
  obtain ⟨w, hr, hw, htest⟩ := RunWhere.of_exec_any M ok as _ hs he
  rw [Bool.and_eq_true, decide_eq_true_eq] at htest
  obtain ⟨hok, hnext⟩ := htest
  cases hn : M.next w a with
  | none =>
    rw [hn] at hnext
    cases hnext
  | some w' =>
    rw [hn] at hnext
    exact ⟨w, w', hr, hw, hok, hn, hnext⟩

end System
end IpcBroker.Foundation
