import IpcBroker.Foundation.RunInvariant

/-! The same system with its steps themselves as the history, for what the events of a step do not
tell; its runs are those of the system. -/

namespace IpcBroker.Foundation

/-- A step that was taken, with the states around it. -/
structure Taken (σ α ε : Type*) where
  before : σ
  action : α
  events : List ε
  after : σ

variable {σ α ε : Type*}

def World.events (w : World σ (Taken σ α ε)) : World σ ε := ⟨w.state, w.trace.flatMap (·.events)⟩

namespace System

/-- The system that keeps the steps it takes. -/
def recorded (M : System σ α ε) : System σ α (Taken σ α ε) where
  initial := M.initial
  step s a := (M.step s a).map fun r => (r.1, [⟨s, a, r.2, r.1⟩])

variable {M : System σ α ε} {w w' : World σ (Taken σ α ε)} {a : α}

theorem recorded_next :
    M.recorded.next w a = some w' ↔ ∃ es, M.step w.state a = some (w'.state, es) ∧
      w'.trace = ⟨w.state, a, es, w'.state⟩ :: w.trace := by
  simp only [next_eq_some, recorded, Option.map_eq_some_iff, Prod.exists, Prod.mk.injEq]
  constructor
  · rintro ⟨st, ⟨s', es, hs, rfl, rfl⟩, ht⟩
    exact ⟨es, hs, ht⟩
  · rintro ⟨es, hs, ht⟩
    exact ⟨_, ⟨w'.state, es, hs, rfl, rfl⟩, ht⟩

theorem next_of_recorded (h : M.recorded.next w a = some w') : M.next w.events a = some w'.events := by
  obtain ⟨es, hs, ht⟩ := recorded_next.mp h
  refine next_eq_some.mpr ⟨es, hs, ?_⟩
  simp only [World.events, ht, List.flatMap_cons]

namespace RunWhere
variable {ok : World σ ε → α → Prop}

theorem run_events {ok : World σ (Taken σ α ε) → α → Prop} (h : M.recorded.RunWhere ok w) :
    M.Run w.events := by
  refine h.invariant (I := fun w => M.Run w.events) (fun s hs => .start hs) ?_
  intro w a w' _ hw _ hn
  exact .step hw trivial (next_of_recorded hn)

theorem where_events (h : M.recorded.RunWhere (fun w a => ok w.events a) w) :
    M.RunWhere ok w.events := by
  refine h.invariant (I := fun w => M.RunWhere ok w.events) (fun s hs => .start hs) ?_
  intro w a w' _ hw ha hn
  exact .step hw ha (next_of_recorded hn)

/-- A step of the history was taken in a world of the run. -/
theorem taken {ok : World σ (Taken σ α ε) → α → Prop} (h : M.recorded.RunWhere ok w)
    {st : Taken σ α ε} {tr : List (Taken σ α ε)} (ht : st :: tr <:+ w.trace) :
    M.recorded.RunWhere ok ⟨st.before, tr⟩ ∧ ok ⟨st.before, tr⟩ st.action ∧
      M.recorded.next ⟨st.before, tr⟩ st.action = some ⟨st.after, st :: tr⟩ ∧
      M.step st.before st.action = some (st.after, st.events) := by
  obtain ⟨w₀, a, w₁, es₁, es₂, hr, ha, hn, hs, htr, -⟩ := h.emitted ht
  obtain ⟨es, hstep, hw₁⟩ := recorded_next.mp hn
  have hone : es₁ ++ st :: es₂ = [⟨w₀.state, a, es, w₁.state⟩] := by
    obtain ⟨r, hr, hpair⟩ := Option.map_eq_some_iff.mp hs
    cases hstep.symm.trans hr
    exact (Prod.mk.inj hpair).2.symm
  obtain ⟨-, hst⟩ | ⟨-, hst⟩ := List.append_eq_singleton_iff.mp hone
  · obtain ⟨s₀, tr₀⟩ := w₀
    obtain ⟨s₁, tr₁⟩ := w₁
    cases hst
    obtain rfl : tr = tr₀ := htr
    simp only at hw₁
    subst hw₁
    exact ⟨hr, ha, hn, hstep⟩
  · cases hst

/-- Every run is one whose steps are kept. -/
theorem exists_recorded {w : World σ ε} (h : M.RunWhere ok w) :
    ∃ w', M.recorded.RunWhere (fun w a => ok w.events a) w' ∧ w'.events = w := by
  induction h with
  | start hs => exact ⟨_, .start hs, rfl⟩
  | @step w₀ w₁ a h₀ ha hn ih =>
    obtain ⟨u, hu, rfl⟩ := ih
    obtain ⟨es, hs, ht⟩ := next_eq_some.mp hn
    have hnext : M.recorded.next u a = some ⟨w₁.state, ⟨u.state, a, es, w₁.state⟩ :: u.trace⟩ :=
      recorded_next.mpr ⟨es, hs, rfl⟩
    refine ⟨_, .step hu ha hnext, ?_⟩
    obtain ⟨s₁, tr₁⟩ := w₁
    simp only [World.events, List.flatMap_cons, World.mk.injEq, true_and]
    exact ht.symm

end RunWhere
end System
end IpcBroker.Foundation
