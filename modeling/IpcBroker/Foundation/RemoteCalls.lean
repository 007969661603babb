import IpcBroker.Foundation.History
import IpcBroker.Foundation.Simulation
import Mathlib.Logic.Function.Basic

/-! Remote calls as those who make them see them: a call is made, it is executed once and its value
is returned to its caller once; or it is refused and never executed. -/

namespace IpcBroker.Foundation
open Function

/-- What becomes of the calls `κ` with their ids `ι`, between parties `χ` and with values `β`. -/
inductive CallEvent (χ ι κ β : Type*)
  | made (caller : χ) (id : ι) (call : κ)
  | executed (by_ : χ) (id : ι) (call : κ) (value : β)
  | returned (caller : χ) (id : ι) (value : β)
  | refused (caller : χ) (id : ι)

inductive CallStatus (χ κ β : Type*)
  | made (caller : χ) (call : κ)
  | executed (caller : χ) (call : κ) (by_ : χ) (value : β)
  | returned (caller : χ) (call : κ) (by_ : χ) (value : β)
  | refused (caller : χ) (call : κ)

variable {χ ι κ β : Type*}

def CallEvent.id : CallEvent χ ι κ β → ι
  | .made _ c _ | .executed _ c _ _ | .returned _ c _ | .refused _ c => c

namespace CallStatus

def course (c : ι) : Option (CallStatus χ κ β) → List (CallEvent χ ι κ β)
  | none => []
  | some (.made x k) => [.made x c k]
  | some (.executed x k z v) => [.made x c k, .executed z c k v]
  | some (.returned x k z v) => [.made x c k, .executed z c k v, .returned x c v]
  | some (.refused x k) => [.made x c k, .refused x c]

open Classical in
noncomputable def next : Option (CallStatus χ κ β) → CallEvent χ ι κ β → Option (CallStatus χ κ β)
  | none, .made x _ k => some (.made x k)
  | some (.made x k), .executed z _ k' v => if k' = k then some (.executed x k z v) else none
  | some (.made x k), .refused y _ => if y = x then some (.refused x k) else none
  | some (.executed x k z v), .returned y _ u =>
    if y = x ∧ u = v then some (.returned x k z v) else none
  | _, _ => none

theorem next_course {st : Option (CallStatus χ κ β)} {st' : CallStatus χ κ β}
    {e : CallEvent χ ι κ β} (h : next st e = some st') :
    course e.id (some st') = course e.id st ++ [e] := by
  unfold next at h
  split at h
  · cases h
    rfl
  · split_ifs at h with hk
    subst hk
    cases h
    rfl
  · split_ifs at h with hy
    subst hy
    cases h
    rfl
  · split_ifs at h with hret
    obtain ⟨rfl, rfl⟩ := hret
    cases h
    rfl
  · cases h

end CallStatus

/-- The events of the call `c`, in order. -/
def callCourse [DecidableEq ι] (c : ι) (tr : List (CallEvent χ ι κ β)) : List (CallEvent χ ι κ β) :=
  chronicle (fun e => if e.id = c then some e else none) tr

/-- The service: each call goes its own way, in any order. -/
noncomputable def remoteCalls (χ ι κ β : Type*) [DecidableEq ι] :
    System (ι → Option (CallStatus χ κ β)) (CallEvent χ ι κ β) (CallEvent χ ι κ β) where
  initial s := s = fun _ => none
  step s e := (CallStatus.next (s e.id) e).map fun st => (update s e.id (some st), [e])

section Runs
variable [DecidableEq ι] {c : ι} {x z : χ} {k : κ} {u : β}
  {v : World (ι → Option (CallStatus χ κ β)) (CallEvent χ ι κ β)}

theorem remoteCalls_next {e : CallEvent χ ι κ β} {st : CallStatus χ κ β}
    (h : CallStatus.next (v.state e.id) e = some st) :
    (remoteCalls χ ι κ β).next v e = some ⟨update v.state e.id (some st), e :: v.trace⟩ := by
  refine System.next_eq_some.mpr ⟨[e], ?_, rfl⟩
  simp only [remoteCalls, h, Option.map_some]

theorem course_eq (h : (remoteCalls χ ι κ β).Run v) (c : ι) :
    callCourse c v.trace = CallStatus.course c (v.state c) := by
  refine h.invariant (I := fun v : World (ι → Option (CallStatus χ κ β)) (CallEvent χ ι κ β) =>
    callCourse c v.trace = CallStatus.course c (v.state c)) ?_ ?_
  · rintro _ rfl
    rfl
  · intro v e v' _ hI _ hn
    obtain ⟨es, hs, htr⟩ := System.next_eq_some.mp hn
    obtain ⟨st, hst, hpair⟩ := Option.map_eq_some_iff.mp hs
    obtain ⟨hstate, rfl⟩ := Prod.mk.inj hpair
    rw [htr, ← hstate, callCourse, chronicle_append, ← callCourse, hI]
    by_cases hc : e.id = c
    · subst hc
      rw [update_self, CallStatus.next_course hst]
      simp [chronicle]
    · rw [update_of_ne (Ne.symm hc)]
      simp [chronicle, hc]

theorem mem_course (h : (remoteCalls χ ι κ β).Run v) {e : CallEvent χ ι κ β} :
    e ∈ CallStatus.course c (v.state c) ↔ e ∈ v.trace ∧ e.id = c := by
  rw [← course_eq h, callCourse, chronicle, List.mem_reverse, List.mem_filterMap]
  constructor
  · rintro ⟨e', he', hid⟩
    split_ifs at hid with hc
    cases hid
    exact ⟨he', hc⟩
  · rintro ⟨he, hc⟩
    exact ⟨e, he, if_pos hc⟩

theorem mem_of_course (h : (remoteCalls χ ι κ β).Run v) {st : CallStatus χ κ β}
    {e : CallEvent χ ι κ β} (hst : v.state c = some st)
    (he : e ∈ CallStatus.course c (some st)) : e ∈ v.trace :=
  ((mem_course h).mp (hst ▸ he)).1

theorem status_none (h : (remoteCalls χ ι κ β).Run v) (hnew : ∀ x k, .made x c k ∉ v.trace) :
    v.state c = none := by
  cases hst : v.state c with
  | none => rfl
  | some st =>
    have hback := @mem_of_course _ _ _ _ _ c v h st
    cases st with
    | made x k | executed x k z u | returned x k z u | refused x k =>
      exact absurd (hback hst List.mem_cons_self) (hnew x k)

theorem status_made (h : (remoteCalls χ ι κ β).Run v) (hmade : .made x c k ∈ v.trace)
    (hexec : ∀ z k u, .executed z c k u ∉ v.trace) (href : ∀ x, .refused x c ∉ v.trace) :
    v.state c = some (.made x k) := by
  have hmem := (mem_course (c := c) h).mpr ⟨hmade, rfl⟩
  cases hst : v.state c with
  | none => simp [hst, CallStatus.course] at hmem
  | some st =>
    have hback := @mem_of_course _ _ _ _ _ c v h st
    rw [hst] at hmem
    cases st with
    | made y k' =>
      cases List.mem_singleton.mp hmem
      rfl
    | executed y k' z u | returned y k' z u =>
      exact absurd (hback hst (by simp [CallStatus.course])) (hexec z k' u)
    | refused y k' => exact absurd (hback hst (by simp [CallStatus.course])) (href y)

theorem status_executed (h : (remoteCalls χ ι κ β).Run v) (hexec : .executed z c k u ∈ v.trace)
    (hret : ∀ x u, .returned x c u ∉ v.trace) :
    ∃ x, .made x c k ∈ v.trace ∧ v.state c = some (.executed x k z u) := by
  have hmem := (mem_course (c := c) h).mpr ⟨hexec, rfl⟩
  cases hst : v.state c with
  | none => simp [hst, CallStatus.course] at hmem
  | some st =>
    have hback := @mem_of_course _ _ _ _ _ c v h st
    rw [hst] at hmem
    cases st with
    | made y k' | refused y k' => simp [CallStatus.course] at hmem
    | executed y k' z' u' =>
      simp only [CallStatus.course, List.mem_cons, reduceCtorEq, CallEvent.executed.injEq,
        true_and, List.not_mem_nil, or_false, false_or] at hmem
      obtain ⟨rfl, rfl, rfl⟩ := hmem
      exact ⟨y, hback hst (by simp [CallStatus.course]), rfl⟩
    | returned y k' z' u' =>
      exact absurd (hback hst (by simp [CallStatus.course])) (hret y u')

end Runs
end IpcBroker.Foundation
