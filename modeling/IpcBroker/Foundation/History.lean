import Mathlib.Data.List.Basic

/-! The last event of a kind in a history, with the events since then, and the sequence of all of
a kind; histories are newest first. -/

namespace IpcBroker.Foundation
variable {ε β : Type*} {f : ε → Option β} {es tr seg : List ε} {e : ε} {b : β}

/-- The last event that `f` is defined on, by its value, and the events since then. -/
def lastOf (f : ε → Option β) : List ε → Option (β × List ε)
  | [] => none
  | e :: tr =>
    match f e with
    | some b => some (b, [])
    | none => (lastOf f tr).map fun h => (h.1, e :: h.2)

theorem lastOf_cons_some (h : f e = some b) : lastOf f (e :: tr) = some (b, []) := by
  rw [lastOf, h]

theorem lastOf_append (h : ∀ e ∈ es, f e = none) :
    lastOf f (es ++ tr) = (lastOf f tr).map fun h => (h.1, es ++ h.2) := by
  induction es with
  | nil =>
    rw [List.nil_append]
    cases lastOf f tr <;> rfl
  | cons e es ih =>
    have hes := ih fun e he => h e (List.mem_cons_of_mem _ he)
    have he := h e List.mem_cons_self
    rw [List.cons_append, lastOf, he, hes]
    cases lastOf f tr <;> rfl

theorem lastOf_subset (h : lastOf f tr = some (b, seg)) : seg ⊆ tr := by
  induction tr generalizing seg with
  | nil => cases h
  | cons e tr ih =>
    rw [lastOf] at h
    split at h
    · cases h
      exact List.nil_subset _
    · obtain ⟨⟨b', seg₀⟩, hh, hpair⟩ := Option.map_eq_some_iff.mp h
      cases hpair
      exact List.cons_subset_cons e (ih hh)

theorem lastOf_mem (h : lastOf f tr = some (b, seg)) : ∃ e ∈ tr, f e = some b := by
  induction tr generalizing seg with
  | nil => cases h
  | cons e tr ih =>
    rw [lastOf] at h
    split at h
    · next b' hb =>
      cases h
      exact ⟨e, List.mem_cons_self, hb⟩
    · obtain ⟨⟨b', seg₀⟩, hh, hpair⟩ := Option.map_eq_some_iff.mp h
      cases hpair
      obtain ⟨e', he', hb⟩ := ih hh
      exact ⟨e', List.mem_cons_of_mem _ he', hb⟩

/-- The values of the events that `f` is defined on, oldest first. -/
def chronicle (f : ε → Option β) (tr : List ε) : List β := (tr.filterMap f).reverse

theorem chronicle_append :
    chronicle f (es ++ tr) = chronicle f tr ++ chronicle f es := by
  rw [chronicle, List.filterMap_append, List.reverse_append]
  rfl

theorem chronicle_cons : chronicle f (e :: tr) = chronicle f tr ++ (f e).toList := by
  rw [chronicle, List.filterMap_cons]
  cases f e with
  | none => exact (List.append_nil _).symm
  | some b => exact List.reverse_cons

theorem chronicle_none (h : ∀ e ∈ es, f e = none) : chronicle f es = [] := by
  rw [chronicle, List.filterMap_eq_nil_iff.mpr h]
  rfl

end IpcBroker.Foundation
