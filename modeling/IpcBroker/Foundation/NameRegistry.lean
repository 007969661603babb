import Mathlib.Logic.Function.Basic
import Mathlib.Tactic.SplitIfs

/-! A registry of names: a name is held by the one that claimed it last, until it releases all that
it holds. Histories are newest first. -/

namespace IpcBroker.Foundation
open Function

inductive NameOp (ν ω : Type*)
  | claim (name : ν) (owner : ω)
  | release (owner : ω)

variable {ν ω : Type*} [DecidableEq ν] [DecidableEq ω]

/-- Who holds each name after the operations. -/
def ownerOf : List (NameOp ν ω) → ν → Option ω
  | [] => fun _ => none
  | .claim n x :: ops => update (ownerOf ops) n (some x)
  | .release x :: ops => fun n => if ownerOf ops n = some x then none else ownerOf ops n

variable {ops : List (NameOp ν ω)} {n : ν} {x : ω}

theorem ownerOf_claimed (h : ownerOf ops n = some x) :
    ∃ later earlier, ops = later ++ .claim n x :: earlier ∧ .release x ∉ later ∧
      ∀ y, .claim n y ∉ later := by
  induction ops with
  | nil => cases h
  | cons op ops ih =>
    have hlater : ownerOf ops n = some x → op ≠ .release x → (∀ y, op ≠ .claim n y) →
        ∃ later earlier, op :: ops = later ++ .claim n x :: earlier ∧ .release x ∉ later ∧
          ∀ y, .claim n y ∉ later := by
      intro hold hrelease hclaim
      obtain ⟨later, earlier, rfl, hr, hc⟩ := ih hold
      refine ⟨op :: later, earlier, rfl, ?_, fun y hy => ?_⟩
      · intro hmem
        obtain heq | hmem := List.mem_cons.mp hmem
        · exact hrelease heq.symm
        · exact hr hmem
      · obtain heq | hmem := List.mem_cons.mp hy
        · exact hclaim y heq.symm
        · exact hc y hmem
    cases op with
    | claim m y =>
      rw [ownerOf] at h
      by_cases hm : n = m
      · subst hm
        rw [update_self] at h
        cases h
        exact ⟨[], ops, rfl, List.not_mem_nil, fun _ => List.not_mem_nil⟩
      · rw [update_of_ne hm] at h
        refine hlater h (fun heq => by cases heq) fun z heq => ?_
        exact hm (NameOp.claim.inj heq).1.symm
    | release y =>
      simp only [ownerOf] at h
      split_ifs at h with hy
      refine hlater h (fun heq => ?_) fun z heq => by cases heq
      exact hy (NameOp.release.inj heq ▸ h)

theorem ownerOf_kept {later : List (NameOp ν ω)} (h : ownerOf ops n = some x)
    (hr : .release x ∉ later) (hc : ∀ y, .claim n y ∉ later) :
    ownerOf (later ++ ops) n = some x := by
  induction later with
  | nil => exact h
  | cons op later ih =>
    have hold := ih (fun hmem => hr (List.mem_cons_of_mem op hmem))
      fun y hmem => hc y (List.mem_cons_of_mem op hmem)
    cases op with
    | claim m y =>
      have hm : n ≠ m := by
        rintro rfl
        exact hc y List.mem_cons_self
      rw [List.cons_append, ownerOf, update_of_ne hm, hold]
    | release y =>
      have hy : ownerOf (later ++ ops) n ≠ some y := by
        rw [hold]
        intro heq
        cases heq
        exact hr List.mem_cons_self
      simp only [List.cons_append, ownerOf]
      rw [if_neg hy, hold]

/-- `x` holds the name if and only if it is the last one to claim it, and has not released it
since. -/
theorem ownerOf_eq_some : ownerOf ops n = some x ↔ ∃ later earlier,
    ops = later ++ .claim n x :: earlier ∧ .release x ∉ later ∧ ∀ y, .claim n y ∉ later := by
  constructor
  · exact ownerOf_claimed
  · rintro ⟨later, earlier, rfl, hr, hc⟩
    exact ownerOf_kept (update_self ..) hr hc

end IpcBroker.Foundation
