import Mathlib.Data.Set.Basic
import Mathlib.Order.WellFounded

/-! Tasks that wait for mutexes: an order of the mutexes that every task respects leaves no set of
tasks that only wait for one another. -/

namespace IpcBroker.Foundation

/-- Who holds each mutex, and which mutex each task is about to lock. -/
structure LockTable (ι μ : Type*) where
  owner : μ → Option ι
  wants : ι → Option μ

namespace LockTable
variable {ι μ : Type*} {t : LockTable ι μ} {i j : ι} {m m' : μ}

def WaitsFor (t : LockTable ι μ) (i j : ι) : Prop := ∃ m, t.wants i = some m ∧ t.owner m = some j

/-- A set of tasks each of which waits for another member of the set, or for itself. -/
def Deadlock (t : LockTable ι μ) (S : Set ι) : Prop := S.Nonempty ∧ ∀ i ∈ S, ∃ j ∈ S, t.WaitsFor i j

variable [Preorder μ]

/-- What a task is about to lock is above everything it holds. -/
def Ordered (t : LockTable ι μ) : Prop :=
  ∀ i m m', t.wants i = some m → t.owner m' = some i → m' < m

theorem Ordered.not_wanted [WellFoundedGT μ] (h : t.Ordered) {S : Set ι}
    (hS : ∀ i ∈ S, ∃ j ∈ S, t.WaitsFor i j) (m : μ) : ∀ i ∈ S, t.wants i ≠ some m := by
  induction m using WellFoundedGT.induction with
  | ind m ih =>
    intro i hi hm
    obtain ⟨j, hj, m₁, hm₁, howner⟩ := hS i hi
    cases hm.symm.trans hm₁
    -- the holder is in the set too, and waits for a mutex further up
    obtain ⟨-, -, m₂, hm₂, -⟩ := hS j hj
    exact ih m₂ (h j m₂ m hm₂ howner) j hj hm₂

theorem Ordered.no_deadlock [WellFoundedGT μ] (h : t.Ordered) (S : Set ι) : ¬ t.Deadlock S := by
  rintro ⟨⟨i, hi⟩, hS⟩
  obtain ⟨-, -, m, hm, -⟩ := hS i hi
  exact h.not_wanted hS m i hi hm

end LockTable
end IpcBroker.Foundation
