import Mathlib.Data.List.Basic

/-! A bounded pipe and a write to it in progress, by what is in the pipe and what is still to be
put there. -/

namespace IpcBroker.Foundation
variable {β : Type*} {capacity n : Nat} {pipe pipe' pending pending' : List β}

def load (pipe pending : List β) : Nat := pipe.length + pending.length

def WriteBlocked (capacity : Nat) (pipe pending : List β) : Prop :=
  0 < pending.length ∧ capacity ≤ pipe.length

def WriteWaits (capacity : Nat) (pipe pending : List β) : Prop := capacity < load pipe pending

instance : Decidable (WriteBlocked capacity pipe pending) := inferInstanceAs (Decidable (_ ∧ _))

instance : Decidable (WriteWaits capacity pipe pending) := inferInstanceAs (Decidable (_ < _))

theorem WriteBlocked.waits (h : WriteBlocked capacity pipe pending) :
    WriteWaits capacity pipe pending := by
  obtain ⟨hpending, hfull⟩ := h
  unfold WriteWaits load
  omega

theorem load_move (pipe pending : List β) (n : Nat) :
    load (pipe ++ pending.take n) (pending.drop n) = load pipe pending := by
  unfold load
  rw [List.length_append, Nat.add_assoc, ← List.length_append, List.take_append_drop]

theorem WriteWaits.of_load_le (h : WriteWaits capacity pipe' pending')
    (hle : load pipe' pending' ≤ load pipe pending) : WriteWaits capacity pipe pending :=
  Nat.lt_of_lt_of_le h hle

end IpcBroker.Foundation
