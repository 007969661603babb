import Mathlib.Order.Nat

/-! Counting the copies of one thing that is passed from place to place: what flows between two
places only, or is lost, never becomes more than one copy. -/

namespace IpcBroker.Foundation
variable {ι : Type*} {f g : ι → Nat} {a b p q : ι}

def AtMostOne (f : ι → Nat) : Prop := ∃ p, f p ≤ 1 ∧ ∀ q, q ≠ p → f q = 0

/-- From `f` to `g`, copies only pass between the places `a` and `b`, or are lost. -/
structure Flows (f g : ι → Nat) (a b : ι) : Prop where
  rest : ∀ q, q ≠ a → q ≠ b → g q ≤ f q
  moved : g a + g b ≤ f a + f b

theorem Flows.of_le (h : ∀ q, g q ≤ f q) (a : ι) : Flows f g a a where
  rest := fun q _ _ => h q
  moved := Nat.add_le_add (h a) (h a)

theorem AtMostOne.le_one (h : AtMostOne f) (q : ι) : f q ≤ 1 := by
  obtain ⟨p, hp, hrest⟩ := h
  by_cases hq : q = p
  · exact hq ▸ hp
  · rw [hrest q hq]
    exact Nat.zero_le 1

theorem AtMostOne.eq_zero (h : AtMostOne f) (hp : 0 < f p) (hq : q ≠ p) : f q = 0 := by
  obtain ⟨r, -, hrest⟩ := h
  have hpr : p = r := by
    by_contra hne
    rw [hrest p hne] at hp
    exact absurd hp (Nat.lt_irrefl 0)
  exact hrest q (hpr ▸ hq)

theorem AtMostOne.flows (h : AtMostOne f) (hf : Flows f g a b) : AtMostOne g := by
  have hsum : g a + g b ≤ f a + f b := hf.moved
  obtain ⟨p, hp, hrest⟩ := h
  by_cases hab : p = a ∨ p = b
  · -- the copy was in one of the two places, and is in one of them now
    have hother : ∀ q, q ≠ a → q ≠ b → g q = 0 := by
      intro q hqa hqb
      have hqp : q ≠ p := by
        obtain rfl | rfl := hab
        · exact hqa
        · exact hqb
      have hle := hf.rest q hqa hqb
      rw [hrest q hqp] at hle
      exact Nat.le_zero.mp hle
    by_cases hne : a = b
    · subst hne
      obtain rfl | rfl := hab <;>
        exact ⟨p, by omega, fun q hq => hother q hq hq⟩
    · have htotal : f a + f b ≤ 1 := by
        obtain rfl | rfl := hab
        · rw [hrest b (Ne.symm hne)]
          exact hp
        · rw [hrest a hne, Nat.zero_add]
          exact hp
      by_cases hga : g a = 0
      · refine ⟨b, by omega, fun q hq => ?_⟩
        by_cases hqa : q = a
        · exact hqa ▸ hga
        · exact hother q hqa hq
      · refine ⟨a, by omega, fun q hq => ?_⟩
        by_cases hqb : q = b
        · subst hqb
          omega
        · exact hother q hq hqb
  · have hpa : a ≠ p := fun h => hab (.inl h.symm)
    have hpb : b ≠ p := fun h => hab (.inr h.symm)
    have hzero : g a + g b ≤ 0 := by
      rw [hrest a hpa, hrest b hpb] at hsum
      exact hsum
    refine ⟨p, (hf.rest p hpa.symm hpb.symm).trans hp, fun q hq => ?_⟩
    by_cases hqa : q = a
    · subst hqa
      omega
    · by_cases hqb : q = b
      · subst hqb
        omega
      · have hle := hf.rest q hqa hqb
        rw [hrest q hq] at hle
        exact Nat.le_zero.mp hle

end IpcBroker.Foundation
