import Mathlib.Data.List.Nodup

/-! Things held at places, each in one place at a time, in the order in which they came there; what
moves from a place is always the oldest there, or all of it. -/

namespace IpcBroker.Foundation

/-- The things held, each with its place; at every place the oldest first. -/
abbrev Custody (ι β : Type*) := List (ι × β)

/-- One change of custody. -/
inductive Move (ι β : Type*)
  | stay
  | enter (p : ι) (b : β)
  | pass (p q : ι)
  | passAll (p q : ι)
  | lose (p : ι)
  | keep (f : ι → β → Bool)

variable {ι β γ : Type*} [DecidableEq ι] {l : Custody ι β} {p q r : ι} {b : β}

/-- What is held at one place, oldest first. -/
def held (p : ι) (l : Custody ι β) : List β := l.filterMap fun t => if t.1 = p then some t.2 else none

def dropOldest (p : ι) (l : Custody ι β) : Custody ι β := l.eraseP fun t => decide (t.1 = p)

def Move.apply : Move ι β → Custody ι β → Custody ι β
  | .stay, l => l
  | .enter p b, l => l ++ [(p, b)]
  | .pass p q, l => dropOldest p l ++ (held p l).head?.toList.map (q, ·)
  | .passAll p q, l => l.filter (fun t => t.1 ≠ p) ++ (held p l).map (q, ·)
  | .lose p, l => dropOldest p l
  | .keep f, l => l.filter fun t => f t.1 t.2

/-! What is held at each place after a move. -/

@[simp] theorem held_nil : held p ([] : Custody ι β) = [] := rfl

theorem held_cons (t : ι × β) : held p (t :: l) = if t.1 = p then t.2 :: held p l else held p l := by
  unfold held
  split_ifs with h
  · exact List.filterMap_cons_some (if_pos h)
  · exact List.filterMap_cons_none (if_neg h)

@[simp] theorem held_append (l l' : Custody ι β) : held p (l ++ l') = held p l ++ held p l' :=
  List.filterMap_append

theorem mem_held : b ∈ held p l ↔ (p, b) ∈ l := by
  simp only [held, List.mem_filterMap, Prod.exists]
  constructor
  · rintro ⟨r, b', hm, hb⟩
    split_ifs at hb with hr
    cases hr
    cases hb
    exact hm
  · intro hm
    exact ⟨p, b, hm, if_pos rfl⟩

theorem held_map (q : ι) (bs : List β) : held p (bs.map (q, ·)) = if q = p then bs else [] := by
  induction bs with
  | nil => exact (ite_self _).symm
  | cons b bs ih =>
    rw [List.map_cons, held_cons, ih]
    split_ifs <;> rfl

@[simp] theorem held_dropOldest : held p (dropOldest p l) = (held p l).tail := by
  induction l with
  | nil => rfl
  | cons t l ih =>
    rw [dropOldest, List.eraseP_cons, held_cons]
    by_cases ht : t.1 = p
    · simp [ht]
    · simp only [ht, decide_false, cond_false, held_cons, if_false]
      exact ih

theorem held_dropOldest_of_ne (h : r ≠ p) : held r (dropOldest p l) = held r l := by
  induction l with
  | nil => rfl
  | cons t l ih =>
    rw [dropOldest, List.eraseP_cons, held_cons]
    by_cases ht : t.1 = p
    · simp [ht, Ne.symm h]
    · simp only [ht, decide_false, cond_false, held_cons]
      rw [← dropOldest, ih]

theorem held_filter (f : ι → β → Bool) :
    held p (l.filter fun t => f t.1 t.2) = (held p l).filter (f p) := by
  induction l with
  | nil => rfl
  | cons t l ih =>
    rw [List.filter_cons, held_cons]
    by_cases ht : t.1 = p
    · subst ht
      by_cases hf : f t.1 t.2 = true
      · simp [hf, held_cons, ih]
      · simp [hf, ih]
    · by_cases hf : f t.1 t.2 = true <;> simp [hf, held_cons, ht, ih]

/-- What is held at a place after a move, from what was held everywhere before. -/
def Move.at (h : ι → List β) (r : ι) : Move ι β → List β
  | .stay => h r
  | .enter p b => if r = p then h r ++ [b] else h r
  | .pass p q => (if r = p then (h r).tail else h r) ++ if r = q then (h p).head?.toList else []
  | .passAll p q => (if r = p then [] else h r) ++ if r = q then h p else []
  | .lose p => if r = p then (h r).tail else h r
  | .keep f => (h r).filter (f r)

theorem held_apply (m : Move ι β) : held r (m.apply l) = m.at (fun p => held p l) r := by
  cases m with
  | stay => rfl
  | enter p b =>
    rw [Move.apply, held_append, held_cons, Move.at]
    by_cases hr : r = p
    · simp [hr]
    · simp [hr, Ne.symm hr]
  | pass p q =>
    rw [Move.apply, held_append, held_map, Move.at]
    have hq : (if q = r then (held p l).head?.toList else []) =
        if r = q then (held p l).head?.toList else [] := by simp only [eq_comm]
    rw [hq]
    by_cases hr : r = p
    · subst hr
      rw [held_dropOldest, if_pos rfl]
    · rw [held_dropOldest_of_ne hr, if_neg hr]
  | passAll p q =>
    rw [Move.apply, held_append, held_map, Move.at]
    have hq : (if q = r then held p l else []) = if r = q then held p l else [] := by
      simp only [eq_comm]
    have hp : held r (l.filter fun t => decide (t.1 ≠ p)) = if r = p then [] else held r l := by
      rw [held_filter fun r _ => decide (r ≠ p)]
      by_cases hr : r = p <;> simp [hr]
    rw [hq, hp]
  | lose p =>
    rw [Move.apply, Move.at]
    by_cases hr : r = p
    · subst hr
      rw [held_dropOldest, if_pos rfl]
    · rw [held_dropOldest_of_ne hr, if_neg hr]
  | keep f => exact held_filter f

def Move.arrivals (l : Custody ι β) (r : ι) : Move ι β → List β
  | .enter p b => if r = p then [b] else []
  | .pass p q => if r = q then (held p l).head?.toList else []
  | .passAll p q => if r = q then held p l else []
  | _ => []

theorem held_arrivals (m : Move ι β) (l : Custody ι β) (r : ι) :
    ∃ rest, rest.Sublist (held r l) ∧ held r (m.apply l) = rest ++ m.arrivals l r := by
  rw [held_apply]
  cases m with
  | stay => exact ⟨_, List.Sublist.refl _, (List.append_nil _).symm⟩
  | enter p b =>
    refine ⟨_, List.Sublist.refl _, ?_⟩
    simp only [Move.at, Move.arrivals]
    split_ifs
    · rfl
    · exact (List.append_nil _).symm
  | pass p q =>
    refine ⟨_, ?_, rfl⟩
    split_ifs
    · exact List.tail_sublist _
    · exact List.Sublist.refl _
  | passAll p q =>
    refine ⟨_, ?_, rfl⟩
    split_ifs
    · exact List.nil_sublist _
    · exact List.Sublist.refl _
  | lose p =>
    refine ⟨_, ?_, (List.append_nil _).symm⟩
    simp only [Move.at]
    split_ifs
    · exact List.tail_sublist _
    · exact List.Sublist.refl _
  | keep f => exact ⟨_, List.filter_sublist, (List.append_nil _).symm⟩

theorem held_sublist {m : Move ι β} (h : m.arrivals l r = []) :
    (held r (m.apply l)).Sublist (held r l) := by
  obtain ⟨rest, hrest, hheld⟩ := held_arrivals m l r
  rw [hheld, h, List.append_nil]
  exact hrest

/-! Where a thing that is held was before the move. -/

theorem mem_dropOldest {t : ι × β} (h : t ∈ dropOldest p l) : t ∈ l := List.mem_of_mem_eraseP h

theorem mem_apply {m : Move ι β} (h : (r, b) ∈ m.apply l) :
    (r, b) ∈ l ∨ m = .enter r b ∨
      ∃ p, (m = .pass p r ∧ (held p l).head? = some b ∨ m = .passAll p r) ∧ (p, b) ∈ l := by
  cases m with
  | stay => exact .inl h
  | enter p b' =>
    obtain h | h := List.mem_append.mp h
    · exact .inl h
    · cases List.mem_singleton.mp h
      exact .inr (.inl rfl)
  | pass p q =>
    rw [Move.apply, List.mem_append, List.mem_map] at h
    obtain h | ⟨b', hb, he⟩ := h
    · exact .inl (mem_dropOldest h)
    · cases he
      have hhead := Option.mem_toList.mp hb
      exact .inr (.inr ⟨p, .inl ⟨rfl, hhead⟩, mem_held.mp (List.mem_of_mem_head? hhead)⟩)
  | passAll p q =>
    rw [Move.apply, List.mem_append, List.mem_map] at h
    obtain h | ⟨b', hb, he⟩ := h
    · exact .inl (List.mem_of_mem_filter h)
    · cases he
      exact .inr (.inr ⟨p, .inr rfl, mem_held.mp hb⟩)
  | lose p => exact .inl (mem_dropOldest h)
  | keep f => exact .inl (List.mem_of_mem_filter h)

/-! Nothing is held twice. -/

theorem dropOldest_perm (h : (held p l).head? = some b) :
    ((p, b) :: dropOldest p l).Perm l := by
  induction l with
  | nil => cases h
  | cons t l ih =>
    rw [held_cons] at h
    rw [dropOldest, List.eraseP_cons]
    by_cases ht : t.1 = p
    · rw [if_pos ht] at h
      cases h
      subst ht
      simp only [decide_true, cond_true, List.Perm.refl]
    · rw [if_neg ht] at h
      simp only [ht, decide_false, cond_false]
      exact (List.Perm.swap ..).trans (.cons t (ih h))

theorem filter_perm (p : ι) (l : Custody ι β) :
    (l.filter (fun t => t.1 ≠ p) ++ (held p l).map (p, ·)).Perm l := by
  induction l with
  | nil => exact List.Perm.refl _
  | cons t l ih =>
    rw [held_cons, List.filter_cons]
    by_cases ht : t.1 = p
    · subst ht
      simp only [ne_eq, not_true_eq_false, decide_false, Bool.false_eq_true, if_false, if_true,
        List.map_cons]
      exact List.perm_middle.trans (.cons _ ih)
    · simp only [ne_eq, ht, not_false_eq_true, decide_true, if_true, if_false, List.cons_append]
      exact .cons t ih

theorem Move.nodup {m : Move ι β} (hm : ∀ p b, m ≠ .enter p b) (h : (l.map Prod.snd).Nodup) :
    ((m.apply l).map Prod.snd).Nodup := by
  cases m with
  | stay => exact h
  | enter p b => exact absurd rfl (hm p b)
  | pass p q =>
    cases hb : (held p l).head? with
    | none =>
      simp only [Move.apply, hb, Option.toList_none, List.map_nil, List.append_nil]
      exact h.sublist (List.eraseP_sublist.map _)
    | some b =>
      have hperm := (dropOldest_perm hb).map Prod.snd
      simp only [Move.apply, hb, Option.toList_some, List.map_cons, List.map_nil, List.map_append]
      exact ((List.perm_append_singleton _ _).trans hperm).nodup_iff.mpr h
  | passAll p q =>
    have hperm := (filter_perm p l).map Prod.snd
    simp only [List.map_append, List.map_map] at hperm
    simp only [Move.apply, List.map_append, List.map_map]
    exact hperm.nodup_iff.mpr h
  | lose p => exact h.sublist (List.eraseP_sublist.map _)
  | keep f => exact h.sublist (List.filter_sublist.map _)

omit [DecidableEq ι] in
theorem place_unique (h : (l.map Prod.snd).Nodup) (hp : (p, b) ∈ l) (hq : (q, b) ∈ l) : p = q :=
  congrArg Prod.fst (List.inj_on_of_nodup_map h hp hq rfl)

end IpcBroker.Foundation
