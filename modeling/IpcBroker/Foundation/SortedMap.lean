import Mathlib.Order.Lattice
import Mathlib.Data.List.Nodup

/-! Maps as lists of entries in the order of their keys, which are all different; insertion, and
what a list of insertions makes of the empty map. -/

namespace IpcBroker.Foundation
variable {κ α : Type*} [LinearOrder κ]

def insertKey (key : κ) (val : α) : List (κ × α) → List (κ × α)
  | [] => [(key, val)]
  | entry :: entries =>
    if key < entry.1 then (key, val) :: entry :: entries
    else if key = entry.1 then (key, val) :: entries
    else entry :: insertKey key val entries

def KeysOrdered (map : List (κ × α)) : Prop := map.Pairwise fun a b => a.1 < b.1

variable {key : κ} {val : α} {e : κ × α} {map map' order : List (κ × α)}

theorem mem_insertKey (h : e ∈ insertKey key val map) : e = (key, val) ∨ e ∈ map := by
  induction map with
  | nil => exact .inl (List.mem_singleton.mp h)
  | cons entry entries ih =>
    rw [insertKey] at h
    split_ifs at h
    · exact List.mem_cons.mp h
    · exact (List.mem_cons.mp h).imp_right (List.mem_cons_of_mem entry)
    · obtain rfl | h := List.mem_cons.mp h
      · exact .inr List.mem_cons_self
      · exact (ih h).imp_right (List.mem_cons_of_mem entry)

theorem KeysOrdered.insertKey (h : KeysOrdered map) (key : κ) (val : α) :
    KeysOrdered (insertKey key val map) := by
  induction map with
  | nil => exact List.pairwise_singleton _ _
  | cons entry entries ih =>
    obtain ⟨hentry, hentries⟩ := List.pairwise_cons.mp h
    rw [Foundation.insertKey]
    split_ifs with hlt heq
    · refine List.pairwise_cons.mpr ⟨fun e he => ?_, h⟩
      obtain rfl | he := List.mem_cons.mp he
      · exact hlt
      · exact lt_trans hlt (hentry e he)
    · refine List.pairwise_cons.mpr ⟨fun e he => ?_, hentries⟩
      exact lt_of_eq_of_lt heq (hentry e he)
    · refine List.pairwise_cons.mpr ⟨fun e he => ?_, ih hentries⟩
      obtain rfl | he := mem_insertKey he
      · exact lt_of_le_of_ne (not_lt.mp hlt) fun h => heq h.symm
      · exact hentry e he

theorem insertKey_perm (h : ∀ e ∈ map, e.1 ≠ key) : (insertKey key val map).Perm ((key, val) :: map) := by
  induction map with
  | nil => exact .refl _
  | cons entry entries ih =>
    have hentries : ∀ e ∈ entries, e.1 ≠ key := fun e he => h e (List.mem_cons_of_mem entry he)
    rw [insertKey, if_neg fun heq : key = entry.1 => h entry List.mem_cons_self heq.symm]
    split_ifs
    · exact .refl _
    · exact ((ih hentries).cons entry).trans (.swap _ _ _)

theorem foldl_insertKey (horder : (order.map (·.1)).Nodup) (hmap : KeysOrdered map)
    (hnew : ∀ e ∈ order, ∀ e' ∈ map, e'.1 ≠ e.1) :
    KeysOrdered (order.foldl (fun map e => insertKey e.1 e.2 map) map) ∧
      (order.foldl (fun map e => insertKey e.1 e.2 map) map).Perm (order ++ map) := by
  induction order generalizing map with
  | nil => exact ⟨hmap, .refl _⟩
  | cons e order ih =>
    rw [List.map_cons, List.nodup_cons] at horder
    obtain ⟨he, horder⟩ := horder
    have hinsert : ∀ d ∈ order, ∀ e' ∈ insertKey e.1 e.2 map, e'.1 ≠ d.1 := by
      intro d hd e' he'
      obtain rfl | he' := mem_insertKey he'
      · exact fun h => he (List.mem_map.mpr ⟨d, hd, h.symm⟩)
      · exact hnew d (List.mem_cons_of_mem e hd) e' he'
    obtain ⟨hkeys, hperm⟩ := ih horder (hmap.insertKey e.1 e.2) hinsert
    have hone : (insertKey e.1 e.2 map).Perm (e :: map) := insertKey_perm (hnew e List.mem_cons_self)
    exact ⟨hkeys, hperm.trans ((hone.append_left order).trans List.perm_middle)⟩

theorem KeysOrdered.eq_of_perm (h : KeysOrdered map) (h' : KeysOrdered map') (hp : map.Perm map') :
    map = map' := by
  refine hp.eq_of_pairwise (fun a b _ _ hab hba => ?_) h h'
  exact absurd hab (lt_asymm hba)

theorem KeysOrdered.nodup (h : KeysOrdered map) : (map.map (·.1)).Nodup := by
  rw [List.Nodup, List.pairwise_map]
  exact List.Pairwise.imp (fun hlt => ne_of_lt hlt) h

/-- Whatever the order in which the entries of a map are inserted, they make that map. -/
theorem KeysOrdered.foldl_insertKey (h : KeysOrdered map) (hp : order.Perm map) :
    order.foldl (fun map e => Foundation.insertKey e.1 e.2 map) [] = map := by
  have horder : (order.map (·.1)).Nodup := ((hp.map (·.1)).nodup_iff).mpr h.nodup
  have hnil : KeysOrdered ([] : List (κ × α)) := List.Pairwise.nil
  obtain ⟨hkeys, hperm⟩ := Foundation.foldl_insertKey horder hnil
    fun e _ e' he' => absurd he' List.not_mem_nil
  rw [List.append_nil] at hperm
  exact hkeys.eq_of_perm h (hperm.trans hp)

end IpcBroker.Foundation
