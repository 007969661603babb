import IpcBroker.Rob.Signature

/-! What signatures mean: the sentences of their grammar, each with the arguments that it takes and
the value that it makes of them. -/

namespace IpcBroker.Rob

/-- A value, with a signature and arguments for it. -/
structure Reading where
  sig : List Char
  args : List String
  value : Value

/-- The meaning of a signature: `V ::= 's' | 'i' | 'n' | '{' V* '}' | '(' V* ')'`, where an
entry of an object has its key before the arguments of its value. -/
inductive Denotes : List Char → List String → Value → Prop
  | string (val : String) : Denotes ['s'] [val] (.string val)
  | integer {val : String} {num : Int64} (h : parseI64 val = some num) :
      Denotes ['i'] [val] (.number (.ofI64 num))
  | null : Denotes ['n'] [] .null
  | object (entries : List (String × Reading))
      (h : ∀ e ∈ entries, Denotes e.2.sig e.2.args e.2.value) :
      Denotes ('{' :: (entries.flatMap (·.2.sig) ++ ['}'])) (entries.flatMap fun e => e.1 :: e.2.args)
        (.object (entries.foldl (fun map e => Value.insert e.1 e.2.value map) []))
  | array (items : List Reading) (h : ∀ r ∈ items, Denotes r.sig r.args r.value) :
      Denotes ('(' :: (items.flatMap (·.sig) ++ [')'])) (items.flatMap (·.args))
        (.array (items.map (·.value)))

def IsClosing (c : Char) : Prop := c = '}' ∨ c = ')'

variable {sig chars : List Char} {args q : List String} {v : Value}

theorem Denotes.cons (h : Denotes sig args v) : ∃ c rest, sig = c :: rest ∧ ¬ IsClosing c := by
  cases h with
  | string val => exact ⟨'s', [], rfl, by unfold IsClosing; decide⟩
  | integer hnum => exact ⟨'i', [], rfl, by unfold IsClosing; decide⟩
  | null => exact ⟨'n', [], rfl, by unfold IsClosing; decide⟩
  | object entries _ => exact ⟨'{', _, rfl, by unfold IsClosing; decide⟩
  | array items _ => exact ⟨'(', _, rfl, by unfold IsClosing; decide⟩

def Reading.Parses (x : Reading) : Prop :=
  ∀ r q, parseOut (x.sig ++ r) (x.args ++ q) = .ok (x.value, r, q)

variable {c : Char} {r : List Char}

theorem arrOut_turn (hc : ¬ IsClosing c) (h : parseOut (c :: chars) args = .ok (v, r, q))
    (arr : List Value) : arrOut (c :: chars) args arr = arrOut r q (arr ++ [v]) := by
  have hne : c ≠ ')' := fun h => hc (.inr h)
  rw [arrOut_item hne, h]
  rfl

theorem mapOut_turn (hc : ¬ IsClosing c) (h : parseOut (c :: chars) args = .ok (v, r, q))
    (key : String) (map : List (String × Value)) :
    mapOut (c :: chars) (key :: args) map = mapOut r q (Value.insert key v map) := by
  have hne : c ≠ '}' := fun h => hc (.inl h)
  rw [mapOut_entry hne, h]
  rfl

theorem arrOut_reading {x : Reading} (hx : Denotes x.sig x.args x.value) (hparse : x.Parses)
    (r : List Char) (q : List String) (arr : List Value) :
    arrOut (x.sig ++ r) (x.args ++ q) arr = arrOut r q (arr ++ [x.value]) := by
  obtain ⟨c, rest, hsig, hc⟩ := hx.cons
  have hout := hparse r q
  rw [hsig, List.cons_append] at hout ⊢
  exact arrOut_turn hc hout arr

theorem mapOut_reading {x : Reading} (hx : Denotes x.sig x.args x.value) (hparse : x.Parses)
    (key : String) (r : List Char) (q : List String) (map : List (String × Value)) :
    mapOut (x.sig ++ r) (key :: (x.args ++ q)) map = mapOut r q (Value.insert key x.value map) := by
  obtain ⟨c, rest, hsig, hc⟩ := hx.cons
  have hout := hparse r q
  rw [hsig, List.cons_append] at hout ⊢
  exact mapOut_turn hc hout key map

theorem arrOut_readings {items : List Reading} (h : ∀ x ∈ items, Denotes x.sig x.args x.value)
    (ih : ∀ x ∈ items, x.Parses) (r : List Char) (q : List String) (arr : List Value) :
    arrOut (items.flatMap (·.sig) ++ r) (items.flatMap (·.args) ++ q) arr =
      arrOut r q (arr ++ items.map (·.value)) := by
  induction items generalizing arr with
  | nil => rw [List.map_nil, List.append_nil, List.flatMap_nil, List.flatMap_nil]; rfl
  | cons x items ihs =>
    rw [List.flatMap_cons, List.flatMap_cons, List.append_assoc, List.append_assoc,
      arrOut_reading (h x List.mem_cons_self) (ih x List.mem_cons_self),
      ihs (fun y hy => h y (List.mem_cons_of_mem x hy)) fun y hy => ih y (List.mem_cons_of_mem x hy),
      List.map_cons, List.append_assoc]
    rfl

theorem mapOut_readings {entries : List (String × Reading)}
    (h : ∀ e ∈ entries, Denotes e.2.sig e.2.args e.2.value) (ih : ∀ e ∈ entries, e.2.Parses)
    (r : List Char) (q : List String) (map : List (String × Value)) :
    mapOut (entries.flatMap (·.2.sig) ++ r) ((entries.flatMap fun e => e.1 :: e.2.args) ++ q) map =
      mapOut r q (entries.foldl (fun map e => Value.insert e.1 e.2.value map) map) := by
  induction entries generalizing map with
  | nil => rfl
  | cons e entries ihs =>
    rw [List.flatMap_cons, List.flatMap_cons, List.append_assoc, List.append_assoc, List.cons_append,
      mapOut_reading (h e List.mem_cons_self) (ih e List.mem_cons_self),
      ihs (fun y hy => h y (List.mem_cons_of_mem e hy)) fun y hy => ih y (List.mem_cons_of_mem e hy),
      List.foldl_cons]

theorem parseOut_denotes (h : Denotes sig args v) (r : List Char) (q : List String) :
    parseOut (sig ++ r) (args ++ q) = .ok (v, r, q) := by
  induction h generalizing r q with
  | string val => exact parseOut_string
  | integer hnum =>
    rw [List.singleton_append, List.singleton_append, parseOut_integer, hnum]
  | null => exact parseOut_null
  | object entries h ih =>
    have hloop := mapOut_readings h (fun e he => ih e he) ('}' :: r) q []
    rw [List.cons_append, List.append_assoc, parseOut_object, List.singleton_append, hloop,
      mapOut_close]
    rfl
  | array items h ih =>
    have hloop := arrOut_readings h (fun x hx => ih x hx) (')' :: r) q []
    rw [List.cons_append, List.append_assoc, parseOut_array, List.singleton_append, hloop,
      arrOut_close, List.nil_append]
    rfl

end IpcBroker.Rob
