import IpcBroker.Rob.Denotation

/-! The encoding of a value by a signature and arguments, and that `parse_signature` inverts it. -/

namespace IpcBroker.Rob
open Foundation

/-! Integers in decimal. -/

theorem checked_eq {num : Int} (h : -2 ^ 63 ≤ num ∧ num < 2 ^ 63) : checked num = some num :=
  if_pos h

def signed (isPositive : Bool) (n : Nat) : Int := if isPositive then n else -n

theorem pushDigit_digitChar (isPositive : Bool) {m k : Nat} (hk : k < 10)
    (h : -2 ^ 63 ≤ signed isPositive (10 * m + k) ∧ signed isPositive (10 * m + k) < 2 ^ 63) :
    pushDigit isPositive (signed isPositive m) k.digitChar =
      some (signed isPositive (10 * m + k)) := by
  have hdigit : k.digitChar.isDigit = true := by
    rw [Nat.isDigit_digitChar]
    exact decide_eq_true hk
  have hval : k.digitChar.toNat - 48 = k := Nat.toNat_digitChar_sub_48_of_lt_ten hk
  have hmul : signed isPositive m * 10 = signed isPositive (10 * m) := by
    cases isPositive <;> simp only [signed, if_true, Bool.false_eq_true, if_false] <;> omega
  have hadd : (if isPositive then signed isPositive (10 * m) + (k : Int)
      else signed isPositive (10 * m) - (k : Int)) = signed isPositive (10 * m + k) := by
    cases isPositive <;> simp only [signed, if_true, Bool.false_eq_true, if_false] <;> omega
  have hrange : -2 ^ 63 ≤ signed isPositive (10 * m) ∧ signed isPositive (10 * m) < 2 ^ 63 := by
    cases isPositive <;> simp only [signed, if_true, Bool.false_eq_true, if_false] at h ⊢ <;> omega
  rw [pushDigit, if_pos hdigit, hmul, checked_eq hrange, Option.bind_some, hval, hadd, checked_eq h]

theorem foldlM_pushDigit (isPositive : Bool) (n : Nat)
    (h : -2 ^ 63 ≤ signed isPositive n ∧ signed isPositive n < 2 ^ 63) :
    (Nat.toDigits 10 n).foldlM (pushDigit isPositive) 0 = some (signed isPositive n) := by
  have hzero : (0 : Int) = signed isPositive 0 := by cases isPositive <;> rfl
  induction n using Nat.base_induction 10 (by decide) with
  | single k hk =>
    have hpush := pushDigit_digitChar isPositive (m := 0) hk
    rw [Nat.mul_zero, Nat.zero_add] at hpush
    rw [Nat.toDigits_of_lt_base hk, List.foldlM_cons, hzero, hpush h]
    rfl
  | digit m k hk hm ih =>
    have hrange : -2 ^ 63 ≤ signed isPositive m ∧ signed isPositive m < 2 ^ 63 := by
      cases isPositive <;> simp only [signed, if_true, Bool.false_eq_true, if_false] at h ⊢ <;> omega
    rw [← Nat.toDigits_append_toDigits (by decide) hm hk, List.foldlM_append, ih hrange,
      Nat.toDigits_of_lt_base hk]
    simp only [Option.bind_eq_bind, Option.bind_some, List.foldlM_cons, List.foldlM_nil,
      pushDigit_digitChar isPositive hk h]
    rfl

def decimal (num : Int64) : String := toString num.toInt

theorem parseDigits_toDigits (isPositive : Bool) (n : Nat)
    (h : -2 ^ 63 ≤ signed isPositive n ∧ signed isPositive n < 2 ^ 63) :
    parseDigits isPositive (Nat.toDigits 10 n) = some (Int64.ofInt (signed isPositive n)) := by
  rw [parseDigits, if_neg Nat.toDigits_ne_nil, foldlM_pushDigit isPositive n h, Option.map_some]

theorem int64_range (num : Int64) : -2 ^ 63 ≤ num.toInt ∧ num.toInt < 2 ^ 63 :=
  ⟨num.le_toInt, num.toInt_lt⟩

theorem parseI64_decimal (num : Int64) : parseI64 (decimal num) = some num := by
  have hrange := int64_range num
  have hback : Int64.ofInt num.toInt = num := Int64.ofInt_toInt num
  unfold parseI64 decimal
  cases hnum : num.toInt with
  | ofNat n =>
    rw [hnum] at hrange hback
    have hdigits : (toString (Int.ofNat n)).toList = Nat.toDigits 10 n := Nat.toList_repr
    have hfirst : ∀ c cs, Nat.toDigits 10 n = c :: cs → c.isDigit = true := by
      intro c cs h
      exact Nat.isDigit_of_mem_toDigits (by decide) (by decide) (h ▸ List.mem_cons_self)
    have hparse : parseDigits true (Nat.toDigits 10 n) = some num := by
      rw [parseDigits_toDigits true n hrange]
      exact congrArg some hback
    rw [hdigits]
    split
    · next digits h => exact absurd (hfirst '-' digits h) (by decide)
    · next digits h => exact absurd (hfirst '+' digits h) (by decide)
    · exact hparse
  | negSucc n =>
    rw [hnum] at hrange hback
    have hdigits : (toString (Int.negSucc n)).toList = '-' :: Nat.toDigits 10 (n + 1) := by
      have hneg : toString (Int.negSucc n) = "-" ++ (n + 1).repr := rfl
      rw [hneg, String.toList_append, Nat.toList_repr]
      rfl
    rw [hdigits]
    exact (parseDigits_toDigits false (n + 1) hrange).trans (congrArg some hback)

/-! Values with their encodings. -/

/-- The values that signatures are for; a map of `serde_json` has its keys in order. -/
inductive Expressible : Value → Prop
  | string (val : String) : Expressible (.string val)
  | integer (num : Int64) : Expressible (.number (.ofI64 num))
  | null : Expressible .null
  | object (map : List (String × Value)) (hmap : KeysOrdered map)
      (h : ∀ e ∈ map, Expressible e.2) : Expressible (.object map)
  | array (arr : List Value) (h : ∀ v ∈ arr, Expressible v) : Expressible (.array arr)

/-- A signature of a value with its arguments: the entries of an object come in any order, each
with its key directly before the arguments of its value. -/
inductive Encodes : Value → List Char → List String → Prop
  | string (val : String) : Encodes (.string val) ['s'] [val]
  | integer (num : Int64) : Encodes (.number (.ofI64 num)) ['i'] [decimal num]
  | null : Encodes .null ['n'] []
  | object {map : List (String × Value)} (order : List (String × Reading)) (hmap : KeysOrdered map)
      (horder : (order.map fun e => (e.1, e.2.value)).Perm map)
      (h : ∀ e ∈ order, Encodes e.2.value e.2.sig e.2.args) :
      Encodes (.object map) ('{' :: (order.flatMap (·.2.sig) ++ ['}']))
        (order.flatMap fun e => e.1 :: e.2.args)
  | array (items : List Reading) (h : ∀ r ∈ items, Encodes r.value r.sig r.args) :
      Encodes (.array (items.map (·.value))) ('(' :: (items.flatMap (·.sig) ++ [')']))
        (items.flatMap (·.args))

variable {v : Value} {sig : List Char} {args : List String}

theorem Encodes.denotes (h : Encodes v sig args) : Denotes sig args v := by
  induction h with
  | string val => exact .string val
  | integer num => exact .integer (parseI64_decimal num)
  | null => exact .null
  | @object map order hmap horder h ih =>
    have hinsert : order.foldl (fun map e => Value.insert e.1 e.2.value map) [] = map := by
      have hfold := hmap.foldl_insertKey horder
      rwa [List.foldl_map] at hfold
    exact hinsert ▸ Denotes.object order ih
  | array items h ih => exact .array items ih

theorem exists_readings {arr : List Value} (h : ∀ v ∈ arr, ∃ sig args, Encodes v sig args) :
    ∃ items : List Reading, items.map (·.value) = arr ∧
      ∀ x ∈ items, Encodes x.value x.sig x.args := by
  induction arr with
  | nil => exact ⟨[], rfl, fun x hx => absurd hx List.not_mem_nil⟩
  | cons v arr ih =>
    obtain ⟨sig, args, hv⟩ := h v List.mem_cons_self
    obtain ⟨items, rfl, hitems⟩ := ih fun v hv => h v (List.mem_cons_of_mem _ hv)
    refine ⟨⟨sig, args, v⟩ :: items, rfl, fun x hx => ?_⟩
    obtain rfl | hx := List.mem_cons.mp hx
    · exact hv
    · exact hitems x hx

theorem exists_entries {map : List (String × Value)}
    (h : ∀ e ∈ map, ∃ sig args, Encodes e.2 sig args) :
    ∃ order : List (String × Reading), (order.map fun e => (e.1, e.2.value)) = map ∧
      ∀ e ∈ order, Encodes e.2.value e.2.sig e.2.args := by
  induction map with
  | nil => exact ⟨[], rfl, fun e he => absurd he List.not_mem_nil⟩
  | cons d map ih =>
    obtain ⟨sig, args, hd⟩ := h d List.mem_cons_self
    obtain ⟨order, rfl, horder⟩ := ih fun e he => h e (List.mem_cons_of_mem _ he)
    refine ⟨(d.1, ⟨sig, args, d.2⟩) :: order, rfl, fun e he => ?_⟩
    obtain rfl | he := List.mem_cons.mp he
    · exact hd
    · exact horder e he

theorem Expressible.encodes (h : Expressible v) : ∃ sig args, Encodes v sig args := by
  induction h with
  | string val => exact ⟨_, _, .string val⟩
  | integer num => exact ⟨_, _, .integer num⟩
  | null => exact ⟨_, _, .null⟩
  | object map hmap h ih =>
    obtain ⟨order, horder, hencodes⟩ := exists_entries ih
    exact ⟨_, _, .object order hmap (horder ▸ .refl _) hencodes⟩
  | array arr h ih =>
    obtain ⟨items, rfl, hencodes⟩ := exists_readings ih
    exact ⟨_, _, .array items hencodes⟩

theorem parse_of_parseOut {chars : List Char} {r : Value × List Char × List String}
    (h : parseOut chars args = .ok r) : ∃ p, parse chars args = .ok p ∧ p.out = r := by
  unfold parseOut at h
  cases hp : parse chars args with
  | error e =>
    rw [hp] at h
    cases h
  | ok p =>
    rw [hp] at h
    cases h
    exact ⟨p, rfl, rfl⟩

/-- The parser inverts the encoding: on the signature and the arguments of a value, and whatever
comes after them, it returns that value and leaves exactly the rest. -/
theorem parse_inverts_encoding (hv : Expressible v) :
    (∃ sig args, Encodes v sig args) ∧ ∀ sig args, Encodes v sig args →
      (∀ r q, ∃ p, parse (sig ++ r) (args ++ q) = .ok p ∧ p.value = v ∧ p.chars = r ∧ p.args = q) ∧
      parseSignature (String.ofList sig) args = .ok (v, []) := by
  refine ⟨hv.encodes, fun sig args h => ⟨fun r q => ?_, ?_⟩⟩
  · obtain ⟨p, hp, hout⟩ := parse_of_parseOut (parseOut_denotes h.denotes r q)
    obtain ⟨hvalue, hrest⟩ := Prod.mk.inj hout
    obtain ⟨hchars, hargs⟩ := Prod.mk.inj hrest
    exact ⟨p, hp, hvalue, hchars, hargs⟩
  · have hwhole := parseOut_denotes h.denotes [] []
    rw [List.append_nil, List.append_nil] at hwhole
    rw [parseSignature_eq, String.toList_ofList, hwhole]
    rfl

def nested : Value := .object [("k", .array [.string "a", .number (.ofI64 (-42)), .null])]

theorem parse_inverts_encoding_nested :
    parseSignature (String.ofList ['{', '(', 's', 'i', 'n', ')', '}']) ["k", "a", "-42"] =
      .ok (nested, []) := by
  have harr : ∀ v ∈ [Value.string "a", .number (.ofI64 (-42)), .null], Expressible v := by
    intro v hv
    simp only [List.mem_cons, List.not_mem_nil, or_false] at hv
    obtain rfl | rfl | rfl := hv
    · exact .string "a"
    · exact .integer (-42)
    · exact .null
  have hvalue : Expressible nested := by
    refine .object _ (List.pairwise_singleton _ _) fun e he => ?_
    obtain rfl := List.mem_singleton.mp he
    exact .array _ harr
  let items : List Reading :=
    [⟨['s'], ["a"], .string "a"⟩, ⟨['i'], ["-42"], .number (.ofI64 (-42))⟩, ⟨['n'], [], .null⟩]
  have hitems : ∀ x ∈ items, Encodes x.value x.sig x.args := by
    intro x hx
    simp only [items, List.mem_cons, List.not_mem_nil, or_false] at hx
    obtain rfl | rfl | rfl := hx
    · exact .string "a"
    · exact .integer (-42)
    · exact .null
  have hencodes : Encodes nested ['{', '(', 's', 'i', 'n', ')', '}'] ["k", "a", "-42"] := by
    refine .object [("k", ⟨['(', 's', 'i', 'n', ')'], ["a", "-42"], .array (items.map (·.value))⟩)]
      (List.pairwise_singleton _ _) (.refl _) fun e he => ?_
    obtain rfl := List.mem_singleton.mp he
    exact .array items hitems
  exact ((parse_inverts_encoding hvalue).2 _ _ hencodes).2

end IpcBroker.Rob
