import IpcBroker.Foundation.SortedMap
import IpcBroker.Protocol.Framing
import Mathlib.Algebra.Group.Int.Defs
import Mathlib.Data.String.Basic

/-! `parse_signature` of `rob`: a value from the characters of a signature and the arguments of the
command line, two iterators that the parser moves forward together. -/

namespace IpcBroker
open Foundation

def Number.ofI64 (num : Int64) : Number := if num < 0 then .negInt num else .posInt num.toUInt64

/-- `serde_json::Map::insert`: a map keeps its keys in order, and a key that is there gets the new
value. -/
def Value.insert (key : String) (val : Value) (map : List (String × Value)) :
    List (String × Value) := insertKey key val map

namespace Rob

def checked (num : Int) : Option Int := if -2 ^ 63 ≤ num ∧ num < 2 ^ 63 then some num else none

/-- One digit of a number: `checked_mul`, then `checked_add` or `checked_sub`. -/
def pushDigit (isPositive : Bool) (num : Int) (c : Char) : Option Int :=
  if c.isDigit then
    (checked (num * 10)).bind fun num =>
      checked (if isPositive then num + (c.toNat - 48 : Nat) else num - (c.toNat - 48 : Nat))
  else none

def parseDigits (isPositive : Bool) (digits : List Char) : Option Int64 :=
  if digits = [] then none else (digits.foldlM (pushDigit isPositive) 0).map Int64.ofInt

/-- `str::parse::<i64>`: an optional sign, and the digits of a number in the range. -/
def parseI64 (val : String) : Option Int64 :=
  match val.toList with
  | '-' :: digits => parseDigits false digits
  | '+' :: digits => parseDigits true digits
  | digits => parseDigits true digits

/-- What is parsed from the front of `n` characters, and what the two iterators have left. -/
structure Parsed (α : Type) (n : Nat) where
  value : α
  chars : List Char
  args : List String
  consumed : chars.length < n

mutual

/-- The inner `parse`. -/
def parse : (chars : List Char) → List String → Except String (Parsed Value chars.length)
  | 's' :: chars, args =>
    match args with
    | val :: args => .ok ⟨.string val, chars, args, Nat.lt_succ_self _⟩
    | [] => .error "expected string argument"
  | 'i' :: chars, args =>
    match args with
    | val :: args =>
      match parseI64 val with
      | some num => .ok ⟨.number (.ofI64 num), chars, args, Nat.lt_succ_self _⟩
      | none => .error ("invalid integer: " ++ val)
    | [] => .error "expected integer argument"
  | '{' :: chars, args =>
    match parseMap chars args [] with
    | .ok r => .ok ⟨.object r.value, r.chars, r.args, r.consumed⟩
    | .error e => .error e
  | '(' :: chars, args =>
    match parseArr chars args [] with
    | .ok r => .ok ⟨.array r.value, r.chars, r.args, r.consumed⟩
    | .error e => .error e
  | c :: chars, args =>
    if c = 'n' then .ok ⟨.null, chars, args, Nat.lt_succ_self _⟩
    else .error ("unexpected char in signature: " ++ String.singleton c)
  | [], _ => .error "unexpected end of signature"
termination_by chars => (chars.length, 0)

/-- The loop of an object: it ends at its bracket, and at the end of the signature as well. -/
def parseMap : (chars : List Char) → List String → List (String × Value) →
    Except String (Parsed (List (String × Value)) (chars.length + 1))
  | c :: chars, args, map =>
    if c = '}' then .ok ⟨map, chars, args, Nat.lt_succ_of_lt (Nat.lt_succ_self _)⟩
    else
      match args with
      | key :: args =>
        match parse (c :: chars) args with
        | .ok r =>
          have := r.consumed
          match parseMap r.chars r.args (Value.insert key r.value map) with
          | .ok r' => .ok ⟨r'.value, r'.chars, r'.args, Nat.lt_of_lt_of_le r'.consumed
              (Nat.le_succ_of_le r.consumed)⟩
          | .error e => .error e
        | .error e => .error e
      | [] => .error "expected map key"
  | [], args, map => .ok ⟨map, [], args, Nat.lt_succ_self _⟩
termination_by chars => (chars.length, 1)

/-- The loop of an array, with the same two ends. -/
def parseArr : (chars : List Char) → List String → List Value →
    Except String (Parsed (List Value) (chars.length + 1))
  | c :: chars, args, arr =>
    if c = ')' then .ok ⟨arr, chars, args, Nat.lt_succ_of_lt (Nat.lt_succ_self _)⟩
    else
      match parse (c :: chars) args with
      | .ok r =>
        have := r.consumed
        match parseArr r.chars r.args (arr ++ [r.value]) with
        | .ok r' => .ok ⟨r'.value, r'.chars, r'.args, Nat.lt_of_lt_of_le r'.consumed
            (Nat.le_succ_of_le r.consumed)⟩
        | .error e => .error e
      | .error e => .error e
  | [], args, arr => .ok ⟨arr, [], args, Nat.lt_succ_self _⟩
termination_by chars => (chars.length, 1)

end

attribute [local simp] parse parseMap parseArr

/-- `parse_signature`, which does not look at what `parse` leaves of the signature: the value, and
what is left of the arguments. -/
def parseSignature (sig : String) (args : List String) : Except String (Value × List String) :=
  match parse sig.toList args with
  | .ok r => .ok (r.value, r.args)
  | .error e => .error e

/-- What `main` comes to before it connects: a text to print, or a command with its `parsed_args`. -/
inductive Start
  | version
  | help
  | usage
  | command (command object method : String) (parsedArgs : Value)

def isVersion (arg : String) : Bool := arg = "--version" || arg = "-v"

def isHelp (arg : String) : Bool := arg = "--help" || arg = "-h"

/-- `parsed_args`, from the signature and the arguments behind it. -/
def parsedArgs (signature : String) (args : List String) : Except IoError Value :=
  if signature = "" then .ok .null
  else
    match parseSignature signature args with
    | .ok r => .ok r.1
    | .error e => .error (.custom .invalidInput e)

/-- `main` on the command line after the name of the program, up to its connection. The two flags
count wherever they stand. -/
def main (args : List String) : Except IoError Start :=
  if args.any isVersion then .ok .version
  else if args.any isHelp then .ok .help
  else
    match args with
    | command :: object :: method :: rest =>
      match parsedArgs (rest.head?.getD "") rest.tail with
      | .ok v => .ok (.command command object method v)
      | .error e => .error e
    | _ => .ok .usage

/-! The parser by what it returns, without the bound on what is left. -/

def Parsed.out {α : Type} {n : Nat} (r : Parsed α n) : α × List Char × List String :=
  (r.value, r.chars, r.args)

def parseOut (chars : List Char) (args : List String) :
    Except String (Value × List Char × List String) := (parse chars args).map Parsed.out

def mapOut (chars : List Char) (args : List String) (map : List (String × Value)) :
    Except String (List (String × Value) × List Char × List String) :=
  (parseMap chars args map).map Parsed.out

def arrOut (chars : List Char) (args : List String) (arr : List Value) :
    Except String (List Value × List Char × List String) := (parseArr chars args arr).map Parsed.out

variable {chars : List Char} {args : List String} {map : List (String × Value)} {arr : List Value}
  {c : Char} {key : String}

theorem parseSignature_eq (sig : String) (args : List String) :
    parseSignature sig args = (parseOut sig.toList args).map fun r => (r.1, r.2.2) := by
  unfold parseSignature parseOut
  cases parse sig.toList args <;> rfl

@[simp] theorem parseOut_nil : parseOut [] args = .error "unexpected end of signature" := by
  rw [parseOut, parse]
  rfl

@[simp] theorem parseOut_string {val : String} :
    parseOut ('s' :: chars) (val :: args) = .ok (.string val, chars, args) := by
  rw [parseOut, parse]
  rfl

@[simp] theorem parseOut_integer {val : String} :
    parseOut ('i' :: chars) (val :: args) =
      match parseI64 val with
      | some num => .ok (.number (.ofI64 num), chars, args)
      | none => .error ("invalid integer: " ++ val) := by
  rw [parseOut, parse]
  split <;> rfl

@[simp] theorem parseOut_null : parseOut ('n' :: chars) args = .ok (.null, chars, args) := by
  rw [parseOut, parse] <;> simp
  rfl

@[simp] theorem parseOut_object :
    parseOut ('{' :: chars) args = (mapOut chars args []).map fun r => (.object r.1, r.2) := by
  rw [parseOut, parse, mapOut]
  cases parseMap chars args [] <;> rfl

@[simp] theorem parseOut_array :
    parseOut ('(' :: chars) args = (arrOut chars args []).map fun r => (.array r.1, r.2) := by
  rw [parseOut, parse, arrOut]
  cases parseArr chars args [] <;> rfl

theorem parseOut_other (hs : c ≠ 's') (hi : c ≠ 'i') (hmap : c ≠ '{') (harr : c ≠ '(')
    (hn : c ≠ 'n') :
    parseOut (c :: chars) args =
      .error ("unexpected char in signature: " ++ String.singleton c) := by
  rw [parseOut, parse, if_neg hn]
  · rfl
  all_goals assumption

@[simp] theorem mapOut_nil : mapOut [] args map = .ok (map, [], args) := by
  rw [mapOut, parseMap]
  rfl

@[simp] theorem mapOut_close : mapOut ('}' :: chars) args map = .ok (map, chars, args) := by
  rw [mapOut, parseMap.eq_def]
  rfl

theorem mapOut_noKey (h : c ≠ '}') :
    mapOut (c :: chars) [] map = .error "expected map key" := by
  rw [mapOut, parseMap.eq_def]
  simp only [if_neg h]
  rfl

theorem mapOut_entry (h : c ≠ '}') :
    mapOut (c :: chars) (key :: args) map =
      (parseOut (c :: chars) args).bind fun r => mapOut r.2.1 r.2.2 (Value.insert key r.1 map) := by
  rw [mapOut, parseMap.eq_def, parseOut]
  simp only [if_neg h]
  cases parse (c :: chars) args with
  | error e => rfl
  | ok r =>
    simp only [mapOut, Except.map, Except.bind, Parsed.out]
    cases parseMap r.chars r.args (Value.insert key r.value map) <;> rfl

@[simp] theorem arrOut_nil : arrOut [] args arr = .ok (arr, [], args) := by
  rw [arrOut, parseArr]
  rfl

@[simp] theorem arrOut_close : arrOut (')' :: chars) args arr = .ok (arr, chars, args) := by
  rw [arrOut, parseArr]
  rfl

theorem arrOut_item (h : c ≠ ')') :
    arrOut (c :: chars) args arr =
      (parseOut (c :: chars) args).bind fun r => arrOut r.2.1 r.2.2 (arr ++ [r.1]) := by
  rw [arrOut, parseArr, if_neg h, parseOut]
  cases parse (c :: chars) args with
  | error e => rfl
  | ok r =>
    simp only [arrOut, Except.map, Except.bind, Parsed.out]
    cases parseArr r.chars r.args (arr ++ [r.value]) <;> rfl

theorem parseOut_cases {r : Value × List Char × List String}
    (h : parseOut (c :: chars) args = .ok r) :
    (∃ val args', c = 's' ∧ args = val :: args' ∧ r = (.string val, chars, args')) ∨
      (∃ val num args', c = 'i' ∧ args = val :: args' ∧ parseI64 val = some num ∧
        r = (.number (.ofI64 num), chars, args')) ∨
      (c = 'n' ∧ r = (.null, chars, args)) ∨
      (c = '{' ∧ ((mapOut chars args []).map fun r => (Value.object r.1, r.2)) = .ok r) ∨
      (c = '(' ∧ ((arrOut chars args []).map fun r => (Value.array r.1, r.2)) = .ok r) := by
  by_cases hs : c = 's'
  · subst hs
    cases args with
    | nil =>
      rw [parseOut, parse] at h
      cases h
    | cons val args =>
      rw [parseOut_string] at h
      exact .inl ⟨val, args, rfl, rfl, (Except.ok.inj h).symm⟩
  by_cases hi : c = 'i'
  · subst hi
    cases args with
    | nil =>
      rw [parseOut, parse] at h
      cases h
    | cons val args =>
      rw [parseOut_integer] at h
      split at h
      · next num hnum =>
        exact .inr (.inl ⟨val, num, args, rfl, rfl, hnum, (Except.ok.inj h).symm⟩)
      · cases h
  by_cases hn : c = 'n'
  · subst hn
    rw [parseOut_null] at h
    exact .inr (.inr (.inl ⟨rfl, (Except.ok.inj h).symm⟩))
  by_cases hmap : c = '{'
  · subst hmap
    exact .inr (.inr (.inr (.inl ⟨rfl, parseOut_object ▸ h⟩)))
  by_cases harr : c = '('
  · subst harr
    exact .inr (.inr (.inr (.inr ⟨rfl, parseOut_array ▸ h⟩)))
  rw [parseOut_other hs hi hmap harr hn] at h
  cases h

end Rob
end IpcBroker
