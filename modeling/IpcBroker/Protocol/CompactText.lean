import IpcBroker.Protocol.Stream

/-! The text that `serde_json::to_vec` writes, with no blanks, and how long the texts of the
messages are. The digits of a float are those of a third-party crate. -/

namespace IpcBroker

def hexDigit (n : Nat) : UInt8 := UInt8.ofNat (if n < 10 then 48 + n else 87 + n)

/-- A character of a string: quotes, backslashes and control characters are escaped. -/
def escapeChar (c : Char) : List UInt8 :=
  if c = '\x22' then asciiBytes "\\\""
  else if c = '\x5c' then asciiBytes "\\\\"
  else if c = '\x08' then asciiBytes "\\b"
  else if c = '\x09' then asciiBytes "\\t"
  else if c = '\x0a' then asciiBytes "\\n"
  else if c = '\x0c' then asciiBytes "\\f"
  else if c = '\x0d' then asciiBytes "\\r"
  else if c < ' ' then asciiBytes "\\u00" ++ [hexDigit (c.toNat / 16), hexDigit (c.toNat % 16)]
  else String.utf8EncodeChar c

def escape (s : String) : List UInt8 := s.toList.flatMap escapeChar

def stringText (s : String) : List UInt8 := asciiBytes "\"" ++ escape s ++ asciiBytes "\""

def Number.text (float : UInt64 → List UInt8) : Number → List UInt8
  | .posInt n => asciiBytes (toString n.toNat)
  | .negInt n => asciiBytes (toString n.toInt)
  | .float bits => float bits

def separator (first : Bool) : List UInt8 := if first then [] else asciiBytes ","

variable (float : UInt64 → List UInt8)

mutual

/-- `serde_json::to_vec`. -/
def Value.text : Value → List UInt8
  | .null => asciiBytes "null"
  | .bool b => asciiBytes (if b then "true" else "false")
  | .number n => n.text float
  | .string s => stringText s
  | .array items => asciiBytes "[" ++ Value.itemsText true items ++ asciiBytes "]"
  | .object entries => asciiBytes "\x7b" ++ Value.entriesText true entries ++ asciiBytes "\x7d"

def Value.itemsText (first : Bool) : List Value → List UInt8
  | [] => []
  | v :: items => separator first ++ v.text ++ Value.itemsText false items

def Value.entriesText (first : Bool) : List (String × Value) → List UInt8
  | [] => []
  | (key, v) :: entries =>
    separator first ++ stringText key ++ asciiBytes ":" ++ v.text ++
      Value.entriesText false entries

end

def compactJson (fromSlice : List UInt8 → Option Value) : JsonText := ⟨Value.text float, fromSlice⟩

def escapedLength (s : String) : Nat := (escape s).length

variable {float}

theorem length_asciiBytes (text : String) : (asciiBytes text).length = text.length := by
  rw [asciiBytes, List.length_map, String.length_toList]

theorem escapedLength_append (s t : String) :
    escapedLength (s ++ t) = escapedLength s + escapedLength t := by
  rw [escapedLength, escape, String.toList_append, List.flatMap_append, List.length_append]
  rfl

theorem escapedLength_replicate (n : Nat) :
    escapedLength (String.ofList (List.replicate n 'x')) = n := by
  have hchar : escapeChar 'x' = [120] := rfl
  rw [escapedLength, escape, String.toList_ofList]
  induction n with
  | zero => rfl
  | succ n ih =>
    rw [List.replicate_succ, List.flatMap_cons, List.length_append, ih, hchar, List.length_singleton]
    exact Nat.add_comm 1 n

theorem length_stringText (s : String) : (stringText s).length = escapedLength s + 2 := by
  rw [stringText, List.length_append, List.length_append, length_asciiBytes]
  have hquote : "\"".length = 1 := rfl
  rw [hquote, escapedLength]
  omega

/-! The lengths of the messages: that of a reply against that of its request. -/

def Packet.size (float : UInt64 → List UInt8) (p : Packet) : Nat := (p.serialize.text float).length

theorem length_entriesText_cons {first : Bool} {key : String} {v : Value}
    {entries : List (String × Value)} :
    (Value.entriesText float first ((key, v) :: entries)).length =
      (separator first).length + escapedLength key + 3 + (v.text float).length +
        (Value.entriesText float false entries).length := by
  have hcolon : ":".length = 1 := rfl
  simp only [Value.entriesText, List.length_append, length_stringText, length_asciiBytes, hcolon]
  omega

theorem length_entriesText_nil {first : Bool} : (Value.entriesText float first []).length = 0 := by
  rw [Value.entriesText, List.length_nil]

theorem length_taggedVariant (tag : String) (fields : List (String × Value)) :
    ((taggedVariant tag fields).text float).length =
      escapedLength tag + 7 + (Value.entriesText float true fields).length := by
  have hopen : "\x7b".length = 1 := rfl
  have hclose : "\x7d".length = 1 := rfl
  have hfirst : (separator true).length = 0 := rfl
  simp only [taggedVariant, Value.text, length_entriesText_cons, length_entriesText_nil,
    List.length_append, length_asciiBytes, hopen, hclose, hfirst]
  omega

theorem length_string_text (s : String) : ((Value.string s).text float).length = escapedLength s + 2 := by
  rw [Value.text, length_stringText]

theorem length_separator (first : Bool) : (separator first).length = if first then 0 else 1 := by
  cases first <;> rfl

theorem length_variant_cons (tag key : String) (v : Value) (fields : List (String × Value)) :
    ((taggedVariant tag ((key, v) :: fields)).text float).length =
      escapedLength tag + escapedLength key + 10 + (v.text float).length +
        (Value.entriesText float false fields).length := by
  rw [length_taggedVariant, length_entriesText_cons, length_separator, if_pos rfl]
  omega

theorem length_field (key : String) (v : Value) (fields : List (String × Value)) :
    (Value.entriesText float false ((key, v) :: fields)).length =
      escapedLength key + 4 + (v.text float).length +
        (Value.entriesText float false fields).length := by
  rw [length_entriesText_cons, length_separator, if_neg Bool.false_ne_true]
  omega

theorem size_registerObject (o : String) :
    (Packet.request (.registerObject o)).size float = 37 + escapedLength o := by
  have htag : escapedLength "RegisterObject" = 14 := rfl
  have hobject : escapedLength "object_name" = 11 := rfl
  simp only [Packet.size, Packet.serialize, RpcRequest.serialize, length_variant_cons,
    length_entriesText_nil, length_string_text, htag, hobject]
  omega

theorem size_registered (o : String) :
    (Packet.response (.registered o)).size float + 4 =
      (Packet.request (.registerObject o)).size float := by
  have hreply : escapedLength "Registered" = 10 := rfl
  have hrequest : escapedLength "RegisterObject" = 14 := rfl
  simp only [Packet.size, Packet.serialize, RpcRequest.serialize, RpcResponse.serialize,
    length_variant_cons, hreply, hrequest]
  omega

theorem size_subscribe (o topic : String) :
    (Packet.request (.subscribe o topic)).size float = 43 + escapedLength o + escapedLength topic := by
  have htag : escapedLength "Subscribe" = 9 := rfl
  have hobject : escapedLength "object_name" = 11 := rfl
  have htopic : escapedLength "topic" = 5 := rfl
  simp only [Packet.size, Packet.serialize, RpcRequest.serialize, length_variant_cons, length_field,
    length_entriesText_nil, length_string_text, htag, hobject, htopic]
  omega

theorem size_subscribed (o topic : String) :
    (Packet.response (.subscribed o topic)).size float =
      (Packet.request (.subscribe o topic)).size float + 1 := by
  have hreply : escapedLength "Subscribed" = 10 := rfl
  have hrequest : escapedLength "Subscribe" = 9 := rfl
  simp only [Packet.size, Packet.serialize, RpcRequest.serialize, RpcResponse.serialize,
    length_variant_cons, hreply, hrequest]
  omega

theorem size_hasObjectResult (o : String) (exists_ : Bool) :
    (Packet.response (.hasObjectResult o exists_)).size float =
      (Packet.request (.hasObject o)).size float + if exists_ then 20 else 21 := by
  have hreply : escapedLength "HasObjectResult" = 15 := rfl
  have hrequest : escapedLength "HasObject" = 9 := rfl
  have hfield : escapedLength "exists" = 6 := rfl
  have hvalue : ((Value.bool exists_).text float).length = if exists_ then 4 else 5 := by
    rw [Value.text, length_asciiBytes]
    cases exists_ <;> rfl
  simp only [Packet.size, Packet.serialize, RpcRequest.serialize, RpcResponse.serialize,
    length_variant_cons, length_field, length_entriesText_nil, hreply, hrequest, hfield, hvalue]
  split_ifs <;> omega

theorem size_result (c : CallId) (o : String) (value : Value) :
    (Packet.response (.result c o value)).size float =
      51 + escapedLength c.id + escapedLength o + (value.text float).length := by
  have htag : escapedLength "Result" = 6 := rfl
  have hid : escapedLength "call_id" = 7 := rfl
  have hobject : escapedLength "object_name" = 11 := rfl
  have hvalue : escapedLength "value" = 5 := rfl
  simp only [Packet.size, Packet.serialize, RpcResponse.serialize, CallId.serialize,
    length_variant_cons, length_field, length_entriesText_nil, length_string_text, htag, hid,
    hobject, hvalue]
  omega

theorem size_publish (o topic : String) (args : Value) :
    (Packet.request (.publish o topic args)).size float =
      49 + escapedLength o + escapedLength topic + (args.text float).length := by
  have htag : escapedLength "Publish" = 7 := rfl
  have hobject : escapedLength "object_name" = 11 := rfl
  have htopic : escapedLength "topic" = 5 := rfl
  have hargs : escapedLength "args" = 4 := rfl
  simp only [Packet.size, Packet.serialize, RpcRequest.serialize, length_variant_cons, length_field,
    length_entriesText_nil, length_string_text, htag, hobject, htopic, hargs]
  omega

theorem size_event (o topic : String) (args : Value) :
    (Packet.response (.event o topic args)).size float + 2 =
      (Packet.request (.publish o topic args)).size float := by
  have hevent : escapedLength "Event" = 5 := rfl
  have hrequest : escapedLength "Publish" = 7 := rfl
  simp only [Packet.size, Packet.serialize, RpcRequest.serialize, RpcResponse.serialize,
    length_variant_cons, hevent, hrequest]
  omega

theorem size_noSuchObject (c : CallId) (o : String) :
    (Packet.response (.error (some c) o ("No such object '" ++ o ++ "'"))).size float =
      71 + escapedLength c.id + 2 * escapedLength o := by
  have hreply : escapedLength "Error" = 5 := rfl
  have hid : escapedLength "call_id" = 7 := rfl
  have hobject : escapedLength "object_name" = 11 := rfl
  have hmessage : escapedLength "message" = 7 := rfl
  have hopen : escapedLength "No such object '" = 16 := rfl
  have hclose : escapedLength "'" = 1 := rfl
  have hcall : ((Option.elim (some c) Value.null CallId.serialize).text float).length =
      escapedLength c.id + 2 := length_string_text c.id
  simp only [Packet.size, Packet.serialize, RpcResponse.serialize, length_variant_cons,
    length_field, length_entriesText_nil, hcall, length_string_text, escapedLength_append, hreply,
    hid, hobject, hmessage, hopen, hclose]
  omega

end IpcBroker
