import IpcBroker.Protocol.Messages

/-! The JSON values that `serde` derives for the two enums of `rpc.rs`: each variant is an object
with one key, the name of the variant, and the names of the two enums are all different. -/

namespace IpcBroker

def taggedVariant (tag : String) (fields : List (String × Value)) : Value :=
  .object [(tag, .object fields)]

def Value.variant? : Value → Option (String × Value)
  | .object [entry] => some entry
  | _ => none

/-- The fields of a struct variant: an object in any order, with other keys ignored and no field
twice, or an array of all fields. -/
def Value.fields? (names : List String) : Value → Option (String → Option Value)
  | .object entries =>
    if ((entries.map (·.1)).filter (· ∈ names)).Nodup then some fun name => entries.lookup name
    else none
  | .array items =>
    if items.length = names.length then some fun name => (names.zip items).lookup name else none
  | _ => none

def Value.string? : Value → Option String
  | .string s => some s
  | _ => none

def Value.bool? : Value → Option Bool
  | .bool b => some b
  | _ => none

def CallId.serialize (c : CallId) : Value := .string c.id

def CallId.deserialize (v : Value) : Option CallId := v.string?.map CallId.mk

/-- `Option<CallId>`; a missing field is `None` as well. -/
def CallId.deserializeOption : Option Value → Option (Option CallId)
  | none | some .null => some none
  | some v => (CallId.deserialize v).map some

def RpcRequest.serialize : RpcRequest → Value
  | .registerObject o => taggedVariant "RegisterObject" [("object_name", .string o)]
  | .registerService o name =>
    taggedVariant "RegisterService" [("object_name", .string o), ("service_name", .string name)]
  | .call k =>
    taggedVariant "Call" [("call_id", k.callId.serialize), ("object_name", .string k.objectName),
      ("method", .string k.method), ("args", k.args)]
  | .subscribe o topic =>
    taggedVariant "Subscribe" [("object_name", .string o), ("topic", .string topic)]
  | .publish o topic args =>
    taggedVariant "Publish" [("object_name", .string o), ("topic", .string topic), ("args", args)]
  | .hasObject o => taggedVariant "HasObject" [("object_name", .string o)]

def RpcResponse.serialize : RpcResponse → Value
  | .registered o => taggedVariant "Registered" [("object_name", .string o)]
  | .result c o value =>
    taggedVariant "Result" [("call_id", c.serialize), ("object_name", .string o), ("value", value)]
  | .error c o message =>
    taggedVariant "Error" [("call_id", c.elim .null CallId.serialize), ("object_name", .string o),
      ("message", .string message)]
  | .event o topic args =>
    taggedVariant "Event" [("object_name", .string o), ("topic", .string topic), ("args", args)]
  | .subscribed o topic =>
    taggedVariant "Subscribed" [("object_name", .string o), ("topic", .string topic)]
  | .hasObjectResult o exists_ =>
    taggedVariant "HasObjectResult" [("object_name", .string o), ("exists", .bool exists_)]

def RpcRequest.deserialize (v : Value) : Option RpcRequest := do
  let (tag, content) ← v.variant?
  match tag with
  | "RegisterObject" =>
    let fields ← content.fields? ["object_name"]
    return .registerObject (← (← fields "object_name").string?)
  | "RegisterService" =>
    let fields ← content.fields? ["object_name", "service_name"]
    return .registerService (← (← fields "object_name").string?) (← (← fields "service_name").string?)
  | "Call" =>
    let fields ← content.fields? ["call_id", "object_name", "method", "args"]
    return .call
      { callId := ← CallId.deserialize (← fields "call_id")
        objectName := ← (← fields "object_name").string?
        method := ← (← fields "method").string?
        args := ← fields "args" }
  | "Subscribe" =>
    let fields ← content.fields? ["object_name", "topic"]
    return .subscribe (← (← fields "object_name").string?) (← (← fields "topic").string?)
  | "Publish" =>
    let fields ← content.fields? ["object_name", "topic", "args"]
    return .publish (← (← fields "object_name").string?) (← (← fields "topic").string?)
      (← fields "args")
  | "HasObject" =>
    let fields ← content.fields? ["object_name"]
    return .hasObject (← (← fields "object_name").string?)
  | _ => none

def RpcResponse.deserialize (v : Value) : Option RpcResponse := do
  let (tag, content) ← v.variant?
  match tag with
  | "Registered" =>
    let fields ← content.fields? ["object_name"]
    return .registered (← (← fields "object_name").string?)
  | "Result" =>
    let fields ← content.fields? ["call_id", "object_name", "value"]
    return .result (← CallId.deserialize (← fields "call_id"))
      (← (← fields "object_name").string?) (← fields "value")
  | "Error" =>
    let fields ← content.fields? ["call_id", "object_name", "message"]
    return .error (← CallId.deserializeOption (fields "call_id"))
      (← (← fields "object_name").string?) (← (← fields "message").string?)
  | "Event" =>
    let fields ← content.fields? ["object_name", "topic", "args"]
    return .event (← (← fields "object_name").string?) (← (← fields "topic").string?)
      (← fields "args")
  | "Subscribed" =>
    let fields ← content.fields? ["object_name", "topic"]
    return .subscribed (← (← fields "object_name").string?) (← (← fields "topic").string?)
  | "HasObjectResult" =>
    let fields ← content.fields? ["object_name", "exists"]
    return .hasObjectResult (← (← fields "object_name").string?) (← (← fields "exists").bool?)
  | _ => none

theorem RpcRequest.deserialize_serialize (r : RpcRequest) :
    RpcRequest.deserialize r.serialize = some r := by
  cases r <;> rfl

theorem RpcResponse.deserialize_serialize (r : RpcResponse) :
    RpcResponse.deserialize r.serialize = some r := by
  cases r with
  | error c o message => cases c <;> rfl
  | _ => rfl

theorem RpcRequest.deserialize_response (r : RpcResponse) :
    RpcRequest.deserialize r.serialize = none := by
  cases r <;> rfl

/-- `serde_json` on the values of messages: `to_vec`, and `from_slice` up to the syntax tree. -/
structure JsonText where
  toVec : Value → List UInt8
  fromSlice : List UInt8 → Option Value

/-- The JSON value of a message. -/
def Packet.serialize : Packet → Value
  | .request r => r.serialize
  | .response r => r.serialize

namespace JsonText
variable (json : JsonText)

def encode (p : Packet) : List UInt8 := json.toVec p.serialize

/-- The decoder gives back what the encoder was given. -/
def Inverts (p : Packet) : Prop := json.fromSlice (json.encode p) = some p.serialize

/-- What `reader_loop` takes a packet for: a request first, then a response. -/
def decode (data : List UInt8) : Option Packet :=
  match (json.fromSlice data).bind RpcRequest.deserialize with
  | some r => some (.request r)
  | none => ((json.fromSlice data).bind RpcResponse.deserialize).map .response

variable {json}

theorem Inverts.decode_encode {p : Packet} (h : json.Inverts p) :
    json.decode (json.encode p) = some p := by
  unfold Inverts at h
  cases p with
  | request r =>
    have hreq : RpcRequest.deserialize (Packet.request r).serialize = some r :=
      r.deserialize_serialize
    rw [decode, h, Option.bind_some, hreq]
  | response r =>
    have hreq : RpcRequest.deserialize (Packet.response r).serialize = none :=
      RpcRequest.deserialize_response r
    have hresp : RpcResponse.deserialize (Packet.response r).serialize = some r :=
      r.deserialize_serialize
    rw [decode, h, Option.bind_some, hreq, Option.bind_some, hresp, Option.map_some]

end JsonText
end IpcBroker
