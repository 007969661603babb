import IpcBroker.Protocol.CompactText
import Mathlib.Data.List.Forall2

/-! The request loop of `run_worker`, on whatever comes out of `select!` in each turn. -/

namespace IpcBroker

/-- `serde_json::to_vec` on a message of the worker, and `serde_json::from_slice` on a request. -/
structure WorkerJson where
  toVec : Packet → Except String (List UInt8)
  fromSlice : List UInt8 → Option RpcRequest

namespace Worker

/-- What a turn of the loop begins with. A packet comes with the value that the object returns when
the packet is a call, and with the error of the transport, if any, when the result is written. -/
inductive Input
  | packet (data : List UInt8) (value : Value) (fault : Option String)
  | lost (error : IoError)
  | shutdown
  | ctrlC

inductive Outcome
  | serving
  | ended (error : Option IoError)

variable (json : WorkerJson) (objects : List String)

/-- One packet: the responses written for it, and whether the loop goes on. An object that is not
in the map, other requests, responses and invalid packets are logged. -/
def handle (data : List UInt8) (value : Value) (fault : Option String) :
    List RpcResponse × Outcome :=
  match json.fromSlice data with
  | some (.call k) =>
    if k.objectName ∈ objects then
      let resp := RpcResponse.result k.callId k.objectName value
      match json.toVec (.response resp) with
      | .error _ => ([], .serving)
      | .ok bytes =>
        match writePacket bytes fault with
        | .error e => ([], .ended (some e))
        | .ok _ => ([resp], .serving)
    else ([], .serving)
  | _ => ([], .serving)

/-- The request loop: the responses written in each turn, and how the loop ends. -/
def requestLoop : List Input → List (List RpcResponse) × Outcome
  | [] => ([], .serving)
  | .packet data value fault :: inputs =>
    match handle json objects data value fault with
    | (out, .serving) => (out :: (requestLoop inputs).1, (requestLoop inputs).2)
    | (out, .ended e) => ([out], .ended e)
  | .lost err :: _ => ([], .ended (some err))
  | .shutdown :: _ | .ctrlC :: _ => ([], .ended none)

/-- `ListObjects::call`, the object that the broker itself shares, over the registered names. -/
def listObjects (registered : List String) (method : String) : Value :=
  if method = "listObjects" then .array (registered.map .string) else .null

def knownCall (data : List UInt8) : Option Call :=
  match json.fromSlice data with
  | some (.call k) => if k.objectName ∈ objects then some k else none
  | _ => none

/-- The response can be sent as one frame. -/
def Sendable (resp : RpcResponse) : Prop :=
  ∃ bytes, json.toVec (.response resp) = .ok bytes ∧ bytes.length ≤ bufSize

variable {json objects} {data : List UInt8} {value : Value} {k : Call}

/-! One turn, when the transport does not fail. -/

theorem handle_other (h : knownCall json objects data = none) :
    handle json objects data value none = ([], .serving) := by
  unfold knownCall at h
  unfold handle
  split at h
  · split_ifs at h with hknown
    rw [if_neg hknown]
  · rfl

theorem handle_call (h : knownCall json objects data = some k) :
    handle json objects data value none =
      match json.toVec (.response (.result k.callId k.objectName value)) with
      | .error _ => ([], .serving)
      | .ok bytes =>
        match writePacket bytes none with
        | .error e => ([], .ended (some e))
        | .ok _ => ([.result k.callId k.objectName value], .serving) := by
  unfold knownCall at h
  unfold handle
  split at h
  · split_ifs at h with hknown
    cases h
    rw [if_pos hknown]
  · cases h

theorem handle_sendable (h : knownCall json objects data = some k)
    (hs : Sendable json (.result k.callId k.objectName value)) :
    handle json objects data value none = ([.result k.callId k.objectName value], .serving) := by
  obtain ⟨bytes, hbytes, hlen⟩ := hs
  rw [handle_call h, hbytes]
  simp only [writePacket, if_neg (Nat.not_lt.mpr hlen)]

theorem handle_unsendable (h : knownCall json objects data = some k)
    (hs : ¬ Sendable json (.result k.callId k.objectName value)) :
    (handle json objects data value none).1 = [] := by
  rw [handle_call h]
  cases hbytes : json.toVec (.response (.result k.callId k.objectName value)) with
  | error e => rfl
  | ok bytes =>
    have hlong : bufSize < bytes.length := Nat.lt_of_not_le fun hlen => hs ⟨bytes, hbytes, hlen⟩
    simp only [writePacket, if_pos hlong]

/-! Whole sequences of packets, each with the value that the object returns for it. -/

section Answers
variable (json objects)

def served (packets : List (List UInt8 × Value)) : List (List RpcResponse) × Outcome :=
  requestLoop json objects (packets.map fun p => .packet p.1 p.2 none)

/-- What is to be written for a packet: for a call of an object in the map its result, or an error
when the result cannot be sent, and nothing for any other packet. -/
def Answered (packet : List UInt8 × Value) (out : List RpcResponse) : Prop :=
  match knownCall json objects packet.1 with
  | some k => ∃ resp, out = [resp] ∧ Sendable json resp ∧
      (resp = .result k.callId k.objectName packet.2 ∨
        ¬ Sendable json (.result k.callId k.objectName packet.2) ∧
          ∃ message, resp = .error (some k.callId) k.objectName message)
  | none => out = []

/-- Every packet is answered before the next one is handled, and the loop goes on after the last. -/
structure AnswersCalls (packets : List (List UInt8 × Value)) : Prop where
  answers : List.Forall₂ (Answered json objects) packets (served json objects packets).1
  goesOn : (served json objects packets).2 = .serving

def ResultsSendable (packets : List (List UInt8 × Value)) : Prop :=
  ∀ p ∈ packets, ∀ k, knownCall json objects p.1 = some k →
    Sendable json (.result k.callId k.objectName p.2)

end Answers

variable {p : List UInt8 × Value} {packets : List (List UInt8 × Value)}

theorem handle_answered (h : ∀ k, knownCall json objects p.1 = some k →
      Sendable json (.result k.callId k.objectName p.2)) :
    ∃ out, handle json objects p.1 p.2 none = (out, .serving) ∧ Answered json objects p out := by
  unfold Answered
  cases hk : knownCall json objects p.1 with
  | none => exact ⟨[], handle_other hk, rfl⟩
  | some k => exact ⟨_, handle_sendable hk (h k hk), _, rfl, h k hk, .inl rfl⟩

theorem answered_sendable (h : Answered json objects p (handle json objects p.1 p.2 none).1)
    (hk : knownCall json objects p.1 = some k) :
    Sendable json (.result k.callId k.objectName p.2) := by
  by_contra hs
  rw [Answered, hk, handle_unsendable hk hs] at h
  obtain ⟨resp, hresp, -⟩ := h
  cases hresp

theorem served_cons {out : List RpcResponse}
    (h : handle json objects p.1 p.2 none = (out, .serving)) :
    served json objects (p :: packets) =
      (out :: (served json objects packets).1, (served json objects packets).2) := by
  rw [served, List.map_cons, requestLoop, h]
  rfl

theorem served_first (p : List UInt8 × Value) (packets : List (List UInt8 × Value)) :
    ∃ outs, (served json objects (p :: packets)).1 =
        (handle json objects p.1 p.2 none).1 :: outs ∧
      ((served json objects (p :: packets)).2 = .serving →
        outs = (served json objects packets).1 ∧ (served json objects packets).2 = .serving) := by
  cases h : handle json objects p.1 p.2 none with
  | mk out outcome =>
    cases outcome with
    | serving =>
      rw [served_cons h]
      exact ⟨_, rfl, fun hend => ⟨rfl, hend⟩⟩
    | ended e =>
      rw [served, List.map_cons, requestLoop, h]
      exact ⟨[], rfl, fun hend => by cases hend⟩

/-- The worker answers every call of the sequence, and goes on, exactly when the results of all these
calls can be sent as frames. -/
theorem answers_calls_iff (json : WorkerJson) (objects : List String)
    (packets : List (List UInt8 × Value)) :
    AnswersCalls json objects packets ↔ ResultsSendable json objects packets := by
  constructor
  · intro h
    induction packets with
    | nil => exact List.forall_mem_nil _
    | cons p packets ih =>
      obtain ⟨outs, hout, hrest⟩ := @served_first json objects p packets
      have hanswers := h.answers
      rw [hout, List.forall₂_cons] at hanswers
      obtain ⟨houts, hgoesOn⟩ := hrest h.goesOn
      have hlater := ih ⟨houts ▸ hanswers.2, hgoesOn⟩
      exact List.forall_mem_cons.mpr ⟨fun k hk => answered_sendable hanswers.1 hk, hlater⟩
  · intro h
    induction packets with
    | nil => exact ⟨.nil, rfl⟩
    | cons p packets ih =>
      obtain ⟨hp, hpackets⟩ := List.forall_mem_cons.mp h
      obtain ⟨out, hhandle, hanswered⟩ := handle_answered hp
      obtain ⟨hanswers, hgoesOn⟩ := ih hpackets
      refine ⟨?_, ?_⟩
      · rw [served_cons hhandle]
        exact .cons hanswered hanswers
      · rw [served_cons hhandle]
        exact hgoesOn

/-! The broker's own object, asked for the names of all objects. -/

def listCall : Call := ⟨⟨"1"⟩, "rob", "listObjects", .null⟩

def listCallText : List UInt8 := (Packet.request (.call listCall)).serialize.text fun _ => []

def listJson : WorkerJson where
  toVec p := .ok (p.serialize.text fun _ => [])
  fromSlice data := if data = listCallText then some (.call listCall) else none

theorem knownCall_listCall : knownCall listJson ["rob"] listCallText = some listCall := by
  simp only [knownCall, listJson, if_true]
  rfl

theorem size_listObjects (name : String) :
    (Packet.response (.result listCall.callId listCall.objectName
      (listObjects ["rob", name] "listObjects"))).size (fun _ => []) = 65 + escapedLength name := by
  have hopen : "[".length = 1 := rfl
  have hclose : "]".length = 1 := rfl
  have hid : escapedLength listCall.callId.id = 1 := rfl
  have hobject : escapedLength listCall.objectName = 3 := rfl
  have hrob : escapedLength "rob" = 3 := rfl
  have hfirst : (separator true).length = 0 := rfl
  have hnext : (separator false).length = 1 := rfl
  simp only [size_result, listObjects, if_true, List.map_cons, List.map_nil, Value.text,
    Value.itemsText, List.length_append, List.length_nil, length_stringText, length_asciiBytes,
    hopen, hclose, hid, hobject, hrob, hfirst, hnext]
  omega

theorem served_long_list {name : String} (h : bufSize < 65 + escapedLength name) :
    ∃ e, served listJson ["rob"] [(listCallText, listObjects ["rob", name] "listObjects")] =
      ([[]], .ended (some e)) := by
  have hlong := h
  rw [← size_listObjects, Packet.size] at hlong
  have hhandle := @handle_call listJson ["rob"] _ (listObjects ["rob", name] "listObjects") _
    knownCall_listCall
  rw [show listJson.toVec = fun p => .ok (p.serialize.text fun _ => []) from rfl] at hhandle
  simp only [writePacket, if_pos hlong] at hhandle
  rw [served, List.map_cons, requestLoop, hhandle]
  exact ⟨_, rfl⟩

def longestName : String := String.ofList (List.replicate 65499 'x')

/-- When an object has the longest name, the list of the names ends the loop of the broker's own
worker, and its caller gets no response. -/
theorem long_list_ends_loop :
    (Packet.request (.registerObject longestName)).size (fun _ => []) = bufSize ∧
      (∃ e, served listJson ["rob"]
          [(listCallText, listObjects ["rob", longestName] "listObjects")] =
        ([[]], .ended (some e))) ∧
      ¬ AnswersCalls listJson ["rob"]
        [(listCallText, listObjects ["rob", longestName] "listObjects")] := by
  have hname : escapedLength longestName = 65499 := escapedLength_replicate 65499
  have hregister : (Packet.request (.registerObject longestName)).size (fun _ => []) = bufSize := by
    rw [size_registerObject, hname]
    rfl
  have hlong : bufSize < 65 + escapedLength longestName := by
    rw [hname]
    decide
  obtain ⟨e, he⟩ := served_long_list hlong
  refine ⟨hregister, ⟨e, he⟩, fun h => ?_⟩
  have hgoesOn := h.goesOn
  rw [he] at hgoesOn
  cases hgoesOn

end Worker
end IpcBroker
