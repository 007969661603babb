import IpcBroker.Protocol.Framing
import IpcBroker.Protocol.Json

/-! Whole streams of messages: what `write_packet` puts on a stream for a list of messages, and
what `reader_loop` takes from a stream that ends. -/

namespace IpcBroker
open Foundation

def ReadPacket.endOfStream : ReadPacket → IoError
  | .length _ _ => .transport "unexpected end of file"
  | .payload _ _ _ _ => .transport "early eof"

/-- `read_packet` on all the bytes that a stream has left: a packet and the bytes after it. -/
def readPacket (stream : List UInt8) : Except IoError (List UInt8 × List UInt8) :=
  match ReadPacket.start.poll stream with
  | .ready (.ok data) rest => .ok (data, rest)
  | .ready (.error e) _ => .error e
  | .pending reading => .error reading.endOfStream

variable {stream data rest u v bs : List UInt8} {ps : List (List UInt8)} {n : Nat}

theorem readPacket_ok (h : readPacket stream = .ok (data, rest)) :
    stream = frame data ++ rest ∧ data.length ≤ bufSize := by
  unfold readPacket at h
  split at h
  · next data' rest' hpoll =>
    cases h
    exact ReadPacket.poll_ready hpoll
  · cases h
  · cases h

theorem readPacket_shorter (h : readPacket stream = .ok (data, rest)) :
    rest.length < stream.length := by
  rw [(readPacket_ok h).1, List.length_append, frame, List.length_append, length_beBytes]
  omega

/-- `reader_loop` until its read fails: the packets by what they are decoded to, and the error. -/
def readerLoop (json : JsonText) (stream : List UInt8) : List (Option Packet) × IoError :=
  match h : readPacket stream with
  | .ok (data, rest) =>
    have : rest.length < stream.length := readPacket_shorter h
    ((json.decode data) :: (readerLoop json rest).1, (readerLoop json rest).2)
  | .error e => ([], e)
termination_by stream.length

theorem readerLoop_ok {json : JsonText} (h : readPacket stream = .ok (data, rest)) :
    readerLoop json stream =
      (json.decode data :: (readerLoop json rest).1, (readerLoop json rest).2) := by
  rw [readerLoop]
  split
  · next data' rest' h' =>
    cases h.symm.trans h'
    rfl
  · next e h' => cases h.symm.trans h'

theorem readerLoop_error {json : JsonText} {e : IoError} (h : readPacket stream = .error e) :
    readerLoop json stream = ([], e) := by
  rw [readerLoop]
  split
  · next data' rest' h' => cases h.symm.trans h'
  · next e' h' =>
    cases h.symm.trans h'
    rfl

theorem lt_of_le_bufSize (h : data.length ≤ bufSize) : data.length < 2 ^ 32 :=
  Nat.lt_of_le_of_lt h (by decide)

theorem poll_frame (h : data.length ≤ bufSize) (rest : List UInt8) :
    ReadPacket.start.poll (frame data ++ rest) = .ready (.ok data) rest := by
  have hbytes : ([] : List UInt8) ++ (frame data ++ rest) = beBytes data.length ++ (data ++ rest) := by
    rw [List.nil_append, frame, List.append_assoc]
  have hlong : ¬ (beBytes data.length ++ (data ++ rest)).length < 4 := by
    rw [List.length_append, length_beBytes]
    omega
  have htake : (beBytes data.length ++ (data ++ rest)).take 4 = beBytes data.length :=
    List.take_left' (length_beBytes _)
  have hdrop : (beBytes data.length ++ (data ++ rest)).drop 4 = data ++ rest :=
    List.drop_left' (length_beBytes _)
  have hpayload : ¬ (data ++ rest).length < data.length := by
    rw [List.length_append]
    omega
  simp only [ReadPacket.start, ReadPacket.poll, hbytes, htake, hdrop, dif_neg hlong,
    beNat_beBytes (lt_of_le_bufSize h), dif_pos h, ReadPacket.pollPayload, dif_neg hpayload,
    List.take_left', List.drop_left']

theorem readPacket_frame (h : data.length ≤ bufSize) (rest : List UInt8) :
    readPacket (frame data ++ rest) = .ok (data, rest) := by
  rw [readPacket, poll_frame h]

theorem readPacket_part (hn : n < (frame data).length) (h : data.length ≤ bufSize) :
    ∃ e, readPacket ((frame data).take n) = .error e := by
  cases hread : readPacket ((frame data).take n) with
  | error e => exact ⟨e, rfl⟩
  | ok r =>
    obtain ⟨data', rest⟩ := r
    obtain ⟨hframe, hdata'⟩ := readPacket_ok hread
    have hprefix : frame data' ++ rest <+: frames [data] := by
      rw [← hframe, frames_cons, frames_nil, List.append_nil]
      exact List.take_prefix n _
    have hone : ∀ p ∈ [data], p.length < 2 ^ 32 := by
      intro p hp
      cases List.mem_singleton.mp hp
      exact lt_of_le_bufSize h
    obtain ⟨ps', hps, -⟩ := frame_prefix_frames (lt_of_le_bufSize hdata') hone hprefix
    obtain ⟨rfl, -⟩ := List.cons_eq_cons.mp hps
    have hlen := congrArg List.length hframe
    rw [List.length_append, List.length_take_of_le (Nat.le_of_lt hn)] at hlen
    omega

theorem readPacket_nil : ∃ e, readPacket [] = .error e := ⟨_, rfl⟩

theorem readerLoop_frames (json : JsonText) (h : ∀ p ∈ ps, p.length ≤ bufSize) (n : Nat) :
    ∃ m e, readerLoop json ((frames ps).take n) = ((ps.take m).map json.decode, e) ∧
      (frames (ps.take m)).length ≤ n ∧
      (m < ps.length → n < (frames (ps.take (m + 1))).length) := by
  induction ps generalizing n with
  | nil =>
    obtain ⟨e, he⟩ := readPacket_nil
    refine ⟨0, e, ?_, Nat.zero_le n, fun hm => absurd hm (Nat.lt_irrefl 0)⟩
    rw [frames_nil, List.take_nil]
    exact readerLoop_error he
  | cons p ps ih =>
    have hp := h p List.mem_cons_self
    have hps : ∀ q ∈ ps, q.length ≤ bufSize := fun q hq => h q (List.mem_cons_of_mem p hq)
    by_cases hn : n < (frame p).length
    · obtain ⟨e, he⟩ := readPacket_part hn hp
      refine ⟨0, e, ?_, Nat.zero_le n, fun _ => ?_⟩
      · rw [frames_cons, List.take_append_of_le_length (Nat.le_of_lt hn)]
        exact readerLoop_error he
      · rw [List.take_succ_cons, List.take_zero, frames_cons, frames_nil, List.append_nil]
        exact hn
    · obtain ⟨m, e, hread, hle, hlt⟩ := ih hps (n - (frame p).length)
      refine ⟨m + 1, e, ?_, ?_, fun hm => ?_⟩
      · have htake : (frames (p :: ps)).take n =
            frame p ++ (frames ps).take (n - (frame p).length) := by
          rw [frames_cons, List.take_append, List.take_of_length_le (Nat.le_of_not_lt hn)]
        rw [htake, readerLoop_ok (readPacket_frame hp _), hread]
        rfl
      · rw [List.take_succ_cons, frames_cons, List.length_append]
        omega
      · have hlast := hlt (Nat.lt_of_succ_lt_succ hm)
        rw [List.take_succ_cons, frames_cons, List.length_append]
        omega

/-! Messages that are written and read. -/

/-- `write_packet` accepts the message. -/
def accepted (json : JsonText) (p : Packet) : Bool :=
  match writePacket (json.encode p) none with
  | .ok _ => true
  | .error _ => false

/-- The bytes that `write_packet` puts on a stream for the messages, one after the other. -/
def written (json : JsonText) (msgs : List Packet) : List UInt8 :=
  msgs.flatMap fun p =>
    match writePacket (json.encode p) none with
    | .ok bytes => bytes
    | .error _ => []

variable {json : JsonText} {msgs : List Packet} {p : Packet}

theorem accepted_iff : accepted json p = true ↔ (json.encode p).length ≤ bufSize := by
  unfold accepted writePacket
  split_ifs with h
  · simp [h]
  · simp [Nat.le_of_not_lt h]

theorem written_rejected (h : accepted json p = false) (msgs : List Packet) :
    written json (p :: msgs) = written json msgs := by
  unfold accepted at h
  rw [written, List.flatMap_cons]
  split at h
  · cases h
  · rfl

theorem written_eq_frames (json : JsonText) (msgs : List Packet) :
    written json msgs = frames ((msgs.filter (accepted json)).map json.encode) := by
  induction msgs with
  | nil => rfl
  | cons p msgs ih =>
    cases hp : accepted json p with
    | true =>
      have hlen : ¬ bufSize < (json.encode p).length := Nat.not_lt.mpr (accepted_iff.mp hp)
      rw [List.filter_cons_of_pos hp, List.map_cons, frames_cons, ← ih, written,
        List.flatMap_cons, writePacket, if_neg hlen]
      rfl
    | false =>
      rw [written_rejected hp, ih, List.filter_cons_of_neg (by simp [hp])]

theorem map_decode_encode (h : ∀ p ∈ msgs, json.Inverts p) :
    (msgs.map json.encode).map json.decode = msgs.map some := by
  rw [List.map_map]
  exact List.map_congr_left fun p hp => (h p hp).decode_encode

/-- What becomes of a list of messages that is written to a stream and read from it, also when the
stream ends early. -/
structure RoundTrips (json : JsonText) (msgs : List Packet) : Prop where
  accepts : ∀ p ∈ msgs, accepted json p = true ↔ (json.encode p).length ≤ bufSize
  rejects : ∀ p ∈ msgs, accepted json p = false →
    ∀ before, written json (before ++ [p]) = written json before
  complete : ∃ e, readerLoop json (written json msgs) =
    ((msgs.filter (accepted json)).map some, e)
  truncated : ∀ n, ∃ m e,
    readerLoop json ((written json msgs).take n) =
      (((msgs.filter (accepted json)).take m).map some, e) ∧
    (written json ((msgs.filter (accepted json)).take m)).length ≤ n ∧
    (m < (msgs.filter (accepted json)).length →
      n < (written json ((msgs.filter (accepted json)).take (m + 1))).length)

theorem written_accepted (h : ∀ p ∈ msgs, accepted json p = true) :
    written json msgs = frames (msgs.map json.encode) := by
  rw [written_eq_frames, List.filter_eq_self.mpr h]

theorem written_append (us vs : List Packet) :
    written json (us ++ vs) = written json us ++ written json vs := List.flatMap_append

/-- Every list of messages whose JSON values `serde_json` decodes to themselves makes its way
through a stream: the accepted ones in order, each as what it was written as. -/
theorem messages_round_trip (h : ∀ p ∈ msgs, json.Inverts p) : RoundTrips json msgs := by
  have hmem : ∀ p ∈ msgs.filter (accepted json), p ∈ msgs ∧ accepted json p = true :=
    fun p hp => List.mem_filter.mp hp
  have hfit : ∀ d ∈ (msgs.filter (accepted json)).map json.encode, d.length ≤ bufSize := by
    intro d hd
    obtain ⟨p, hp, rfl⟩ := List.mem_map.mp hd
    exact accepted_iff.mp (hmem p hp).2
  have hread : ∀ n, ∃ m e,
      readerLoop json ((written json msgs).take n) =
        (((msgs.filter (accepted json)).take m).map some, e) ∧
      (written json ((msgs.filter (accepted json)).take m)).length ≤ n ∧
      (m < (msgs.filter (accepted json)).length →
        n < (written json ((msgs.filter (accepted json)).take (m + 1))).length) := by
    intro n
    obtain ⟨m, e, hloop, hle, hlt⟩ := readerLoop_frames json hfit n
    have htake : ∀ i, written json ((msgs.filter (accepted json)).take i) =
        frames (((msgs.filter (accepted json)).map json.encode).take i) := by
      intro i
      rw [written_accepted fun p hp => (hmem p (List.mem_of_mem_take hp)).2, List.map_take]
    refine ⟨m, e, ?_, ?_, fun hm => ?_⟩
    · rw [written_eq_frames, hloop, ← List.map_take,
        map_decode_encode fun p hp => h p (hmem p (List.mem_of_mem_take hp)).1]
    · rw [htake]
      exact hle
    · rw [htake]
      exact hlt (by rwa [List.length_map])
  refine ⟨fun p _ => accepted_iff, fun p _ hp before => ?_, ?_, hread⟩
  · rw [written_append, written_rejected hp]
    exact List.append_nil _
  · -- the whole stream is its own truncation, and leaves no frame incomplete
    obtain ⟨m, e, hloop, -, hlt⟩ := hread (written json msgs).length
    have hm : (msgs.filter (accepted json)).length ≤ m := by
      by_contra hm
      have hshort := hlt (Nat.lt_of_not_le hm)
      rw [written_eq_frames json msgs, written_accepted fun p hp =>
        (hmem p (List.mem_of_mem_take hp)).2, List.map_take] at hshort
      obtain ⟨t, ht⟩ := List.take_prefix (m + 1) ((msgs.filter (accepted json)).map json.encode)
      have hle : (frames (((msgs.filter (accepted json)).map json.encode).take (m + 1))).length ≤
          (frames ((msgs.filter (accepted json)).map json.encode)).length := by
        rw [← congrArg frames ht, frames_append, List.length_append]
        exact Nat.le_add_right _ _
      omega
    rw [List.take_length, List.take_of_length_le hm] at hloop
    exact ⟨e, hloop⟩

/-! One request and one response, with their JSON texts. -/

def asciiBytes (text : String) : List UInt8 := text.toList.map fun c => UInt8.ofNat c.toNat

def queryText : List UInt8 :=
  asciiBytes "\x7b\"HasObject\":\x7b\"object_name\":\"o\"\x7d\x7d"

def replyText : List UInt8 :=
  asciiBytes "\x7b\"HasObjectResult\":\x7b\"object_name\":\"o\",\"exists\":true\x7d\x7d"

def queryAndReply : List Packet := [.request (.hasObject "o"), .response (.hasObjectResult "o" true)]

def queryJson : JsonText where
  toVec
    | .object [("HasObject", _)] => queryText
    | _ => replyText
  fromSlice data :=
    if data = queryText then some (RpcRequest.hasObject "o").serialize
    else if data = replyText then some (RpcResponse.hasObjectResult "o" true).serialize
    else none

theorem messages_round_trip_queryAndReply :
    (∀ p ∈ queryAndReply, queryJson.Inverts p) ∧ RoundTrips queryJson queryAndReply := by
  have h : ∀ p ∈ queryAndReply, queryJson.Inverts p := by
    intro p hp
    obtain rfl | hp := List.mem_cons.mp hp
    · have hquery : queryJson.encode (.request (.hasObject "o")) = queryText := rfl
      rw [JsonText.Inverts, hquery]
      simp only [queryJson, if_true]
      rfl
    · cases List.mem_singleton.mp hp
      have hreply : queryJson.encode (.response (.hasObjectResult "o" true)) = replyText := rfl
      have hne : replyText ≠ queryText := by decide
      rw [JsonText.Inverts, hreply]
      simp only [queryJson, if_neg hne, if_true]
      rfl
  exact ⟨h, messages_round_trip h⟩

end IpcBroker
