import IpcBroker.Foundation.LengthFrame
import IpcBroker.Protocol.Messages

/-! `read_packet` and `write_packet` of `broker.rs`. A read is a future: it keeps the bytes it has
taken from the stream, until it is done or dropped. -/

namespace IpcBroker
open Foundation

inductive ErrorKind
  | other
  | invalidData
  | invalidInput
  | brokenPipe
  | connectionAborted

/-- `std::io::Error`: what the transport reports, or an error of `Error::new`. -/
inductive IoError
  | transport (message : String)
  | custom (kind : ErrorKind) (message : String)

/-- The bytes `write_packet` puts on the stream; `fault` is the error of the transport, if any. -/
def writePacket (data : List UInt8) (fault : Option String) : Except IoError (List UInt8) :=
  if bufSize < data.length then
    .error (.custom .invalidData ("attempt to write packet of size " ++ toString data.length ++
      " which exceeds max " ++ toString bufSize))
  else
    match fault with
    | some message => .error (.transport message)
    | none => .ok (frame data)

/-- A `read_packet` that has been polled without being done: in `read_u32`, or in `read_exact`. -/
inductive ReadPacket
  | length (got : List UInt8) (h : got.length < 4)
  | payload (len : Nat) (hlen : len ≤ bufSize) (got : List UInt8) (h : got.length < len)

inductive ReadPoll
  | pending (reading : ReadPacket)
  | ready (result : Except IoError (List UInt8)) (rest : List UInt8)

namespace ReadPacket

def start : ReadPacket := .length [] (Nat.zero_lt_succ 3)

def held : ReadPacket → List UInt8
  | .length got _ => got
  | .payload len _ got _ => beBytes len ++ got

/-- `read_exact`, with all the bytes after the length that are there by now. -/
def pollPayload (len : Nat) (hlen : len ≤ bufSize) (bs : List UInt8) : ReadPoll :=
  if h : bs.length < len then .pending (.payload len hlen bs h)
  else .ready (.ok (bs.take len)) (bs.drop len)

/-- Polls the read while `avail` can be read from the stream. -/
def poll (avail : List UInt8) : ReadPacket → ReadPoll
  | .length got _ =>
    let bs := got ++ avail
    if h : bs.length < 4 then .pending (.length bs h)
    else
      let len := beNat (bs.take 4)
      if hlen : len ≤ bufSize then pollPayload len hlen (bs.drop 4)
      else
        .ready (.error (.custom .invalidData ("packet size " ++ toString len ++
          " exceeds max allowed " ++ toString bufSize))) (bs.drop 4)
  | .payload len hlen got _ => pollPayload len hlen (got ++ avail)

variable {r r' : ReadPacket} {avail data rest bs : List UInt8} {len : Nat} {e : IoError}

theorem pollPayload_pending {hlen : len ≤ bufSize} (h : pollPayload len hlen bs = .pending r') :
    r'.held = beBytes len ++ bs := by
  unfold pollPayload at h
  split_ifs at h
  cases h
  rfl

theorem pollPayload_ready {hlen : len ≤ bufSize} (h : pollPayload len hlen bs = .ready (.ok data) rest) :
    beBytes len ++ bs = frame data ++ rest ∧ data.length ≤ bufSize := by
  unfold pollPayload at h
  split_ifs at h with hshort
  cases h
  have hlength : (bs.take len).length = len := List.length_take_of_le (Nat.le_of_not_lt hshort)
  rw [frame, hlength, List.append_assoc, List.take_append_drop]
  exact ⟨rfl, hlen⟩

theorem pollPayload_error {hlen : len ≤ bufSize} :
    pollPayload len hlen bs ≠ .ready (.error e) rest := by
  unfold pollPayload
  split_ifs
  · nofun
  · nofun

theorem header_append (h : ¬ bs.length < 4) :
    (bs.take 4).length = 4 ∧ beBytes (beNat (bs.take 4)) ++ bs.drop 4 = bs := by
  have hlength : (bs.take 4).length = 4 := List.length_take_of_le (Nat.le_of_not_lt h)
  exact ⟨hlength, by rw [beBytes_beNat hlength, List.take_append_drop]⟩

theorem poll_pending (h : r.poll avail = .pending r') : r'.held = r.held ++ avail := by
  cases r with
  | length got hgot =>
    simp only [poll] at h
    split_ifs at h with hshort hlen
    · cases h
      rfl
    · rw [pollPayload_pending h]
      exact (header_append hshort).2
  | payload len hlen got hgot =>
    rw [pollPayload_pending h, held, List.append_assoc]

theorem poll_ready (h : r.poll avail = .ready (.ok data) rest) :
    r.held ++ avail = frame data ++ rest ∧ data.length ≤ bufSize := by
  cases r with
  | length got hgot =>
    simp only [poll] at h
    split_ifs at h with hshort hlen
    · have hbytes := (header_append hshort).2
      obtain ⟨hframe, hdata⟩ := pollPayload_ready h
      rw [hbytes] at hframe
      exact ⟨hframe, hdata⟩
    · cases h
  | payload len hlen got hgot =>
    rw [held, List.append_assoc]
    exact pollPayload_ready h

theorem poll_error (h : r.poll avail = .ready (.error e) rest) :
    ∃ hdr, hdr.length = 4 ∧ bufSize < beNat hdr ∧ r.held ++ avail = hdr ++ rest := by
  cases r with
  | length got hgot =>
    simp only [poll] at h
    split_ifs at h with hshort hlen
    · exact absurd h pollPayload_error
    · cases h
      exact ⟨_, (header_append hshort).1, Nat.lt_of_not_le hlen, (List.take_append_drop 4 _).symm⟩
  | payload len hlen got hgot => exact absurd h pollPayload_error

theorem poll_error_kind (h : r.poll avail = .ready (.error e) rest) (message : String) :
    e ≠ .custom .other message := by
  cases r with
  | length got hgot =>
    simp only [poll] at h
    split_ifs at h
    · exact absurd h pollPayload_error
    · cases h
      nofun
  | payload len hlen got hgot => exact absurd h pollPayload_error

theorem pollPayload_rest {hlen : len ≤ bufSize} {result : Except IoError (List UInt8)}
    (h : pollPayload len hlen bs = .ready result rest) : rest = bs.drop len ∧ len ≤ bs.length := by
  unfold pollPayload at h
  split_ifs at h with hshort
  cases h
  exact ⟨rfl, Nat.le_of_not_lt hshort⟩

theorem poll_rest {result : Except IoError (List UInt8)} (h : r.poll avail = .ready result rest) :
    rest.length ≤ avail.length := by
  cases r with
  | length got hgot =>
    simp only [poll] at h
    split_ifs at h with hshort hlen
    · obtain ⟨rfl, -⟩ := pollPayload_rest h
      rw [List.length_drop, List.length_drop, List.length_append]
      omega
    · cases h
      rw [List.length_drop, List.length_append]
      omega
  | payload len hlen got hgot =>
    obtain ⟨rfl, -⟩ := pollPayload_rest h
    rw [List.length_drop, List.length_append]
    omega

end ReadPacket

theorem writePacket_error {data : List UInt8} {fault : Option String} {e : IoError}
    (h : writePacket data fault = .error e) (message : String) : e ≠ .custom .other message := by
  unfold writePacket at h
  split_ifs at h
  · cases h
    nofun
  · split at h
    · cases h
      nofun
    · cases h

end IpcBroker
