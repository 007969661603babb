import IpcBroker.Client.ActorLoop

/-! What `select!` does to the frames of the broker: as long as no request cancels a read that has
taken bytes, the reads return the payloads in order, and no byte is lost. -/

namespace IpcBroker.IpcClient
open Function Foundation

def Event.incoming? : Event → Option (List UInt8)
  | .incoming payload => some payload
  | _ => none

def Event.returned? : Event → Option (List UInt8)
  | .returned data => some data
  | _ => none

def written (tr : List Event) : List (List UInt8) := chronicle Event.incoming? tr

def returned (tr : List Event) : List (List UInt8) := chronicle Event.returned? tr

/-- A message is taken from the mailbox only while the read of `select!` has taken no byte. -/
def readUntouched (w : World IpcClient Event) : Action → Bool
  | .take _ => w.state.phase.held.isEmpty
  | _ => true

/-- The reads return a prefix of the payloads, and until the connection ends every byte of the
frames is in a packet returned, held by the read in progress or still to be read. -/
structure FramesIntact (w : World IpcClient Event) : Prop where
  in_order : returned w.trace <+: written w.trace
  whole : w.state.hungUp = none →
    frames (returned w.trace) ++ (w.state.phase.held ++ (w.state.arrived ++ w.state.coming)) =
      frames (written w.trace)

/-- The stream between the payloads written and the packets returned; `lost` is what the end of
the connection has cut off. -/
structure StreamInv (s : IpcClient) (tr : List Event) : Prop where
  size : ∀ p ∈ written tr, p.length ≤ bufSize
  in_order : returned tr <+: written tr
  bytes : ∃ lost, frames (returned tr) ++ (s.phase.held ++ (s.arrived ++ s.coming) ++ lost) =
    frames (written tr) ∧ (s.hungUp = none → lost = [])

variable {json : SerdeJson} {s s' : IpcClient} {a : Action} {es tr : List Event}
  {r r' : ReadPacket} {data rest bs : List UInt8} {e : IoError} {w w' : World IpcClient Event}

theorem returned_append : returned (es ++ tr) = returned tr ++ returned es := chronicle_append

theorem written_append : written (es ++ tr) = written tr ++ written es := chronicle_append

def Event.calm : Event → Bool
  | .incoming _ | .returned _ => false
  | _ => true

theorem returned_calm (h : ∀ e ∈ es, e.calm = true) : returned es = [] :=
  chronicle_none fun e he => by
    have hcalm := h e he
    cases e with
    | incoming | returned => cases hcalm
    | _ => rfl

theorem written_calm (h : ∀ e ∈ es, e.calm = true) : written es = [] :=
  chronicle_none fun e he => by
    have hcalm := h e he
    cases e with
    | incoming | returned => cases hcalm
    | _ => rfl

theorem exit_calm : ∀ e ∈ s.exit.2, e.calm = true := by
  intro e he
  obtain ⟨req, respTx, rfl⟩ := exit_event he
  rfl

theorem readArm_calm : ∀ e ∈ (s.readArm json data).2, e.calm = true := by
  intro e he
  obtain ⟨req, respTx, rfl⟩ | ⟨c, args, rfl⟩ | ⟨c, rfl⟩ := readArm_event he <;> rfl

theorem subscribe_calm {o topic : String} {updates : Nat} {fault : Option String} :
    ∀ e ∈ (s.subscribe json o topic updates fault).2, e.calm = true := by
  intro e he
  obtain rfl | rfl := subscribe_event he <;> rfl

/-! What a poll does with the bytes. -/

theorem read_pending (h : s.read r = .pending r') : r'.held = r.held ++ s.arrived := by
  unfold read at h
  split at h
  · cases h
  · exact ReadPacket.poll_pending h

theorem read_ready (h : s.read r = .ready (.ok data) rest) :
    r.held ++ s.arrived = frame data ++ rest ∧ data.length ≤ bufSize := by
  unfold read at h
  split at h
  · cases h
  · exact ReadPacket.poll_ready h

theorem read_error (h : s.read r = .ready (.error e) rest) :
    (rest = [] ∧ s.coming = [] ∧ s.hungUp ≠ none) ∨
      ∃ hdr, hdr.length = 4 ∧ bufSize < beNat hdr ∧ r.held ++ s.arrived = hdr ++ rest := by
  unfold read at h
  split at h
  · next hcoming hup =>
    cases h
    exact .inl ⟨rfl, hcoming, by rw [hup]; nofun⟩
  · exact .inr (ReadPacket.poll_error h)

theorem lt_of_le_bufSize {n : Nat} (h : n ≤ bufSize) : n < 2 ^ 32 :=
  Nat.lt_of_le_of_lt h (by decide)

theorem StreamInv.ahead (hI : StreamInv s tr) (hheld : s.phase.held = r.held) :
    ∃ ps, written tr = returned tr ++ ps ∧ r.held ++ s.arrived <+: frames ps := by
  obtain ⟨lost, hbytes, -⟩ := hI.bytes
  refine frames_of_prefix hI.in_order ⟨s.coming ++ lost, ?_⟩
  rw [← hbytes, hheld]
  simp only [List.append_assoc]

theorem StreamInv.not_tooLong (hI : StreamInv s tr) (hheld : s.phase.held = r.held)
    {hdr : List UInt8} (hhdr : hdr.length = 4) (hlong : bufSize < beNat hdr) :
    r.held ++ s.arrived ≠ hdr ++ rest := by
  intro heq
  obtain ⟨ps, hps, hframes⟩ := hI.ahead hheld
  have hsize : ∀ p ∈ ps, p.length ≤ bufSize := fun p hp => hI.size p (by
    rw [hps]
    exact List.mem_append_right _ hp)
  rw [heq] at hframes
  obtain ⟨p, ps', rfl, hlen, -⟩ := header_prefix_frames hhdr
    (fun p hp => lt_of_le_bufSize (hsize p hp)) hframes
  have hp := hsize p List.mem_cons_self
  omega

theorem StreamInv.calm (hI : StreamInv s tr) (hes : ∀ e ∈ es, e.calm = true)
    (hheld : s'.phase.held = s.phase.held) (harr : s'.arrived = s.arrived)
    (hcom : s'.coming = s.coming) (hup : s'.hungUp = s.hungUp) : StreamInv s' (es ++ tr) := by
  have hret : returned (es ++ tr) = returned tr := by
    rw [returned_append, returned_calm hes, List.append_nil]
  have hwr : written (es ++ tr) = written tr := by
    rw [written_append, written_calm hes, List.append_nil]
  obtain ⟨lost, hbytes, hlost⟩ := hI.bytes
  refine ⟨?_, ?_, lost, ?_, ?_⟩
  · rw [hwr]
    exact hI.size
  · rw [hret, hwr]
    exact hI.in_order
  · rw [hret, hwr, hheld, harr, hcom]
    exact hbytes
  · rw [hup]
    exact hlost

theorem StreamInv.pending (hI : StreamInv s tr) (hheld : s.phase.held = r.held)
    (hr : s.read r = .pending r') (hheld' : s'.phase.held = r'.held) (harr : s'.arrived = [])
    (hcom : s'.coming = s.coming) (hup : s'.hungUp = s.hungUp) : StreamInv s' tr := by
  obtain ⟨lost, hbytes, hlost⟩ := hI.bytes
  refine ⟨hI.size, hI.in_order, lost, ?_, hup ▸ hlost⟩
  rw [← hbytes, hheld', read_pending hr, hheld, harr, hcom]
  simp only [List.append_assoc, List.nil_append]

theorem StreamInv.packet (hI : StreamInv s tr) (hheld : s.phase.held = r.held)
    (hr : s.read r = .ready (.ok data) rest) (hes : ∀ e ∈ es, e.calm = true)
    (hheld' : s'.phase.held = []) (harr : s'.arrived = rest) (hcom : s'.coming = s.coming)
    (hup : s'.hungUp = s.hungUp) : StreamInv s' (es ++ [.returned data] ++ tr) := by
  obtain ⟨hframe, hdata⟩ := read_ready hr
  have hret : returned (es ++ [.returned data] ++ tr) = returned tr ++ [data] := by
    rw [returned_append, returned_append, returned_calm hes, List.append_nil]
    rfl
  have hwr : written (es ++ [.returned data] ++ tr) = written tr := by
    rw [written_append, written_append, written_calm hes, List.append_nil]
    exact List.append_nil _
  obtain ⟨ps, hps, hframes⟩ := hI.ahead hheld
  obtain ⟨lost, hbytes, hlost⟩ := hI.bytes
  have hsize : ∀ p ∈ ps, p.length < 2 ^ 32 := fun p hp => lt_of_le_bufSize (hI.size p (by
    rw [hps]
    exact List.mem_append_right _ hp))
  rw [hframe] at hframes
  obtain ⟨ps', rfl, -⟩ := frame_prefix_frames (lt_of_le_bufSize hdata) hsize hframes
  refine ⟨?_, ?_, lost, ?_, ?_⟩
  · rw [hwr]
    exact hI.size
  · rw [hret, hwr, hps]
    exact ⟨ps', by rw [List.append_assoc]; rfl⟩
  · rw [hret, hwr, ← hbytes, hheld', harr, hcom, hheld, frames_append, frames_cons, frames_nil]
    simp only [List.append_assoc, List.nil_append]
    rw [← List.append_assoc (frame data), ← hframe, List.append_assoc]
  · rw [hup]
    exact hlost

theorem StreamInv.failed (hI : StreamInv s tr) (hheld : s.phase.held = r.held)
    (hr : s.read r = .ready (.error e) rest) (hes : ∀ e ∈ es, e.calm = true)
    (hheld' : s'.phase.held = []) (harr : s'.arrived = rest) (hcom : s'.coming = s.coming)
    (hup : s'.hungUp = s.hungUp) : StreamInv s' (es ++ tr) := by
  obtain ⟨rfl, hcoming, hhung⟩ | ⟨hdr, hhdr, hlong, heq⟩ := read_error hr
  · have hret : returned (es ++ tr) = returned tr := by
      rw [returned_append, returned_calm hes, List.append_nil]
    have hwr : written (es ++ tr) = written tr := by
      rw [written_append, written_calm hes, List.append_nil]
    obtain ⟨lost, hbytes, -⟩ := hI.bytes
    refine ⟨?_, ?_, s.phase.held ++ (s.arrived ++ s.coming) ++ lost, ?_, ?_⟩
    · rw [hwr]
      exact hI.size
    · rw [hret, hwr]
      exact hI.in_order
    · rw [hret, hwr, hheld', harr, hcom, hcoming, ← hbytes, hcoming]
      rfl
    · rw [hup]
      exact fun hnone => absurd hnone hhung
  · exact absurd heq (hI.not_tooLong hheld hhdr hlong)

theorem StreamInv.write (hI : StreamInv s tr) (hup : s.hungUp = none)
    (hsize : data.length ≤ bufSize) :
    StreamInv { s with coming := s.coming ++ frame data } ([.incoming data] ++ tr) := by
  have hret : returned ([.incoming data] ++ tr) = returned tr := by
    rw [returned_append]
    exact List.append_nil _
  have hwr : written ([.incoming data] ++ tr) = written tr ++ [data] := written_append
  obtain ⟨lost, hbytes, hlost⟩ := hI.bytes
  refine ⟨?_, ?_, [], ?_, fun _ => rfl⟩
  · rw [hwr]
    intro p hp
    obtain hp | hp := List.mem_append.mp hp
    · exact hI.size p hp
    · exact List.mem_singleton.mp hp ▸ hsize
  · rw [hret, hwr]
    exact hI.in_order.trans (List.prefix_append ..)
  · rw [hret, hwr, frames_append, ← hbytes, hlost hup, frames_cons, frames_nil]
    simp only [List.append_assoc, List.append_nil]

theorem StreamInv.step (hI : StreamInv s tr) (htake : ∀ fault, a = .take fault → s.phase.held = [])
    (h : Transition json s a s' es) : StreamInv s' (es ++ tr) := by
  cases h with
  | issue | dropHandles | receive | dropReceiver =>
    exact hI.calm (by simp [Event.calm]) rfl rfl rfl rfl
  | issueEnded =>
    refine hI.calm (fun e he => ?_) rfl rfl rfl rfl
    obtain ⟨req, respTx, rfl⟩ := abandon_event (Option.mem_toList.mp he)
    rfl
  | requestFailed | requestAwaits | requestDone =>
    exact hI.calm (by simp [Event.calm]) (htake _ rfl).symm rfl rfl rfl
  | subscribe => exact hI.calm subscribe_calm (htake _ rfl).symm rfl rfl rfl
  | pollPending hp hr | awaitPending hp hr =>
    exact hI.pending (congrArg Phase.held hp) hr rfl rfl rfl rfl
  | @pollPacket reading data rest hp hr =>
    obtain ⟨harr, hcom, hup⟩ := readArm_stream json { s with arrived := rest } data
    have hheld : ({ s with arrived := rest }.readArm json data).1.phase.held = [] := by
      obtain hp | hp := readArm_phase json { s with arrived := rest } data <;>
        · rw [hp]
          rfl
    exact hI.packet (congrArg Phase.held hp) hr readArm_calm hheld harr hcom hup
  | @awaitPacket req respTx reading data rest hp hr =>
    have hes : ∀ e ∈ [Event.replied req respTx (replyOf json data)], e.calm = true := by
      simp [Event.calm]
    exact hI.packet (congrArg Phase.held hp) hr hes rfl rfl rfl rfl
  | pollFailed hp hr | awaitFailed hp hr =>
    exact hI.failed (congrArg Phase.held hp) hr (by simp [Event.calm]) rfl rfl rfl rfl
  | exit hp => exact hI.calm exit_calm (congrArg Phase.held hp).symm rfl rfl rfl
  | @write payload hup hsize => exact hI.write hup hsize
  | @arrive n =>
    obtain ⟨lost, hbytes, hlost⟩ := hI.bytes
    refine ⟨hI.size, hI.in_order, lost, ?_, hlost⟩
    rw [List.nil_append, ← hbytes]
    simp only [List.append_assoc, List.take_append_drop]
  | @hangUp message n hup =>
    obtain ⟨lost, hbytes, hlost⟩ := hI.bytes
    refine ⟨hI.size, hI.in_order, s.coming.drop n, ?_, nofun⟩
    rw [List.nil_append, ← hbytes, hlost hup]
    simp only [List.append_assoc, List.take_append_drop, List.append_nil]

theorem streamInv {ok : World IpcClient Event → Action → Prop}
    (huntouched : ∀ w a, ok w a → readUntouched w a = true) (h : (client json).RunWhere ok w) :
    StreamInv w.state w.trace := by
  refine h.invariant (I := fun w => StreamInv w.state w.trace) ?_ ?_
  · rintro _ rfl
    exact ⟨nofun, List.prefix_rfl, [], rfl, fun _ => rfl⟩
  · intro w a w' hr hI hok hn
    obtain ⟨es, ht, htr⟩ := next_transition hn
    rw [htr]
    refine hI.step ?_ ht
    rintro fault rfl
    exact List.isEmpty_iff.mp (huntouched w _ hok)

/-- In a run where messages are taken only while the read of `select!` has taken no byte, the
packets returned are the payloads written, in order, and no byte between them is lost. -/
theorem frames_intact (h : (client json).RunWhere (fun w a => readUntouched w a = true) w) :
    FramesIntact w := by
  have hI := streamInv (fun _ _ h => h) h
  refine ⟨hI.in_order, fun hup => ?_⟩
  obtain ⟨lost, hbytes, hlost⟩ := hI.bytes
  rw [← hbytes, hlost hup, List.append_nil]

def frameInParts : List Action :=
  [.issue (.publish "o" "t" .null), .write eventText, .arrive 10, .poll, .arrive 100, .poll,
    .take none, .write subscribedText, .arrive 100, .poll]

theorem frames_intact_inParts :
    ∃ w, (client textJson).exec (fun w a => readUntouched w a = true) ⟨initial, []⟩ frameInParts =
        some w ∧ returned w.trace = [eventText, subscribedText] ∧ FramesIntact w := by
  obtain ⟨w, hr, he, hret⟩ := System.RunWhere.of_exec_any (client textJson)
    (fun w a => readUntouched w a = true) frameInParts
    (fun w => returned w.trace = [eventText, subscribedText]) rfl (by decide)
  exact ⟨w, he, of_decide_eq_true hret, frames_intact hr⟩

/-- A request is taken when all but four bytes of a frame have been read; these then are read as
a length, which is beyond the limit. -/
def requestAmidFrame : List Action :=
  [.issue (.publish "o" "t" .null), .write eventText, .arrive eventText.length, .poll, .take none,
    .arrive 4, .poll, .issue (.publish "o" "t" .null), .take none, .write subscribedText,
    .arrive 100, .poll]

theorem request_amid_frame_loses_it :
    ¬ ∀ w, (client textJson).Run w → FramesIntact w := by
  intro hall
  obtain ⟨w, hr, -, ht⟩ := System.RunWhere.of_exec_any (client textJson) (fun _ _ => True)
    requestAmidFrame
    (fun w => returned w.trace = [subscribedText] && written w.trace = [eventText, subscribedText])
    rfl (by decide)
  rw [Bool.and_eq_true, decide_eq_true_eq, decide_eq_true_eq] at ht
  have horder := (hall w hr).in_order
  rw [ht.1, ht.2] at horder
  exact absurd horder (by decide)

end IpcBroker.IpcClient
