import Mathlib.Algebra.Group.Nat.Defs
import Mathlib.Data.List.Basic

/-! Length-prefixed frames: four bytes of length, most significant first, and then the payload.
A stream of frames is cut in one way only. -/

namespace IpcBroker.Foundation

def beBytes (n : Nat) : List UInt8 :=
  [UInt8.ofNat (n / 2 ^ 24), UInt8.ofNat (n / 2 ^ 16), UInt8.ofNat (n / 2 ^ 8), UInt8.ofNat n]

def beNat (bs : List UInt8) : Nat := bs.foldl (fun n b => n * 2 ^ 8 + b.toNat) 0

def frame (payload : List UInt8) : List UInt8 := beBytes payload.length ++ payload

/-- The bytes of a sequence of frames. -/
def frames (payloads : List (List UInt8)) : List UInt8 := payloads.flatMap frame

variable {a b d hdr rest u v bs : List UInt8} {ps : List (List UInt8)} {n : Nat}

@[simp] theorem length_beBytes (n : Nat) : (beBytes n).length = 4 := rfl

theorem beNat_beBytes (hn : n < 2 ^ 32) : beNat (beBytes n) = n := by
  simp only [beNat, beBytes, List.foldl_cons, List.foldl_nil, UInt8.toNat_ofNat']
  omega

theorem beBytes_beNat (h : bs.length = 4) : beBytes (beNat bs) = bs := by
  obtain ⟨b₀, b₁, b₂, b₃, rfl⟩ := List.length_eq_four.mp h
  have h₀ := b₀.toNat_lt
  have h₁ := b₁.toNat_lt
  have h₂ := b₂.toNat_lt
  have h₃ := b₃.toNat_lt
  simp only [beNat, beBytes, List.foldl_cons, List.foldl_nil, List.cons.injEq, and_true,
    ← UInt8.toNat_inj, UInt8.toNat_ofNat']
  omega

@[simp] theorem frames_nil : frames [] = [] := rfl

@[simp] theorem frames_cons : frames (d :: ps) = frame d ++ frames ps := List.flatMap_cons

@[simp] theorem frames_append (ps qs : List (List UInt8)) :
    frames (ps ++ qs) = frames ps ++ frames qs := List.flatMap_append

theorem header_prefix_frames (hhdr : hdr.length = 4) (hps : ∀ p ∈ ps, p.length < 2 ^ 32)
    (h : hdr ++ rest <+: frames ps) :
    ∃ p ps', ps = p :: ps' ∧ beNat hdr = p.length ∧ rest <+: p ++ frames ps' := by
  cases ps with
  | nil =>
    have hle := h.length_le
    rw [List.length_append, hhdr, frames_nil, List.length_nil] at hle
    omega
  | cons p ps =>
    rw [frames_cons, frame, List.append_assoc] at h
    obtain ⟨t, ht⟩ := h
    rw [List.append_assoc] at ht
    obtain ⟨rfl, hrest⟩ := List.append_inj ht hhdr
    exact ⟨p, ps, rfl, beNat_beBytes (hps p List.mem_cons_self), t, hrest⟩

theorem frame_prefix_frames (hd : d.length < 2 ^ 32) (hps : ∀ p ∈ ps, p.length < 2 ^ 32)
    (h : frame d ++ rest <+: frames ps) : ∃ ps', ps = d :: ps' ∧ rest <+: frames ps' := by
  rw [frame, List.append_assoc] at h
  obtain ⟨p, ps', rfl, hlen, hrest⟩ := header_prefix_frames (length_beBytes _) hps h
  rw [beNat_beBytes hd] at hlen
  obtain ⟨t, ht⟩ := hrest
  rw [List.append_assoc] at ht
  obtain ⟨rfl, hrest⟩ := List.append_inj ht hlen
  exact ⟨ps', rfl, t, hrest⟩

theorem frames_of_prefix {qs : List (List UInt8)} (h : qs <+: ps)
    (hbytes : frames qs ++ rest <+: frames ps) :
    ∃ ps', ps = qs ++ ps' ∧ rest <+: frames ps' := by
  obtain ⟨ps', rfl⟩ := h
  rw [frames_append] at hbytes
  exact ⟨ps', rfl, (List.prefix_append_right_inj _).mp hbytes⟩

theorem frames_eq_nil (h : frames ps = []) : ps = [] := by
  cases ps with
  | nil => rfl
  | cons p ps =>
    rw [frames_cons, frame, List.append_assoc] at h
    have hlength := congrArg List.length (List.append_eq_nil_iff.mp h).1
    rw [length_beBytes] at hlength
    cases hlength

/-- No payload is lost from a stream that is whole. -/
theorem eq_of_frames {qs : List (List UInt8)} (h : qs <+: ps) (hbytes : frames qs = frames ps) :
    qs = ps := by
  obtain ⟨rest, rfl⟩ := h
  rw [frames_append] at hbytes
  rw [frames_eq_nil (List.self_eq_append_right.mp hbytes), List.append_nil]

end IpcBroker.Foundation
