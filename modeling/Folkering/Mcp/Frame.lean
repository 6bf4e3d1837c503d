/-
  MCP frames: header, serialized message and checksum, COBS-encoded and closed by a zero byte.

  The serializer is not part of the repository; `Postcard M` is what is assumed of it for a message type.  A frame is
  taken apart in the order in which it was put together: the zero byte is dropped by the receiver, the decoder gives back
  the raw bytes, their checksum agrees, and the header is read from the first eight of them.
-/
import Folkering.Lib.LittleEndian
import Folkering.Mcp.Checksum
import Folkering.Mcp.Cobs

namespace Folkering.Mcp

open LittleEndian List

/-- The serializer for the messages `M`. -/
structure Postcard (M : Type) where
  toSlice : M → List UInt8
  fromBytes : List UInt8 → Option M
  roundTrip : ∀ m, fromBytes (toSlice m) = some m
  /-- a message is an enum, and the number of its variant comes first -/
  tagged : ∀ m, toSlice m ≠ []

/-- Whose frame it is, and the how-manieth. -/
structure FrameHeader where
  sessionId : UInt32
  seqId : UInt32
deriving DecidableEq, Repr

/-- The size of the buffer `raw` of the encoder. -/
def rawSize : Nat := 3840

/-- The size of the buffer `decoded`, and of the longest frame. -/
def decodedSize : Nat := 8192

/-- The header in a fixed format of eight bytes. -/
def FrameHeader.bytes (header : FrameHeader) : List UInt8 :=
  leBytes 4 header.sessionId.toNat ++ leBytes 4 header.seqId.toNat

/-- Header, message and checksum. -/
def rawFrame (header : FrameHeader) (payload : List UInt8) : List UInt8 :=
  header.bytes ++ payload ++ leBytes 2 (crc16 (header.bytes ++ payload)).toNat

section

variable {M : Type} (postcard : Postcard M)

/-- `encode`: how many bytes were written, and the buffer. -/
def encode (header : FrameHeader) (msg : M) (outBuf : List UInt8) : Option (Nat × List UInt8) :=
  let payload := postcard.toSlice msg
  if 8 + payload.length > rawSize then none
  else if 8 + payload.length + 2 > rawSize then none
  else (cobsEncode (rawFrame header payload) outBuf).bind fun r =>
    if r.1 ≥ r.2.length then none else some (r.1 + 1, r.2.set r.1 0)

/-- `decode` of a frame without the zero byte behind it. -/
def decode (frame : List UInt8) : Option (FrameHeader × M) :=
  if frame.length > decodedSize then none
  else (cobsDecode frame decodedSize).bind fun decoded =>
    if decoded.length < 11 then none
    else
      let payloadLen := decoded.length - 2
      if (crc16 (decoded.take payloadLen)).toNat ≠ fromLe (decoded.drop payloadLen) then none
      else
        let header : FrameHeader :=
          ⟨.ofNat (fromLe (decoded.take 4)), .ofNat (fromLe ((decoded.drop 4).take 4))⟩
        (postcard.fromBytes ((decoded.take payloadLen).drop 8)).map fun msg => (header, msg)

/-! ## The round trip -/

/-- A header takes eight bytes. -/
theorem FrameHeader.bytes_length (header : FrameHeader) : header.bytes.length = 8 := by simp [FrameHeader.bytes]

/-- Eight bytes of header, the message, two bytes of checksum. -/
theorem rawFrame_length (header : FrameHeader) (payload : List UInt8) :
    (rawFrame header payload).length = 8 + payload.length + 2 := by
  simp [rawFrame, FrameHeader.bytes_length, Nat.add_assoc]

/-- A word is read back from its four bytes. -/
theorem ofNat_fromLe (v : UInt32) : UInt32.ofNat (fromLe (leBytes 4 v.toNat)) = v := by
  rw [fromLe_leBytes v.toNat_lt, UInt32.ofNat_toNat]

/-- An encoding is not much longer than what it encodes. -/
theorem cobs_length_le : ∀ (run input : List UInt8), (cobs run input).length ≤ 1 + run.length + 2 * input.length
  | run, [] => by simp [cobs, Nat.add_comm]
  | run, b :: input => by
    have hnil := cobs_length_le [] input
    have hsnoc := cobs_length_le (run ++ [b]) input
    rw [length_nil] at hnil
    rw [length_append, length_singleton] at hsnoc
    rw [cobs, length_cons]
    split_ifs
    · rw [length_append, length_cons]
      omega
    · rw [length_append, length_cons, length_append, length_singleton]
      omega
    · omega

/-- The raw bytes of a frame give back what is in them. -/
theorem decode_cobs {header : FrameHeader} {msg : M} (hfit : 8 + (postcard.toSlice msg).length + 2 ≤ rawSize) :
    decode postcard (cobs [] (rawFrame header (postcard.toSlice msg))) = some (header, msg) := by
  have hraw := rawFrame_length header (postcard.toSlice msg)
  have hlong := cobs_length_le [] (rawFrame header (postcard.toSlice msg))
  have htag := length_pos_iff.mpr (postcard.tagged msg)
  unfold rawSize at hfit
  rw [hraw, length_nil] at hlong
  have hbody : (header.bytes ++ postcard.toSlice msg).length = 8 + (postcard.toSlice msg).length := by
    rw [length_append, FrameHeader.bytes_length]
  have hcrc : (crc16 (header.bytes ++ postcard.toSlice msg)).toNat < 256 ^ 2 := UInt16.toNat_lt _
  have hsession : (rawFrame header (postcard.toSlice msg)).take 4 = leBytes 4 header.sessionId.toNat := by
    simp [rawFrame, FrameHeader.bytes]
  have hseq : ((rawFrame header (postcard.toSlice msg)).drop 4).take 4 = leBytes 4 header.seqId.toNat := by
    simp [rawFrame, FrameHeader.bytes]
  have hpayload : (header.bytes ++ postcard.toSlice msg).drop 8 = postcard.toSlice msg :=
    drop_left' header.bytes_length
  rw [decode, if_neg (by unfold decodedSize; omega), cobsDecode_cobs (by unfold decodedSize; omega), Option.bind_some,
    if_neg (by omega)]
  simp only [hraw, Nat.add_sub_cancel, hsession, hseq, ofNat_fromLe]
  rw [rawFrame, take_left' hbody, drop_left' hbody, fromLe_leBytes hcrc, if_neg (by simp), hpayload,
    postcard.roundTrip]
  rfl

/-- The encoder leaves the encoding in the buffer, and a zero behind it. -/
theorem encode_some {header : FrameHeader} {msg : M} {outBuf out : List UInt8} {n : Nat}
    (h : encode postcard header msg outBuf = some (n, out)) :
    8 + (postcard.toSlice msg).length + 2 ≤ rawSize ∧
      out.take (n - 1) = cobs [] (rawFrame header (postcard.toSlice msg)) ∧ out[n - 1]? = some 0 := by
  have hne : rawFrame header (postcard.toSlice msg) ≠ [] := by
    intro hnil
    have := rawFrame_length header (postcard.toSlice msg)
    rw [hnil] at this
    cases this
  have hwrites := cobsEncode_eq hne outBuf
  unfold encode at h
  simp only at h
  split_ifs at h with h₁ h₂
  obtain ⟨⟨len, out₁⟩, henc, h⟩ := Option.bind_eq_some_iff.mp h
  rw [Writes, henc] at hwrites
  split_ifs at hwrites with hfit
  obtain ⟨out', heq, hlen, htake⟩ := hwrites
  cases heq
  simp only at h
  split_ifs at h with hroom
  cases h
  rw [Nat.add_sub_cancel]
  refine ⟨by omega, ?_, getElem?_set_self (by omega)⟩
  rw [take_set_of_le (Nat.le_refl _), htake]

/-- FRAMING ROUND TRIP: what is encoded holds no zero byte and decodes to the input, in every buffer it fits in with a
    byte to spare; and a frame decodes to the header and the message it was made from. -/
theorem framing_round_trip :
    (∀ input out : List UInt8, input ≠ [] → (cobs [] input).length < out.length → ∃ n out',
      cobsEncode input out = some (n, out') ∧ (∀ b ∈ out'.take n, b ≠ 0) ∧
        ∀ cap ≥ input.length, cobsDecode (out'.take n) cap = some input) ∧
    ∀ (header : FrameHeader) (msg : M) (outBuf out : List UInt8) (n : Nat),
      encode postcard header msg outBuf = some (n, out) →
        out[n - 1]? = some 0 ∧ decode postcard (out.take (n - 1)) = some (header, msg) := by
  constructor
  · intro input out hne hfit
    have hwrites := cobsEncode_eq hne out
    rw [Writes, if_pos hfit] at hwrites
    obtain ⟨out', henc, -, htake⟩ := hwrites
    refine ⟨_, out', henc, ?_, fun cap hcap => ?_⟩
    · rw [htake]
      exact cobs_nonzero run_nil
    · rw [htake]
      exact cobsDecode_cobs hcap
  · intro header msg outBuf out n h
    obtain ⟨hraw, htake, hzero⟩ := encode_some postcard h
    refine ⟨hzero, ?_⟩
    rw [htake]
    exact decode_cobs postcard hraw

end

/-- The encoding `[2, 1]` fits two bytes, but the encoder asks for the byte of the sentinel too. -/
theorem full_buffer_refused : cobs [] [1] = [2, 1] ∧ (cobs [] [1]).length = [0, 0].length ∧
    cobsEncode [1] [0, 0] = none := by decide

/-- Messages of one byte, serialized as that byte. -/
def bytePostcard : Postcard UInt8 where
  toSlice m := [m]
  fromBytes := List.head?
  roundTrip _ := rfl
  tagged _ := by simp

/-- Three bytes, two of them zero, and a frame of eleven bytes. -/
theorem framing_round_trip_small :
    (∃ n out', cobsEncode [7, 0, 0] [9, 9, 9, 9, 9] = some (n, out') ∧ (∀ b ∈ out'.take n, b ≠ 0) ∧
      ∀ cap ≥ 3, cobsDecode (out'.take n) cap = some [7, 0, 0]) ∧
    ∃ n out, encode bytePostcard ⟨1, 2⟩ 0 (List.replicate 20 9) = some (n, out) ∧
      decode bytePostcard (out.take (n - 1)) = some (⟨1, 2⟩, 0) := by
  obtain ⟨hcobs, hframe⟩ := framing_round_trip bytePostcard
  refine ⟨hcobs [7, 0, 0] [9, 9, 9, 9, 9] (by decide) (by decide), ?_⟩
  have hsome : (encode bytePostcard ⟨1, 2⟩ 0 (List.replicate 20 9)).isSome = true := by decide +kernel
  obtain ⟨⟨n, out⟩, h⟩ := Option.isSome_iff_exists.mp hsome
  exact ⟨n, out, h, (hframe ⟨1, 2⟩ 0 _ out n h).2⟩

end Folkering.Mcp
