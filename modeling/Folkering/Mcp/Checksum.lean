/-
  The checksum of the MCP frames: CRC-16/CCITT-FALSE.

  `crc16` adds a byte to the upper half of the register and shifts eight times; bit by bit that is `Crc.feed` over the
  bits of the message, most significant bit first (`crc16_eq_feed`).  The generator 0x1021 has a constant term, so an
  error within 16 consecutive bits is never absorbed.
-/
import Folkering.Lib.Crc

namespace Folkering.Mcp

open Crc List

/-- The polynomial of CRC-16/CCITT. -/
def crc16Poly : UInt16 := 0x1021

/-- The body of the inner loop. -/
def crcShift (crc : UInt16) : UInt16 := if crc &&& 0x8000 ≠ 0 then (crc <<< 1) ^^^ crc16Poly else crc <<< 1

/-- The body of the outer loop. -/
def crcByte (crc : UInt16) (byte : UInt8) : UInt16 := crcShift^[8] (crc ^^^ (byte.toUInt16 <<< 8))

/-- The checksum of a frame. -/
def crc16 (data : List UInt8) : UInt16 := data.foldl crcByte 0xFFFF

/-! ## Bit by bit -/

/-- The bits of a byte, most significant first. -/
def byteBits (b : UInt8) : List Bool := (List.range 8).map fun i => b.toBitVec.getMsbD i

/-- The bits of a message in the order of the checksum. -/
def messageBits (data : List UInt8) : List Bool := data.flatMap byteBits

theorem crcShift_toBitVec (crc : UInt16) : (crcShift crc).toBitVec = step crc16Poly.toBitVec crc.toBitVec := by
  have hbit : (crc &&& 0x8000 ≠ 0) ↔ crc.toBitVec.msb = true := by
    have hone : (0x8000 : UInt16).toBitVec = BitVec.twoPow 16 15 := by decide
    rw [ne_eq, ← UInt16.toBitVec_inj, UInt16.toBitVec_and, hone, BitVec.and_twoPow, BitVec.msb_eq_getLsbD_last]
    cases crc.toBitVec.getLsbD 15
    · simp
    · exact iff_of_true (by decide) rfl
  unfold crcShift step
  by_cases h : crc.toBitVec.msb = true
  · rw [if_pos (hbit.mpr h), if_pos h]
    simp
  · rw [if_neg (fun hne => h (hbit.mp hne)), if_neg h]
    simp

theorem crcShift_iterate (n : Nat) (crc : UInt16) :
    (crcShift^[n] crc).toBitVec = (step crc16Poly.toBitVec)^[n] crc.toBitVec :=
  Function.Semiconj.iterate_right (fun crc => crcShift_toBitVec crc) n crc

/-- The bits of a byte side by side are the byte in the upper half. -/
theorem word_byteBits (b : UInt8) : (word (byteBits b) : BitVec 16) = (b.toUInt16 <<< 8).toBitVec := by
  have hall : ∀ v : BitVec 8, (word (byteBits ⟨v⟩) : BitVec 16) = ((⟨v⟩ : UInt8).toUInt16 <<< 8).toBitVec := by
    decide +kernel
  exact hall b.toBitVec

theorem crcByte_eq_feed (crc : UInt16) (b : UInt8) :
    (crcByte crc b).toBitVec = feed crc16Poly.toBitVec crc.toBitVec (byteBits b) := by
  rw [crcByte, crcShift_iterate, UInt16.toBitVec_xor, ← word_byteBits]
  exact (feed_eq crc.toBitVec (show (byteBits b).length ≤ 16 by simp [byteBits])).symm

theorem crc16_eq_feed (data : List UInt8) :
    (crc16 data).toBitVec = feed crc16Poly.toBitVec 0xFFFF#16 (messageBits data) := by
  have hfold : ∀ crc : UInt16, (data.foldl crcByte crc).toBitVec =
      feed crc16Poly.toBitVec crc.toBitVec (messageBits data) := by
    induction data with
    | nil => exact fun crc => rfl
    | cons b data ih =>
      intro crc
      rw [foldl_cons, ih, crcByte_eq_feed]
      exact (feed_append _ _ _).symm
  exact hfold 0xFFFF

/-! ## Errors -/

/-- The message with the bits of the pattern flipped. -/
def corrupt (message pattern : List UInt8) : List UInt8 := List.zipWith (· ^^^ ·) message pattern

/-- Bit `k` of the message is set in the pattern. -/
def Flips (pattern : List UInt8) (k : Nat) : Prop := (messageBits pattern)[k]? = some true

theorem messageBits_corrupt : ∀ {message pattern : List UInt8}, pattern.length = message.length →
    messageBits (corrupt message pattern) = List.zipWith xor (messageBits message) (messageBits pattern)
  | [], [], _ => rfl
  | b :: message, e :: pattern, h => by
    have hbyte : byteBits (b ^^^ e) = List.zipWith xor (byteBits b) (byteBits e) := by
      simp [byteBits, range_succ]
    have hrest := messageBits_corrupt (Nat.succ.inj h)
    unfold messageBits corrupt at hrest ⊢
    rw [zipWith_cons_cons, flatMap_cons, hrest, hbyte, flatMap_cons, flatMap_cons,
      zipWith_append (by rfl)]

theorem length_messageBits {message pattern : List UInt8} (h : pattern.length = message.length) :
    (messageBits pattern).length = (messageBits message).length := by
  have hbytes : ∀ data : List UInt8, (messageBits data).length = 8 * data.length := by
    intro data
    induction data with
    | nil => rfl
    | cons b data ih =>
      rw [messageBits, flatMap_cons, length_append, length_cons, Nat.mul_succ, Nat.add_comm]
      exact congrArg (· + 8) ih
  rw [hbytes, hbytes, h]

/-- Bits that are set within a window only. -/
theorem window_split {bs : List Bool} {i n : Nat} (h : ∀ k, bs[k]? = some true → i ≤ k ∧ k < i + n) :
    ∃ mid j, mid.length ≤ n ∧ bs = List.replicate (min i bs.length) false ++ (mid ++ List.replicate j false) := by
  refine ⟨(bs.drop i).take n, (bs.drop (i + n)).length, length_take_le _ _, ?_⟩
  have hbefore : bs.take i = List.replicate (min i bs.length) false := by
    refine eq_replicate_iff.mpr ⟨length_take, fun b hb => ?_⟩
    obtain ⟨k, hk, rfl⟩ := getElem_of_mem hb
    rw [length_take] at hk
    by_contra hne
    rw [Bool.not_eq_false, getElem_take] at hne
    have := (h k (by rw [getElem?_eq_getElem (by omega), hne])).1
    omega
  have hafter : bs.drop (i + n) = List.replicate (bs.drop (i + n)).length false := by
    refine eq_replicate_iff.mpr ⟨rfl, fun b hb => ?_⟩
    obtain ⟨k, hk, rfl⟩ := getElem_of_mem hb
    rw [length_drop] at hk
    by_contra hne
    rw [Bool.not_eq_false, getElem_drop] at hne
    have := (h (i + n + k) (by rw [getElem?_eq_getElem (by omega), hne])).2
    omega
  rw [← hbefore, ← hafter, ← drop_drop, take_append_drop, take_append_drop]

/-- BURST DETECTION: flipping some bits within 16 consecutive ones changes the checksum. -/
theorem crc16_detects_burst {message pattern : List UInt8} (hlen : pattern.length = message.length)
    (hflip : ∃ k, Flips pattern k) (hspan : ∃ i, ∀ k, Flips pattern k → i ≤ k ∧ k < i + 16) :
    crc16 (corrupt message pattern) ≠ crc16 message := by
  intro heq
  obtain ⟨i, hi⟩ := hspan
  obtain ⟨mid, j, hmid, hsplit⟩ := window_split hi
  -- equal checksums: the pattern itself is fed to zero
  have hzero : feed crc16Poly.toBitVec 0#16 (messageBits pattern) = 0#16 := by
    have hsame := congrArg UInt16.toBitVec heq
    rw [crc16_eq_feed, crc16_eq_feed, messageBits_corrupt hlen, ← BitVec.xor_zero (x := 0xFFFF#16),
      feed_xor _ _ (length_messageBits hlen), BitVec.xor_zero] at hsame
    exact (BitVec.xor_right_inj _).mp (hsame.trans BitVec.xor_zero.symm)
  rw [hsplit] at hzero
  have hnone := feed_burst (by decide) (by decide) hmid hzero
  obtain ⟨k, hk⟩ := hflip
  have htrue : true ∈ messageBits pattern := mem_of_getElem? hk
  rw [hsplit] at htrue
  simp only [mem_append, mem_replicate, Bool.true_eq_false, and_false, false_or, or_false] at htrue
  exact Bool.noConfusion (hnone true htrue)

/-- Two flipped bits across a byte boundary. -/
theorem crc16_detects_burst_pair : crc16 (corrupt [0x31, 0x32, 0x33] [0x01, 0x80, 0x00]) ≠ crc16 [0x31, 0x32, 0x33] := by
  refine crc16_detects_burst rfl ⟨7, rfl⟩ ⟨0, fun k hk => ⟨Nat.zero_le k, ?_⟩⟩
  by_contra hge
  have hclear : ∀ k < 24, 16 ≤ k → (messageBits [0x01, 0x80, 0x00])[k]? ≠ some true := by decide
  rcases Nat.lt_or_ge k 24 with hlt | hout
  · exact hclear k hlt (by omega) hk
  · rw [Flips, getElem?_eq_none (by exact hout)] at hk
    cases hk

end Folkering.Mcp
