/-
  WebSocket FRAMES (net/websocket.rs): `encode_frame` and `try_decode_frame`.

  A frame is a first byte (FIN, reserved bits, opcode), a length in one of three encodings with the mask bit on top, an
  optional masking key and the payload.  `Frame.bytes` writes any such frame, as a server does; `encode_frame` is the
  case with a mask.  The decoder sees a buffer that may end anywhere and may hold more than one frame.
    * `decode_compatible`  — on a buffer that goes on from a frame, or is cut short of it: the frame, or "more";
    * `codec_exact_iff`    — `offset + payload_len` can leave 64 bits: the remote server picks that length.
-/
import Mathlib

namespace Folkering.WebSocket

open List Option

/-- A text frame. -/
def opcodeText : UInt8 := 0x01
/-- A binary frame. -/
def opcodeBinary : UInt8 := 0x02
/-- A close frame. -/
def opcodeClose : UInt8 := 0x08
/-- A ping. -/
def opcodePing : UInt8 := 0x09
/-- A pong. -/
def opcodePong : UInt8 := 0x0A

/-- The last frame of a message. -/
def finBit : UInt8 := 0x80
/-- The payload is masked. -/
def maskBit : UInt8 := 0x80

/-! ## Encoding -/

/-- The four bytes of a masking key. -/
abbrev MaskKey := Fin 4 → UInt8

/-- Masks a payload, and unmasks it. -/
def applyMask (key : MaskKey) (payload : List UInt8) : List UInt8 :=
  payload.mapIdx fun i b => b ^^^ key (Fin.ofNat 4 i)

/-- The second byte, with the mask bit, and the bytes of a long length behind it. -/
def lengthBytes (mask : UInt8) (len : Nat) : List UInt8 :=
  if len < 126 then [mask ||| UInt8.ofNat len]
  else if len ≤ 65535 then [mask ||| 126, UInt8.ofNat (len >>> 8), UInt8.ofNat (len &&& 0xFF)]
  else (mask ||| 127) :: (List.range 8).reverse.map fun i => UInt8.ofNat ((len >>> (i * 8)) &&& 0xFF)

/-- `encode_frame`; the masking key is what the random generator gives. -/
def encodeFrame (opcode : UInt8) (maskKey : MaskKey) (payload : List UInt8) : List UInt8 :=
  (finBit ||| opcode) :: lengthBytes maskBit payload.length ++ List.ofFn maskKey ++ applyMask maskKey payload

/-- A frame as it is sent, by either side. -/
structure Frame where
  /-- FIN, three reserved bits and the opcode -/
  first : UInt8
  mask : Option MaskKey
  payload : List UInt8

/-- The opcode in the first byte. -/
def Frame.opcode (f : Frame) : UInt8 := f.first &&& 0x0F

/-- The mask bit of the second byte. -/
def Frame.maskFlag (f : Frame) : UInt8 := if f.mask.isSome then maskBit else 0

/-- Where the masking key starts. -/
def Frame.keyOffset (f : Frame) : Nat := 1 + (lengthBytes f.maskFlag f.payload.length).length

/-- What stands in front of the payload. -/
def Frame.header (f : Frame) : List UInt8 :=
  f.first :: lengthBytes f.maskFlag f.payload.length ++ f.mask.elim [] List.ofFn

/-- The frame on the wire. -/
def Frame.bytes (f : Frame) : List UInt8 := f.header ++ f.mask.elim f.payload fun key => applyMask key f.payload

/-! ## Decoding -/

/-- What the decoder returns. -/
structure DecodedFrame where
  opcode : UInt8
  payload : List UInt8
  headerSize : Nat
deriving Repr, DecidableEq

/-- Not enough bytes, a frame, or a slice out of range. -/
inductive Decoded where
  | more
  | frame (f : DecodedFrame)
  | panic
deriving Repr, DecidableEq

/-- The length and the offset behind it. -/
def lengthField (data : List UInt8) : Option (Nat × Nat) :=
  let payloadLen := (data.getD 1 0 &&& 0x7F).toNat
  if payloadLen = 126 then
    if data.length < 4 then none else some ((data.getD 2 0).toNat <<< 8 ||| (data.getD 3 0).toNat, 4)
  else if payloadLen = 127 then
    if data.length < 10 then none
    else some ((List.range 8).foldl (fun len i => len <<< 8 ||| (data.getD (2 + i) 0).toNat) 0, 10)
  else some (payloadLen, 2)

/-- The masking key, if there is one, and the offset behind it. -/
def maskField (data : List UInt8) (offset : Nat) : Option (Option MaskKey × Nat) :=
  if data.getD 1 0 &&& 0x80 ≠ 0 then
    if data.length < offset + 4 then none else some (some fun i => data.getD (offset + i.val) 0, offset + 4)
  else some (none, offset)

/-- `try_decode_frame`.  If `offset + payload_len` leaves 64 bits the addition overflows; where it wraps, the slice
starts behind its end. -/
def tryDecodeFrame (data : List UInt8) : Decoded :=
  if data.length < 2 then .more
  else match lengthField data with
    | none => .more
    | some (payloadLen, offset) =>
      match maskField data offset with
      | none => .more
      | some (maskKey, offset) =>
        if 2 ^ 64 ≤ offset + payloadLen then .panic
        else if data.length < offset + payloadLen then .more
        else
          let payload := (data.drop offset).take payloadLen
          .frame { opcode := data.getD 0 0 &&& 0x0F
                   payload := maskKey.elim payload fun key => applyMask key payload
                   headerSize := offset + payloadLen }

/-! ## Bytes -/

@[simp] theorem length_applyMask (key : MaskKey) (payload : List UInt8) : (applyMask key payload).length = payload.length :=
  length_mapIdx

theorem applyMask_applyMask (key : MaskKey) (payload : List UInt8) : applyMask key (applyMask key payload) = payload := by
  unfold applyMask
  rw [mapIdx_mapIdx]
  apply ext_getElem?
  intro i
  rw [getElem?_mapIdx]
  cases payload[i]? with
  | none => rfl
  | some b => simp [Function.comp]

/-- A number put together again from its last byte and the rest. -/
theorem shift_or_byte (q : Nat) : (q / 256) <<< 8 ||| q % 256 = q := by
  rw [← Nat.shiftLeft_add_eq_or_of_lt (Nat.mod_lt q (by decide)), Nat.shiftLeft_eq]
  omega

theorem toNat_byte (n : Nat) : (UInt8.ofNat (n &&& 0xFF)).toNat = n % 256 := by
  rw [UInt8.toNat_ofNat', show (0xFF : Nat) = 2 ^ 8 - 1 from rfl, Nat.and_two_pow_sub_one_eq_mod]
  exact Nat.mod_mod n 256

/-- The bytes from the highest down. -/
theorem reverse_bytes (g : Nat → UInt8) : (List.range 8).reverse.map g = (List.range 8).map fun i => g (7 - i) := rfl

/-- The first `k` of the eight bytes. -/
theorem fold_lengthBytes {len : Nat} (hlen : len < 2 ^ 64) (k : Nat) (hk : k ≤ 8) :
    (List.range k).foldl (fun n i => n <<< 8 ||| (UInt8.ofNat ((len >>> ((7 - i) * 8)) &&& 0xFF)).toNat) 0 =
      len >>> (8 * (8 - k)) := by
  induction k with
  | zero => rw [Nat.shiftRight_eq_div_pow, Nat.div_eq_of_lt (by simpa using hlen)]; rfl
  | succ k ih =>
    have hstep : len >>> (8 * (8 - k)) = len >>> ((7 - k) * 8) / 256 := by
      rw [show 8 * (8 - k) = (7 - k) * 8 + 8 by omega, Nat.shiftRight_add, Nat.shiftRight_eq_div_pow _ 8]
    rw [range_succ, foldl_append, ih (by omega), foldl_cons, foldl_nil, toNat_byte, hstep,
      shift_or_byte]
    congr 1
    omega

/-- The mask bit and the seven bits beside it. -/
theorem second_byte (f : Frame) {n : Nat} (hn : n < 128) :
    ((f.maskFlag ||| UInt8.ofNat n) &&& 0x7F).toNat = n ∧
      ((f.maskFlag ||| UInt8.ofNat n) &&& 0x80 ≠ 0 ↔ f.mask.isSome = true) := by
  have hbits : ∀ m ∈ [(false, (0 : UInt8)), (true, maskBit)], ∀ n < 128, ((m.2 ||| UInt8.ofNat n) &&& 0x7F).toNat = n ∧
      ((m.2 ||| UInt8.ofNat n) &&& 0x80 ≠ 0 ↔ m.1 = true) := by decide +kernel
  refine hbits (f.mask.isSome, f.maskFlag) ?_ n hn
  unfold Frame.maskFlag
  cases f.mask <;> simp

/-! ## Buffers -/

/-- The buffer holds a frame and perhaps more, or is cut short of it. -/
def Compatible (data bytes : List UInt8) : Prop := data <+: bytes ∨ bytes <+: data

theorem Compatible.getD {data bytes : List UInt8} (h : Compatible data bytes) {i : Nat} (hi : i < data.length)
    (hi' : i < bytes.length) : data.getD i 0 = bytes.getD i 0 := by
  rw [getD_eq_getElem _ _ hi, getD_eq_getElem _ _ hi']
  rcases h with h | h
  · exact h.getElem hi
  · exact (h.getElem hi').symm

section

variable {f : Frame} {data : List UInt8}

@[simp] theorem length_header : f.header.length = f.keyOffset + if f.mask.isSome then 4 else 0 := by
  unfold Frame.header Frame.keyOffset
  cases f.mask <;> simp <;> omega

@[simp] theorem length_bytes : f.bytes.length = f.header.length + f.payload.length := by
  unfold Frame.bytes
  cases f.mask <;> simp

theorem getD_lengthBytes (h : Compatible data f.bytes) {i : Nat} (hi : i + 1 < data.length)
    (hi' : i < (lengthBytes f.maskFlag f.payload.length).length) :
    data.getD (i + 1) 0 = (lengthBytes f.maskFlag f.payload.length).getD i 0 := by
  rw [h.getD hi (by simp only [length_bytes, length_header, Frame.keyOffset]; omega)]
  simp only [Frame.bytes, Frame.header, cons_append, getD_cons_succ, append_assoc]
  exact getD_append _ _ _ _ hi'

/-- The second byte holds the mask bit and a number of seven bits. -/
theorem second_eq (h : Compatible data f.bytes) (h2 : 2 ≤ data.length) : ∃ n < 128,
    data.getD 1 0 = f.maskFlag ||| UInt8.ofNat n ∧
      n = if f.payload.length < 126 then f.payload.length else if f.payload.length ≤ 65535 then 126 else 127 := by
  have hbyte : 0 < (lengthBytes f.maskFlag f.payload.length).length →
      data.getD 1 0 = (lengthBytes f.maskFlag f.payload.length).getD 0 0 := getD_lengthBytes h h2
  unfold lengthBytes at hbyte
  split_ifs at hbyte ⊢ with hshort hmid
  · exact ⟨_, by omega, hbyte Nat.one_pos, rfl⟩
  · exact ⟨126, by decide, hbyte (by simp), rfl⟩
  · exact ⟨127, by decide, hbyte (by simp), rfl⟩

theorem lengthField_eq (h : Compatible data f.bytes) (h2 : 2 ≤ data.length) (hlen : f.payload.length < 2 ^ 64) :
    lengthField data = if data.length < f.keyOffset then none else some (f.payload.length, f.keyOffset) := by
  obtain ⟨n, hn, hsecond, hcode⟩ := second_eq h h2
  have hbyte := fun i => @getD_lengthBytes f data h i
  unfold lengthField Frame.keyOffset
  rw [hsecond, (second_byte f hn).1]
  unfold lengthBytes at hbyte ⊢
  by_cases hshort : f.payload.length < 126
  · rw [if_pos hshort] at hcode ⊢
    rw [hcode, if_neg (by omega), if_neg (by omega), if_neg (by simp only [length_singleton]; omega)]
    rfl
  · rw [if_neg hshort] at hcode hbyte ⊢
    by_cases hmid : f.payload.length ≤ 65535
    · simp only [if_pos hmid, length_cons, length_nil] at hcode hbyte ⊢
      rw [if_pos hcode]
      by_cases hroom : data.length < 4
      · rw [if_pos hroom, if_pos hroom]
      · rw [if_neg hroom, if_neg hroom, hbyte 1 (by omega) (by decide), hbyte 2 (by omega) (by decide)]
        simp only [getD_cons_succ, getD_cons_zero]
        rw [toNat_byte, UInt8.toNat_ofNat', Nat.shiftRight_eq_div_pow, Nat.mod_eq_of_lt (by omega), shift_or_byte]
    · simp only [if_neg hmid, length_cons, length_map, length_reverse, length_range] at hcode hbyte ⊢
      rw [if_neg (by omega), if_pos hcode]
      by_cases hroom : data.length < 10
      · rw [if_pos hroom, if_pos hroom]
      · have hfold : ∀ i ∈ List.range 8, (data.getD (2 + i) 0).toNat =
            (UInt8.ofNat ((f.payload.length >>> ((7 - i) * 8)) &&& 0xFF)).toNat := by
          intro i hi
          have hi := mem_range.mp hi
          rw [show 2 + i = i + 1 + 1 by omega, hbyte (i + 1) (by omega) (by omega), getD_cons_succ, reverse_bytes,
            getD_eq_getElem _ _ (by simpa using hi), getElem_map, getElem_range]
        rw [if_neg hroom, if_neg hroom, foldl_ext _ _ _ fun n i hi => by rw [hfold i hi],
          fold_lengthBytes hlen 8 (Nat.le_refl 8)]
        rfl

theorem getD_key (h : Compatible data f.bytes) {key : MaskKey} (hkey : f.mask = some key) (i : Fin 4)
    (hroom : f.keyOffset + 4 ≤ data.length) : data.getD (f.keyOffset + i.val) 0 = key i := by
  have hbytes : f.bytes = (f.first :: lengthBytes f.maskFlag f.payload.length) ++
      (List.ofFn key ++ applyMask key f.payload) := by
    simp [Frame.bytes, Frame.header, hkey]
  rw [h.getD (by omega) (by simp only [length_bytes, length_header, hkey, isSome_some, if_true]; omega), hbytes,
    show f.keyOffset = (f.first :: lengthBytes f.maskFlag f.payload.length).length from Nat.add_comm _ _,
    getD_append_right _ _ _ _ (Nat.le_add_right _ _), Nat.add_sub_cancel_left,
    getD_append _ _ _ _ (by simp), getD_eq_getElem _ _ (by simp), List.getElem_ofFn]

theorem maskField_eq (h : Compatible data f.bytes) (h2 : 2 ≤ data.length) (hroom : f.keyOffset ≤ data.length) :
    maskField data f.keyOffset = if data.length < f.header.length then none else some (f.mask, f.header.length) := by
  obtain ⟨n, hn, hsecond, _⟩ := second_eq h h2
  unfold maskField
  rw [hsecond, length_header]
  simp only [(second_byte f hn).2]
  cases hkey : f.mask with
  | none => simp [Nat.not_lt.mpr hroom]
  | some key =>
    simp only [isSome_some, if_true]
    split
    · rfl
    · next hroom =>
      rw [show (fun i : Fin 4 => data.getD (f.keyOffset + i.val) 0) = key from
        funext fun i => getD_key h hkey i (Nat.not_lt.mp hroom)]

theorem header_length_le : f.header.length ≤ 14 := by
  rw [length_header, Frame.keyOffset, lengthBytes]
  split_ifs <;> simp

theorem header_length_ge : 2 ≤ f.header.length := by
  rw [length_header, Frame.keyOffset, lengthBytes]
  split_ifs <;> simp

/-- **The decoder on a frame.**  Cut short of its end there is more to come, from there on it is the frame. -/
theorem decode_compatible (h : Compatible data f.bytes) (hlen : f.payload.length < 2 ^ 63) :
    tryDecodeFrame data = if data.length < f.bytes.length then .more
      else .frame ⟨f.opcode, f.payload, f.bytes.length⟩ := by
  have hle := @header_length_le f
  have hge := @header_length_ge f
  have hkey : f.keyOffset ≤ f.header.length := by
    rw [length_header]
    exact Nat.le_add_right _ _
  rw [length_bytes]
  by_cases h2 : data.length < 2
  · rw [tryDecodeFrame, if_pos h2, if_pos (by omega)]
  have h2' := Nat.not_lt.mp h2
  have hfield := lengthField_eq h h2' (by omega)
  by_cases hoffset : data.length < f.keyOffset
  · rw [if_pos hoffset] at hfield
    rw [tryDecodeFrame, if_neg h2, hfield, if_pos (by omega)]
  rw [if_neg hoffset] at hfield
  have hmask := maskField_eq h h2' (Nat.not_lt.mp hoffset)
  by_cases hheader : data.length < f.header.length
  · rw [if_pos hheader] at hmask
    simp only [tryDecodeFrame, if_neg h2, hfield, hmask]
    rw [if_pos (by omega)]
  rw [if_neg hheader] at hmask
  simp only [tryDecodeFrame, if_neg h2, hfield, hmask]
  rw [if_neg (by omega)]
  by_cases hall : data.length < f.header.length + f.payload.length
  · rw [if_pos hall, if_pos hall]
  rw [if_neg hall, if_neg hall]
  -- the whole frame is there
  have hprefix : f.bytes <+: data := by
    rcases h with h | h
    · rw [h.eq_of_length_le (by rw [length_bytes]; omega)]
    · exact h
  obtain ⟨rest, rfl⟩ := hprefix
  have hfirst : (f.bytes ++ rest).getD 0 0 = f.first := rfl
  have hbody : ((f.bytes ++ rest).drop f.header.length).take f.payload.length =
      f.mask.elim f.payload fun key => applyMask key f.payload := by
    rw [Frame.bytes, append_assoc, drop_left]
    exact take_left' (by cases f.mask <;> simp)
  rw [hfirst, hbody, Frame.opcode]
  cases f.mask with
  | none => rfl
  | some key => simp only [Option.elim_some, applyMask_applyMask]

end

/-! ## The codec -/

/-- The frame that `encode_frame` writes. -/
def maskedFrame (opcode : UInt8) (maskKey : MaskKey) (payload : List UInt8) : Frame :=
  ⟨finBit ||| opcode, some maskKey, payload⟩

theorem encodeFrame_eq (opcode : UInt8) (maskKey : MaskKey) (payload : List UInt8) :
    encodeFrame opcode maskKey payload = (maskedFrame opcode maskKey payload).bytes := rfl

theorem masked_opcode (opcode : UInt8) : (finBit ||| opcode) &&& 0x0F = opcode ↔ opcode < 16 := by
  have hall : ∀ n < 256, (finBit ||| UInt8.ofNat n) &&& 0x0F = UInt8.ofNat n ↔ UInt8.ofNat n < 16 := by decide +kernel
  have h := hall opcode.toNat opcode.toNat_lt
  rwa [UInt8.ofNat_toNat] at h

/-- A number in the eight length bytes. -/
def longLength (data : List UInt8) : Nat :=
  (List.range 8).foldl (fun len i => len <<< 8 ||| (data.getD (2 + i) 0).toNat) 0

/-- The eight length bytes ask for more than 64 bits can count, header included. -/
def HugeLength (data : List UInt8) : Prop :=
  let offset := if data.getD 1 0 &&& 0x80 ≠ 0 then 14 else 10
  (data.getD 1 0 &&& 0x7F).toNat = 127 ∧ offset ≤ data.length ∧ 2 ^ 64 ≤ offset + longLength data

section

variable {data : List UInt8} {payloadLen offset offset' : Nat}

theorem lengthField_long (hcode : (data.getD 1 0 &&& 0x7F).toNat = 127) :
    lengthField data = if data.length < 10 then none else some (longLength data, 10) := by
  simp only [lengthField, hcode]
  rfl

/-- The other lengths are small. -/
theorem lengthField_lt (h : lengthField data = some (payloadLen, offset))
    (hcode : (data.getD 1 0 &&& 0x7F).toNat ≠ 127) : payloadLen < 2 ^ 16 ∧ offset ≤ 4 := by
  have hbyte : (data.getD 1 0 &&& 0x7F).toNat < 256 := UInt8.toNat_lt _
  simp only [lengthField, if_neg hcode] at h
  split_ifs at h
  · obtain ⟨rfl, rfl⟩ := Prod.mk.inj (some.inj h)
    have h2 := (data.getD 2 0).toNat_lt
    have h3 := (data.getD 3 0).toNat_lt
    refine ⟨Nat.or_lt_two_pow ?_ (by omega), Nat.le_refl 4⟩
    rw [Nat.shiftLeft_eq]
    omega
  · obtain ⟨rfl, rfl⟩ := Prod.mk.inj (some.inj h)
    exact ⟨by omega, by decide⟩

theorem maskField_offset {key : Option MaskKey} (h : maskField data offset = some (key, offset')) :
    offset' = (if data.getD 1 0 &&& 0x80 ≠ 0 then offset + 4 else offset) ∧ offset' ≤ max offset data.length := by
  unfold maskField at h
  split_ifs at h ⊢ with hmasked hroom
  · obtain ⟨_, rfl⟩ := Prod.mk.inj (some.inj h)
    exact ⟨rfl, by omega⟩
  · obtain ⟨_, rfl⟩ := Prod.mk.inj (some.inj h)
    exact ⟨rfl, Nat.le_max_left _ _⟩

theorem huge_of_panic (h : tryDecodeFrame data = .panic) : HugeLength data := by
  simp only [tryDecodeFrame] at h
  split at h
  · cases h
  cases hlength : lengthField data with
  | none =>
    rw [hlength] at h
    cases h
  | some field =>
    obtain ⟨payloadLen, offset⟩ := field
    cases hmask : maskField data offset with
    | none =>
      simp only [hlength, hmask] at h
      cases h
    | some field =>
      obtain ⟨key, offset'⟩ := field
      obtain ⟨hoffset, hroom⟩ := maskField_offset hmask
      simp only [hlength, hmask] at h
      split_ifs at h with hbig
      by_cases hcode : (data.getD 1 0 &&& 0x7F).toNat = 127
      · rw [lengthField_long hcode] at hlength
        split_ifs at hlength with hten
        obtain ⟨rfl, rfl⟩ := Prod.mk.inj (some.inj hlength)
        refine ⟨hcode, ?_, ?_⟩
        · rw [← hoffset]
          omega
        · rw [← hoffset]
          exact hbig
      · obtain ⟨hlt, hle⟩ := lengthField_lt hlength hcode
        split_ifs at hoffset <;> omega

theorem panic_of_huge (h : HugeLength data) : tryDecodeFrame data = .panic := by
  obtain ⟨hcode, hroom, hbig⟩ := h
  have hlength : lengthField data = some (longLength data, 10) := by
    rw [lengthField_long hcode, if_neg]
    split_ifs at hroom <;> omega
  have hmask : ∃ key, maskField data 10 = some (key, if data.getD 1 0 &&& 0x80 ≠ 0 then 14 else 10) := by
    unfold maskField
    split_ifs at hroom ⊢ with hmasked hshort
    · omega
    · exact ⟨_, rfl⟩
    · exact ⟨_, rfl⟩
  obtain ⟨key, hmask⟩ := hmask
  simp only [tryDecodeFrame, hlength, hmask, if_pos hbig]
  rw [if_neg]
  split_ifs at hroom <;> omega

end

/-- Encoded frames are read back, with anything behind them, exactly if the opcode has four bits; cut short they are
never taken for a frame; and the decoder faults exactly if a length of eight bytes is beyond 64 bits with its header. -/
theorem codec_exact_iff (opcode : UInt8) (maskKey : MaskKey) (payload data : List UInt8)
    (hlen : payload.length < 2 ^ 63) :
    ((∀ rest, tryDecodeFrame (encodeFrame opcode maskKey payload ++ rest) =
        .frame ⟨opcode, payload, (encodeFrame opcode maskKey payload).length⟩) ↔ opcode < 16) ∧
    (∀ p, p <+: encodeFrame opcode maskKey payload → p ≠ encodeFrame opcode maskKey payload →
      tryDecodeFrame p = .more) ∧
    (tryDecodeFrame data ≠ .panic ↔ ¬ HugeLength data) := by
  rw [encodeFrame_eq]
  refine ⟨?_, ?_, not_congr ⟨huge_of_panic, panic_of_huge⟩⟩
  · rw [← masked_opcode opcode]
    have hdecode : ∀ rest, tryDecodeFrame ((maskedFrame opcode maskKey payload).bytes ++ rest) = .frame
        ⟨(maskedFrame opcode maskKey payload).opcode, payload, (maskedFrame opcode maskKey payload).bytes.length⟩ := by
      intro rest
      rw [decode_compatible (Or.inr (prefix_append _ _)) hlen,
        if_neg (by rw [length_append]; omega)]
      rfl
    constructor
    · intro h
      have hframe := Decoded.frame.inj ((hdecode []).symm.trans (h []))
      exact congrArg DecodedFrame.opcode hframe
    · intro h rest
      rw [hdecode rest, show (maskedFrame opcode maskKey payload).opcode = opcode from h]
  · intro p hp hne
    rw [decode_compatible (Or.inl hp) hlen, if_pos]
    exact Nat.lt_of_le_of_ne hp.length_le fun hlength => hne (hp.eq_of_length hlength)

theorem codec_exact_text : tryDecodeFrame (encodeFrame opcodeText (fun _ => 7) [1, 2, 3] ++ [9]) =
    .frame ⟨opcodeText, [1, 2, 3], (encodeFrame opcodeText (fun _ => 7) [1, 2, 3]).length⟩ :=
  (codec_exact_iff opcodeText (fun _ => 7) [1, 2, 3] [] (by decide)).1.mpr (by decide) [9]

/-- Ten bytes of a server are enough. -/
theorem huge_length_panics : tryDecodeFrame [0x82, 0x7F, 255, 255, 255, 255, 255, 255, 255, 255] = .panic := by
  decide +kernel

end Folkering.WebSocket
