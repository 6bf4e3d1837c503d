/-
  The TOKENIZER (libtensor/tokenizer.rs): `encode` and `decode`.

  The strings of the vocabulary are written in the printable alphabet of GPT-2, one character of one or two bytes for each
  byte.  `encode` cuts a text at the special tokens and into segments, and merges the tokens of the bytes of each segment;
  without merges it takes the longest match.  `decode` turns the strings back, token by token.
    * `Spells`          — tokens whose strings stand for some bytes: what every step of the encoding keeps;
    * `Spells.decode`   — decoding gives these bytes back;
    * `round_trip_iff`  — the round trip.  The working array of a segment has 2048 entries: what a longer segment has
                          beyond them is not encoded.
-/
import Folkering.Tensor.PreTokenizer

namespace Folkering.Tensor

open Heapsort BpeTokenizer List

/-! ## The printable alphabet -/

/-- The bytes that stand for themselves. -/
def isGpt2Printable (b : UInt8) : Bool := (33 ≤ b && b ≤ 126) || (161 ≤ b && b ≤ 172) || 174 ≤ b

/-- The printable character of a byte, in UTF-8. -/
def gpt2EncodeByte (b : UInt8) : List UInt8 :=
  if isGpt2Printable b then if b < 128 then [b] else [(0xC0 : UInt8) ||| (b >>> 6), (0x80 : UInt8) ||| (b &&& 0x3F)]
  else
    let n := if b ≤ 32 then b.toNat else if b = 127 then 33 else if b ≤ 160 then 34 + (b.toNat - 128) else 34 + 33
    let codepoint := 256 + n
    [(0xC0 : UInt8) ||| UInt8.ofNat (codepoint >>> 6), (0x80 : UInt8) ||| UInt8.ofNat (codepoint &&& 0x3F)]

/-- The byte of the first character, and the length of the character. -/
def gpt2DecodeChar : List UInt8 → UInt8 × Nat
  | [] => (0, 0)
  | [c] => (c, 1)
  | c :: c1 :: _ =>
    if c < 128 then (c, 1)
    else if c &&& 0xE0 = 0xC0 then
      let codepoint := (c.toNat &&& 0x1F) <<< 6 ||| (c1.toNat &&& 0x3F)
      if 256 ≤ codepoint then
        let n := codepoint - 256
        (if n ≤ 32 then UInt8.ofNat n else if n = 33 then 127 else if n ≤ 66 then UInt8.ofNat (128 + n - 34) else 173, 2)
      else (UInt8.ofNat codepoint, 2)
    else (c, 1)

/-! ## The tokenizer -/

/-- The vocabulary with its special tokens. -/
structure Tokenizer extends BpeTokenizer where
  vocabSize : Nat
  /-- The strings of the vocabulary, in the data of the file. -/
  strings : Nat → List UInt8
  imStartId : Nat
  imEndId : Nat
  endoftextId : Nat

namespace Tokenizer

/-- The string of a token. -/
def tokenBytes (t : Tokenizer) (id : Nat) : List UInt8 := if t.vocabSize ≤ id then [] else t.strings id

/-- `<|im_start|>`, `<|im_end|>` and `<|endoftext|>`. -/
def specialPatterns : List (List UInt8) :=
  [[60, 124, 105, 109, 95, 115, 116, 97, 114, 116, 124, 62], [60, 124, 105, 109, 95, 101, 110, 100, 124, 62],
    [60, 124, 101, 110, 100, 111, 102, 116, 101, 120, 116, 124, 62]]

/-- The special token a text starts with. -/
def specialAt (t : Tokenizer) (s : List UInt8) : Option (List UInt8 × Nat) :=
  (specialPatterns.zip [t.imStartId, t.imEndId, t.endoftextId]).find? fun p => p.2 != u32Max && p.1.isPrefixOf s

/-- The bytes in front of the next special token. -/
def plainLength (t : Tokenizer) : List UInt8 → Nat
  | [] => 0
  | b :: rest => if (t.specialAt (b :: rest)).isSome then 0 else 1 + t.plainLength rest

/-- `encode_pretokenized`, into a buffer with room for `room` tokens. -/
def encodePretokenized (t : Tokenizer) : Nat → List UInt8 → Nat → List Nat
  | 0, _, _ => []
  | _ + 1, [], _ => []
  | fuel + 1, b :: rest, room =>
    if room = 0 then []
    else
      let segLen := ptNext (b :: rest)
      if segLen = 0 then t.encodePretokenized fuel rest room
      else
        let added := t.encodeBpeSegment ((b :: rest).take segLen) room
        added ++ t.encodePretokenized fuel ((b :: rest).drop segLen) (room - added.length)

/-- Special tokens, and the text between them. -/
def encodeLoop (t : Tokenizer) : Nat → List UInt8 → Nat → List Nat
  | 0, _, _ => []
  | _ + 1, [], _ => []
  | fuel + 1, b :: rest, room =>
    if room = 0 then []
    else
      match t.specialAt (b :: rest) with
      | some (pattern, id) => id :: t.encodeLoop fuel ((b :: rest).drop pattern.length) (room - 1)
      | none =>
        let segment := (b :: rest).take (1 + t.plainLength rest)
        let added := t.encodePretokenized segment.length segment room
        added ++ t.encodeLoop fuel ((b :: rest).drop (1 + t.plainLength rest)) (room - added.length)

/-- `try_match_gpt2`, behind `n` bytes that match. -/
def tryMatchGpt2 : Nat → List UInt8 → List UInt8 → Nat
  | n, [], tok => if tok.isEmpty then n else 0
  | n, b :: text, tok =>
    if tok.isEmpty then n
    else
      let encoded := gpt2EncodeByte b
      if tok.length < encoded.length then 0
      else if tok.take encoded.length ≠ encoded then 0
      else tryMatchGpt2 (n + 1) text (tok.drop encoded.length)

/-- One token of the vocabulary against the best match so far. -/
def greedyStep (t : Tokenizer) (text : List UInt8) (best : Nat × Nat) (tokId : Nat) : Nat × Nat :=
  let id := tokId % 2 ^ 32
  if (t.tokenBytes id).isEmpty then best
  else
    let matchedLen := tryMatchGpt2 0 text (t.tokenBytes id)
    if best.2 < matchedLen then (id, matchedLen) else best

/-- The token of the longest match and its length. -/
def greedyBest (t : Tokenizer) (text : List UInt8) : Nat × Nat :=
  (List.range' 4 (t.vocabSize - 4)).foldl (t.greedyStep text) (u32Max, 0)

/-- The longest match, again and again. -/
def encodeGreedy (t : Tokenizer) : Nat → List UInt8 → Nat → List Nat
  | 0, _, _ => []
  | _ + 1, [], _ => []
  | fuel + 1, b :: rest, room =>
    if room = 0 then []
    else
      let best := t.greedyBest (b :: rest)
      if best.1 ≠ u32Max ∧ 0 < best.2 then best.1 :: t.encodeGreedy fuel ((b :: rest).drop best.2) (room - 1)
      else (t.byteToken? b).getD t.replacementToken :: t.encodeGreedy fuel rest (room - 1)

/-- `encode` into a buffer of `outLen` tokens. -/
def encode (t : Tokenizer) (text : List UInt8) (outLen : Nat) : List Nat :=
  if text.isEmpty ∨ outLen = 0 then []
  else if t.nMerges = 0 then t.encodeGreedy text.length text outLen
  else t.encodeLoop text.length text outLen

/-- The bytes of the string of a token. -/
def decodeString : Nat → List UInt8 → Nat → List UInt8
  | 0, _, _ => []
  | fuel + 1, tok, room =>
    if tok.isEmpty ∨ room = 0 then []
    else if (gpt2DecodeChar tok).2 = 0 then []
    else (gpt2DecodeChar tok).1 :: decodeString fuel (tok.drop (gpt2DecodeChar tok).2) (room - 1)

/-- `decode` into a buffer of `room` bytes. -/
def decode (t : Tokenizer) : List Nat → Nat → List UInt8
  | [], _ => []
  | id :: ids, room =>
    let bytes := decodeString (t.tokenBytes id).length (t.tokenBytes id) room
    bytes ++ t.decode ids (room - bytes.length)

end Tokenizer

open Tokenizer

/-- Every byte has a token, and the result of a merge is the concatenation of its parts. -/
structure Vocabulary (t : Tokenizer) : Prop where
  bytes : ∀ b, t.byteTokens b ≠ byteTokenNone ∧ t.tokenBytes (t.byteTokens b) = gpt2EncodeByte b
  merges : ∀ i < t.nMerges,
    t.tokenBytes (t.merges i).merged = t.tokenBytes (t.merges i).left ++ t.tokenBytes (t.merges i).right

/-! ## What tokens stand for -/

/-- The bytes the strings of the tokens stand for, whole bytes for each token. -/
inductive Spells (t : Tokenizer) : List Nat → List UInt8 → Prop
  | nil : Spells t [] []
  | cons {id : Nat} {bs : List UInt8} {ids : List Nat} {rest : List UInt8}
      (hid : t.tokenBytes id = bs.flatMap gpt2EncodeByte) (hids : Spells t ids rest) : Spells t (id :: ids) (bs ++ rest)

variable {t : Tokenizer}

theorem Spells.append {ids ids' : List Nat} {bs bs' : List UInt8} (h : Spells t ids bs)
    (h' : Spells t ids' bs') : Spells t (ids ++ ids') (bs ++ bs') := by
  induction h with
  | nil => exact h'
  | cons hid _ ih =>
    rw [append_assoc]
    exact Spells.cons hid ih

theorem Spells.single {id : Nat} {b : UInt8} {ids : List Nat} {rest : List UInt8}
    (hid : t.tokenBytes id = gpt2EncodeByte b) (hids : Spells t ids rest) : Spells t (id :: ids) (b :: rest) := by
  have htoken : t.tokenBytes id = [b].flatMap gpt2EncodeByte := by rw [hid, flatMap_singleton]
  exact Spells.cons htoken hids

theorem spells_bytes {ids : List Nat} (h : ∀ id ∈ ids, ∃ b, t.tokenBytes id = gpt2EncodeByte b) :
    ∃ bs, Spells t ids bs ∧ bs.length = ids.length := by
  induction ids with
  | nil => exact ⟨[], Spells.nil, rfl⟩
  | cons id ids ih =>
    obtain ⟨b, hb⟩ := h id mem_cons_self
    obtain ⟨bs, hbs, hlen⟩ := ih fun id' hid' => h id' (mem_cons_of_mem _ hid')
    exact ⟨b :: bs, hbs.single hb, congrArg (· + 1) hlen⟩

theorem Vocabulary.spells_map (h : Vocabulary t) (text : List UInt8) : Spells t (text.map t.byteTokens) text := by
  induction text with
  | nil => exact Spells.nil
  | cons b text ih => exact Spells.single (h.bytes b).2 ih

/-! ## Decoding -/

theorem gpt2EncodeByte_cases (b : UInt8) : (gpt2EncodeByte b = [b] ∧ b < 128) ∨
      ∃ c c1, gpt2EncodeByte b = [c, c1] ∧ gpt2DecodeChar [c, c1] = (b, 2) := by
  have hb := forall_byte (P := fun b => (gpt2EncodeByte b = [b] ∧ b < 128) ∨
    (gpt2EncodeByte b).length = 2 ∧ gpt2DecodeChar (gpt2EncodeByte b) = (b, 2))
    (by decide +kernel) b
  rcases hb with hone | ⟨hlen, hdecode⟩
  · exact Or.inl hone
  · obtain ⟨c, c1, hc⟩ := length_eq_two.mp hlen
    rw [hc] at hdecode
    exact Or.inr ⟨c, c1, hc, hdecode⟩

/-- The mapping is undone, whatever follows. -/
theorem gpt2DecodeChar_encode (b : UInt8) (rest : List UInt8) :
    gpt2DecodeChar (gpt2EncodeByte b ++ rest) = (b, (gpt2EncodeByte b).length) := by
  rcases gpt2EncodeByte_cases b with ⟨henc, hascii⟩ | ⟨c, c1, henc, hdecode⟩
  · rw [henc]
    cases rest with
    | nil => rfl
    | cons c1 rest =>
      rw [singleton_append, gpt2DecodeChar, if_pos hascii]
      rfl
  · rw [henc]
    exact hdecode

theorem gpt2EncodeByte_pos (b : UInt8) : 1 ≤ (gpt2EncodeByte b).length := by
  rcases gpt2EncodeByte_cases b with ⟨henc, _⟩ | ⟨c, c1, henc, _⟩
  · rw [henc]
    exact Nat.le_refl 1
  · rw [henc]
    exact Nat.le_succ 1

theorem decodeString_encoded {bs : List UInt8} {fuel room : Nat} (hfuel : (bs.flatMap gpt2EncodeByte).length ≤ fuel)
    (hroom : bs.length ≤ room) : decodeString fuel (bs.flatMap gpt2EncodeByte) room = bs := by
  induction bs generalizing fuel room with
  | nil => cases fuel <;> rfl
  | cons b bs ih =>
    have hpos := gpt2EncodeByte_pos b
    rw [flatMap_cons] at hfuel ⊢
    rw [length_append] at hfuel
    rw [length_cons] at hroom
    cases fuel with
    | zero => omega
    | succ fuel =>
      have hne : ¬ ((gpt2EncodeByte b ++ bs.flatMap gpt2EncodeByte).isEmpty = true ∨ room = 0) := by
        rintro (hempty | hzero)
        · rw [isEmpty_iff_length_eq_zero, length_append] at hempty
          omega
        · omega
      rw [decodeString, if_neg hne, gpt2DecodeChar_encode, if_neg (by omega), drop_left,
        ih (by omega) (by omega)]

/-- **Decoding.**  Decoding gives back the bytes that the tokens stand for. -/
theorem Spells.decode {ids : List Nat} {bs : List UInt8} (h : Spells t ids bs) {room : Nat}
    (hroom : bs.length ≤ room) : t.decode ids room = bs := by
  induction h generalizing room with
  | nil => rfl
  | @cons id bs ids rest hid _ ih =>
    rw [length_append] at hroom
    have hstring : decodeString (bs.flatMap gpt2EncodeByte).length (bs.flatMap gpt2EncodeByte) room = bs :=
      decodeString_encoded (Nat.le_refl _) (by omega)
    simp only [Tokenizer.decode]
    rw [hid, hstring, ih (by omega)]

/-! ## Merging -/

/-- A round keeps the bytes. -/
theorem Spells.mergeAll {e : MergeEntry}
    (he : t.tokenBytes e.merged = t.tokenBytes e.left ++ t.tokenBytes e.right) {ids : List Nat} {bs : List UInt8}
    (h : Spells t ids bs) : Spells t (mergeAll e ids) bs := by
  fun_induction BpeTokenizer.mergeAll e ids generalizing bs with
  | case1 x y rest hpair ih =>
    obtain ⟨rfl, rfl⟩ := hpair
    cases h with
    | @cons _ bx _ _ hx hrest =>
      cases hrest with
      | @cons _ by' _ br hy hrest =>
        rw [← append_assoc]
        refine Spells.cons ?_ (ih hrest)
        rw [he, hx, hy, flatMap_append]
  | case2 x y rest hpair ih =>
    cases h with
    | cons hx hrest => exact Spells.cons hx (ih hrest)
  | case3 ids hshort => exact h

theorem Vocabulary.mergeLoop (hv : Vocabulary t) (fuel : Nat) {ids : List Nat} {bs : List UInt8}
    (h : Spells t ids bs) :
    Spells t (mergeLoop t.findMerge fuel ids) bs ∧ (BpeTokenizer.mergeLoop t.findMerge fuel ids).length ≤ ids.length := by
  induction fuel generalizing ids with
  | zero => exact ⟨h, Nat.le_refl _⟩
  | succ fuel ih =>
    simp only [BpeTokenizer.mergeLoop]
    split_ifs with hrank
    · exact ⟨h, Nat.le_refl _⟩
    · -- the best merge is one of the vocabulary
      rcases (bestMerge_spec t.findMerge ⟨0, 0, 0, u32Max⟩ ids).1 with hsame | ⟨x, y, _, hfind⟩
      · rw [hsame] at hrank
        exact absurd rfl hrank
      · obtain ⟨i, hi, hmerge⟩ := search_mem hfind
        have hconcat := hv.merges i hi
        rw [hmerge] at hconcat
        obtain ⟨hspells, hlen⟩ := ih (h.mergeAll hconcat)
        exact ⟨hspells, hlen.trans (mergeAll_length _ ids).1⟩

/-- Encoding a segment keeps the bytes that the tokens of its bytes stand for. -/
theorem Vocabulary.encodeBpeSegment (hv : Vocabulary t) {seg bs : List UInt8} {room : Nat}
    (h : Spells t (t.textTokens (seg.take maxBpeWork)) bs) (hroom : (t.textTokens (seg.take maxBpeWork)).length ≤ room) :
    Spells t (t.encodeBpeSegment seg room) bs ∧
      (t.encodeBpeSegment seg room).length ≤ (t.textTokens (seg.take maxBpeWork)).length := by
  obtain ⟨hspells, hlen⟩ := hv.mergeLoop (t.textTokens (seg.take maxBpeWork)).length h
  rw [BpeTokenizer.encodeBpeSegment]
  split_ifs with hempty
  · have hnil : t.textTokens (seg.take maxBpeWork) = [] := by
      rcases hempty with hseg | rfl
      · rw [List.isEmpty_iff.mp hseg]
        rfl
      · exact length_eq_zero_iff.mp (Nat.le_zero.mp hroom)
    rw [hnil] at h
    exact ⟨h, Nat.zero_le _⟩
  · rw [take_of_length_le (hlen.trans hroom)]
    exact ⟨hspells, hlen⟩

/-! ## The tokens of the bytes -/

theorem Vocabulary.byteToken (hv : Vocabulary t) (b : UInt8) : t.byteToken? b = some (t.byteTokens b) :=
  if_neg (hv.bytes b).1

/-- In well-formed UTF-8 each byte becomes its token. -/
theorem Vocabulary.initialTokens_utf8 (hv : Vocabulary t) {text : List UInt8} (h : Utf8 text) {fuel : Nat}
    (hfuel : text.length ≤ fuel) : t.initialTokens fuel text = text.map t.byteTokens := by
  induction h generalizing fuel with
  | nil => cases fuel <;> rfl
  | @cons c s hc _ ih =>
    rw [length_append] at hfuel
    rcases wellFormed_several hc with ⟨b, rfl, hascii⟩ | ⟨hlen, hseq, hover, hhigh, hcont⟩
    · cases fuel with
      | zero => simp at hfuel
      | succ fuel =>
        rw [singleton_append, initialTokens, if_pos hascii, hv.byteToken, ih (by simp at hfuel; omega)]
        rfl
    · cases c with
      | nil => cases hlen
      | cons b c =>
        cases fuel with
        | zero => simp at hfuel
        | succ fuel =>
          have htake : (b :: (c ++ s)).take (sequenceLength b) = b :: c := by
            rw [← cons_append]
            exact take_left' hseq
          have hdrop : (b :: (c ++ s)).drop (sequenceLength b) = s := by
            rw [← cons_append]
            exact drop_left' hseq
          have hvalid : 2 ≤ sequenceLength b ∧ sequenceLength b ≤ (b :: (c ++ s)).length ∧
              (((b :: c).drop 1).all fun x => x &&& 0xC0 == 0x80) = true := by
            refine ⟨hseq ▸ hlen, ?_, hcont⟩
            rw [← cons_append, length_append, ← show _ = sequenceLength b from hseq]
            exact Nat.le_add_right _ _
          have hmap : t.sequenceTokens (b :: c) = (b :: c).map t.byteTokens := by
            rw [sequenceTokens, hover, if_neg Bool.false_ne_true, ← filterMap_eq_map]
            exact filterMap_congr fun x _ => hv.byteToken x
          simp only [length_cons] at hfuel
          rw [cons_append, initialTokens, if_neg (hhigh b mem_cons_self)]
          simp only [htake, hdrop]
          rw [if_pos hvalid, hmap, ih (by omega), ← map_append, cons_append]

/-- At most `n` tokens, of bytes or replacement tokens. -/
def ByteTokens (t : BpeTokenizer) (n : Nat) (ids : List Nat) : Prop :=
  ids.length ≤ n ∧ ∀ id ∈ ids, id = t.replacementToken ∨ ∃ b, id = t.byteTokens b

theorem ByteTokens.append {t : BpeTokenizer} {m n : Nat} {ids ids' : List Nat} (h : ByteTokens t m ids)
    (h' : ByteTokens t n ids') : ByteTokens t (m + n) (ids ++ ids') := by
  refine ⟨?_, fun id hid => ?_⟩
  · rw [length_append]
    exact Nat.add_le_add h.1 h'.1
  · rcases mem_append.mp hid with hid | hid
    · exact h.2 id hid
    · exact h'.2 id hid

theorem byteTokens_replacement (t : BpeTokenizer) : ByteTokens t 1 [t.replacementToken] :=
  ⟨Nat.le_refl 1, fun _ hid => Or.inl (mem_singleton.mp hid)⟩

theorem byteTokens_byte {t : BpeTokenizer} {b : UInt8} {id : Nat} (h : t.byteToken? b = some id) : id = t.byteTokens b := by
  rw [byteToken?] at h
  split_ifs at h
  exact (Option.some.inj h).symm

theorem byteTokens_filterMap (t : BpeTokenizer) (bytes : List UInt8) :
    ByteTokens t bytes.length (bytes.filterMap t.byteToken?) := by
  refine ⟨length_filterMap_le _ _, fun id hid => ?_⟩
  obtain ⟨b, _, hb⟩ := mem_filterMap.mp hid
  exact Or.inr ⟨b, byteTokens_byte hb⟩

theorem byteTokens_sequence (t : BpeTokenizer) {bytes : List UInt8} (h : 1 ≤ bytes.length) :
    ByteTokens t bytes.length (t.sequenceTokens bytes) := by
  rw [sequenceTokens]
  split_ifs
  · cases htoken : t.byteToken? (UInt8.ofNat (codePoint bytes)) with
    | none => exact ⟨Nat.zero_le _, fun id hid => absurd hid not_mem_nil⟩
    | some id => exact ⟨h, fun id' hid => Or.inr ⟨_, mem_singleton.mp hid ▸ byteTokens_byte htoken⟩⟩
  · exact ⟨h, (byteTokens_replacement t).2⟩
  · exact byteTokens_filterMap t bytes

/-- At most one token for each byte, and no other tokens than those of bytes and the replacement token. -/
theorem byteTokens_initial (t : BpeTokenizer) (fuel : Nat) (text : List UInt8) :
    ByteTokens t text.length (t.initialTokens fuel text) := by
  fun_induction initialTokens t fuel text with
  | case1 text => exact ⟨Nat.zero_le _, fun id hid => absurd hid not_mem_nil⟩
  | case2 => exact ⟨Nat.zero_le _, fun id hid => absurd hid not_mem_nil⟩
  | case3 fuel b rest hascii ih =>
    have hhead : ByteTokens t 1 [(t.byteToken? b).getD t.replacementToken] := by
      cases htoken : t.byteToken? b with
      | none => exact byteTokens_replacement t
      | some id => exact ⟨Nat.le_refl 1, fun id' hid => Or.inr ⟨b, mem_singleton.mp hid ▸ byteTokens_byte htoken⟩⟩
    rw [length_cons, Nat.add_comm]
    exact hhead.append ih
  | case4 fuel b rest hascii seqLen sequence hvalid ih =>
    have hlen : sequence.length = seqLen := length_take_of_le hvalid.2.1
    have hsplit : (b :: rest).length = sequence.length + ((b :: rest).drop seqLen).length := by
      rw [length_drop]
      omega
    rw [hsplit]
    exact (byteTokens_sequence t (by omega)).append ih
  | case5 fuel b rest hascii seqLen sequence hvalid ih =>
    rw [length_cons, Nat.add_comm]
    exact (byteTokens_replacement t).append ih

/-! ## Segments -/

/-- **Segments.**  If the tokens of each segment stand for some bytes, then those of the text do for these bytes in order;
there is room, as a segment has no more tokens than bytes. -/
theorem Vocabulary.encodePretokenized (hv : Vocabulary t) {R : List UInt8 → List UInt8 → Prop} {fuel room : Nat}
    {s : List UInt8} (hseg : ∀ seg ∈ segmentsFrom fuel s, ∃ bs, R seg bs ∧ Spells t (t.textTokens (seg.take maxBpeWork)) bs)
    (hroom : s.length ≤ room) :
    ∃ bss, List.Forall₂ R (segmentsFrom fuel s) bss ∧ Spells t (t.encodePretokenized fuel s room) bss.flatten := by
  fun_induction segmentsFrom fuel s generalizing room with
  | case1 s => exact ⟨[], List.Forall₂.nil, Spells.nil⟩
  | case2 fuel => exact ⟨[], List.Forall₂.nil, Spells.nil⟩
  | case3 fuel b rest ih =>
    obtain ⟨hpos, hle, _⟩ := cleanCut_ptNext (cons_ne_nil b rest)
    obtain ⟨bs, hR, hbs⟩ := hseg _ mem_cons_self
    have htokens : (t.textTokens (((b :: rest).take (ptNext (b :: rest))).take maxBpeWork)).length ≤ ptNext (b :: rest) := by
      refine (byteTokens_initial _ _ _).1.trans ?_
      rw [length_take, length_take]
      omega
    obtain ⟨hspells, hlen⟩ := hv.encodeBpeSegment hbs (htokens.trans (hle.trans hroom))
    have hleft : ((b :: rest).drop (ptNext (b :: rest))).length ≤
        room - (t.encodeBpeSegment ((b :: rest).take (ptNext (b :: rest))) room).length := by
      rw [length_drop]
      omega
    obtain ⟨bss, hall, hrest⟩ := ih (fun seg hmem => hseg seg (mem_cons_of_mem _ hmem)) hleft
    refine ⟨bs :: bss, List.Forall₂.cons hR hall, ?_⟩
    simp only [Tokenizer.encodePretokenized]
    rw [if_neg (by omega), if_neg (by omega), flatten_cons]
    exact hspells.append hrest

/-! ## Special tokens -/

/-- No special token occurs in the text. -/
def NoSpecials (text : List UInt8) : Prop := ∀ pattern ∈ specialPatterns, ¬ pattern <:+: text

theorem NoSpecials.specialAt {s : List UInt8} (h : NoSpecials s) : t.specialAt s = none := by
  refine find?_eq_none.mpr fun p hp hmatch => ?_
  rw [Bool.and_eq_true, isPrefixOf_iff_prefix] at hmatch
  exact h p.1 (of_mem_zip hp).1 hmatch.2.isInfix

theorem NoSpecials.tail {b : UInt8} {s : List UInt8} (h : NoSpecials (b :: s)) : NoSpecials s :=
  fun pattern hp hinside => h pattern hp (hinside.trans (suffix_cons b s).isInfix)

theorem NoSpecials.plainLength {s : List UInt8} (h : NoSpecials s) : t.plainLength s = s.length := by
  induction s with
  | nil => rfl
  | cons b rest ih =>
    rw [Tokenizer.plainLength, h.specialAt, ih h.tail, length_cons, Nat.add_comm]
    rfl

/-- Without special tokens the text is one piece. -/
theorem NoSpecials.encode {text : List UInt8} (h : NoSpecials text) (hmerges : t.nMerges ≠ 0) {outLen : Nat}
    (hroom : text.length ≤ outLen) : t.encode text outLen = t.encodePretokenized text.length text outLen := by
  cases text with
  | nil => rfl
  | cons b rest =>
    have hlen : 1 + t.plainLength rest = (b :: rest).length := by rw [h.tail.plainLength, length_cons, Nat.add_comm]
    have hzero : outLen ≠ 0 := by
      rintro rfl
      cases hroom
    rw [Tokenizer.encode, if_neg (by simpa using hzero), if_neg hmerges, length_cons, Tokenizer.encodeLoop, if_neg hzero,
      h.specialAt]
    simp only [hlen, take_length, drop_length]
    cases rest with
    | nil => exact append_nil _
    | cons c rest => exact append_nil _

/-! ## The longest match -/

theorem tryMatchGpt2_spec (n : Nat) (text tok : List UInt8) : tryMatchGpt2 n text tok = 0 ∨
      ∃ k ≤ text.length, tryMatchGpt2 n text tok = n + k ∧ tok = (text.take k).flatMap gpt2EncodeByte := by
  fun_induction tryMatchGpt2 n text tok with
  | case1 n tok hempty => exact Or.inr ⟨0, Nat.le_refl 0, rfl, List.isEmpty_iff.mp hempty⟩
  | case2 n tok hempty => exact Or.inl rfl
  | case3 n b text tok hempty => exact Or.inr ⟨0, Nat.zero_le _, rfl, List.isEmpty_iff.mp hempty⟩
  | case4 n b text tok hempty encoded hshort => exact Or.inl rfl
  | case5 n b text tok hempty encoded hshort hdiffer => exact Or.inl rfl
  | case6 n b text tok hempty encoded hshort hsame ih =>
    rcases ih with hzero | ⟨k, hk, hmatch, htok⟩
    · exact Or.inl hzero
    · refine Or.inr ⟨k + 1, Nat.succ_le_succ hk, by omega, ?_⟩
      have hfront : tok.take encoded.length = gpt2EncodeByte b := not_not.mp hsame
      rw [take_succ_cons, flatMap_cons, ← htok, ← hfront, take_append_drop]

/-- The best match so far, if any, is the start of the text. -/
def Matches (t : Tokenizer) (text : List UInt8) (best : Nat × Nat) : Prop :=
  best.2 = 0 ∨ best.2 ≤ text.length ∧ t.tokenBytes best.1 = (text.take best.2).flatMap gpt2EncodeByte

theorem greedyStep_matches {text : List UInt8} {best : Nat × Nat} (h : Matches t text best) (tokId : Nat) :
    Matches t text (t.greedyStep text best tokId) := by
  simp only [greedyStep]
  split_ifs with hempty hlonger
  · exact h
  · rcases tryMatchGpt2_spec 0 text (t.tokenBytes (tokId % 2 ^ 32)) with hzero | ⟨k, hk, hmatch, htok⟩
    · exact Or.inl hzero
    · rw [Nat.zero_add] at hmatch
      rw [hmatch]
      exact Or.inr ⟨hk, htok⟩
  · exact h

theorem greedyBest_matches (t : Tokenizer) (text : List UInt8) : Matches t text (t.greedyBest text) := by
  have hfold : ∀ (ids : List Nat) best, Matches t text best → Matches t text (ids.foldl (t.greedyStep text) best) := by
    intro ids
    induction ids with
    | nil => exact fun best h => h
    | cons id ids ih => exact fun best h => ih _ (greedyStep_matches h id)
  exact hfold _ _ (Or.inl rfl)

/-- Without merges every text is spelled, well formed or not. -/
theorem Vocabulary.encodeGreedy (hv : Vocabulary t) {fuel room : Nat} {s : List UInt8} (hfuel : s.length ≤ fuel)
    (hroom : s.length ≤ room) : Spells t (t.encodeGreedy fuel s room) s := by
  induction fuel generalizing s room with
  | zero =>
    obtain rfl : s = [] := length_eq_zero_iff.mp (Nat.le_zero.mp hfuel)
    exact Spells.nil
  | succ fuel ih =>
    cases s with
    | nil => exact Spells.nil
    | cons b rest =>
      simp only [length_cons] at hfuel hroom
      simp only [Tokenizer.encodeGreedy]
      rw [if_neg (by omega)]
      split_ifs with hbest
      · rcases greedyBest_matches t (b :: rest) with hzero | ⟨hle, htok⟩
        · omega
        · rw [length_cons] at hle
          have hlen : ((b :: rest).drop (t.greedyBest (b :: rest)).2).length ≤ rest.length := by
            rw [length_drop, length_cons]
            omega
          have hspells := Spells.cons htok (@ih (room - 1) _ (hlen.trans (by omega)) (hlen.trans (by omega)))
          rwa [take_append_drop] at hspells
      · rw [hv.byteToken]
        exact Spells.single (hv.bytes b).2 (ih (by omega) (by omega))

/-! ## The round trip -/

/-- A vocabulary without merges has the round trip for every text. -/
theorem round_trip_greedy (hv : Vocabulary t) (hmerges : t.nMerges = 0) {text : List UInt8} {outLen room : Nat}
    (hout : text.length ≤ outLen) (hroom : text.length ≤ room) : t.decode (t.encode text outLen) room = text := by
  rw [Tokenizer.encode]
  split_ifs with hempty
  · have hnil : text = [] := by
      rcases hempty with hnil | rfl
      · exact List.isEmpty_iff.mp hnil
      · exact length_eq_zero_iff.mp (Nat.le_zero.mp hout)
    rw [hnil]
    rfl
  · exact (hv.encodeGreedy (Nat.le_refl _) hout).decode hroom

theorem round_trip_short (hv : Vocabulary t) {text : List UInt8} (hutf8 : Utf8 text)
    (hspecials : NoSpecials text) (hshort : ∀ seg ∈ segments text, seg.length ≤ maxBpeWork) {outLen room : Nat}
    (hout : text.length ≤ outLen) (hroom : text.length ≤ room) : t.decode (t.encode text outLen) room = text := by
  by_cases hmerges : t.nMerges = 0
  · exact round_trip_greedy hv hmerges hout hroom
  · have hseg : ∀ seg ∈ segments text, ∃ bs, seg = bs ∧ Spells t (t.textTokens (seg.take maxBpeWork)) bs := by
      intro seg hmem
      rw [take_of_length_le (hshort seg hmem), textTokens,
        hv.initialTokens_utf8 (segmentsFrom_utf8 hutf8 seg hmem) (Nat.le_refl _)]
      exact ⟨seg, rfl, hv.spells_map seg⟩
    obtain ⟨bss, hall, hspells⟩ := hv.encodePretokenized hseg hout
    rw [forall₂_eq_eq_eq] at hall
    rw [← hall, segmentsFrom_flatten (Nat.le_refl _)] at hspells
    rw [hspecials.encode hmerges hout]
    exact hspells.decode hroom

/-- The segments as they are cut to the working array. -/
theorem length_flatten_lt {segs bss : List (List UInt8)}
    (h : List.Forall₂ (fun seg bs => bs.length ≤ (seg.take maxBpeWork).length) segs bss) :
    bss.flatten.length ≤ segs.flatten.length ∧
      ((∃ seg ∈ segs, maxBpeWork < seg.length) → bss.flatten.length < segs.flatten.length) := by
  induction h with
  | nil => exact ⟨Nat.le_refl _, fun ⟨seg, hmem, _⟩ => absurd hmem not_mem_nil⟩
  | @cons seg bs segs bss hle _ ih =>
    rw [length_take] at hle
    simp only [flatten_cons, length_append]
    refine ⟨by omega, ?_⟩
    rintro ⟨long, hmem, hlong⟩
    rcases mem_cons.mp hmem with rfl | hmem
    · omega
    · have hlt := ih.2 ⟨long, hmem, hlong⟩
      omega

/-- A long segment loses bytes, if the replacement token stands for one byte. -/
theorem cut_long (hv : Vocabulary t) (hmerges : t.nMerges ≠ 0) {r : UInt8}
    (hrep : t.replacementToken = t.byteTokens r) {text : List UInt8} (hspecials : NoSpecials text)
    (hlong : ∃ seg ∈ segments text, maxBpeWork < seg.length) {outLen room : Nat} (hout : text.length ≤ outLen)
    (hroom : text.length ≤ room) : (t.decode (t.encode text outLen) room).length < text.length := by
  have hseg : ∀ seg ∈ segments text, ∃ bs, bs.length ≤ (seg.take maxBpeWork).length ∧
      Spells t (t.textTokens (seg.take maxBpeWork)) bs := by
    intro seg _
    obtain ⟨hlen, hids⟩ := byteTokens_initial t.toBpeTokenizer (seg.take maxBpeWork).length (seg.take maxBpeWork)
    have hbyte : ∀ id ∈ t.textTokens (seg.take maxBpeWork), ∃ b, t.tokenBytes id = gpt2EncodeByte b := by
      intro id hid
      rcases hids id hid with rfl | ⟨b, rfl⟩
      · exact ⟨r, hrep ▸ (hv.bytes r).2⟩
      · exact ⟨b, (hv.bytes b).2⟩
    obtain ⟨bs, hbs, hlen'⟩ := spells_bytes hbyte
    exact ⟨bs, hlen' ▸ hlen, hbs⟩
  obtain ⟨bss, hall, hspells⟩ := hv.encodePretokenized hseg hout
  have hlt := (length_flatten_lt hall).2 hlong
  rw [segmentsFrom_flatten (Nat.le_refl _)] at hlt
  rw [hspecials.encode hmerges hout, hspells.decode (hlt.le.trans hroom)]
  exact hlt

/-- The vocabulary with another token for malformed bytes. -/
def Tokenizer.withReplacement (t : Tokenizer) (unknown : Nat) : Tokenizer := { t with replacementToken := unknown }

theorem Vocabulary.withReplacement (hv : Vocabulary t) (unknown : Nat) :
    Vocabulary (t.withReplacement unknown) := ⟨hv.bytes, hv.merges⟩

/-- **The round trip.**  For every vocabulary and every text of well-formed UTF-8 without special tokens: decoding the
    encoded text gives back the text, with all buffers with a place for each byte, iff the vocabulary has no merges or
    no segment is longer than the working array.  The array may end inside a character, whose bytes then become
    replacement tokens; these could stand for just what was cut off, so the statement is for any replacement token. -/
theorem round_trip_iff {t : Tokenizer} (hv : Vocabulary t) {text : List UInt8} (hutf8 : Utf8 text)
    (hspecials : NoSpecials text) : (∀ unknown outLen room, text.length ≤ outLen → text.length ≤ room →
      (t.withReplacement unknown).decode ((t.withReplacement unknown).encode text outLen) room = text) ↔
      t.nMerges = 0 ∨ ∀ seg ∈ segments text, seg.length ≤ maxBpeWork := by
  constructor
  · intro h
    rw [or_iff_not_imp_left]
    intro hmerges seg hmem
    by_contra hlong
    have hlt := cut_long (hv.withReplacement (t.byteTokens 0)) hmerges rfl hspecials ⟨seg, hmem, not_le.mp hlong⟩
      (Nat.le_refl _) (Nat.le_refl _)
    rw [h _ _ _ (Nat.le_refl _) (Nat.le_refl _)] at hlt
    exact absurd hlt (lt_irrefl _)
  · rintro (hmerges | hshort) unknown outLen room hout hroom
    · exact round_trip_greedy (hv.withReplacement unknown) hmerges hout hroom
    · exact round_trip_short (hv.withReplacement unknown) hutf8 hspecials hshort hout hroom

/-- The tokens of the bytes, and one for two exclamation marks. -/
def marks : Tokenizer where
  merges := fun _ => ⟨33, 33, 256, 0⟩
  nMerges := 1
  byteTokens := UInt8.toNat
  replacementToken := 0
  vocabSize := 257
  strings := fun id => if id < 256 then gpt2EncodeByte (UInt8.ofNat id) else [33, 33]
  imStartId := u32Max
  imEndId := u32Max
  endoftextId := u32Max

theorem marks_tokenBytes (b : UInt8) : marks.tokenBytes b.toNat = gpt2EncodeByte b := by
  have hlt : b.toNat < 256 := b.toNat_lt
  show (if 257 ≤ b.toNat then [] else if b.toNat < 256 then gpt2EncodeByte (UInt8.ofNat b.toNat) else [33, 33]) = _
  rw [if_neg (by omega), if_pos hlt, UInt8.ofNat_toNat]

theorem marks_vocabulary : Vocabulary marks := by
  refine ⟨fun b => ⟨?_, marks_tokenBytes b⟩, fun i _ => ?_⟩
  · have hlt : b.toNat < 256 := b.toNat_lt
    show b.toNat ≠ 2 ^ 32 - 1
    omega
  · show marks.tokenBytes 256 = marks.tokenBytes 33 ++ marks.tokenBytes 33
    decide +kernel

/-- `hi!!` -/
theorem round_trip_hi : marks.decode (marks.encode [104, 105, 33, 33] 4) 4 = [104, 105, 33, 33] :=
  (round_trip_iff marks_vocabulary (utf8_ascii (by decide +kernel)) (by unfold NoSpecials; decide +kernel)).mpr
    (Or.inr (by decide +kernel)) 0 4 4 (Nat.le_refl 4) (Nat.le_refl 4)

theorem noSpecials_word (n : Nat) : NoSpecials (List.replicate n 97) := by
  have hbracket : ∀ pattern ∈ specialPatterns, (60 : UInt8) ∈ pattern := by decide
  intro pattern hp hinside
  exact absurd (eq_of_mem_replicate (hinside.subset (hbracket pattern hp))) (by decide)

theorem word_mem_segments (n : Nat) : List.replicate (n + 1) 97 ∈ segments (List.replicate (n + 1) 97) := by
  have hnext : ptNext (List.replicate (n + 1) 97) = n + 1 := by
    have hletters : ptLetters (List.replicate (n + 1) 97) = n + 1 := by
      rw [ptLetters, takeWhile_replicate, if_pos (by decide), length_replicate]
    rw [replicate_succ] at hletters ⊢
    rw [ptNext, if_neg (by simp [ptTryContraction]), if_pos (by decide), hletters]
  rw [segments, length_replicate, replicate_succ, segmentsFrom, ← replicate_succ, hnext]
  refine mem_cons.mpr (Or.inl ?_)
  rw [take_of_length_le (length_replicate.le)]

/-- A word that is longer than the working array does not come back. -/
theorem word_cut {n : Nat} (h : maxBpeWork ≤ n) :
    marks.decode (marks.encode (List.replicate (n + 1) 97) (n + 1)) (n + 1) ≠ List.replicate (n + 1) 97 := by
  intro heq
  have hlong : ∃ seg ∈ segments (List.replicate (n + 1) 97), maxBpeWork < seg.length :=
    ⟨_, word_mem_segments n, by rw [length_replicate]; omega⟩
  have hlen : (List.replicate (n + 1) (97 : UInt8)).length ≤ n + 1 := length_replicate.le
  have hlt := cut_long marks_vocabulary Nat.one_ne_zero (r := 0) rfl (noSpecials_word (n + 1)) hlong hlen hlen
  rw [heq] at hlt
  exact absurd hlt (lt_irrefl _)

/-- 2049 letters. -/
theorem long_word_cut : Utf8 (List.replicate 2049 97) ∧ NoSpecials (List.replicate 2049 97) ∧ Vocabulary marks ∧
    marks.decode (marks.encode (List.replicate 2049 97) 2049) 2049 ≠ List.replicate 2049 97 := by
  refine ⟨utf8_ascii fun b hb => ?_, noSpecials_word 2049, marks_vocabulary, word_cut (n := 2048) (Nat.le_refl _)⟩
  rw [eq_of_mem_replicate hb]
  decide

end Folkering.Tensor
