/-
  The KEY/VALUE CACHE of one attention layer (`libtensor/src/kv_cache.rs`).

  The first four tokens stay for good; of the others the last `window_size` are kept, in a ring.  Keys and values are
  stored as blocks of 32 values (`quantize.rs`: a 16-bit scale and 32 bytes).  Floating-point arithmetic is a parameter.
    * `Stored`               — what the regions hold after a sequence of tokens, kept by `store`;
    * `window_entries_iff`   — the logical entries are a sliding window over the tokens, with positions of 32 bits;
    * `heads_exact_iff`      — a head is read exactly if heads are whole blocks; the last block of any other head
      does not fit into the slice that is left for it.
-/
import Mathlib
import Folkering.Lib.Layout
import Folkering.Lib.LittleEndian

namespace Folkering.Tensor

open Layout LittleEndian List Function

/-! ## Numbers -/

/-- What the code uses of `f32`. -/
structure Float32 (F : Type) where
  ofBits : UInt32 → F
  toBits : F → UInt32
  lt : F → F → Bool
  le : F → F → Bool
  neg : F → F
  add : F → F → F
  sub : F → F → F
  mul : F → F → F
  div : F → F → F
  /-- from an `i8` -/
  ofInt : Int → F
  /-- `as i32` -/
  toInt : F → Int

variable {F : Type}

/-- Cut down to half precision. -/
def f32ToF16 (fl : Float32 F) (f : F) : UInt16 :=
  let bits := fl.toBits f
  let sign := bits >>> 31 &&& 1
  let exp : Int := ((bits >>> 23) &&& 0xFF).toNat
  let mant := bits &&& 0x7FFFFF
  if exp = 0xFF then (sign <<< 15 ||| (0x1F : UInt32) <<< 10 ||| mant >>> 13).toUInt16
  else
    let newExp := exp - 127 + 15
    if newExp ≥ 31 then (sign <<< 15 ||| (0x1F : UInt32) <<< 10).toUInt16
    else if newExp ≤ 0 then (sign <<< 15).toUInt16
    else (sign <<< 15 ||| (UInt32.ofNat newExp.toNat) <<< 10 ||| mant >>> 13).toUInt16

/-- The loop that shifts a subnormal up to its leading bit, at most ten times. -/
def normalize : Nat → UInt32 → UInt32 → UInt32 × UInt32
  | 0, e, m => (e, m)
  | n + 1, e, m => if m &&& 0x400 = 0 then normalize n (e - 1) (m <<< 1) else (e, m)

/-- A half as a float. -/
def f16ToF32 (fl : Float32 F) (h : UInt16) : F :=
  let sign := ((h >>> 15) &&& 1).toUInt32
  let exp := ((h >>> 10) &&& 0x1F).toUInt32
  let mant := (h &&& 0x3FF).toUInt32
  if exp = 0 then
    if mant = 0 then fl.ofBits (sign <<< 31)
    else
      let (e, m) := normalize 10 exp mant
      fl.ofBits (sign <<< 31 ||| (e + 1 + 127 - 15) <<< 23 ||| (m &&& (0xFFFFFFFF ^^^ 0x400)) <<< 13)
  else if exp = 31 then fl.ofBits (sign <<< 31 ||| (0xFF : UInt32) <<< 23 ||| mant <<< 13)
  else fl.ofBits (sign <<< 31 ||| (exp + 127 - 15) <<< 23 ||| mant <<< 13)

/-! ## Blocks -/

/-- `Q8_0_BLOCK_SIZE` -/
def blockSize : Nat := 34

/-- The largest absolute value. -/
def absMax (fl : Float32 F) (input : List F) : F :=
  input.foldl (fun amax x =>
    let abs := if fl.lt x (fl.ofBits 0) then fl.neg x else x
    if fl.lt amax abs then abs else amax) (fl.ofBits 0)

/-- A value as a signed byte, rounded and clamped. -/
def quantizeValue (fl : Float32 F) (invScale x : F) : UInt8 :=
  let v := fl.mul x invScale
  let half := fl.ofBits 0x3F000000
  let rounded := if fl.le (fl.ofBits 0) v then fl.toInt (fl.add v half) else fl.toInt (fl.sub v half)
  UInt8.ofInt (if rounded > 127 then 127 else if rounded < -128 then -128 else rounded)

/-- One block of at most 32 values; what is missing is zero. -/
def quantizeBlock (fl : Float32 F) (input : List F) : List UInt8 :=
  let amax := absMax fl input
  let scale := if fl.lt (fl.ofBits 0) amax then fl.div amax (fl.ofBits 0x42FE0000) else fl.ofBits 0
  let invScale := if fl.lt (fl.ofBits 0) scale then fl.div (fl.ofBits 0x3F800000) scale else fl.ofBits 0
  leBytes 2 (f32ToF16 fl scale).toNat ++ (List.range 32).map fun i => (input[i]?.map (quantizeValue fl invScale)).getD 0

/-- The blocks of 32 values. -/
def blockCount (n : Nat) : Nat := (n + 31) / 32

/-- `quantize_f32_to_q8_0` -/
def quantize (fl : Float32 F) (input : List F) : List UInt8 :=
  (List.range (blockCount input.length)).flatMap fun b => quantizeBlock fl ((input.drop (32 * b)).take 32)

/-- The values of a quantised block. -/
def blockValues (fl : Float32 F) (block : List UInt8) : List F :=
  let scale := f16ToF32 fl (UInt16.ofNat (fromLe (block.take 2)))
  (List.range 32).map fun i => fl.mul (fl.ofInt (block.getD (2 + i) 0).toInt8.toInt) scale

/-- `dequantize_q8_0_block` into a slice of the given length; `none` is the panic of an index outside of it. -/
def dequantizeBlock (fl : Float32 F) (block : List UInt8) (outLen : Nat) : Option (List F) :=
  if outLen < 32 then none else some (blockValues fl block)

@[simp] theorem length_quantizeBlock (fl : Float32 F) (input : List F) : (quantizeBlock fl input).length = blockSize := by
  simp [quantizeBlock, blockSize]

theorem length_quantize (fl : Float32 F) (input : List F) :
    (quantize fl input).length = blockCount input.length * blockSize := by
  simp [quantize, length_flatMap]

/-- The block with the given number. -/
theorem quantize_block (fl : Float32 F) (input : List F) {b : Nat} (hb : b < blockCount input.length) {m : Nat → UInt8}
    {p : Nat} (h : Lies m p (quantize fl input)) :
    bytesAt m (p + blockSize * b) blockSize = quantizeBlock fl ((input.drop (32 * b)).take 32) := by
  have hblocks := @Lies.flatten _ _ blockSize _ p h (by simp) b (quantizeBlock fl ((input.drop (32 * b)).take 32))
    (by simp [hb])
  simpa using hblocks.bytesAt

/-! ## The cache -/

/-- The first tokens, which are kept. -/
def numSinkTokens : Nat := 4

/-- The regions behind the pointers of the cache, each from its own start. -/
structure KvCache where
  sinkKeys : Nat → UInt8
  sinkValues : Nat → UInt8
  ringKeys : Nat → UInt8
  ringValues : Nat → UInt8
  sinkPositions : Nat → UInt32
  ringPositions : Nat → UInt32
  nHeads : Nat
  headDim : Nat
  q8VecBytes : Nat
  windowSize : Nat
  windowMask : Nat
  tokensSeen : Nat
  ringPos : Nat

/-- What is stored for one token: vectors of at least the given length, and the position. -/
structure Token (F : Type) (vecSize : Nat) where
  key : List F
  value : List F
  absPos : Nat
  keyLong : vecSize ≤ key.length
  valueLong : vecSize ≤ value.length

namespace KvCache

/-- The bytes of a quantised vector. -/
def q8VecBytesOf (nHeads headDim : Nat) : Nat := blockCount (nHeads * headDim) * blockSize

/-- An empty cache. -/
def new (nHeads headDim windowSize : Nat) : KvCache :=
  { sinkKeys := fun _ => 0, sinkValues := fun _ => 0, ringKeys := fun _ => 0, ringValues := fun _ => 0
    sinkPositions := fun _ => 0, ringPositions := fun _ => 0
    nHeads, headDim, q8VecBytes := q8VecBytesOf nHeads headDim
    windowSize, windowMask := windowSize - 1, tokensSeen := 0, ringPos := 0 }

variable (fl : Float32 F)

/-- Store a token: the first four stay, the others go round. -/
def store (c : KvCache) (key value : List F) (absPos : Nat) : KvCache :=
  let vecSize := c.nHeads * c.headDim
  if c.tokensSeen < numSinkTokens then
    let offset := c.tokensSeen * c.q8VecBytes
    { c with
      sinkKeys := put c.sinkKeys offset (quantize fl (key.take vecSize))
      sinkValues := put c.sinkValues offset (quantize fl (value.take vecSize))
      sinkPositions := update c.sinkPositions c.tokensSeen (.ofNat absPos)
      tokensSeen := c.tokensSeen + 1 }
  else
    let offset := c.ringPos * c.q8VecBytes
    { c with
      ringKeys := put c.ringKeys offset (quantize fl (key.take vecSize))
      ringValues := put c.ringValues offset (quantize fl (value.take vecSize))
      ringPositions := update c.ringPositions c.ringPos (.ofNat absPos)
      ringPos := (c.ringPos + 1) &&& c.windowMask
      tokensSeen := c.tokensSeen + 1 }

/-- The tokens in the cache. -/
def activeLength (c : KvCache) : Nat :=
  if c.tokensSeen ≤ numSinkTokens then c.tokensSeen
  else numSinkTokens + min (c.tokensSeen - numSinkTokens) c.windowSize

/-- The cell of the ring for the n-th oldest token in it. -/
def ringLogicalToPhysical (c : KvCache) (logical : Nat) : Nat :=
  if c.tokensSeen - numSinkTokens ≤ c.windowSize then logical else (c.ringPos + logical) &&& c.windowMask

/-- The region and the slot of a logical entry. -/
def slot (c : KvCache) (pos : Nat) (isKey : Bool) : (Nat → UInt8) × Nat :=
  if pos < numSinkTokens then (if isKey then c.sinkKeys else c.sinkValues, pos)
  else (if isKey then c.ringKeys else c.ringValues, c.ringLogicalToPhysical (pos - numSinkTokens))

/-- The position a cached token was stored with. -/
def getPosition (c : KvCache) (pos : Nat) : Nat :=
  if pos < numSinkTokens then (c.sinkPositions pos).toNat
  else (c.ringPositions (c.ringLogicalToPhysical (pos - numSinkTokens))).toNat

/-- One head's vector, written block by block to a slice of `head_dim` values; `none` is a panic. -/
def dequantVec (c : KvCache) (pos head : Nat) (isKey : Bool) : Option (List F) :=
  let (storage, slotIdx) := c.slot pos isKey
  let slotOffset := slotIdx * c.q8VecBytes
  let blockStart := head * c.headDim / 32
  ((List.range (blockCount c.headDim)).mapM fun b =>
    dequantizeBlock fl (bytesAt storage (slotOffset + (blockStart + b) * blockSize) blockSize)
      (min (b * 32 + 32) c.headDim - b * 32)).map List.flatten

/-- The key of a cached token. -/
def getKey (c : KvCache) (pos head : Nat) : Option (List F) := c.dequantVec fl pos head true

/-- The value of a cached token. -/
def getValue (c : KvCache) (pos head : Nat) : Option (List F) := c.dequantVec fl pos head false

/-- The cache after a sequence of tokens. -/
def after (nHeads headDim windowSize : Nat) (tokens : List (Token F (nHeads * headDim))) : KvCache :=
  tokens.foldl (fun c t => c.store fl t.key t.value t.absPos) (new nHeads headDim windowSize)

end KvCache

/-! ## The sliding window -/

/-- The first four tokens, and the last `W` of the others. -/
def slidingWindow {α : Type} (W : Nat) (tokens : List α) : List α :=
  tokens.take numSinkTokens ++ (tokens.drop numSinkTokens).drop (tokens.length - numSinkTokens - W)

/-- The key or the value of a token, as far as it is stored. -/
def Token.vector {vecSize : Nat} (t : Token F vecSize) (isKey : Bool) : List F :=
  (if isKey then t.key else t.value).take vecSize

@[simp] theorem length_vector {vecSize : Nat} (t : Token F vecSize) (isKey : Bool) : (t.vector isKey).length = vecSize := by
  cases isKey
  · simp [Token.vector, t.valueLong]
  · simp [Token.vector, t.keyLong]

section

variable (fl : Float32 F) {vecSize : Nat}

/-- A slot of three regions holds a token. -/
structure Holds (keys values : Nat → UInt8) (positions : Nat → UInt32) (i : Nat) (t : Token F vecSize) : Prop where
  key : Lies keys (i * (blockCount vecSize * blockSize)) (quantize fl (t.vector true))
  value : Lies values (i * (blockCount vecSize * blockSize)) (quantize fl (t.vector false))
  position : positions i = .ofNat t.absPos

variable {fl} {keys values : Nat → UInt8} {positions : Nat → UInt32} {i j : Nat} {t : Token F vecSize}

/-- Writing one slot leaves the others. -/
theorem lies_other_slot {m : Nat → UInt8} {xs ys : List UInt8} {w : Nat} (h : Lies m (i * w) xs) (hne : i ≠ j)
    (hxs : xs.length = w) (hys : ys.length = w) : Lies (put m (j * w) ys) (i * w) xs := by
  refine h.congr fun k hk => put_apart ?_
  rcases Nat.lt_or_gt_of_ne hne with hlt | hlt
  · have := Nat.mul_le_mul_right w (Nat.succ_le_of_lt hlt)
    rw [Nat.succ_mul] at this
    omega
  · have := Nat.mul_le_mul_right w (Nat.succ_le_of_lt hlt)
    rw [Nat.succ_mul] at this
    omega

theorem length_stored (t : Token F vecSize) (isKey : Bool) :
    (quantize fl (t.vector isKey)).length = blockCount vecSize * blockSize := by
  rw [length_quantize, length_vector]

theorem holds_written (t : Token F vecSize) : Holds fl
    (put keys (j * (blockCount vecSize * blockSize)) (quantize fl (t.vector true)))
    (put values (j * (blockCount vecSize * blockSize)) (quantize fl (t.vector false)))
    (update positions j (.ofNat t.absPos)) j t :=
  ⟨lies_put _ _ _, lies_put _ _ _, update_self ..⟩

theorem Holds.written (h : Holds fl keys values positions i t) (hne : i ≠ j) (t' : Token F vecSize) : Holds fl
    (put keys (j * (blockCount vecSize * blockSize)) (quantize fl (t'.vector true)))
    (put values (j * (blockCount vecSize * blockSize)) (quantize fl (t'.vector false)))
    (update positions j (.ofNat t'.absPos)) i t :=
  ⟨lies_other_slot h.key hne (length_stored t true) (length_stored t' true),
    lies_other_slot h.value hne (length_stored t false) (length_stored t' false),
    (update_of_ne hne _ _).trans h.position⟩

end

/-- What the cache holds after a sequence of tokens: token `i` of the ring is in slot `i % W`, as long as it is one of
    the last `W`. -/
structure Stored (fl : Float32 F) (nHeads headDim W : Nat) (tokens : List (Token F (nHeads * headDim))) (c : KvCache) :
    Prop where
  heads : c.nHeads = nHeads
  dim : c.headDim = headDim
  width : c.q8VecBytes = blockCount (nHeads * headDim) * blockSize
  size : c.windowSize = W
  mask : c.windowMask = W - 1
  seen : c.tokensSeen = tokens.length
  ringPos : c.ringPos = (tokens.length - numSinkTokens) % W
  sink : ∀ i t, tokens[i]? = some t → i < numSinkTokens → Holds fl c.sinkKeys c.sinkValues c.sinkPositions i t
  ring : ∀ i t, tokens[numSinkTokens + i]? = some t → tokens.length ≤ numSinkTokens + i + W →
    Holds fl c.ringKeys c.ringValues c.ringPositions (i % W) t

theorem mod_ne_mod {i r W : Nat} (hlt : i < r) (hr : r < i + W) : i % W ≠ r % W := by
  intro heq
  have hdvd : W ∣ r - i := (Nat.modEq_iff_dvd' hlt.le).mp heq
  have := Nat.le_of_dvd (by omega) hdvd
  omega

section

variable {fl : Float32 F} {nHeads headDim k : Nat} {tokens : List (Token F (nHeads * headDim))} {c : KvCache}

theorem stored_new (nHeads headDim W : Nat) : Stored fl nHeads headDim W [] (.new nHeads headDim W) where
  heads := rfl
  dim := rfl
  width := rfl
  size := rfl
  mask := rfl
  seen := rfl
  ringPos := by simp [KvCache.new]
  sink := by simp
  ring := by simp

/-- The token at the end, or one of those before. -/
theorem getElem?_snoc {α : Type} {l : List α} {x y : α} {i : Nat} (h : (l ++ [x])[i]? = some y) :
    i < l.length ∧ l[i]? = some y ∨ i = l.length ∧ y = x := by
  rcases Nat.lt_trichotomy i l.length with hi | hi | hi
  · rw [getElem?_append_left hi] at h
    exact .inl ⟨hi, h⟩
  · subst hi
    simp at h
    exact .inr ⟨rfl, h.symm⟩
  · rw [getElem?_eq_none (by simp; omega)] at h
    cases h

theorem Stored.store (h : Stored fl nHeads headDim (2 ^ k) tokens c) (t : Token F (nHeads * headDim)) :
    Stored fl nHeads headDim (2 ^ k) (tokens ++ [t]) (c.store fl t.key t.value t.absPos) := by
  have hvec : c.nHeads * c.headDim = nHeads * headDim := by rw [h.heads, h.dim]
  have hkey : t.key.take (nHeads * headDim) = t.vector true := rfl
  have hvalue : t.value.take (nHeads * headDim) = t.vector false := rfl
  have hseen := h.seen
  unfold KvCache.store
  simp only [hvec, hkey, hvalue, h.width]
  split
  next hsink =>
    rw [hseen] at hsink
    refine ⟨h.heads, h.dim, rfl, h.size, h.mask, by simp [hseen], ?_, ?_, ?_⟩
    · simp only [length_append, length_singleton]
      rw [h.ringPos, Nat.sub_eq_zero_of_le hsink.le, Nat.sub_eq_zero_of_le hsink]
    · intro i t' ht' hi
      rcases getElem?_snoc ht' with ⟨hlt, ht'⟩ | ⟨rfl, rfl⟩
      · rw [hseen]
        exact (h.sink i t' ht' hi).written (by omega) t
      · rw [hseen]
        exact holds_written t'
    · intro i t' ht' hlen
      rcases getElem?_snoc ht' with ⟨hlt, _⟩ | ⟨heq, _⟩
      · omega
      · omega
  next hring =>
    rw [hseen] at hring
    refine ⟨h.heads, h.dim, rfl, h.size, h.mask, by simp [hseen], ?_, ?_, ?_⟩
    · simp only [length_append, length_singleton]
      rw [h.ringPos, h.mask, Nat.and_two_pow_sub_one_eq_mod, Nat.mod_add_mod]
      congr 1
      omega
    · intro i t' ht' hi
      rcases getElem?_snoc ht' with ⟨_, ht'⟩ | ⟨heq, _⟩
      · exact h.sink i t' ht' hi
      · omega
    · intro i t' ht' hlen
      rw [length_append, length_singleton] at hlen
      rw [h.ringPos]
      rcases getElem?_snoc ht' with ⟨hlt, ht'⟩ | ⟨heq, rfl⟩
      · refine (h.ring i t' ht' (by omega)).written (mod_ne_mod ?_ ?_) t
        · omega
        · omega
      · obtain rfl : i = tokens.length - numSinkTokens := by omega
        exact holds_written t'

theorem stored_after (tokens : List (Token F (nHeads * headDim))) :
    Stored fl nHeads headDim (2 ^ k) tokens (.after fl nHeads headDim (2 ^ k) tokens) := by
  induction tokens using List.reverseRecOn with
  | nil => exact stored_new nHeads headDim (2 ^ k)
  | append_singleton tokens t ih =>
    rw [KvCache.after, foldl_append]
    exact ih.store t

/-- The number of a window's entry among all tokens. -/
theorem slidingWindow_getElem? {α : Type} {W pos : Nat} {l : List α} {x : α} (h : (slidingWindow W l)[pos]? = some x) :
    pos < numSinkTokens ∧ l[pos]? = some x ∨
      numSinkTokens ≤ pos ∧ l[numSinkTokens + (l.length - numSinkTokens - W + (pos - numSinkTokens))]? = some x := by
  rw [slidingWindow] at h
  by_cases hpos : pos < numSinkTokens
  · left
    refine ⟨hpos, ?_⟩
    by_cases hlen : pos < l.length
    · rw [getElem?_append_left (by simp; omega), getElem?_take_of_lt hpos] at h
      exact h
    · rw [getElem?_eq_none (by simp; omega)] at h
      cases h
  · right
    refine ⟨by omega, ?_⟩
    by_cases hlen : numSinkTokens ≤ l.length
    · rw [getElem?_append_right (by simp; omega), length_take, Nat.min_eq_left hlen, getElem?_drop,
        getElem?_drop] at h
      exact h
    · rw [getElem?_eq_none (by simp; omega)] at h
      cases h

theorem Stored.length (h : Stored fl nHeads headDim (2 ^ k) tokens c) :
    c.activeLength = (slidingWindow (2 ^ k) tokens).length := by
  have hW := Nat.two_pow_pos k
  simp only [KvCache.activeLength, h.seen, h.size, slidingWindow, length_append, length_take, length_drop]
  split <;> omega

/-- The slot of an entry of the ring. -/
theorem Stored.physical (h : Stored fl nHeads headDim (2 ^ k) tokens c) {i : Nat}
    (hi : tokens.length - numSinkTokens - 2 ^ k + i < tokens.length - numSinkTokens) :
    c.ringLogicalToPhysical i = (tokens.length - numSinkTokens - 2 ^ k + i) % 2 ^ k := by
  unfold KvCache.ringLogicalToPhysical
  rw [h.seen, h.size]
  split
  next hsmall => rw [Nat.sub_eq_zero_of_le hsmall, Nat.zero_add, Nat.mod_eq_of_lt (by omega)]
  next hlarge =>
    rw [h.mask, Nat.and_two_pow_sub_one_eq_mod, h.ringPos, Nat.mod_add_mod, ← Nat.add_mod_right (_ - 2 ^ k + i)]
    congr 1
    omega

/-- The entry with a logical position is the window's. -/
theorem Stored.entry (h : Stored fl nHeads headDim (2 ^ k) tokens c) {pos : Nat} {t : Token F (nHeads * headDim)}
    (ht : (slidingWindow (2 ^ k) tokens)[pos]? = some t) :
    (∀ isKey, Lies (c.slot pos isKey).1 ((c.slot pos isKey).2 * c.q8VecBytes) (quantize fl (t.vector isKey))) ∧
      c.getPosition pos = t.absPos % 2 ^ 32 := by
  unfold KvCache.slot KvCache.getPosition
  rw [h.width]
  rcases slidingWindow_getElem? ht with ⟨hpos, ht⟩ | ⟨hpos, ht⟩
  · have hholds := h.sink pos t ht hpos
    simp only [if_pos hpos, hholds.position, UInt32.toNat_ofNat', and_true]
    intro isKey
    cases isKey with
    | false => exact hholds.value
    | true => exact hholds.key
  · have hlt := (List.getElem?_eq_some_iff.mp ht).1
    have hholds := h.ring _ t ht (by omega)
    have hphysical := @Stored.physical _ fl _ _ k tokens c h (pos - numSinkTokens) (by omega)
    simp only [if_neg (Nat.not_lt.mpr hpos), hphysical, hholds.position, UInt32.toNat_ofNat', and_true]
    intro isKey
    cases isKey with
    | false => exact hholds.value
    | true => exact hholds.key

end

/-- A logical entry: the bytes of its key and of its value, and its position. -/
def KvCache.entry (c : KvCache) (pos : Nat) : List UInt8 × List UInt8 × Nat :=
  let bytes := fun isKey => bytesAt (c.slot pos isKey).1 ((c.slot pos isKey).2 * c.q8VecBytes) c.q8VecBytes
  (bytes true, bytes false, c.getPosition pos)

/-- What a token is stored as, with a position. -/
def Token.quantized {vecSize : Nat} (fl : Float32 F) (position : Nat → Nat) (t : Token F vecSize) :
    List UInt8 × List UInt8 × Nat :=
  (quantize fl (t.vector true), quantize fl (t.vector false), position t.absPos)

theorem window_entries (fl : Float32 F) (nHeads headDim k : Nat) (tokens : List (Token F (nHeads * headDim))) :
    (List.range (KvCache.after fl nHeads headDim (2 ^ k) tokens).activeLength).map
        (KvCache.after fl nHeads headDim (2 ^ k) tokens).entry =
      (slidingWindow (2 ^ k) tokens).map (Token.quantized fl (· % 2 ^ 32)) := by
  have h := @stored_after F fl nHeads headDim k tokens
  generalize KvCache.after fl nHeads headDim (2 ^ k) tokens = c at h
  apply ext_getElem?
  intro pos
  rw [getElem?_map, getElem?_map]
  cases ht : (slidingWindow (2 ^ k) tokens)[pos]? with
  | none =>
    have hlen := List.getElem?_eq_none_iff.mp ht
    rw [getElem?_eq_none (by simpa [h.length] using hlen)]
    rfl
  | some t =>
    obtain ⟨hlen, -⟩ := List.getElem?_eq_some_iff.mp ht
    obtain ⟨hbytes, hposition⟩ := h.entry ht
    have hread : ∀ isKey, bytesAt (c.slot pos isKey).1 ((c.slot pos isKey).2 * c.q8VecBytes) c.q8VecBytes =
        quantize fl (t.vector isKey) := by
      intro isKey
      have hwidth : c.q8VecBytes = (quantize fl (t.vector isKey)).length := by rw [h.width, length_stored]
      have := (hbytes isKey).bytesAt
      rwa [← hwidth] at this
    rw [getElem?_range (by rwa [h.length])]
    simp only [Option.map_some, KvCache.entry, hread, hposition, Token.quantized]

/-- The logical entries are the sliding window exactly if its positions have 32 bits. -/
theorem window_entries_iff (fl : Float32 F) (nHeads headDim k : Nat) (tokens : List (Token F (nHeads * headDim))) :
    (List.range (KvCache.after fl nHeads headDim (2 ^ k) tokens).activeLength).map
        (KvCache.after fl nHeads headDim (2 ^ k) tokens).entry =
      (slidingWindow (2 ^ k) tokens).map (Token.quantized fl id) ↔
    ∀ t ∈ slidingWindow (2 ^ k) tokens, t.absPos < 2 ^ 32 := by
  rw [window_entries, map_inj_left]
  refine forall₂_congr fun t _ => ?_
  simp only [Token.quantized, Prod.mk.injEq, true_and, id]
  exact Nat.mod_eq_iff_lt (by decide)

/-- A float unit in which there is only one number. -/
def noFloats : Float32 Unit where
  ofBits _ := ()
  toBits _ := 0
  lt _ _ := false
  le _ _ := true
  neg _ := ()
  add _ _ := ()
  sub _ _ := ()
  mul _ _ := ()
  div _ _ := ()
  ofInt _ := ()
  toInt _ := 0

/-- One token at position `2 ^ 32`, and the position that is read back. -/
theorem position_truncated : (KvCache.after noFloats 0 0 1 [⟨[], [], 2 ^ 32, by decide, by decide⟩]).activeLength = 1 ∧
    (KvCache.after noFloats 0 0 1 [⟨[], [], 2 ^ 32, by decide, by decide⟩]).getPosition 0 = 0 := by
  decide +kernel

/-! ## Heads -/

/-- The values of a vector as they are stored. -/
def quantizedValues (fl : Float32 F) (input : List F) : List F :=
  (List.range (blockCount input.length)).flatMap fun b => blockValues fl (quantizeBlock fl ((input.drop (32 * b)).take 32))

/-- The values of one head: those with the indices `head * head_dim` to `(head + 1) * head_dim - 1`. -/
def headValues (fl : Float32 F) (headDim head : Nat) (input : List F) : List F :=
  ((quantizedValues fl input).drop (head * headDim)).take headDim

/-- A stretch of a row of pieces of one length. -/
theorem flatMap_range_stretch {α : Type} {f : Nat → List α} {w a d n : Nat} (hf : ∀ i, (f i).length = w) (hn : a + d ≤ n) :
    (((List.range n).flatMap f).drop (w * a)).take (w * d) = (List.range d).flatMap fun b => f (a + b) := by
  have hlen : ∀ (g : Nat → List α) (m : Nat), (∀ i, (g i).length = w) → ((List.range m).flatMap g).length = w * m := by
    intro g m hg
    simp [length_flatMap, hg, Nat.mul_comm]
  obtain ⟨r, rfl⟩ := Nat.exists_eq_add_of_le hn
  rw [range_add, range_add, flatMap_append, flatMap_append, append_assoc,
    drop_left' (hlen f a hf), flatMap_map, take_left' (hlen _ d fun i => hf (a + i))]

theorem mapM_eq_some {α β : Type} {f : α → Option β} {g : α → β} {l : List α} (h : ∀ x ∈ l, f x = some (g x)) :
    l.mapM f = some (l.map g) := by
  induction l with
  | nil => rfl
  | cons x l ih =>
    rw [mapM_cons, h x mem_cons_self, ih fun y hy => h y (mem_cons_of_mem _ hy)]
    rfl

theorem mapM_eq_none {α β : Type} {f : α → Option β} {l : List α} {x : α} (hx : x ∈ l) (h : f x = none) :
    l.mapM f = none := by
  induction l with
  | nil => cases hx
  | cons y l ih =>
    rw [mapM_cons]
    rcases mem_cons.mp hx with rfl | hx
    · rw [h]
      rfl
    · rw [ih hx]
      cases f y <;> rfl

@[simp] theorem length_blockValues (fl : Float32 F) (block : List UInt8) : (blockValues fl block).length = 32 := by
  simp [blockValues]

section

variable {fl : Float32 F} {nHeads headDim k : Nat} {tokens : List (Token F (nHeads * headDim))} {c : KvCache}

/-- With whole blocks for every head its values are read. -/
theorem Stored.head (h : Stored fl nHeads headDim (2 ^ k) tokens c) {pos head : Nat} {t : Token F (nHeads * headDim)}
    (hdim : 32 ∣ headDim) (hhead : head < nHeads) (ht : (slidingWindow (2 ^ k) tokens)[pos]? = some t) (isKey : Bool) :
    c.dequantVec fl pos head isKey = some (headValues fl headDim head (t.vector isKey)) := by
  obtain ⟨d, rfl⟩ := hdim
  have hcount : blockCount (32 * d) = d := by
    unfold blockCount
    omega
  have hstart : head * (32 * d) / 32 = head * d := by
    rw [show head * (32 * d) = 32 * (head * d) by ring, Nat.mul_div_cancel_left _ (by decide)]
  have hall : blockCount (nHeads * (32 * d)) = nHeads * d := by
    rw [show nHeads * (32 * d) = 32 * (nHeads * d) by ring]
    unfold blockCount
    omega
  have hroom : head * d + d ≤ nHeads * d := by
    rw [← Nat.succ_mul]
    exact Nat.mul_le_mul_right d hhead
  have hbytes := (h.entry ht).1 isKey
  -- every block of the head is one of the vector
  have hblock : ∀ b ∈ List.range d, dequantizeBlock fl (bytesAt (c.slot pos isKey).1 ((c.slot pos isKey).2 * c.q8VecBytes +
      (head * d + b) * blockSize) blockSize) (min (b * 32 + 32) (32 * d) - b * 32) =
      some (blockValues fl (quantizeBlock fl (((t.vector isKey).drop (32 * (head * d + b))).take 32))) := by
    intro b hb
    have hb := mem_range.mp hb
    rw [Nat.mul_comm (head * d + b), quantize_block fl _ (by rw [length_vector, hall]; omega) hbytes, dequantizeBlock,
      if_neg (by omega)]
  unfold KvCache.dequantVec
  simp only [h.dim, hcount, hstart]
  rw [mapM_eq_some hblock, Option.map_some, headValues, quantizedValues, length_vector, hall,
    show head * (32 * d) = 32 * (head * d) by ring,
    flatMap_range_stretch (fun _ => length_blockValues fl _) hroom]
  rfl

/-- The last block of any other head has too little room. -/
theorem Stored.head_panics (h : Stored fl nHeads headDim (2 ^ k) tokens c) (hdim : ¬ 32 ∣ headDim) (pos head : Nat)
    (isKey : Bool) : c.dequantVec fl pos head isKey = none := by
  have hrest : headDim % 32 ≠ 0 := fun h0 => hdim (Nat.dvd_of_mod_eq_zero h0)
  have hlast : headDim / 32 ∈ List.range (blockCount headDim) := by
    rw [mem_range, blockCount]
    omega
  unfold KvCache.dequantVec
  simp only [h.dim]
  rw [mapM_eq_none hlast, Option.map_none]
  rw [dequantizeBlock, if_pos (by omega)]

end

/-- Every head of every entry is read exactly if a head is a whole number of blocks. -/
theorem heads_exact_iff (fl : Float32 F) (nHeads headDim k : Nat) :
    (∀ (tokens : List (Token F (nHeads * headDim))) (pos : Nat) (t : Token F (nHeads * headDim)),
      (slidingWindow (2 ^ k) tokens)[pos]? = some t → ∀ head < nHeads,
        (KvCache.after fl nHeads headDim (2 ^ k) tokens).getKey fl pos head =
          some (headValues fl headDim head (t.vector true)) ∧
        (KvCache.after fl nHeads headDim (2 ^ k) tokens).getValue fl pos head =
          some (headValues fl headDim head (t.vector false))) ↔
    nHeads = 0 ∨ 32 ∣ headDim := by
  constructor
  · intro h
    by_contra hnot
    obtain ⟨hheads, hdim⟩ := not_or.mp hnot
    -- any token will do
    let zeros := List.replicate (nHeads * headDim) (fl.ofBits 0)
    let t : Token F (nHeads * headDim) := ⟨zeros, zeros, 0, by simp [zeros], by simp [zeros]⟩
    have hkey := (h [t] 0 t rfl 0 (Nat.pos_of_ne_zero hheads)).1
    rw [KvCache.getKey, (stored_after [t]).head_panics hdim] at hkey
    cases hkey
  · rintro (rfl | hdim) tokens pos t ht head hhead
    · exact absurd hhead (Nat.not_lt_zero head)
    · exact ⟨(stored_after tokens).head hdim hhead ht true, (stored_after tokens).head hdim hhead ht false⟩

/-- One head of 16 values: its only block does not fit. -/
theorem short_head_panics : (KvCache.after noFloats 1 16 1
    [⟨List.replicate 16 (), List.replicate 16 (), 0, by decide, by decide⟩]).getKey noFloats 0 0 = none := by
  decide +kernel

end Folkering.Tensor
