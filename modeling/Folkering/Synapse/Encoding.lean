/-
  ENCODINGS of the service — varints and integer columns, against the library's decoders.

  The service has its own varint decoder, which reads zeros past the end of the buffer: it agrees with the
  library's exactly on byte strings that hold a whole varint.  The record writer picks the width of an
  integer by unsigned thresholds, and the library reads each width as signed: a size comes back exactly
  when the top bit of its width is clear, a kind and a timestamp always, and an id, for which a NULL is
  written, never.
-/
import Folkering.Synapse.Btree
import Folkering.Sqlite.Columns

namespace Folkering.Synapse

open Sqlite Layout

/-! ## Words -/

/-- A number is its own signed reading when its top bit is clear. -/
theorem toSigned_eq_iff {bits v : Nat} : toSigned bits v = v ↔ v < 2 ^ (bits - 1) := by
  unfold toSigned
  split
  · simp_all
  · rename_i h
    have hpos : (0 : Int) < 2 ^ bits := by positivity
    constructor
    · intro heq
      omega
    · intro hlt
      exact absurd hlt h

/-- A word survives being read as a signed number. -/
theorem asU64_toSigned {w : Nat} (h : w < 2 ^ 64) : asU64 (toSigned 64 w) = w := by
  unfold asU64 toSigned
  split <;> omega

/-- A signed number survives being written as a word. -/
theorem toSigned_asU64 (t : Int64) : toSigned 64 (asU64 t.toInt) = t.toInt := by
  have hlo := t.le_toInt
  have hhi := t.toInt_lt
  unfold asU64 toSigned
  split <;> omega

/-- The big-endian bytes of a number are read back. -/
theorem beNat_lies {data : Bytes} {p n v : Nat} (h : Lies data p (beBytes n v)) :
    beNat data p n = v % 256 ^ n := by
  induction n generalizing v with
  | zero => simp [beNat, Nat.mod_one]
  | succ n ih =>
    rw [beBytes, lies_append, length_beBytes, lies_singleton] at h
    have hmod : v % 256 ^ (n + 1) = v % 256 + 256 * (v / 256 % 256 ^ n) := by
      rw [Nat.pow_succ, Nat.mul_comm, Nat.mod_mul]
    rw [beNat, ih h.1, h.2, UInt8.toNat_ofNat', hmod]
    omega

/-! ## Varints -/

section

variable {b : Buffer} {start left i value : Nat}

theorem orZero_readByte (h : start < b.size) : orZero (b.readByte start) = (b.data start).toNat := by
  unfold Buffer.readByte
  rw [if_neg (by omega)]
  rfl

/-- Within the buffer the service's loop goes as the library's does. -/
theorem decodeVarintAt_low :
    match varintLow b.data start (min (b.size - start - i) left) i value with
    | (w, some j) => decodeVarintAt b start left i value = (w, j + 1)
    | (w, none) => i + left ≤ b.size - start →
        decodeVarintAt b start left i value = (w * 256 + orZero (b.readByte (start + 8)), 9) := by
  induction left generalizing i value with
  | zero =>
    rw [Nat.min_zero, varintLow_zero]
    intro _
    rfl
  | succ left ih =>
    by_cases hin : i < b.size - start
    · have hroom : min (b.size - start - i) (left + 1) = min (b.size - start - (i + 1)) left + 1 := by
        omega
      have hbyte := @orZero_readByte b (start + i) (by omega)
      rw [hroom, decodeVarintAt]
      by_cases hlast : (b.data (start + i)).toNat < 0x80
      · rw [varintLow_last hlast]
        simp only [hbyte, if_pos hlast, Nat.mod_eq_of_lt hlast]
      · rw [varintLow_more hlast]
        simp only [hbyte, if_neg hlast]
        have := @ih (i + 1) (value * 128 + (b.data (start + i)).toNat % 128)
        split at this
        · exact this
        · rename_i w heq
          intro hend
          exact this (by omega)
    · rw [show min (b.size - start - i) (left + 1) = 0 by omega, varintLow_zero]
      intro hend
      omega

end

/-- The byte string from a position of the buffer on. -/
def rest (b : Buffer) (start : Nat) : Slice := ⟨start, b.size - start⟩

/-- It starts with a whole varint: a byte without the continuation bit among the first eight, or nine
    bytes. -/
def HoldsVarint (b : Buffer) (start : Nat) : Prop :=
  (∃ i < 8, start + i < b.size ∧ (b.data (start + i)).toNat < 0x80) ∨ start + 9 ≤ b.size

/-- The library decodes a byte string exactly when it holds a whole varint. -/
theorem decodes_iff (b : Buffer) (start : Nat) :
    (∃ word n, decodeVarintWord b.data (rest b start) = .ok (word, n)) ↔ HoldsVarint b start := by
  have hsome := @varintLow_some_iff b.data start (min (b.size - start) 8) 0 0
  simp only [Nat.zero_add] at hsome
  constructor
  · rintro ⟨word, n, h⟩
    rcases decodeVarintWord_ok_iff.mp h with ⟨j, heq, _⟩ | ⟨v, _, h9, _⟩
    · obtain ⟨i, hi, hbyte⟩ := hsome.mp ⟨word, j, heq⟩
      exact .inl ⟨i, by omega, by omega, hbyte⟩
    · have h9' : 9 ≤ b.size - start := h9
      exact .inr (by omega)
  · rintro (⟨i, hi, hin, hbyte⟩ | h9)
    · obtain ⟨w, j, h⟩ := hsome.mpr ⟨i, by omega, hbyte⟩
      exact ⟨w, j + 1, decodeVarintWord_ok_iff.mpr (.inl ⟨j, h, rfl⟩)⟩
    · have hlen : 9 ≤ (rest b start).len := by
        show 9 ≤ b.size - start
        omega
      cases hlow : varintLow b.data start (min (b.size - start) 8) 0 0 with
      | mk w e =>
        cases e with
        | some j => exact ⟨w, j + 1, decodeVarintWord_ok_iff.mpr (.inl ⟨j, hlow, rfl⟩)⟩
        | none => exact ⟨_, 9, decodeVarintWord_ok_iff.mpr (.inr ⟨w, hlow, hlen, rfl, rfl⟩)⟩

/-- Where the library decodes a varint the service decodes the same. -/
theorem decodeVarintAt_eq {b : Buffer} {start word n : Nat}
    (h : decodeVarintWord b.data (rest b start) = .ok (word, n)) :
    decodeVarintAt b start 8 0 0 = (word, n) := by
  have hlow := @decodeVarintAt_low b start 8 0 0
  rw [Nat.sub_zero] at hlow
  rcases decodeVarintWord_ok_iff.mp h with ⟨j, heq, rfl⟩ | ⟨v, heq, h9, rfl, rfl⟩
  · simp only [rest] at heq
    rw [heq] at hlow
    exact hlow
  · simp only [rest] at heq h9
    rw [heq] at hlow
    rw [hlow (by omega), orZero_readByte (by omega)]
    rfl

/-- Decoding the encoding of a word, whatever follows it, gives the word and the encoded length. -/
def RoundTrips (v : UInt64) : Prop := ∀ (data : Bytes) (s : Slice),
  Lies data s.start (encodeVarint v.toNat) → (encodeVarint v.toNat).length ≤ s.len →
  ∃ x, decodeVarint data s = .ok (x, (encodeVarint v.toNat).length) ∧ asU64 x = v.toNat

/-- No byte string that decodes to the word is read over fewer bytes. -/
def IsShortest (v : UInt64) : Prop := ∀ (data : Bytes) (s : Slice) (x : Int) (n : Nat),
  decodeVarint data s = .ok (x, n) → asU64 x = v.toNat → (encodeVarint v.toNat).length ≤ n

/-- `varint_size` finds the length of the encoding. -/
def SizeIsLength (v : UInt64) : Prop := ∀ (data : Bytes) (s : Slice),
  Lies data s.start (encodeVarint v.toNat) → (encodeVarint v.toNat).length ≤ s.len →
  varintSize data s = .ok (encodeVarint v.toNat).length

/-- Both decoders find the same word and length at a position of the buffer. -/
def DecodersAgree (b : Buffer) (start : Nat) : Prop :=
  ∃ x n, decodeVarint b.data (rest b start) = .ok (x, n) ∧
    decodeVarintAt b start 8 0 0 = (asU64 x, n)

/-- The signed varint is the word, read as signed. -/
theorem decodeVarint_ok {data : Bytes} {s : Slice} {x : Int} {n : Nat} :
    decodeVarint data s = .ok (x, n) ↔
      ∃ word, decodeVarintWord data s = .ok (word, n) ∧ x = toSigned 64 word := by
  constructor
  · intro h
    obtain ⟨⟨word, n'⟩, hword, h⟩ := bind_ok.mp h
    cases h
    exact ⟨word, hword, rfl⟩
  · rintro ⟨word, hword, rfl⟩
    exact bind_ok.mpr ⟨_, hword, rfl⟩

/-- Every word makes its round trip. -/
theorem roundTrips (v : UInt64) : RoundTrips v := by
  intro data s hlies hlen
  rw [length_encodeVarint] at hlen ⊢
  have hword := decodeVarintWord_encode v.toNat_lt hlies hlen
  exact ⟨_, decodeVarint_ok.mpr ⟨_, hword, rfl⟩, asU64_toSigned v.toNat_lt⟩

/-- The encoder writes the shortest form. -/
theorem isShortest (v : UInt64) : IsShortest v := by
  intro data s x n hx hv
  obtain ⟨word, hword, rfl⟩ := decodeVarint_ok.mp hx
  rw [asU64_toSigned (decodeVarintWord_lt hword).2.2.2.1] at hv
  rw [length_encodeVarint, ← hv]
  exact varintBytes_le_decode hword

/-- `varint_size` agrees with the encoder. -/
theorem sizeIsLength (v : UInt64) : SizeIsLength v := by
  intro data s hlies hlen
  rw [length_encodeVarint] at hlen ⊢
  rw [varintSize_eq, decodeVarintWord_encode v.toNat_lt hlies hlen]
  rfl

/-- The codec: every word makes its round trip in the shortest form, and the two decoders agree on a byte
    string exactly when it holds a whole varint. -/
theorem varint_codec_iff (v : UInt64) (b : Buffer) (start : Nat) :
    (RoundTrips v ∧ IsShortest v ∧ SizeIsLength v ∧ DecodersAgree b start) ↔ HoldsVarint b start := by
  constructor
  · rintro ⟨_, _, _, x, n, hx, _⟩
    obtain ⟨word, hword, _⟩ := decodeVarint_ok.mp hx
    exact (decodes_iff b start).mp ⟨word, n, hword⟩
  · intro h
    refine ⟨roundTrips v, isShortest v, sizeIsLength v, ?_⟩
    obtain ⟨word, n, hword⟩ := (decodes_iff b start).mpr h
    refine ⟨_, n, decodeVarint_ok.mpr ⟨word, hword, rfl⟩, ?_⟩
    rw [decodeVarintAt_eq hword, asU64_toSigned (decodeVarintWord_lt hword).2.2.2.1]

/-- A buffer of one byte with the continuation bit. -/
def cutVarint : Buffer := ⟨fun _ => 0x80, 1, true, fun _ => false, by decide⟩

/-- On it the library reports an error, and the service makes up a zero byte. -/
theorem cut_varint_differs :
    decodeVarint cutVarint.data (rest cutVarint 0) = .error (.error .invalidVarint) ∧
    decodeVarintAt cutVarint 0 8 0 0 = (0, 2) ∧ ¬ DecodersAgree cutVarint 0 := by
  have herr : decodeVarint cutVarint.data (rest cutVarint 0) = .error (.error .invalidVarint) := by
    decide +kernel
  refine ⟨herr, by decide +kernel, ?_⟩
  rintro ⟨x, n, hx, _⟩
  rw [herr] at hx
  cases hx

/-! ## Integer columns -/

/-- A column as it is written: its type code and the bytes of its value. -/
structure Column where
  code : Nat
  bytes : List UInt8
  word : code < 2 ^ 64
  size : bytes.length = valueSize code

/-- The type codes of a record. -/
def columnCodes (cols : List Column) : List Nat := cols.map Column.code

/-- The values of a record, one after the other. -/
def columnBytes (cols : List Column) : List UInt8 := cols.flatMap Column.bytes

/-- 0 and 1 are constants; any other value fits the width that is picked for it. -/
theorem pickIntegerType_spec (v : UInt64) :
    (v.toNat ≤ 1 ∧ pickIntegerType v.toNat = 8 + v.toNat) ∨
    (1 ≤ pickIntegerType v.toNat ∧ pickIntegerType v.toNat ≤ 6 ∧
      v.toNat < 256 ^ integerTypeSize (pickIntegerType v.toNat)) := by
  have hv := v.toNat_lt
  unfold pickIntegerType
  split_ifs with h0 h1 h2 h3 h4 h5 h6
  · exact .inl (by omega)
  · exact .inl (by omega)
  all_goals
    refine .inr ⟨by decide, by decide, ?_⟩
    simp only [integerTypeSize]
    omega

/-- Writer and reader take an integer type to have the same number of bytes. -/
theorem integerTypeSize_eq {code : Nat} (h : code ≠ 7) (h12 : code < 12) :
    integerTypeSize code = valueSize code := by
  interval_cases code <;> first | rfl | exact absurd rfl h

/-- The integer columns of the writer: the id of a row, which is its rowid and for which a NULL is stored; a file
    size in the width that it picks; the kind of a file as the constant 1; a timestamp in eight bytes. -/
inductive IntColumn where
  | id (rowid : Int64)
  | size (v : UInt64)
  | kind
  | timestamp (t : Int64)

namespace IntColumn

/-- The value that the column is to hold. -/
def value : IntColumn → Int
  | id rowid => rowid.toInt
  | size v => v.toNat
  | kind => 1
  | timestamp t => t.toInt

/-- The column as the inserts write it. -/
def toColumn : IntColumn → Column
  | id _ => { code := 0, bytes := [], word := by decide, size := rfl }
  | size v =>
    { code := pickIntegerType v.toNat, bytes := encodeIntegerValue v.toNat (pickIntegerType v.toNat)
      word := by
        have := pickIntegerType_spec v
        omega
      size := by
        have := pickIntegerType_spec v
        rw [encodeIntegerValue, length_beBytes, integerTypeSize_eq] <;> omega }
  | kind => { code := 9, bytes := [], word := by decide, size := rfl }
  | timestamp t =>
    { code := 6, bytes := beBytes 8 (asU64 t.toInt), word := by decide, size := length_beBytes 8 _ }

/-- What the reader can make out: a size whose width has its top bit clear, a kind, a timestamp, but no id. -/
def Kept : IntColumn → Prop
  | id _ => False
  | size v => v.toNat ≤ 0x7F ∨ (0x100 ≤ v.toNat ∧ v.toNat ≤ 0x7FFF) ∨
      (0x10000 ≤ v.toNat ∧ v.toNat ≤ 0x7FFFFF) ∨ (0x1000000 ≤ v.toNat ∧ v.toNat ≤ 0x7FFFFFFF) ∨
      (0x100000000 ≤ v.toNat ∧ v.toNat ≤ 0x7FFFFFFFFFFFFFFF)
  | kind | timestamp _ => True

end IntColumn

section

variable {data : Bytes} {values : Slice} {pos : Nat}

/-- An integer of a code with bytes is read as a signed number of its width. -/
theorem decodeValue_int {code : Nat} (h1 : 1 ≤ code) (h6 : code ≤ 6)
    (hroom : pos + valueSize code ≤ values.len) :
    decodeValue data values code pos =
      .ok (some (.integer (toSigned (8 * valueSize code)
        (beNat data (values.start + pos) (valueSize code))))) := by
  refine bind_ok.mpr ⟨_, if_pos (by omega), ?_⟩
  have hint : decodeInt data ⟨values.start + pos, values.len - pos⟩ (valueSize code) =
      some (.integer (toSigned (8 * valueSize code) (beNat data (values.start + pos) (valueSize code)))) :=
    if_neg (by simp only; omega)
  interval_cases code <;> exact congrArg Except.ok hint

end

/-- The width that the writer picks has its top bit clear for these values only. -/
theorem kept_size_iff (v : UInt64) (h1 : 1 < v.toNat) :
    v.toNat < 2 ^ (8 * valueSize (pickIntegerType v.toNat) - 1) ↔ (IntColumn.size v).Kept := by
  have hv := v.toNat_lt
  unfold IntColumn.Kept pickIntegerType
  split_ifs with h0 h1' h2 h3 h4 h5 h6
  all_goals
    simp only [valueSize]
    omega

/-- The value of a column, decoded where its bytes lie. -/
theorem decodeValue_column {data : Bytes} {values : Slice} {pos : Nat} (c : IntColumn)
    (hlies : Lies data (values.start + pos) c.toColumn.bytes)
    (hroom : pos + c.toColumn.bytes.length ≤ values.len) :
    decodeValue data values c.toColumn.code pos = .ok (some (.integer c.value)) ↔ c.Kept := by
  rw [c.toColumn.size] at hroom
  cases c with
  | id rowid =>
    have hnull : decodeValue data values 0 pos = .ok (some .null) :=
      bind_ok.mpr ⟨_, if_pos (Nat.le_trans (Nat.le_add_right _ _) hroom), rfl⟩
    show decodeValue data values 0 pos = _ ↔ False
    simp [hnull]
  | kind =>
    refine ⟨fun _ => trivial, fun _ => bind_ok.mpr ⟨_, if_pos ?_, rfl⟩⟩
    exact Nat.le_trans (Nat.le_add_right _ _) hroom
  | timestamp t =>
    have hnum : beNat data (values.start + pos) 8 = asU64 t.toInt := by
      rw [beNat_lies hlies, Nat.mod_eq_of_lt]
      unfold asU64
      omega
    refine ⟨fun _ => trivial, fun _ => ?_⟩
    have hint := @decodeValue_int data values pos 6 (by decide) (by decide) hroom
    simp only [valueSize, hnum] at hint
    rw [toSigned_asU64] at hint
    exact hint
  | size v =>
    simp only [IntColumn.toColumn, IntColumn.value] at hlies hroom ⊢
    rcases pickIntegerType_spec v with ⟨hsmall, hcode⟩ | ⟨h1, h6, hlt⟩
    · -- 0 and 1 are constants
      have hclear : (IntColumn.size v).Kept := .inl (by omega)
      refine ⟨fun _ => hclear, fun _ => bind_ok.mpr ⟨_, if_pos (by omega), ?_⟩⟩
      rw [hcode]
      rcases Nat.le_one_iff_eq_zero_or_eq_one.mp hsmall with h | h <;> rw [h] <;> rfl
    · have hbig : 1 < v.toNat := by
        by_contra hle
        have hcode : pickIntegerType v.toNat = 8 + v.toNat := by
          rcases Nat.le_one_iff_eq_zero_or_eq_one.mp (Nat.le_of_not_lt hle) with h | h <;> rw [h] <;> rfl
        omega
      have hnum : beNat data (values.start + pos) (valueSize (pickIntegerType v.toNat)) = v.toNat := by
        rw [integerTypeSize_eq (by omega) (by omega)] at hlt
        rw [encodeIntegerValue, integerTypeSize_eq (by omega) (by omega)] at hlies
        rw [beNat_lies hlies, Nat.mod_eq_of_lt hlt]
      rw [decodeValue_int h1 h6 hroom, hnum, ← kept_size_iff v hbig, ← toSigned_eq_iff]
      simp

section

variable {cap : Nat} {before after : List Column} {data : Bytes} {payload : Slice} {hdr : List UInt8}

/-- The header that the writer builds. -/
theorem recordHeader_some {types : List Nat} (h : recordHeader cap types = .ok (some hdr)) :
    hdr = header types ∧ 1 + (codeBytes types).length ≤ 127 := by
  simp only [recordHeader] at h
  split_ifs at h with hcap hsize
  · cases h
  · cases h
    exact ⟨rfl, Nat.le_of_not_lt hsize⟩

/-- A column starts where the bytes of the columns before it end. -/
theorem valueOffset_columns (cols : List Column) (i : Nat) :
    valueOffset (columnCodes cols) i = (columnBytes (cols.take i)).length := by
  induction cols generalizing i with
  | nil => simp [valueOffset, columnCodes, columnBytes]
  | cons c cols ih =>
    cases i with
    | zero => rfl
    | succ i =>
      have := ih i
      simp only [valueOffset, columnCodes, columnBytes, List.map_cons, List.take_succ_cons,
        List.sum_cons, List.flatMap_cons, List.length_append, c.size] at this ⊢
      rw [this]

/-- In a record of any columns, an integer column is read back exactly when it is no id and no size with the top bit
    of the width that the writer picked for it set. -/
theorem integer_column_reads_back_iff (rowid : Int) (c : IntColumn)
    (hhdr : recordHeader cap (columnCodes (before ++ c.toColumn :: after)) = .ok (some hdr))
    (hlies : Lies data payload.start (hdr ++ columnBytes (before ++ c.toColumn :: after)))
    (hlen : payload.len = (hdr ++ columnBytes (before ++ c.toColumn :: after)).length)
    (hword : payload.len < 2 ^ 64) :
    (∃ r, Record.parse data rowid payload = .ok r ∧
      r.get data before.length = .ok (some (.integer c.value))) ↔ c.Kept := by
  obtain ⟨rfl, hsmall⟩ := recordHeader_some hhdr
  rw [List.length_append, length_header] at hlen
  rw [lies_append, length_header] at hlies
  have hd : Described data payload (columnCodes (before ++ c.toColumn :: after)) := by
    refine ⟨hlies.1, by omega, hsmall, ?_⟩
    intro code hcode
    obtain ⟨col, _, rfl⟩ := List.mem_map.mp hcode
    exact col.word
  have hbytes : columnBytes (before ++ c.toColumn :: after) =
      columnBytes before ++ (c.toColumn.bytes ++ columnBytes after) := by
    rw [columnBytes, List.flatMap_append]
    rfl
  have hoffset : valueOffset (columnCodes (before ++ c.toColumn :: after)) before.length =
      (columnBytes before).length := by
    rw [valueOffset_columns, List.take_left]
  have hcode : (columnCodes (before ++ c.toColumn :: after))[before.length]? = some c.toColumn.code := by
    simp [columnCodes]
  have hvalues := hlies.2
  rw [hbytes, lies_append, lies_append] at hvalues
  rw [hbytes, List.length_append, List.length_append] at hlen
  have hget := get_described hd rowid hcode (by omega)
  have hcolumn := @decodeValue_column data
    (describedRecord rowid payload (columnCodes (before ++ c.toColumn :: after))).values
    (columnBytes before).length c hvalues.2.1 (by simp only [describedRecord]; omega)
  rw [parse_described hd rowid, ← hcolumn, ← hoffset, ← hget]
  simp

end

/-- The columns of a file named `a` with `n` zero bytes, before and after its size. -/
def beforeSize : List Column :=
  [⟨0, [], by decide, rfl⟩, ⟨15, [97], by decide, rfl⟩, IntColumn.kind.toColumn]

/-- The content and the missing embedding behind the size. -/
def afterSize (n : Nat) (h : n ≤ 200) : List Column :=
  [⟨12 + n * 2, List.replicate n 0, by omega, by simp⟩, ⟨0, [], by decide, rfl⟩]

/-- The record of the file. -/
def fileRecord (n : Nat) (h : n ≤ 200) : List UInt8 :=
  let columns := beforeSize ++ (IntColumn.size (.ofNat n)).toColumn :: afterSize n h
  header (columnCodes columns) ++ columnBytes columns

/-- The size of a file of five bytes is read back. -/
theorem size_reads_back_five :
    let data : Bytes := fun i => (fileRecord 5 (by decide)).getD i 0
    ∃ r, Record.parse data 1 ⟨0, 14⟩ = .ok r ∧ r.get data 3 = .ok (some (.integer 5)) := by
  have hhdr : recordHeader 32 (columnCodes (beforeSize ++ (IntColumn.size 5).toColumn ::
      afterSize 5 (by decide))) = .ok (some [7, 0, 15, 9, 1, 22, 0]) := by decide +kernel
  exact (integer_column_reads_back_iff 1 (.size 5) hhdr (lies_getD _ 0) (by decide +kernel)
    (by decide)).mpr (.inl (by decide))

/-- The size 200 has the top bit of its byte set and comes back as -56. -/
theorem size_200_reads_negative :
    let data : Bytes := fun i => (fileRecord 200 (by decide)).getD i 0
    (do
      let r ← Record.parse data 1 ⟨0, 210⟩
      r.get data 3) = .ok (some (.integer (-56))) := by
  decide +kernel

end Folkering.Synapse
