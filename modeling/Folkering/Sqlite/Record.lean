/-
  libsqlite, bottom half — slices of the database bytes, varints and records.

  A `&[u8]` that borrows from the database is its range of the bytes (`Slice`), so that a sub-slice keeps
  the offset its pointer has; the bytes themselves are a parameter.  A function of the library returns a
  value, one of the library's errors, or panics where it indexes a slice out of range (`Fault`).
    * `decodeVarint`, `encodeVarint` — the varint codec;
    * `Record.parse`, `Record.get`   — a record and its columns.
-/
import Mathlib

namespace Folkering.Sqlite

/-- The errors of the library. -/
inductive Error where
  | tooSmall
  | invalidMagic
  | invalidPageSize
  | pageOutOfBounds
  | invalidPageType
  | invalidVarint
  | invalidRecord
  | tableNotFound
  | columnNotFound
  | invalidEmbedding
deriving Repr, DecidableEq

/-- How a call ends other than with a value. -/
inductive Fault where
  | error (e : Error)
  | panic
deriving Repr, DecidableEq

/-- The result of a read: an error value or a panic. -/
abbrev Res (α : Type) := Except Fault α

/-- A result whose error the caller matches on; a panic goes through. -/
def attempt {α : Type} : Res α → Res (Except Error α)
  | .ok a => .ok (.ok a)
  | .error (.error e) => .ok (.error e)
  | .error .panic => .error .panic

/-! ## Slices -/

/-- The bytes of a file. -/
abbrev Bytes := Nat → UInt8

/-- A borrowed range of the bytes. -/
structure Slice where
  start : Nat
  len : Nat
deriving Repr, DecidableEq

/-- `s[i]`. -/
def Slice.byte (data : Bytes) (s : Slice) (i : Nat) : Res Nat :=
  if i < s.len then .ok (data (s.start + i)).toNat else .error .panic

/-- `&s[k..]`. -/
def Slice.suffix (s : Slice) (k : Nat) : Res Slice :=
  if k ≤ s.len then .ok ⟨s.start + k, s.len - k⟩ else .error .panic

/-- `&s[a..b]`. -/
def Slice.range (s : Slice) (a b : Nat) : Res Slice :=
  if a ≤ b ∧ b ≤ s.len then .ok ⟨s.start + a, b - a⟩ else .error .panic

/-- The bytes of a slice. -/
def Slice.toList (data : Bytes) (s : Slice) : List UInt8 :=
  (List.range s.len).map fun i => data (s.start + i)

/-- The big-endian number of `n` bytes from `pos`. -/
def beNat (data : Bytes) (pos : Nat) : Nat → Nat
  | 0 => 0
  | n + 1 => beNat data pos n * 256 + (data (pos + n)).toNat

/-- `v as iN`. -/
def toSigned (bits v : Nat) : Int := if v < 2 ^ (bits - 1) then v else (v : Int) - 2 ^ bits

/-! ## Varints -/

/-- The first eight bytes, seven bits each: the value and the index of the byte that ends it. -/
def varintLow (data : Bytes) (start : Nat) : (left i value : Nat) → Nat × Option Nat
  | 0, _, value => (value, none)
  | left + 1, i, value =>
    let byte := (data (start + i)).toNat
    if byte < 0x80 then (value * 128 + byte, some i)
    else varintLow data start left (i + 1) (value * 128 + byte % 128)

/-- The 64-bit word of a varint and its length. -/
def decodeVarintWord (data : Bytes) (s : Slice) : Res (Nat × Nat) :=
  if s.len = 0 then .error (.error .invalidVarint)
  else match varintLow data s.start (min s.len 8) 0 0 with
    | (value, some i) => .ok (value, i + 1)
    | (value, none) =>
      -- the ninth byte has all its bits
      if 9 ≤ s.len then .ok (value * 256 + (data (s.start + 8)).toNat, 9)
      else .error (.error .invalidVarint)

/-- A varint as a signed number, and its length. -/
def decodeVarint (data : Bytes) (s : Slice) : Res (Int × Nat) := do
  let (word, n) ← decodeVarintWord data s
  return (toSigned 64 word, n)

/-- How many bytes a varint takes. -/
def varintBytes (value : Nat) : Nat :=
  if value ≤ 127 then 1
  else if value ≤ 0x3FFF then 2
  else if value ≤ 0x1FFFFF then 3
  else if value ≤ 0xFFFFFFF then 4
  else if value ≤ 0x7FFFFFFFF then 5
  else if value ≤ 0x3FFFFFFFFFF then 6
  else if value ≤ 0x1FFFFFFFFFFFF then 7
  else if value ≤ 0xFFFFFFFFFFFFFF then 8
  else 9

/-- `n` groups of seven bits, each with the continuation bit, most significant first. -/
def varintGroups (value : Nat) : Nat → List UInt8
  | 0 => []
  | n + 1 => varintGroups (value / 128) n ++ [.ofNat (128 + value % 128)]

/-- The shortest encoding; the ninth byte has eight bits. -/
def encodeVarint (value : Nat) : List UInt8 :=
  if varintBytes value = 9 then varintGroups (value / 256) 8 ++ [.ofNat (value % 256)]
  else varintGroups (value / 128) (varintBytes value - 1) ++ [.ofNat (value % 128)]

/-! ## Records -/

/-- `core::str::from_utf8` on the bytes of a text. -/
def utf8Valid : List UInt8 → Bool
  | [] => true
  | a :: rest =>
    if a < 0x80 then utf8Valid rest
    else match rest with
      | [] => false
      | b :: rest =>
        if 0xC2 ≤ a && a ≤ 0xDF && cont b then utf8Valid rest
        else match rest with
          | [] => false
          | c :: rest =>
            if three a b && cont c then utf8Valid rest
            else match rest with
              | [] => false
              | d :: rest => four a b && cont c && cont d && utf8Valid rest
where
  cont (b : UInt8) : Bool := 0x80 ≤ b && b ≤ 0xBF
  three (a b : UInt8) : Bool :=
    (a == 0xE0 && 0xA0 ≤ b && b ≤ 0xBF) || (0xE1 ≤ a && a ≤ 0xEC && cont b) ||
    (a == 0xED && 0x80 ≤ b && b ≤ 0x9F) || (0xEE ≤ a && a ≤ 0xEF && cont b)
  four (a b : UInt8) : Bool :=
    (a == 0xF0 && 0x90 ≤ b && b ≤ 0xBF) || (0xF1 ≤ a && a ≤ 0xF3 && cont b) ||
    (a == 0xF4 && 0x80 ≤ b && b ≤ 0x8F)

/-- A column value. -/
inductive Value where
  | null
  | integer (v : Int)
  /-- the bits of the number -/
  | float (bits : Nat)
  | blob (s : Slice)
  | text (s : Slice)
deriving Repr, DecidableEq

/-- A row: its values and its type codes are slices of the payload. -/
structure Record where
  rowid : Int
  values : Slice
  types : Slice
  columnCount : Nat
deriving Repr, DecidableEq

/-- The number of type codes from `pos` on; a code is at least one byte long. -/
def countColumns (data : Bytes) (types : Slice) : (fuel pos count : Nat) → Res Nat
  | 0, _, count => .ok count
  | fuel + 1, pos, count =>
    if types.len ≤ pos then .ok count
    else do
      let rest ← types.suffix pos
      let (_, len) ← decodeVarintWord data rest
      countColumns data types fuel (pos + len) (count + 1)

/-- The header of a payload. -/
def Record.parse (data : Bytes) (rowid : Int) (payload : Slice) : Res Record :=
  if payload.len = 0 then .error (.error .invalidRecord)
  else do
    let (headerSize, headerSizeLen) ← decodeVarintWord data payload
    if payload.len < headerSize ∨ headerSize < headerSizeLen then .error (.error .invalidRecord)
    else
      let types ← payload.range headerSizeLen headerSize
      let values ← payload.suffix headerSize
      let columnCount ← countColumns data types types.len 0 0
      return { rowid, values, types, columnCount }

/-- The number of bytes of a value. -/
def valueSize (typeCode : Nat) : Nat :=
  match typeCode with
  | 0 => 0
  | 1 => 1
  | 2 => 2
  | 3 => 3
  | 4 => 4
  | 5 => 6
  | 6 => 8
  | 7 => 8
  | n => if n < 12 then 0 else if n % 2 = 0 then (n - 12) / 2 else (n - 13) / 2

/-- A big-endian integer of `n` bytes at the start of the slice, if it has them. -/
def decodeInt (data : Bytes) (s : Slice) (n : Nat) : Option Value :=
  if s.len < n then none else some (.integer (toSigned (8 * n) (beNat data s.start n)))

/-- The value of a type code at a place in the values. -/
def decodeValue (data : Bytes) (values : Slice) (typeCode pos : Nat) : Res (Option Value) := do
  let s ← values.suffix pos
  return match typeCode with
  | 0 => some .null
  | 1 => decodeInt data s 1
  | 2 => decodeInt data s 2
  | 3 => decodeInt data s 3
  | 4 => decodeInt data s 4
  | 5 => decodeInt data s 6
  | 6 => decodeInt data s 8
  | 7 => if s.len < 8 then none else some (.float (beNat data s.start 8))
  | 8 => some (.integer 0)
  | 9 => some (.integer 1)
  | n =>
    if n < 12 then none
    else if n % 2 = 0 then
      if s.len < (n - 12) / 2 then none else some (.blob ⟨s.start, (n - 12) / 2⟩)
    else
      if s.len < (n - 13) / 2 then none
      else if utf8Valid (Slice.toList data ⟨s.start, (n - 13) / 2⟩) then
        some (.text ⟨s.start, (n - 13) / 2⟩)
      else none

/-- The type code at a position of the header and its length. -/
def Record.typeAt (data : Bytes) (r : Record) (typePos : Nat) : Res (Option (Nat × Nat)) := do
  let rest ← r.types.suffix typePos
  return (← attempt (decodeVarintWord data rest)).toOption

/-- Walks `left` columns on and decodes the value of the next. -/
def Record.walk (data : Bytes) (r : Record) : (left typePos valuePos : Nat) → Res (Option Value)
  | 0, typePos, valuePos => do
    match ← r.typeAt data typePos with
    | none => return none
    | some (typeCode, _) => decodeValue data r.values typeCode valuePos
  | left + 1, typePos, valuePos => do
    match ← r.typeAt data typePos with
    | none => return none
    | some (typeCode, typeLen) =>
      r.walk data left (typePos + typeLen) ((valuePos + valueSize typeCode) % 2 ^ 64)

/-- The value of a column. -/
def Record.get (data : Bytes) (r : Record) (index : Nat) : Res (Option Value) :=
  if r.columnCount ≤ index then .ok none else r.walk data index 0 0

end Folkering.Sqlite
