/-
  RECORDS AS WRITTEN — what `Record.get` finds in a header of type codes.

  A record with the type codes `codes` starts with its header size as one byte, then the codes as varints
  (`header codes`).  `Described data payload codes` says that a payload starts so; then
    * `parse_described` — the library parses it, and
    * `get_described`   — column `i` is decoded with code `i`, at the sum of the sizes before it.
-/
import Folkering.Sqlite.Varint

namespace Folkering.Sqlite

open Layout List

/-- The type codes of a record header. -/
def codeBytes (codes : List Nat) : List UInt8 := codes.flatMap encodeVarint

/-- The header of a record: its size in one byte, then the type codes. -/
def header (codes : List Nat) : List UInt8 := .ofNat (1 + (codeBytes codes).length) :: codeBytes codes

/-- Where the value of column `i` starts. -/
def valueOffset (codes : List Nat) (i : Nat) : Nat := ((codes.take i).map valueSize).sum

/-- The payload starts with the header of these codes. -/
structure Described (data : Bytes) (payload : Slice) (codes : List Nat) : Prop where
  lies : Lies data payload.start (header codes)
  room : 1 + (codeBytes codes).length ≤ payload.len
  small : 1 + (codeBytes codes).length ≤ 127
  words : ∀ c ∈ codes, c < 2 ^ 64

/-- The record that the library makes of it. -/
def describedRecord (rowid : Int) (payload : Slice) (codes : List Nat) : Record :=
  let n := 1 + (codeBytes codes).length
  { rowid, values := ⟨payload.start + n, payload.len - n⟩,
    types := ⟨payload.start + 1, (codeBytes codes).length⟩, columnCount := codes.length }

theorem codeBytes_append (as bs : List Nat) : codeBytes (as ++ bs) = codeBytes as ++ codeBytes bs :=
  flatMap_append

@[simp] theorem codeBytes_cons (c : Nat) (cs : List Nat) :
    codeBytes (c :: cs) = encodeVarint c ++ codeBytes cs := rfl

@[simp] theorem length_header (codes : List Nat) :
    (header codes).length = 1 + (codeBytes codes).length := by
  rw [header, length_cons, Nat.add_comm]

theorem valueSize_of_ge {c : Nat} (h : 12 ≤ c) :
    valueSize c = if c % 2 = 0 then (c - 12) / 2 else (c - 13) / 2 := by
  unfold valueSize
  split <;> first | omega | rw [if_neg (by omega)]

@[simp] theorem valueSize_blob (n : Nat) : valueSize (12 + n * 2) = n := by
  rw [valueSize_of_ge (by omega), if_pos (by omega)]
  omega

/-- A small number is its own varint. -/
theorem encodeVarint_small {n : Nat} (h : n ≤ 127) : encodeVarint n = [.ofNat n] := by
  have h1 : varintBytes n = 1 := by rw [varintBytes, if_pos h]
  rw [encodeVarint, if_neg (by omega), h1]
  simp only [Nat.sub_self, varintGroups, nil_append, Nat.mod_eq_of_lt (show n < 128 by omega)]

section

variable {data : Bytes} {types : Slice} {codes : List Nat}

/-- The loop counts the codes from a position on. -/
theorem countColumns_lies {pos fuel count : Nat} (hlies : Lies data (types.start + pos) (codeBytes codes))
    (hlen : pos + (codeBytes codes).length = types.len) (hfuel : codes.length ≤ fuel)
    (hwords : ∀ c ∈ codes, c < 2 ^ 64) :
    countColumns data types fuel pos count = .ok (count + codes.length) := by
  induction codes generalizing pos fuel count with
  | nil =>
    have hend : types.len ≤ pos := by
      rw [← hlen]
      exact Nat.le_refl pos
    cases fuel with
    | zero => rfl
    | succ fuel => rw [countColumns, if_pos hend, length_nil, Nat.add_zero]
  | cons c cs ih =>
    obtain ⟨fuel, rfl⟩ : ∃ f, fuel = f + 1 := ⟨fuel - 1, by rw [length_cons] at hfuel; omega⟩
    rw [codeBytes_cons, length_append, length_encodeVarint] at hlen
    rw [codeBytes_cons, lies_append, length_encodeVarint] at hlies
    have hpos := varintBytes_pos c
    rw [countColumns, if_neg (by omega)]
    refine bind_ok.mpr ⟨⟨types.start + pos, types.len - pos⟩, if_pos (by omega), ?_⟩
    refine bind_ok.mpr ⟨(c, varintBytes c), ?_, ?_⟩
    · exact decodeVarintWord_encode (hwords c (by simp)) hlies.1 (by simp only; omega)
    · have hrest : Lies data (types.start + (pos + varintBytes c)) (codeBytes cs) := by
        rw [← Nat.add_assoc]
        exact hlies.2
      have hcount := @ih _ fuel (count + 1) hrest (by omega) (Nat.le_of_succ_le_succ hfuel)
        fun c' h' => hwords c' (by simp [h'])
      rw [Nat.add_assoc, Nat.add_comm 1] at hcount
      exact hcount

end

section

variable {data : Bytes} {payload : Slice} {codes : List Nat}

theorem length_le_codeBytes (codes : List Nat) : codes.length ≤ (codeBytes codes).length := by
  induction codes with
  | nil => exact Nat.le_refl 0
  | cons c cs ih =>
    have := varintBytes_pos c
    rw [codeBytes_cons, length_append, length_encodeVarint, length_cons]
    omega

theorem Described.codes_lie (h : Described data payload codes) :
    Lies data (payload.start + 1) (codeBytes codes) := (lies_cons.mp h.lies).2

theorem parse_described (h : Described data payload codes) (rowid : Int) :
    Record.parse data rowid payload = .ok (describedRecord rowid payload codes) := by
  have hroom := h.room
  have hsize : Lies data payload.start (encodeVarint (1 + (codeBytes codes).length)) := by
    rw [encodeVarint_small h.small, lies_singleton]
    exact (lies_cons.mp h.lies).1
  have hone : varintBytes (1 + (codeBytes codes).length) = 1 := by rw [varintBytes, if_pos h.small]
  have hword := decodeVarintWord_encode (by have := h.small; omega) hsize (by omega)
  rw [hone] at hword
  rw [Record.parse, if_neg (by omega)]
  refine bind_ok.mpr ⟨_, hword, ?_⟩
  dsimp only
  rw [if_neg (by omega)]
  refine bind_ok.mpr ⟨⟨payload.start + 1, (codeBytes codes).length⟩, ?_, ?_⟩
  · rw [Slice.range, if_pos (by omega), Nat.add_sub_cancel_left]
  refine bind_ok.mpr ⟨_, if_pos hroom, ?_⟩
  refine bind_ok.mpr ⟨codes.length, ?_, rfl⟩
  have hcount := @countColumns_lies data ⟨payload.start + 1, (codeBytes codes).length⟩ codes 0
    (codeBytes codes).length 0 h.codes_lie (Nat.zero_add _) (length_le_codeBytes codes) h.words
  rwa [Nat.zero_add] at hcount

theorem typeAt_described (h : Described data payload codes) (rowid : Int) {before after : List Nat} {c : Nat}
    (hcodes : codes = before ++ c :: after) :
    (describedRecord rowid payload codes).typeAt data (codeBytes before).length =
      .ok (some (c, varintBytes c)) := by
  have hlies := h.codes_lie
  have hlen : (codeBytes codes).length =
      (codeBytes before).length + (varintBytes c + (codeBytes after).length) := by
    rw [hcodes, codeBytes_append, codeBytes_cons, length_append, length_append,
      length_encodeVarint]
  rw [hcodes, codeBytes_append, lies_append, codeBytes_cons, lies_append] at hlies
  have hword := @decodeVarintWord_encode data ⟨payload.start + 1 + (codeBytes before).length,
    (codeBytes codes).length - (codeBytes before).length⟩ c (h.words c (by simp [hcodes]))
    hlies.2.1 (by simp only; omega)
  refine bind_ok.mpr ⟨_, if_pos (by simp only [describedRecord]; omega), ?_⟩
  refine bind_ok.mpr ⟨.ok (c, varintBytes c), ?_, rfl⟩
  exact congrArg attempt hword

/-- Walking on from the position after some of the codes, the sizes of the values add up. -/
theorem walk_described (h : Described data payload codes) (rowid : Int)
    {before between after : List Nat} {c valuePos : Nat}
    (hcodes : codes = before ++ (between ++ c :: after))
    (hsum : valuePos + (between.map valueSize).sum < 2 ^ 64) :
    (describedRecord rowid payload codes).walk data between.length (codeBytes before).length valuePos =
      decodeValue data (describedRecord rowid payload codes).values c
        (valuePos + (between.map valueSize).sum) := by
  induction between generalizing before valuePos with
  | nil =>
    rw [length_nil, Record.walk, typeAt_described h rowid hcodes]
    rfl
  | cons b bs ih =>
    rw [map_cons, sum_cons, ← Nat.add_assoc] at hsum ⊢
    rw [length_cons, Record.walk, typeAt_described h rowid hcodes]
    have hnext := @ih (before ++ [b]) (valuePos + valueSize b)
      (by rw [hcodes, append_assoc]; rfl) hsum
    rw [codeBytes_append, length_append, codeBytes_cons, length_append,
      length_encodeVarint] at hnext
    show Record.walk _ _ _ _ ((valuePos + valueSize b) % 2 ^ 64) = _
    rw [Nat.mod_eq_of_lt (by omega)]
    exact hnext

/-- Column `i` is decoded with code `i`, where the values before it end. -/
theorem get_described (h : Described data payload codes) (rowid : Int) {i c : Nat}
    (hc : codes[i]? = some c) (hsum : valueOffset codes i < 2 ^ 64) :
    (describedRecord rowid payload codes).get data i =
      decodeValue data (describedRecord rowid payload codes).values c (valueOffset codes i) := by
  obtain ⟨hi, rfl⟩ := List.getElem?_eq_some_iff.mp hc
  have hlen : (codes.take i).length = i := by
    rw [length_take]
    omega
  have hcodes : codes = [] ++ (codes.take i ++ codes[i] :: codes.drop (i + 1)) := by
    rw [nil_append, ← drop_eq_getElem_cons hi, take_append_drop]
  have hwalk := @walk_described data payload codes h rowid _ _ _ _ 0 hcodes (by rwa [Nat.zero_add])
  rw [hlen, Nat.zero_add] at hwalk
  rw [Record.get, if_neg (by simp only [describedRecord]; omega)]
  exact hwalk

end

end Folkering.Sqlite
