/-
  VARINTS — the codec of the library.

  A varint is up to eight groups of seven bits, most significant first, each but the last with the
  continuation bit; a ninth byte has all its bits.  The decoder's loop over a run of groups appends their
  digits to the value (`varintLow_groups`), which is all that the round trip needs; a value that ends
  after `n < 9` bytes is below `128 ^ n` (`varintLow_lt`), which is all that minimality needs.
-/
import Folkering.Sqlite.Scan
import Folkering.Lib.Layout

namespace Folkering.Sqlite

open Layout

/-- `varint_size`: the index after the first byte without the continuation bit, nine at most. -/
def varintEnd (data : Bytes) (start : Nat) : (left i : Nat) → Option Nat
  | 0, _ => none
  | left + 1, i => if (data (start + i)).toNat < 0x80 then some (i + 1) else varintEnd data start left (i + 1)

/-- The length of a varint. -/
def varintSize (data : Bytes) (s : Slice) : Res Nat :=
  match varintEnd data s.start (min s.len 9) 0 with
  | some n => .ok n
  | none => if 9 ≤ s.len then .ok 9 else .error (.error .invalidVarint)

/-! ## How long a varint is -/

/-- A varint takes as many bytes as its value has groups of seven bits, and nine when they are too many. -/
theorem varintBytes_spec (value : Nat) :
    (1 ≤ varintBytes value ∧ varintBytes value < 9 ∧ value < 128 ^ varintBytes value ∧
      (128 ^ (varintBytes value - 1) ≤ value ∨ varintBytes value = 1)) ∨
    (varintBytes value = 9 ∧ 128 ^ 8 ≤ value) := by
  unfold varintBytes
  by_cases h₁ : value ≤ 127
  · rw [if_pos h₁]
    omega
  rw [if_neg h₁]
  by_cases h₂ : value ≤ 0x3FFF
  · rw [if_pos h₂]
    omega
  rw [if_neg h₂]
  by_cases h₃ : value ≤ 0x1FFFFF
  · rw [if_pos h₃]
    omega
  rw [if_neg h₃]
  by_cases h₄ : value ≤ 0xFFFFFFF
  · rw [if_pos h₄]
    omega
  rw [if_neg h₄]
  by_cases h₅ : value ≤ 0x7FFFFFFFF
  · rw [if_pos h₅]
    omega
  rw [if_neg h₅]
  by_cases h₆ : value ≤ 0x3FFFFFFFFFF
  · rw [if_pos h₆]
    omega
  rw [if_neg h₆]
  by_cases h₇ : value ≤ 0x1FFFFFFFFFFFF
  · rw [if_pos h₇]
    omega
  rw [if_neg h₇]
  by_cases h₈ : value ≤ 0xFFFFFFFFFFFFFF
  · rw [if_pos h₈]
    omega
  · rw [if_neg h₈]
    omega

theorem varintBytes_pos (value : Nat) : 1 ≤ varintBytes value := by
  have := varintBytes_spec value
  omega

theorem varintBytes_le_nine (value : Nat) : varintBytes value ≤ 9 := by
  have := varintBytes_spec value
  omega

/-- A value of `n` groups takes at most `n` bytes. -/
theorem varintBytes_le {value n : Nat} (hn : 1 ≤ n) (h : n < 9 → value < 128 ^ n) :
    varintBytes value ≤ n := by
  by_contra hgt
  have hn9 : n < 9 := by
    have := varintBytes_le_nine value
    omega
  -- its last group would be empty
  have hlow : 128 ^ n ≤ value := by
    rcases varintBytes_spec value with ⟨_, _, _, hlow | hone⟩ | ⟨h9, hlow⟩
    · exact le_trans (Nat.pow_le_pow_right (by decide) (by omega)) hlow
    · omega
    · exact le_trans (Nat.pow_le_pow_right (by decide) (by omega)) hlow
  exact absurd (h hn9) (by omega)

/-- A varint of fewer than nine bytes has room for its value. -/
theorem lt_of_varintBytes {value : Nat} (h : varintBytes value ≠ 9) :
    value < 128 ^ varintBytes value := by
  rcases varintBytes_spec value with ⟨_, _, hlt, _⟩ | ⟨h9, _⟩
  · exact hlt
  · exact absurd h9 h

@[simp] theorem length_varintGroups (value n : Nat) : (varintGroups value n).length = n := by
  induction n generalizing value with
  | zero => rfl
  | succ n ih => simp [varintGroups, ih]

@[simp] theorem length_encodeVarint (value : Nat) : (encodeVarint value).length = varintBytes value := by
  have := varintBytes_pos value
  unfold encodeVarint
  split
  · rename_i h
    simp [h]
  · simp
    omega

/-! ## The decoder's loop -/

section

variable {data : Bytes} {start left i value : Nat}

theorem varintLow_zero : varintLow data start 0 i value = (value, none) := rfl

/-- A byte without the continuation bit ends the varint. -/
theorem varintLow_last (h : (data (start + i)).toNat < 0x80) :
    varintLow data start (left + 1) i value = (value * 128 + (data (start + i)).toNat, some i) := by
  simp only [varintLow, if_pos h]

theorem varintLow_more (h : ¬ (data (start + i)).toNat < 0x80) :
    varintLow data start (left + 1) i value =
      varintLow data start left (i + 1) (value * 128 + (data (start + i)).toNat % 128) := by
  simp only [varintLow, if_neg h]

/-- Over a run of groups the loop appends their digits. -/
theorem varintLow_groups {v n : Nat} (h : Lies data (start + i) (varintGroups v n)) :
    varintLow data start (left + n) i value =
      varintLow data start left (i + n) (value * 128 ^ n + v % 128 ^ n) := by
  induction n generalizing v left with
  | zero => simp [Nat.mod_one]
  | succ n ih =>
    rw [varintGroups, lies_append, length_varintGroups, lies_singleton] at h
    obtain ⟨hgroups, hlast⟩ := h
    have hbyte : (data (start + (i + n))).toNat = 128 + v % 128 := by
      rw [← Nat.add_assoc, hlast, UInt8.toNat_ofNat']
      omega
    rw [show left + (n + 1) = left + 1 + n by omega, ih hgroups, varintLow_more (by omega), hbyte]
    have hdigits : (value * 128 ^ n + v / 128 % 128 ^ n) * 128 + (128 + v % 128) % 128 =
        value * 128 ^ (n + 1) + v % 128 ^ (n + 1) := by
      rw [Nat.pow_succ, Nat.mul_comm (128 ^ n) 128, Nat.mod_mul, Nat.add_mul]
      have hassoc : value * 128 ^ n * 128 = value * (128 * 128 ^ n) := by
        rw [Nat.mul_assoc, Nat.mul_comm (128 ^ n)]
      omega
    rw [hdigits, Nat.add_assoc]

/-- Where the loop ends, and how large the value is that it has read. -/
theorem varintLow_lt (hv : value < 128 ^ i) :
    match varintLow data start left i value with
    | (w, some j) => i ≤ j ∧ j < i + left ∧ w < 128 ^ (j + 1)
    | (w, none) => w < 128 ^ (i + left) := by
  induction left generalizing i value with
  | zero => exact hv
  | succ left ih =>
    have hbyte : value * 128 + (data (start + i)).toNat % 128 < 128 ^ (i + 1) := by
      rw [Nat.pow_succ]
      omega
    by_cases h : (data (start + i)).toNat < 0x80
    · rw [varintLow_last h]
      rw [Nat.mod_eq_of_lt h] at hbyte
      exact ⟨Nat.le_refl i, by omega, hbyte⟩
    · rw [varintLow_more h]
      have := ih hbyte
      split at this
      · exact ⟨by omega, by omega, this.2.2⟩
      · rwa [show i + (left + 1) = i + 1 + left by omega]

/-- The loop ends within the bytes exactly when one of them lacks the continuation bit. -/
theorem varintLow_some_iff :
    (∃ w j, varintLow data start left i value = (w, some j)) ↔
      ∃ k < left, (data (start + (i + k))).toNat < 0x80 := by
  induction left generalizing i value with
  | zero => simp [varintLow_zero]
  | succ left ih =>
    by_cases h : (data (start + i)).toNat < 0x80
    · rw [varintLow_last h]
      exact ⟨fun _ => ⟨0, by omega, h⟩, fun _ => ⟨_, _, rfl⟩⟩
    · rw [varintLow_more h, ih]
      constructor
      · rintro ⟨k, hk, hbyte⟩
        exact ⟨k + 1, by omega, by rwa [show i + (k + 1) = i + 1 + k by omega]⟩
      · rintro ⟨k, hk, hbyte⟩
        cases k with
        | zero => exact absurd hbyte h
        | succ k => exact ⟨k, by omega, by rwa [show i + 1 + k = i + (k + 1) by omega]⟩

/-- The loop ends at the first byte without the continuation bit. -/
theorem varintEnd_low (value k : Nat) :
    varintEnd data start (left + k) i =
      match (varintLow data start left i value).2 with
      | some j => some (j + 1)
      | none => varintEnd data start k (i + left) := by
  induction left generalizing i value with
  | zero => simp [varintLow_zero]
  | succ left ih =>
    rw [Nat.add_right_comm, varintEnd]
    by_cases h : (data (start + i)).toNat < 0x80
    · rw [if_pos h, varintLow_last h]
    · rw [if_neg h, varintLow_more h, ih, Nat.add_right_comm, Nat.add_assoc]

end

/-! ## The decoder -/

section

variable {data : Bytes} {s : Slice}

/-- A varint ends within eight bytes, or takes nine. -/
theorem decodeVarintWord_ok_iff {word n : Nat} :
    decodeVarintWord data s = .ok (word, n) ↔
      (∃ j, varintLow data s.start (min s.len 8) 0 0 = (word, some j) ∧ n = j + 1) ∨
      (∃ v, varintLow data s.start (min s.len 8) 0 0 = (v, none) ∧ 9 ≤ s.len ∧
        word = v * 256 + (data (s.start + 8)).toNat ∧ n = 9) := by
  unfold decodeVarintWord
  by_cases h0 : s.len = 0
  · simp [h0, varintLow_zero]
  rw [if_neg h0]
  cases hlow : varintLow data s.start (min s.len 8) 0 0 with
  | mk value e =>
    cases e with
    | some j => simp [eq_comm]
    | none =>
      by_cases h9 : 9 ≤ s.len
      · simp [h9, eq_comm]
      · simp [h9]

/-- What the decoder returns is a 64-bit word, and short when the varint is. -/
theorem decodeVarintWord_lt {word n : Nat} (h : decodeVarintWord data s = .ok (word, n)) :
    1 ≤ n ∧ n ≤ 9 ∧ n ≤ s.len ∧ word < 2 ^ 64 ∧ (n < 9 → word < 128 ^ n) := by
  have hlow := @varintLow_lt data s.start (min s.len 8) 0 0 (by decide)
  rcases decodeVarintWord_ok_iff.mp h with ⟨j, heq, rfl⟩ | ⟨v, heq, h9, rfl, rfl⟩
  · rw [heq] at hlow
    obtain ⟨_, hj, hlt⟩ := hlow
    have hpow : 128 ^ (j + 1) ≤ 128 ^ 8 := Nat.pow_le_pow_right (by decide) (by omega)
    have h64 : (128 : Nat) ^ 8 ≤ 2 ^ 64 := by decide
    exact ⟨by omega, by omega, by omega, by omega, fun _ => hlt⟩
  · rw [heq, Nat.min_eq_right (by omega)] at hlow
    have hlt : v < 2 ^ 56 := hlow
    have hbyte := (data (s.start + 8)).toNat_lt
    exact ⟨by omega, by omega, h9, by omega, by omega⟩

/-- `varint_size` is the length that the decoder finds. -/
theorem varintSize_eq (data : Bytes) (s : Slice) :
    varintSize data s = (decodeVarintWord data s).map Prod.snd := by
  unfold varintSize decodeVarintWord
  by_cases h0 : s.len = 0
  · simp [h0, varintEnd, Except.map]
  rw [if_neg h0]
  by_cases h9 : 9 ≤ s.len
  · -- nine bytes: the last may or may not have the bit
    rw [Nat.min_eq_right h9, Nat.min_eq_right (by omega : 8 ≤ s.len), varintEnd_low 0 1]
    cases hlow : varintLow data s.start 8 0 0 with
    | mk value e =>
      cases e with
      | some j => rfl
      | none =>
        simp only [varintEnd, h9, if_true, Nat.zero_add]
        by_cases h : (data (s.start + 8)).toNat < 0x80 <;> simp [h, Except.map]
  · rw [Nat.min_eq_left (by omega), Nat.min_eq_left (by omega : s.len ≤ 8),
      show s.len = s.len + 0 from rfl, varintEnd_low 0 0]
    cases hlow : varintLow data s.start s.len 0 0 with
    | mk value e =>
      cases e with
      | some j => simp [Except.map]
      | none => simp [varintEnd, h9, Except.map]

/-- Decoding an encoding: the same word, the same length, whatever follows. -/
theorem decodeVarintWord_encode {value : Nat} (hv : value < 2 ^ 64)
    (h : Lies data s.start (encodeVarint value)) (hlen : varintBytes value ≤ s.len) :
    decodeVarintWord data s = .ok (value, varintBytes value) := by
  have hpos := varintBytes_pos value
  rw [decodeVarintWord_ok_iff]
  unfold encodeVarint at h
  split at h
  · -- nine bytes
    rename_i h9
    rw [lies_append, length_varintGroups, lies_singleton] at h
    obtain ⟨hgroups, hlast⟩ := h
    have hlow := @varintLow_groups data s.start 0 0 0 (value / 256) 8 hgroups
    have hhigh : value / 256 % 128 ^ 8 = value / 256 := Nat.mod_eq_of_lt (by omega)
    rw [hhigh, varintLow_zero, Nat.zero_mul, Nat.zero_add, Nat.zero_add] at hlow
    have hbyte : (data (s.start + 8)).toNat = value % 256 := by
      rw [hlast, UInt8.toNat_ofNat']
      omega
    rw [Nat.min_eq_right (by omega), h9]
    exact .inr ⟨value / 256, hlow, by omega, by omega, rfl⟩
  · rename_i h9
    have hle := varintBytes_le_nine value
    rw [lies_append, length_varintGroups, lies_singleton] at h
    obtain ⟨hgroups, hlast⟩ := h
    have hlt : value / 128 < 128 ^ (varintBytes value - 1) := by
      have := lt_of_varintBytes h9
      rw [show varintBytes value = varintBytes value - 1 + 1 by omega, Nat.pow_succ] at this
      exact Nat.div_lt_of_lt_mul (by omega)
    have hbyte : (data (s.start + (0 + (varintBytes value - 1)))).toNat = value % 128 := by
      rw [Nat.zero_add, hlast, UInt8.toNat_ofNat']
      omega
    have hroom : min s.len 8 = (min s.len 8 - varintBytes value) + 1 + (varintBytes value - 1) := by
      omega
    have hword : (0 * 128 ^ (varintBytes value - 1) + value / 128) * 128 + value % 128 = value := by
      omega
    refine .inl ⟨varintBytes value - 1, ?_, by omega⟩
    rw [hroom, varintLow_groups hgroups, Nat.mod_eq_of_lt hlt, varintLow_last (by omega), hbyte, hword,
      Nat.zero_add]

/-- No varint of the word is shorter than its encoding. -/
theorem varintBytes_le_decode {word n : Nat} (h : decodeVarintWord data s = .ok (word, n)) :
    varintBytes word ≤ n := by
  obtain ⟨hpos, _, _, _, hlt⟩ := decodeVarintWord_lt h
  exact varintBytes_le hpos hlt

end

end Folkering.Sqlite
