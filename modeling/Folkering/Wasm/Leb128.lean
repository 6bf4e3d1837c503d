/-
  LEB128 DECODING — `read_uleb128` and `read_sleb128` of `wasm_parse.rs`.

  Both readers take up to ten bytes, seven bits at a time, into a 64-bit word; the tenth byte is shifted by 63,
  so that all of its bits but one fall out of the word.
    * `readUleb128_ok_iff`, `readSleb128_ok_iff` — the result is the value of the group modulo `2^64`;
    * `leb128_exact_iff`                         — the readers are exact where no group of ten bytes has a last
      byte that does not fit.
-/
import Folkering.Lib.Leb128

namespace Folkering.Wasm

open Leb128 List

/-- Why a body is refused. -/
inductive ParseError where
  | unexpectedEof
  | integerTooLarge
  | unknownOpcode (opcode : UInt8)
  | constantOutOfRange
  | importsUnsupported
  | invalidUtf8
deriving Repr, DecidableEq

/-- `read_u8`; the position moves on with the byte. -/
def readU8 (bytes : List UInt8) (pos : Nat) : Except ParseError (UInt8 × Nat) :=
  match bytes[pos]? with
  | none => .error .unexpectedEof
  | some b => .ok (b, pos + 1)

/-- What the loop of a reader leaves: the bits read, the shift behind them, the last byte and the position. -/
structure LebBits where
  result : UInt64
  shift : Nat
  last : UInt8
  pos : Nat

/-- The loop of both readers.  It ends on a byte without the high bit, or when ten bytes had it; `fuel` is the
    number of bytes left, ten at the start. -/
def lebLoop (bytes : List UInt8) :
    (fuel pos shift : Nat) → (result : UInt64) → Except ParseError LebBits
  | 0, _, _, _ => .error .integerTooLarge
  | fuel + 1, pos, shift, result => do
    let (b, pos) ← readU8 bytes pos
    let result := result ||| ((b &&& 0x7F).toUInt64 <<< UInt64.ofNat shift)
    if b &&& 0x80 = 0 then
      return ⟨result, shift + 7, b, pos⟩
    else if 64 ≤ shift + 7 then
      .error .integerTooLarge
    else
      lebLoop bytes fuel pos (shift + 7) result

/-- An unsigned number. -/
def readUleb128 (bytes : List UInt8) (pos : Nat) : Except ParseError (UInt64 × Nat) := do
  let r ← lebLoop bytes 10 pos 0 0
  return (r.result, r.pos)

/-- A signed number. -/
def readSleb128 (bytes : List UInt8) (pos : Nat) : Except ParseError (Int64 × Nat) := do
  let r ← lebLoop bytes 10 pos 0 0
  -- the sign of the last byte fills the bits above it
  let result := if r.shift < 64 ∧ r.last &&& 0x40 ≠ 0 then r.result ||| ((-1) <<< UInt64.ofNat r.shift)
    else r.result
  return (result.toInt64, r.pos)

/-! ## One byte -/

theorem toNat_and_digit (b : UInt8) : (b &&& 0x7F).toNat = digit b := by
  rw [UInt8.toNat_and]
  exact Nat.and_two_pow_sub_one_eq_mod b.toNat 7

theorem and_high_eq_zero_iff (b : UInt8) : b &&& 0x80 = 0 ↔ b.toNat < 128 := by
  revert b
  decide +kernel

theorem and_sign_eq_zero_iff (b : UInt8) : b &&& 0x40 = 0 ↔ digit b < 64 := by
  revert b
  decide +kernel

/-- Bits put in above a number that ends below them. -/
theorem toNat_or_shift {r x : UInt64} {s : Nat} (hs : s < 64) (hr : r.toNat < 2 ^ s) :
    (r ||| (x <<< UInt64.ofNat s)).toNat = (r.toNat + 2 ^ s * x.toNat) % 2 ^ 64 := by
  have hshift : (UInt64.ofNat s).toNat % 64 = s := by
    rw [UInt64.toNat_ofNat', Nat.mod_eq_of_lt (by omega), Nat.mod_eq_of_lt (by omega)]
  have hpow : 2 ^ 64 = 2 ^ s * 2 ^ (64 - s) := by
    rw [← Nat.pow_add, Nat.add_sub_cancel' hs.le]
  have hmod : (r.toNat + 2 ^ s * x.toNat) % 2 ^ 64 = r.toNat + 2 ^ s * (x.toNat % 2 ^ (64 - s)) := by
    rw [hpow, Nat.mod_mul, Nat.add_mul_mod_self_left, Nat.mod_eq_of_lt hr,
      Nat.add_mul_div_left _ _ (by positivity), Nat.div_eq_of_lt hr, Nat.zero_add]
  rw [UInt64.toNat_or, UInt64.toNat_shiftLeft, hshift, Nat.shiftLeft_eq, hmod, Nat.or_comm, Nat.add_comm,
    Nat.two_pow_add_eq_or_of_lt hr, hpow, Nat.mul_comm, Nat.mul_mod_mul_left]

/-! ## The loop -/

/-- The group at a position of the input. -/
structure GroupAt (bytes : List UInt8) (pos : Nat) (g : List UInt8) : Prop where
  group : Group g
  starts : g <+: bytes.drop pos

/-- What the loop makes of a group, from the bits of the `k` bytes before it. -/
structure LebRead (g : List UInt8) (k pos : Nat) (r : UInt64) (out : LebBits) : Prop where
  result : out.result.toNat = (r.toNat + 2 ^ (7 * k) * unsigned g) % 2 ^ 64
  shift : out.shift = 7 * (k + g.length)
  last : g.getLast? = some out.last
  pos : out.pos = pos + g.length

theorem groupAt_cons_iff {bytes : List UInt8} {pos : Nat} {b : UInt8} {bs : List UInt8}
    (hb : bytes[pos]? = some b) {c : UInt8} :
    GroupAt bytes pos (c :: bs) ↔ c = b ∧ if b.toNat < 128 then bs = [] else GroupAt bytes (pos + 1) bs := by
  obtain ⟨hlt, hget⟩ := List.getElem?_eq_some_iff.mp hb
  have hdrop : bytes.drop pos = b :: bytes.drop (pos + 1) := by rw [drop_eq_getElem_cons hlt, hget]
  have hstarts : c :: bs <+: bytes.drop pos ↔ c = b ∧ bs <+: bytes.drop (pos + 1) := by
    rw [hdrop, cons_prefix_cons]
  constructor
  · rintro ⟨hgroup, hpre⟩
    obtain ⟨rfl, hrest⟩ := hstarts.mp hpre
    refine ⟨rfl, ?_⟩
    rw [group_cons_iff] at hgroup
    split_ifs at hgroup ⊢
    · exact hgroup
    · exact ⟨hgroup, hrest⟩
  · rintro ⟨rfl, hrest⟩
    split_ifs at hrest with hsmall
    · subst hrest
      exact ⟨hsmall, hstarts.mpr ⟨rfl, nil_prefix⟩⟩
    · exact ⟨group_cons_iff.mpr (by rw [if_neg hsmall]; exact hrest.group), hstarts.mpr ⟨rfl, hrest.starts⟩⟩

theorem lebLoop_step {bytes : List UInt8} {pos : Nat} {b : UInt8} (hb : bytes[pos]? = some b)
    (fuel shift : Nat) (r : UInt64) :
    lebLoop bytes (fuel + 1) pos shift r =
      if b.toNat < 128 then
        .ok ⟨r ||| ((b &&& 0x7F).toUInt64 <<< UInt64.ofNat shift), shift + 7, b, pos + 1⟩
      else if 64 ≤ shift + 7 then .error .integerTooLarge
      else lebLoop bytes fuel (pos + 1) (shift + 7) (r ||| ((b &&& 0x7F).toUInt64 <<< UInt64.ofNat shift)) := by
  simp only [lebLoop, readU8, hb, bind, Except.bind, pure, Except.pure, and_high_eq_zero_iff]

/-- What a byte adds to the bits before it. -/
theorem toNat_digit {k : Nat} {r : UInt64} (b : UInt8) (hk : k < 10) (hr : r.toNat < 2 ^ (7 * k)) :
    (r ||| ((b &&& 0x7F).toUInt64 <<< UInt64.ofNat (7 * k))).toNat =
      (r.toNat + 2 ^ (7 * k) * digit b) % 2 ^ 64 := by
  rw [toNat_or_shift (by omega) hr, UInt8.toNat_toUInt64, toNat_and_digit]

/-- A byte before a group. -/
theorem lebRead_cons_iff {g : List UInt8} {k pos : Nat} {b : UInt8} {r r' : UInt64} {out : LebBits}
    (hne : g ≠ []) (hr' : r'.toNat = r.toNat + 2 ^ (7 * k) * digit b) :
    LebRead g (k + 1) (pos + 1) r' out ↔ LebRead (b :: g) k pos r out := by
  have hvalue : r'.toNat + 2 ^ (7 * (k + 1)) * unsigned g = r.toNat + 2 ^ (7 * k) * unsigned (b :: g) := by
    rw [hr', unsigned, Nat.mul_add 7 k 1, Nat.pow_add]
    ring
  have hlast : (b :: g).getLast? = g.getLast? := getLast?_cons_of_ne_nil hne
  constructor
  · rintro ⟨hresult, hshift, hl, hpos⟩
    refine ⟨by rw [hresult, hvalue], ?_, by rw [hlast, hl], ?_⟩
    · rw [hshift, length_cons]
      omega
    · rw [hpos, length_cons]
      omega
  · rintro ⟨hresult, hshift, hl, hpos⟩
    refine ⟨by rw [hresult, hvalue], ?_, by rw [← hlast, hl], ?_⟩
    · rw [hshift, length_cons]
      omega
    · rw [hpos, length_cons]
      omega

theorem lebLoop_ok_iff (bytes : List UInt8) {fuel k pos : Nat} {r : UInt64} {out : LebBits}
    (hk : k + fuel = 10) (hr : r.toNat < 2 ^ (7 * k)) :
    lebLoop bytes fuel pos (7 * k) r = .ok out ↔
      ∃ g, GroupAt bytes pos g ∧ g.length ≤ fuel ∧ LebRead g k pos r out := by
  -- induction on the bytes left; the bits of the bytes read lie below the shift
  induction fuel generalizing k pos r with
  | zero =>
    refine iff_of_false (by simp [lebLoop]) ?_
    rintro ⟨g, hg, hlen, _⟩
    exact hg.group.ne_nil (length_eq_zero_iff.mp (Nat.le_zero.mp hlen))
  | succ fuel ih =>
    cases hb : bytes[pos]? with
    | none =>
      refine iff_of_false (by simp [lebLoop, readU8, hb, bind, Except.bind]) ?_
      rintro ⟨g, hg, _⟩
      have hnil := hg.starts
      rw [drop_eq_nil_of_le (List.getElem?_eq_none_iff.mp hb), prefix_nil] at hnil
      exact hg.group.ne_nil hnil
    | some b =>
      have hdigit := toNat_digit b (by omega) hr
      rw [lebLoop_step hb]
      by_cases hsmall : b.toNat < 128
      · -- the last byte of the group
        rw [if_pos hsmall]
        constructor
        · intro h
          cases h
          refine ⟨[b], (groupAt_cons_iff hb).mpr ⟨rfl, by rw [if_pos hsmall]⟩, by simp, ?_, by simp; omega, rfl, rfl⟩
          simpa [unsigned] using hdigit
        · rintro ⟨g, hg, _, hread⟩
          obtain ⟨c, bs, rfl⟩ := exists_cons_of_ne_nil hg.group.ne_nil
          obtain ⟨rfl, hbs⟩ := (groupAt_cons_iff hb).mp hg
          rw [if_pos hsmall] at hbs
          subst hbs
          obtain ⟨result, shift, last, pos'⟩ := out
          obtain ⟨hresult, hshift, hlast, hpos⟩ := hread
          simp only [unsigned, Nat.mul_zero, Nat.add_zero] at hresult
          simp only [length_singleton] at hshift hpos
          have heq := UInt64.toNat_inj.mp (hdigit.trans hresult.symm)
          cases hlast
          rw [heq, hpos, hshift, Nat.mul_add]
      · rw [if_neg hsmall]
        by_cases hend : 64 ≤ 7 * k + 7
        · -- ten bytes continue
          rw [if_pos hend]
          refine iff_of_false (by simp) ?_
          rintro ⟨g, hg, hlen, _⟩
          obtain ⟨c, bs, rfl⟩ := exists_cons_of_ne_nil hg.group.ne_nil
          obtain ⟨rfl, hbs⟩ := (groupAt_cons_iff hb).mp hg
          rw [if_neg hsmall] at hbs
          have hpos := length_pos_of_ne_nil hbs.group.ne_nil
          rw [length_cons] at hlen
          omega
        · rw [if_neg hend, show 7 * k + 7 = 7 * (k + 1) from rfl]
          have hfits : r.toNat + 2 ^ (7 * k) * digit b < 2 ^ (7 * (k + 1)) := by
            calc r.toNat + 2 ^ (7 * k) * digit b < 2 ^ (7 * k) + 2 ^ (7 * k) * digit b := by omega
              _ = 2 ^ (7 * k) * (digit b + 1) := by ring
              _ ≤ 2 ^ (7 * k) * 2 ^ 7 := Nat.mul_le_mul_left _ (digit_lt b)
              _ = 2 ^ (7 * (k + 1)) := by rw [← Nat.pow_add]; rfl
          have hword : 2 ^ (7 * (k + 1)) ≤ 2 ^ 64 := Nat.pow_le_pow_right (by decide) (by omega)
          rw [Nat.mod_eq_of_lt (by omega)] at hdigit
          rw [ih (by omega) (by rw [hdigit]; exact hfits)]
          constructor
          · rintro ⟨g, hg, hlen, h⟩
            refine ⟨b :: g, (groupAt_cons_iff hb).mpr ⟨rfl, by rw [if_neg hsmall]; exact hg⟩, ?_,
              (lebRead_cons_iff hg.group.ne_nil hdigit).mp h⟩
            rw [length_cons]
            omega
          · rintro ⟨g, hg, hlen, h⟩
            obtain ⟨c, bs, rfl⟩ := exists_cons_of_ne_nil hg.group.ne_nil
            obtain ⟨rfl, hbs⟩ := (groupAt_cons_iff hb).mp hg
            rw [if_neg hsmall] at hbs
            exact ⟨bs, hbs, by rw [length_cons] at hlen; omega, 
              (lebRead_cons_iff hbs.group.ne_nil hdigit).mpr h⟩

/-! ## The readers -/

section

variable {bytes : List UInt8} {pos pos' : Nat}

theorem lebLoop_start {out : LebBits} : lebLoop bytes 10 pos 0 0 = .ok out ↔
    ∃ g, GroupAt bytes pos g ∧ g.length ≤ 10 ∧ LebRead g 0 pos 0 out :=
  @lebLoop_ok_iff bytes 10 0 pos 0 out rfl (by decide)

/-- `read_uleb128` gives the value of the group, modulo the width of the word. -/
theorem readUleb128_ok_iff {v : UInt64} : readUleb128 bytes pos = .ok (v, pos') ↔
    ∃ g, GroupAt bytes pos g ∧ g.length ≤ 10 ∧ pos' = pos + g.length ∧ v.toNat = unsigned g % 2 ^ 64 := by
  have hrun : readUleb128 bytes pos = .ok (v, pos') ↔
      ∃ out, lebLoop bytes 10 pos 0 0 = .ok out ∧ out.result = v ∧ out.pos = pos' := by
    unfold readUleb128
    cases lebLoop bytes 10 pos 0 0 with
    | error e => simp [bind, Except.bind]
    | ok out => simp [bind, Except.bind, pure, Except.pure]
  rw [hrun]
  constructor
  · rintro ⟨out, hout, rfl, rfl⟩
    obtain ⟨g, hg, hlen, hread⟩ := lebLoop_start.mp hout
    exact ⟨g, hg, hlen, hread.pos, by simpa using hread.result⟩
  · rintro ⟨g, hg, hlen, rfl, hv⟩
    have hlast := getLast?_eq_some_getLast hg.group.ne_nil
    exact ⟨⟨v, 7 * (0 + g.length), _, pos + g.length⟩,
      lebLoop_start.mpr ⟨g, hg, hlen, by simpa using hv, rfl, hlast, rfl⟩, rfl, rfl⟩

theorem toInt64_eq_iff {w : UInt64} {i : Int} : w.toInt64 = Int64.ofInt i ↔ (w.toNat : Int) = i % 2 ^ 64 := by
  have hbits : w.toInt64 = Int64.ofInt i ↔ w.toBitVec = BitVec.ofInt 64 i := by
    rw [← Int64.toBitVec_inj]
    rfl
  rw [hbits, ← BitVec.toNat_inj, BitVec.toNat_ofInt, UInt64.toNat_toBitVec]
  have hnonneg : 0 ≤ i % 2 ^ 64 := Int.emod_nonneg _ (by decide)
  constructor
  · intro h
    rw [h]
    exact Int.toNat_of_nonneg hnonneg
  · intro h
    have := congrArg Int.toNat h
    exact this

/-- The word of a group with the sign of its last byte above it. -/
theorem toNat_signed {g : List UInt8} {out : LebBits} (hne : g ≠ []) (hread : LebRead g 0 pos 0 out) :
    ((if out.shift < 64 ∧ out.last &&& 0x40 ≠ 0 then out.result ||| ((-1) <<< UInt64.ofNat out.shift)
      else out.result).toNat : Int) = signed g % 2 ^ 64 := by
  obtain ⟨ds, b, rfl⟩ := exists_last hne
  obtain ⟨hresult, hshift, hlast, _⟩ := hread
  rw [getLast?_concat] at hlast
  cases hlast
  have hwidth : (128 : Int) ^ (ds.length + 1) = 2 ^ out.shift := by
    rw [hshift, length_append, length_singleton, Nat.zero_add, pow_mul]
    rfl
  have hunsigned : out.result.toNat = unsigned (ds ++ [out.last]) % 2 ^ 64 := by simpa using hresult
  have hcast : (out.result.toNat : Int) = (unsigned (ds ++ [out.last]) : Int) % 2 ^ 64 := by
    rw [hunsigned]
    rfl
  have hsign := and_sign_eq_zero_iff out.last
  rw [signed_eq, hwidth]
  by_cases hpos : digit out.last < 64
  · rw [if_neg (fun h => h.2 (hsign.mpr hpos)), if_pos hpos, sub_zero, hcast]
  rw [if_neg hpos]
  by_cases hsmall : out.shift < 64
  · -- the sign fills the word: the ones above the shift are `-2^shift`
    rw [if_pos ⟨hsmall, fun h => hpos (hsign.mp h)⟩]
    have hlt : unsigned (ds ++ [out.last]) < 2 ^ out.shift := by
      have h := unsigned_lt (ds ++ [out.last])
      rw [length_append, length_singleton] at h
      exact_mod_cast (by exact_mod_cast h : (unsigned (ds ++ [out.last]) : Int) < 128 ^ (ds.length + 1)).trans_eq
        hwidth
    have hword : 2 ^ out.shift ≤ 2 ^ 64 := Nat.pow_le_pow_right (by decide) hsmall.le
    rw [Nat.mod_eq_of_lt (by omega)] at hunsigned
    rw [toNat_or_shift hsmall (by rw [hunsigned]; exact hlt), hunsigned]
    have hones : (unsigned (ds ++ [out.last]) : Int) - 2 ^ out.shift =
        (unsigned (ds ++ [out.last]) + 2 ^ out.shift * (2 ^ 64 - 1)) - 2 ^ 64 * 2 ^ out.shift := by ring
    rw [hones, Int.sub_mul_emod_self_left]
    push_cast
    rfl
  · -- the word ends within the last byte
    rw [if_neg (fun h => hsmall h.1), hcast]
    obtain ⟨d, hd⟩ := pow_dvd_pow (2 : Int) (Nat.not_lt.mp hsmall)
    rw [hd, Int.sub_mul_emod_self_left]

/-- `read_sleb128` gives the value of the group, modulo the width of the word. -/
theorem readSleb128_ok_iff {v : Int64} : readSleb128 bytes pos = .ok (v, pos') ↔
    ∃ g, GroupAt bytes pos g ∧ g.length ≤ 10 ∧ pos' = pos + g.length ∧ v = Int64.ofInt (signed g) := by
  have hrun : readSleb128 bytes pos = .ok (v, pos') ↔
      ∃ out, lebLoop bytes 10 pos 0 0 = .ok out ∧
        (if out.shift < 64 ∧ out.last &&& 0x40 ≠ 0 then out.result ||| ((-1) <<< UInt64.ofNat out.shift)
          else out.result).toInt64 = v ∧ out.pos = pos' := by
    unfold readSleb128
    cases lebLoop bytes 10 pos 0 0 with
    | error e => simp [bind, Except.bind]
    | ok out => simp only [bind, Except.bind, pure, Except.pure, Except.ok.injEq, Prod.mk.injEq, exists_eq_left']
  rw [hrun]
  constructor
  · rintro ⟨out, hout, rfl, rfl⟩
    obtain ⟨g, hg, hlen, hread⟩ := lebLoop_start.mp hout
    exact ⟨g, hg, hlen, hread.pos, toInt64_eq_iff.mpr (toNat_signed hg.group.ne_nil hread)⟩
  · rintro ⟨g, hg, hlen, rfl, rfl⟩
    have hlast := getLast?_eq_some_getLast hg.group.ne_nil
    have hread : LebRead g 0 pos 0 ⟨UInt64.ofNat (unsigned g), 7 * (0 + g.length), _, pos + g.length⟩ :=
      ⟨by simp, rfl, hlast, rfl⟩
    exact ⟨_, lebLoop_start.mpr ⟨g, hg, hlen, hread⟩,
      toInt64_eq_iff.mpr (toNat_signed hg.group.ne_nil hread), rfl⟩

end

/-! ## Exactness -/

/-- The reader comes to a value exactly when a group of at most ten bytes says it, and takes that group. -/
def UlebExact (bytes : List UInt8) (pos : Nat) : Prop :=
  ∀ v pos', readUleb128 bytes pos = .ok (v, pos') ↔
    ∃ g, GroupAt bytes pos g ∧ g.length ≤ 10 ∧ pos' = pos + g.length ∧ unsigned g = v.toNat

/-- The reader returns the value of a group, and of nothing else. -/
def SlebExact (bytes : List UInt8) (pos : Nat) : Prop :=
  ∀ v pos', readSleb128 bytes pos = .ok (v, pos') ↔
    ∃ g, GroupAt bytes pos g ∧ g.length ≤ 10 ∧ pos' = pos + g.length ∧ signed g = v.toInt

/-- A group of ten bytes at the position ends with the byte. -/
def TenthByte (bytes : List UInt8) (pos : Nat) (b : UInt8) : Prop :=
  ∃ ds, ds.length = 9 ∧ GroupAt bytes pos (ds ++ [b])

section

variable {bytes : List UInt8} {pos : Nat}

theorem GroupAt.eq {g g' : List UInt8} (h : GroupAt bytes pos g) (h' : GroupAt bytes pos g')
    (hlen : g.length = g'.length) : g = g' :=
  (prefix_of_prefix_length_le h.starts h'.starts hlen.le).eq_of_length hlen

/-- A group of fewer than ten bytes, or the tenth byte. -/
theorem GroupAt.short_or_tenth {g : List UInt8} (h : GroupAt bytes pos g) (hlen : g.length ≤ 10) :
    g.length ≤ 9 ∨ ∃ ds b, g = ds ++ [b] ∧ ds.length = 9 := by
  rcases Nat.lt_or_ge 9 g.length with hten | hle
  · obtain ⟨ds, b, rfl⟩ := exists_last h.group.ne_nil
    rw [length_append, length_singleton] at hten hlen
    exact .inr ⟨ds, b, rfl, by omega⟩
  · exact .inl hle

theorem unsigned_ten {ds : List UInt8} {b : UInt8} (hds : ds.length = 9) (h : Group (ds ++ [b])) :
    unsigned (ds ++ [b]) = unsigned ds + 2 ^ 63 * b.toNat := by
  rw [unsigned_append, hds, unsigned, unsigned, h.digit_last]
  rfl

theorem ulebExact_iff : UlebExact bytes pos ↔ ∀ b, TenthByte bytes pos b → b.toNat ≤ 1 := by
  constructor
  · rintro hexact b ⟨ds, hds, hg⟩
    have hlen : (ds ++ [b]).length ≤ 10 := by rw [length_append, hds]; rfl
    have hread := readUleb128_ok_iff.mpr ⟨_, hg, hlen, rfl, UInt64.toNat_ofNat'⟩
    obtain ⟨g, hg', _, hpos, hv⟩ := (hexact _ _).mp hread
    cases hg.eq hg' (by omega)
    have hlt := (UInt64.ofNat (unsigned (ds ++ [b]))).toNat_lt
    rw [← hv, unsigned_ten hds hg.group] at hlt
    omega
  · intro htenth v pos'
    have hfits : ∀ g, GroupAt bytes pos g → g.length ≤ 10 → unsigned g < 2 ^ 64 := by
      intro g hg hlen
      rcases hg.short_or_tenth hlen with hshort | ⟨ds, b, rfl, hds⟩
      · calc unsigned g < 128 ^ g.length := unsigned_lt g
          _ ≤ 128 ^ 9 := Nat.pow_le_pow_right (by decide) hshort
          _ < 2 ^ 64 := by decide
      · have hb := htenth b ⟨ds, hds, hg⟩
        have hlow := unsigned_lt ds
        rw [hds] at hlow
        rw [unsigned_ten hds hg.group]
        omega
    rw [readUleb128_ok_iff]
    refine exists_congr fun g => and_congr_right fun hg => and_congr_right fun hlen => and_congr_right fun _ => ?_
    rw [Nat.mod_eq_of_lt (hfits g hg hlen)]
    exact eq_comm

theorem signed_ten {ds : List UInt8} {b : UInt8} (hds : ds.length = 9) :
    signed (ds ++ [b]) = unsigned ds + 2 ^ 63 * signed [b] := by
  rw [signed_append (cons_ne_nil _ _), hds]
  rfl

/-- The last byte of a group with the digit `0` or `-1`. -/
theorem signed_singleton_iff {ds : List UInt8} {b : UInt8} (h : Group (ds ++ [b])) :
    signed [b] = 0 ∨ signed [b] = -1 ↔ b = 0 ∨ b = 0x7F := by
  have hlast := h.digit_last
  have hlt := digit_lt b
  rw [← UInt8.toNat_inj, ← UInt8.toNat_inj, signed, hlast]
  show _ ↔ b.toNat = 0 ∨ b.toNat = 127
  by_cases hsmall : b.toNat < 64
  · rw [if_pos hsmall]
    omega
  · rw [if_neg hsmall]
    omega

theorem slebExact_iff : SlebExact bytes pos ↔ ∀ b, TenthByte bytes pos b → b = 0 ∨ b = 0x7F := by
  constructor
  · rintro hexact b ⟨ds, hds, hg⟩
    have hlen : (ds ++ [b]).length ≤ 10 := by rw [length_append, hds]; rfl
    have hread := readSleb128_ok_iff.mpr ⟨_, hg, hlen, rfl, rfl⟩
    obtain ⟨g, hg', _, hpos, hv⟩ := (hexact _ _).mp hread
    cases hg.eq hg' (by omega)
    have hlow := (Int64.ofInt (signed (ds ++ [b]))).le_toInt
    have hhigh := (Int64.ofInt (signed (ds ++ [b]))).toInt_lt
    have hds' := unsigned_lt ds
    rw [← hv, signed_ten hds] at hlow hhigh
    rw [hds] at hds'
    have hdigit : signed [b] = 0 ∨ signed [b] = -1 := by omega
    exact (signed_singleton_iff hg.group).mp hdigit
  · intro htenth v pos'
    have hfits : ∀ g, GroupAt bytes pos g → g.length ≤ 10 → -2 ^ 63 ≤ signed g ∧ signed g < 2 ^ 63 := by
      intro g hg hlen
      rcases hg.short_or_tenth hlen with hshort | ⟨ds, b, rfl, hds⟩
      · have hbounds := signed_bounds hg.group.ne_nil
        have hpow : (128 : Int) ^ (g.length - 1) ≤ 128 ^ 8 := pow_le_pow_right₀ (by decide) (by omega)
        omega
      · have hb := (signed_singleton_iff hg.group).mpr (htenth b ⟨ds, hds, hg⟩)
        have hlow := unsigned_lt ds
        rw [hds] at hlow
        rw [signed_ten hds]
        omega
    rw [readSleb128_ok_iff]
    refine exists_congr fun g => and_congr_right fun hg => and_congr_right fun hlen => and_congr_right fun _ => ?_
    obtain ⟨hlow, hhigh⟩ := hfits g hg hlen
    constructor
    · rintro rfl
      exact (Int64.toInt_ofInt_of_le hlow hhigh).symm
    · intro h
      rw [h, Int64.ofInt_toInt]

/-- The readers are exact where no group of ten bytes says more than a word can hold: the tenth byte has one
    bit of an unsigned value, and copies of the sign of a signed one. -/
theorem leb128_exact_iff (bytes : List UInt8) (pos : Nat) :
    (UlebExact bytes pos ↔ ∀ b, TenthByte bytes pos b → b.toNat ≤ 1) ∧
    (SlebExact bytes pos ↔ ∀ b, TenthByte bytes pos b → b = 0 ∨ b = 0x7F) :=
  ⟨ulebExact_iff, slebExact_iff⟩

/-- Nine bytes `0x80` and a tenth `0x02` say `2^64`, and the unsigned reader makes `0` of them; with the tenth
    byte `0x01` they say `2^63`, and the signed reader makes `-2^63` of them. -/
theorem tenth_byte_truncated :
    (unsigned (List.replicate 9 0x80 ++ [0x02]) = 2 ^ 64 ∧
      readUleb128 (List.replicate 9 0x80 ++ [0x02]) 0 = .ok (0, 10)) ∧
    signed (List.replicate 9 0x80 ++ [0x01]) = 2 ^ 63 ∧
      readSleb128 (List.replicate 9 0x80 ++ [0x01]) 0 = .ok (Int64.minValue, 10) := by
  decide +kernel

end

end Folkering.Wasm
