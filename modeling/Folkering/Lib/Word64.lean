/-
  Word64 — `usize`/`u64` arithmetic as a release build does it, on plain `Nat`s below `2^64`.

  The operations wrap; each has one lemma that says when it does not (`wadd_eq`, `wsub_eq`,
  `wshl_eq`), and the two bit tricks systems code plays on powers of two have their meaning in
  arithmetic: masking with `!(2^k - 1)` rounds DOWN to a multiple of `2^k` (`land_wnot`), and
  exclusive-or with `2^k` moves a multiple of `2^k` to its neighbour (`xor_two_pow_of_even`,
  `xor_two_pow_of_odd`).
-/
import Mathlib.Data.Nat.Bitwise

namespace Folkering.Word64

/-- Addition in a release build. -/
def wadd (a b : Nat) : Nat := (a + b) % 2 ^ 64

/-- Subtraction in a release build. -/
def wsub (a b : Nat) : Nat := (a + (2 ^ 64 - b % 2 ^ 64)) % 2 ^ 64

/-- Left shift in a release build: the amount is masked to six bits. -/
def wshl (a n : Nat) : Nat := (a * 2 ^ (n % 64)) % 2 ^ 64

/-- Bitwise complement. -/
def wnot (a : Nat) : Nat := 2 ^ 64 - 1 - a

theorem wadd_eq {a b : Nat} (h : a + b < 2 ^ 64) : wadd a b = a + b := Nat.mod_eq_of_lt h

theorem wsub_eq {a b : Nat} (ha : a < 2 ^ 64) (h : b ≤ a) : wsub a b = a - b := by
  unfold wsub
  omega

theorem wshl_eq {a n : Nat} (hn : n < 64) (h : a * 2 ^ n < 2 ^ 64) : wshl a n = a * 2 ^ n := by
  rw [wshl, Nat.mod_eq_of_lt hn, Nat.mod_eq_of_lt h]

theorem wadd_lt (a b : Nat) : wadd a b < 2 ^ 64 := Nat.mod_lt _ (Nat.two_pow_pos 64)

theorem wsub_wsub (a x y : Nat) : wsub (wsub a x) y = wsub a (x + y) := by
  unfold wsub
  omega

theorem wadd_wsub (a : Nat) {x y : Nat} (h : x ≤ y) : wadd (wsub a x) y = wadd a (y - x) := by
  unfold wadd wsub
  omega

/-- Adding or subtracting less than a whole turn, and not nothing, changes the word. -/
theorem wadd_ne (a : Nat) {x : Nat} (h0 : 0 < x) (hx : x < 2 ^ 64) : wadd a x ≠ a := by
  unfold wadd
  omega

theorem wsub_ne (a : Nat) {x : Nat} (h0 : 0 < x) (hx : x < 2 ^ 64) : wsub a x ≠ a := by
  unfold wsub
  omega

theorem wadd_left_cancel {a b c : Nat} (hb : b < 2 ^ 64) (hc : c < 2 ^ 64)
    (h : wadd a b = wadd a c) : b = c := by
  unfold wadd at h
  omega

/-- **Masking with the complement of `2^k - 1` rounds down to a multiple of `2^k`.** -/
theorem land_wnot {x k : Nat} (hk : k ≤ 64) (hx : x < 2 ^ 64) :
    x &&& wnot (2 ^ k - 1) = x / 2 ^ k * 2 ^ k := by
  have hpow : 2 ^ 64 = 2 ^ (64 - k) * 2 ^ k := by
    rw [← Nat.pow_add, Nat.sub_add_cancel hk]
  have hmask : wnot (2 ^ k - 1) = (2 ^ (64 - k) - 1) <<< k := by
    have hpos : 0 < 2 ^ k := Nat.two_pow_pos k
    rw [Nat.shiftLeft_eq, Nat.sub_mul, ← hpow, wnot]
    omega
  rw [hmask]
  apply Nat.eq_of_testBit_eq
  intro i
  rw [Nat.testBit_and, Nat.testBit_shiftLeft, Nat.testBit_mul_two_pow,
    Nat.testBit_two_pow_sub_one, Nat.testBit_div_two_pow]
  rcases Nat.lt_or_ge i k with hik | hik
  · simp [Nat.not_le.mpr hik]
  · rw [Nat.sub_add_cancel hik]
    rcases Nat.lt_or_ge i 64 with h64 | h64
    · simp [hik, show i - k < 64 - k from by omega]
    · -- no bit of `x` at or above 64
      have hbit : x.testBit i = false :=
        Nat.testBit_lt_two_pow (Nat.lt_of_lt_of_le hx (Nat.pow_le_pow_right (by omega) h64))
      simp [hbit]

/-- Rounding UP to a multiple of `2^k`, when nothing wraps. -/
theorem round_up {x k : Nat} (hk : k < 64) (hx : x + 2 ^ k ≤ 2 ^ 64) :
    wsub (wadd x (2 ^ k)) 1 &&& wnot (2 ^ k - 1) = (x + 2 ^ k - 1) / 2 ^ k * 2 ^ k := by
  have hpos : 0 < 2 ^ k := Nat.two_pow_pos k
  have hsum : wsub (wadd x (2 ^ k)) 1 = x + 2 ^ k - 1 := by
    rcases Nat.lt_or_ge (x + 2 ^ k) (2 ^ 64) with hlt | hge
    · rw [wadd_eq hlt, wsub_eq hlt (by omega)]
    · have : x + 2 ^ k = 2 ^ 64 := Nat.le_antisymm hx hge
      rw [wadd, this]
      decide
  rw [hsum, land_wnot (Nat.le_of_lt hk) (by omega)]

theorem xor_two_pow_of_even {q k : Nat} (hq : q % 2 = 0) :
    (q * 2 ^ k) ^^^ 2 ^ k = (q + 1) * 2 ^ k := by
  have h := Nat.shiftLeft_xor_distrib (i := k) (a := q) (b := 1)
  rw [Nat.xor_one_of_even (Nat.even_iff.mpr hq)] at h
  simpa [Nat.shiftLeft_eq] using h.symm

theorem xor_two_pow_of_odd {q k : Nat} (hq : q % 2 = 1) :
    (q * 2 ^ k) ^^^ 2 ^ k = (q - 1) * 2 ^ k := by
  have h := Nat.shiftLeft_xor_distrib (i := k) (a := q) (b := 1)
  rw [Nat.xor_one_of_odd (Nat.odd_iff.mpr hq)] at h
  simpa [Nat.shiftLeft_eq] using h.symm

end Folkering.Word64
