/-
  Little-endian numbers in byte strings.

  `leBytes n v` writes the low `n` bytes of `v`, `fromLe` reads a number back:
    * `fromLe_leBytes` — a number that fits in `n` bytes is read back.
-/
import Mathlib.Algebra.Order.Group.Nat

namespace Folkering.LittleEndian

/-- The `n` little-endian bytes of a number. -/
def leBytes : Nat → Nat → List UInt8
  | 0, _ => []
  | n + 1, v => UInt8.ofNat v :: leBytes n (v / 256)

/-- The number of some bytes. -/
def fromLe : List UInt8 → Nat
  | [] => 0
  | b :: bs => b.toNat + 256 * fromLe bs

@[simp] theorem leBytes_length (n v : Nat) : (leBytes n v).length = n := by
  induction n generalizing v with
  | zero => rfl
  | succ n ih => rw [leBytes, List.length_cons, ih]

theorem fromLe_lt (bs : List UInt8) : fromLe bs < 256 ^ bs.length := by
  induction bs with
  | nil => exact Nat.one_pos
  | cons b bs ih =>
    have hb := b.toNat_lt
    rw [fromLe, List.length_cons, Nat.pow_succ]
    omega

/-- A number that fits is read back. -/
theorem fromLe_leBytes {n v : Nat} (h : v < 256 ^ n) : fromLe (leBytes n v) = v := by
  induction n generalizing v with
  | zero =>
    rw [Nat.pow_zero, Nat.lt_one_iff] at h
    rw [h]
    rfl
  | succ n ih =>
    have hdiv : v / 256 < 256 ^ n := by
      rw [Nat.div_lt_iff_lt_mul (by decide), ← Nat.pow_succ]
      exact h
    rw [leBytes, fromLe, ih hdiv, UInt8.toNat_ofNat']
    omega

end Folkering.LittleEndian
