/-
  Byte memory with 64-bit addresses.

  A memory is a function from addresses to bytes; `read m a n` is the little-endian number in the `n`
  bytes from `a` on, `write m a n v` stores the low `n` bytes of `v` there.  Addresses wrap.  Two facts
  carry every argument about memory:
    * `read_write_same` — what was written is read back;
    * `read_write_apart` — a write elsewhere is not seen, `Apart` being decided from offsets to one
      base by `apart_offsets`.
  `InBlocks B starts a` says that `a` lies in one of the blocks of `B` bytes.  As many blocks as it takes to cover a run
  of memory leave no room for overlaps: they are the blocks of the run (`starts_of_covered`).
-/
import Mathlib

namespace Folkering.ByteMem

/-- A byte-addressed memory. -/
abbrev Mem := BitVec 64 → BitVec 8

/-- The little-endian number in `n` bytes. -/
def read (m : Mem) (a : BitVec 64) : Nat → Nat
  | 0 => 0
  | n + 1 => (m a).toNat + 256 * read m (a + 1) n

/-- Store the low `n` bytes of `v`. -/
def write (m : Mem) (a : BitVec 64) (n v : Nat) : Mem := fun b =>
  if (b - a).toNat < n then BitVec.ofNat 8 (v / 256 ^ (b - a).toNat) else m b

/-- A read depends on its own bytes only. -/
theorem read_congr {m m' : Mem} {a : BitVec 64} {n : Nat}
    (h : ∀ i < n, m (a + BitVec.ofNat 64 i) = m' (a + BitVec.ofNat 64 i)) :
    read m a n = read m' a n := by
  induction n generalizing a with
  | zero => rfl
  | succ n ih =>
    have h₀ : m a = m' a := by simpa using h 0 (by omega)
    have h₁ : read m (a + 1) n = read m' (a + 1) n := by
      refine ih fun i hi => ?_
      have hs : a + 1 + BitVec.ofNat 64 i = a + BitVec.ofNat 64 (i + 1) := by
        rw [BitVec.add_assoc, BitVec.add_comm 1, ← BitVec.ofNat_add_ofNat]
        rfl
      rw [hs]
      exact h (i + 1) (by omega)
    rw [read, read, h₀, h₁]

theorem toNat_add_sub (a : BitVec 64) {i : Nat} (h : i < 2 ^ 64) :
    (a + BitVec.ofNat 64 i - a).toNat = i := by
  have he : a + BitVec.ofNat 64 i - a = BitVec.ofNat 64 i := by
    rw [BitVec.add_comm, BitVec.add_sub_cancel]
  rw [he, BitVec.toNat_ofNat, Nat.mod_eq_of_lt h]

/-- Some bytes of a write, from byte `k` on. -/
theorem read_write_from (m : Mem) (a : BitVec 64) (v : Nat) {k j n : Nat} (h : k + j ≤ n) (hn : n ≤ 2 ^ 64) :
    read (write m a n v) (a + BitVec.ofNat 64 k) j = v / 256 ^ k % 256 ^ j := by
  induction j generalizing k with
  | zero => simp [read, Nat.mod_one]
  | succ j ih =>
    have hbyte : write m a n v (a + BitVec.ofNat 64 k) = BitVec.ofNat 8 (v / 256 ^ k) := by
      rw [write, toNat_add_sub a (by omega), if_pos (by omega)]
    have hnext : a + BitVec.ofNat 64 k + 1 = a + BitVec.ofNat 64 (k + 1) := by
      rw [BitVec.add_assoc, ← BitVec.ofNat_add_ofNat]
      rfl
    have hpow : 256 ^ (j + 1) = 256 * 256 ^ j := by rw [Nat.pow_succ, Nat.mul_comm]
    rw [read, hbyte, hnext, ih (by omega), BitVec.toNat_ofNat, Nat.pow_succ 256 k,
      ← Nat.div_div_eq_div_mul, hpow]
    exact (Nat.mod_mul ..).symm

/-- **What was written is read back.** -/
theorem read_write_same (m : Mem) (a : BitVec 64) (v : Nat) {n : Nat} (h : n ≤ 2 ^ 64) :
    read (write m a n v) a n = v % 256 ^ n := by
  have := read_write_from m a v (k := 0) (j := n) (by omega) h
  simpa using this

/-- No byte of the `n` from `a` on is among the `k` from `b` on. -/
def Apart (a : BitVec 64) (n : Nat) (b : BitVec 64) (k : Nat) : Prop :=
  ∀ i < n, k ≤ (a + BitVec.ofNat 64 i - b).toNat

/-- **A write elsewhere is not seen.** -/
theorem read_write_apart {m : Mem} {a b : BitVec 64} {n k v : Nat} (h : Apart a n b k) :
    read (write m b k v) a n = read m a n := by
  refine read_congr fun i hi => ?_
  rw [write, if_neg (Nat.not_lt.mpr (h i hi))]

theorem apart_offsets (base : BitVec 64) {o n o' k : Nat} (h : o + n ≤ o' ∨ o' + k ≤ o)
    (ho : o + n ≤ 2 ^ 63) (ho' : o' + k ≤ 2 ^ 63) :
    Apart (base + BitVec.ofNat 64 o) n (base + BitVec.ofNat 64 o') k := by
  intro i hi
  have he : base + BitVec.ofNat 64 o + BitVec.ofNat 64 i - (base + BitVec.ofNat 64 o') =
      BitVec.ofNat 64 (o + i) - BitVec.ofNat 64 o' := by
    rw [BitVec.add_assoc, ← BitVec.ofNat_add_ofNat]
    ring
  rw [he, BitVec.toNat_sub, BitVec.toNat_ofNat, BitVec.toNat_ofNat]
  omega

/-! ## Blocks that cover a run -/

/-- The address lies in one of the blocks of `B` bytes. -/
def InBlocks (B : Nat) (starts : List (BitVec 64)) (a : BitVec 64) : Prop :=
  ∃ s ∈ starts, ∃ b < B, a = s + BitVec.ofNat 64 b

theorem inBlocks_iff {B : Nat} {starts : List (BitVec 64)} {a : BitVec 64} (hB : B ≤ 2 ^ 64) :
    InBlocks B starts a ↔ ∃ s ∈ starts, (a - s).toNat < B := by
  constructor
  · rintro ⟨s, hs, b, hb, rfl⟩
    exact ⟨s, hs, by rwa [toNat_add_sub s (by omega)]⟩
  · rintro ⟨s, hs, hlt⟩
    refine ⟨s, hs, _, hlt, ?_⟩
    rw [BitVec.ofNat_toNat, BitVec.setWidth_eq, add_sub_cancel]

theorem add_ofNat_inj {p : BitVec 64} {c c' : Nat} (hc : c < 2 ^ 64) (hc' : c' < 2 ^ 64)
    (h : p + BitVec.ofNat 64 c = p + BitVec.ofNat 64 c') : c = c' := by
  have hnat := congrArg BitVec.toNat (add_left_cancel h)
  rwa [BitVec.toNat_ofNat, BitVec.toNat_ofNat, Nat.mod_eq_of_lt hc, Nat.mod_eq_of_lt hc'] at hnat

/-- Blocks that cover a run of their total length do not overlap: a byte lies in one of them only, at one place. -/
theorem unique_of_covered {B : Nat} {p : BitVec 64} {starts : List (BitVec 64)} (hfit : starts.length * B ≤ 2 ^ 64)
    (hcov : ∀ c < starts.length * B, InBlocks B starts (p + BitVec.ofNat 64 c)) {j j' : Fin starts.length}
    {b b' : Fin B} (h : starts[j] + BitVec.ofNat 64 b = starts[j'] + BitVec.ofNat 64 b') : j = j' ∧ b = b' := by
  -- a place for every byte of the run; there are as many bytes as places
  have hplace : ∀ c : Fin (starts.length * B), ∃ jb : Fin starts.length × Fin B,
      p + BitVec.ofNat 64 c = starts[jb.1] + BitVec.ofNat 64 jb.2 := by
    intro c
    obtain ⟨s, hs, b, hb, he⟩ := hcov c c.isLt
    obtain ⟨j, hj, rfl⟩ := List.getElem_of_mem hs
    exact ⟨(⟨j, hj⟩, ⟨b, hb⟩), he⟩
  choose place hspec using hplace
  have hinj : Function.Injective place := by
    intro c c' he
    have hsame := hspec c
    rw [he, ← hspec c'] at hsame
    exact Fin.ext (add_ofNat_inj (Nat.lt_of_lt_of_le c.isLt hfit) (Nat.lt_of_lt_of_le c'.isLt hfit) hsame)
  have hbij : Function.Bijective place :=
    (Fintype.bijective_iff_injective_and_card place).mpr ⟨hinj, by simp⟩
  obtain ⟨c, hc⟩ := hbij.surjective (j, b)
  obtain ⟨c', hc'⟩ := hbij.surjective (j', b')
  have hbyte : p + BitVec.ofNat 64 c = p + BitVec.ofNat 64 c' := by
    rw [hspec c, hspec c', hc, hc']
    exact h
  have hcc : c = c' :=
    Fin.ext (add_ofNat_inj (Nat.lt_of_lt_of_le c.isLt hfit) (Nat.lt_of_lt_of_le c'.isLt hfit) hbyte)
  rw [hcc, hc'] at hc
  exact Prod.mk.inj hc.symm

/-- **Blocks that cover a run of their total length, one of them at its start, are the blocks of the run.** -/
theorem starts_of_covered {B : Nat} (hB : 0 < B) {p : BitVec 64} {starts : List (BitVec 64)}
    (hfit : starts.length * B ≤ 2 ^ 64) (hp : p ∈ starts)
    (hcov : ∀ c < starts.length * B, InBlocks B starts (p + BitVec.ofNat 64 c)) :
    ∀ i < starts.length, p + BitVec.ofNat 64 (i * B) ∈ starts
  | 0, _ => by simpa using hp
  | i + 1, hi => by
    obtain ⟨j, hj, hprev⟩ := List.getElem_of_mem (starts_of_covered hB hfit hp hcov i (by omega))
    have hlt : (i + 1) * B < starts.length * B := Nat.mul_lt_mul_of_pos_right hi hB
    obtain ⟨s, hs, b, hb, he⟩ := hcov _ hlt
    cases b with
    | zero =>
      have hsame : p + BitVec.ofNat 64 ((i + 1) * B) = s := by simpa using he
      rwa [hsame]
    | succ b =>
      -- then the byte before would lie in this block and in the one before
      exfalso
      obtain ⟨j', hj', rfl⟩ := List.getElem_of_mem hs
      have hbefore : starts[j'] + BitVec.ofNat 64 b = starts[j] + BitVec.ofNat 64 (B - 1) := by
        have hrun : p + BitVec.ofNat 64 ((i + 1) * B) = starts[j] + BitVec.ofNat 64 (B - 1) + 1 := by
          rw [hprev, add_assoc, add_assoc]
          congr 1
          rw [show (1 : BitVec 64) = BitVec.ofNat 64 1 from rfl, BitVec.ofNat_add_ofNat, BitVec.ofNat_add_ofNat]
          congr 1
          rw [Nat.succ_mul]
          omega
        have hblock : starts[j'] + BitVec.ofNat 64 (b + 1) = starts[j'] + BitVec.ofNat 64 b + 1 := by
          rw [← BitVec.ofNat_add_ofNat, ← add_assoc]
          rfl
        rw [he, hblock] at hrun
        exact add_right_cancel hrun
      have huniq := (@unique_of_covered B p starts hfit hcov ⟨j', hj'⟩ ⟨j, hj⟩ ⟨b, by omega⟩ ⟨B - 1, by omega⟩ hbefore).2
      have hval : b = B - 1 := congrArg Fin.val huniq
      omega

end Folkering.ByteMem
