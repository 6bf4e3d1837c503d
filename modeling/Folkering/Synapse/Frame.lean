/-
  FRAMES — what a write leaves alone.

  `Only s b b'` says that `b'` differs from `b` at most at the positions of `s`; the loaded size and the
  validity stay.  Every write of the buffer has such a frame, and frames compose.
-/
import Folkering.Synapse.Encoding

namespace Folkering.Synapse

open Sqlite Layout

/-- Outside `s` nothing changes. -/
structure Only (s : Nat → Prop) (b b' : Buffer) : Prop where
  data : ∀ i, ¬ s i → b'.data i = b.data i
  size : b'.size = b.size
  valid : b'.valid = b.valid

/-- The positions from `lo` up to `hi`. -/
def Within (lo hi : Nat) (i : Nat) : Prop := lo ≤ i ∧ i < hi

/-- Bytes are read back. -/
theorem toList_of_lies {data : Bytes} {p : Nat} {xs : List UInt8} (h : Lies data p xs) :
    Slice.toList data ⟨p, xs.length⟩ = xs :=
  (lies_range data p xs.length).unique h (by simp)

theorem beNat_congr {data data' : Bytes} {p n : Nat} (h : ∀ i < n, data' (p + i) = data (p + i)) :
    beNat data' p n = beNat data p n := by
  induction n with
  | zero => rfl
  | succ n ih => rw [beNat, beNat, ih fun i hi => h i (by omega), h n (by omega)]

section

variable {s t : Nat → Prop} {a b c : Buffer}

theorem Only.refl (s : Nat → Prop) (b : Buffer) : Only s b b := ⟨fun _ _ => rfl, rfl, rfl⟩

theorem Only.trans (hab : Only s a b) (hbc : Only s b c) : Only s a c :=
  ⟨fun i hi => (hbc.data i hi).trans (hab.data i hi), hbc.size.trans hab.size, hbc.valid.trans hab.valid⟩

theorem Only.mono (hab : Only s a b) (hst : ∀ i, s i → t i) : Only t a b :=
  ⟨fun i hi => hab.data i fun hs => hi (hst i hs), hab.size, hab.valid⟩

/-- What lies outside the frame still lies there. -/
theorem Only.lies (hab : Only s a b) {p : Nat} {xs : List UInt8} (h : Lies a.data p xs)
    (hout : ∀ i < xs.length, ¬ s (p + i)) : Lies b.data p xs :=
  h.congr fun i hi => hab.data _ (hout i hi)

/-- A field outside is untouched. -/
theorem Only.beNat (hab : Only s a b) {p n : Nat} (hout : ∀ i < n, ¬ s (p + i)) :
    beNat b.data p n = beNat a.data p n :=
  beNat_congr fun i hi => hab.data _ (hout i hi)

end

section

variable {b b' : Buffer}

theorem only_markPageDirty (s : Nat → Prop) (b : Buffer) (p : Nat) : Only s b (b.markPageDirty p) := by
  unfold Buffer.markPageDirty
  split
  · exact ⟨fun _ _ => rfl, rfl, rfl⟩
  · exact .refl s b

/-- A slice that is written lies in place, and nothing else changes. -/
theorem writeSlice_spec {offset : Nat} {src : List UInt8} (h : b.writeSlice offset src = .ok b') :
    Lies b'.data offset src ∧ Only (Within offset (offset + src.length)) b b' := by
  unfold Buffer.writeSlice at h
  split at h
  · cases h
  · cases h
    refine ⟨lies_put b.data offset src, ⟨fun i hi => put_apart ?_, rfl, rfl⟩⟩
    unfold Within at hi
    omega

theorem writeSlice_ok (b : Buffer) {offset : Nat} {src : List UInt8}
    (h : offset + src.length ≤ maxDbSize) : ∃ b', b.writeSlice offset src = .ok b' := by
  unfold Buffer.writeSlice
  rw [if_neg (by omega)]
  exact ⟨_, rfl⟩

theorem only_putByte (b : Buffer) (offset : Nat) (byte : UInt8) :
    Only (Within offset (offset + 1)) b (b.putByte offset byte) := by
  unfold Buffer.putByte Buffer.writeByte
  split
  · exact .refl _ b
  · refine Only.trans ?_ (only_markPageDirty _ _ _)
    refine ⟨fun i hi => put_apart ?_, rfl, rfl⟩
    unfold Within at hi
    rw [List.length_singleton]
    omega

theorem only_zeroFill (b : Buffer) (start n : Nat) :
    Only (Within start (start + n)) b (zeroFill b start n) := by
  induction n with
  | zero => exact .refl _ b
  | succ n ih =>
    unfold zeroFill at ih ⊢
    rw [List.range_succ, List.foldl_append]
    refine (ih.mono ?_).trans ((only_putByte _ _ _).mono ?_)
    · intro i hi
      unfold Within at hi ⊢
      omega
    · intro i hi
      unfold Within at hi ⊢
      omega

theorem only_setPageCount (b : Buffer) (count : Nat) :
    Only (Within 28 32) b (b.setPageCount count) := by
  refine Only.trans ?_ (only_markPageDirty _ _ _)
  refine ⟨fun i hi => put_apart ?_, rfl, rfl⟩
  unfold Within at hi
  rw [length_beBytes]
  omega

theorem pageCount_setPageCount (b : Buffer) {count : Nat} (h : count < 2 ^ 32) :
    (b.setPageCount count).pageCount = count := by
  unfold Buffer.pageCount Buffer.setPageCount
  rw [data_markPageDirty]
  show beNat (put b.data 28 (beBytes 4 count)) 28 4 = count
  rw [beNat_lies (lies_put b.data 28 _)]
  exact Nat.mod_eq_of_lt h

theorem only_incrementChangeCounter (b : Buffer) :
    Only (Within 24 28) b b.incrementChangeCounter := by
  refine Only.trans ?_ (only_markPageDirty _ _ _)
  refine ⟨fun i hi => put_apart ?_, rfl, rfl⟩
  unfold Within at hi
  rw [length_beBytes]
  omega

end

end Folkering.Synapse
