/-
  The byte ring between an app and the compositor — `IpcGraphicsRing`.

  `head` and `tail` are counters that wrap at 2^64; the bytes between them, taken modulo the capacity, are
  what the ring holds (`contents`).  With a capacity that divides 2^64 a push appends to it and a pop takes
  from its front, wherever the counters stand.
-/
import Mathlib
import Folkering.Lib.Circular

namespace Folkering.Gfx

open Layout Circular

/-- 64 KiB. -/
def ringCapacityBytes : Nat := 64 * 1024

/-- Why a push is refused. -/
inductive PushError where
  | full
  | tooLarge
deriving Repr, DecidableEq

/-- The ring in shared memory; the cursors count bytes and wrap at 2^64. -/
structure IpcGraphicsRing (N : Nat) where
  head : UInt64
  tail : UInt64
  buffer : Nat → UInt8

namespace IpcGraphicsRing

variable {N : Nat}

/-- The empty ring. -/
def new (N : Nat) : IpcGraphicsRing N := { head := 0, tail := 0, buffer := fun _ => 0 }

/-- The bytes between the cursors. -/
def occupied (r : IpcGraphicsRing N) : Nat := (r.head - r.tail).toNat

/-- The copy is made in two pieces where the data straddles the end of the buffer. -/
def push (r : IpcGraphicsRing N) (data : List UInt8) : Except PushError (IpcGraphicsRing N) :=
  if N < data.length then .error .tooLarge
  else if N < r.occupied + data.length then .error .full
  else
    let writeOff := r.head.toNat % N
    let first := min data.length (N - writeOff)
    let buffer := put r.buffer writeOff (data.take first)
    let buffer := if first < data.length then put buffer 0 (data.drop first) else buffer
    .ok { r with buffer, head := r.head + .ofNat data.length }

/-- The bytes taken, at most `outLen`, and the ring after. -/
def popInto (r : IpcGraphicsRing N) (outLen : Nat) : List UInt8 × IpcGraphicsRing N :=
  let n := min r.occupied outLen
  if n = 0 then ([], r)
  else
    let readOff := r.tail.toNat % N
    let first := min n (N - readOff)
    (run r.buffer readOff first ++ run r.buffer 0 (n - first), { r with tail := r.tail + .ofNat n })

/-! ## The ring as a queue -/

/-- The bytes in the ring, oldest first. -/
def contents (r : IpcGraphicsRing N) : List UInt8 := window r.buffer N r.tail.toNat r.occupied

/-- The counters are at most the capacity apart. -/
def Fits (r : IpcGraphicsRing N) : Prop := r.occupied ≤ N

@[simp] theorem length_contents (r : IpcGraphicsRing N) : r.contents.length = r.occupied := length_window

theorem contents_new (N : Nat) : (new N).contents = [] := by
  rw [← List.length_eq_zero_iff, length_contents]
  simp [new, occupied]

/-- The head is the occupied bytes ahead of the tail. -/
theorem head_eq (r : IpcGraphicsRing N) : r.head.toNat = (r.tail.toNat + r.occupied) % 2 ^ 64 := by
  have hhead := r.head.toNat_lt
  have htail := r.tail.toNat_lt
  unfold occupied
  rw [UInt64.toNat_sub]
  omega

/-- An accepted push fits, and writes the data round the end of the buffer. -/
theorem push_ok {r r' : IpcGraphicsRing N} {data : List UInt8} (h : r.push data = .ok r') :
    r.occupied + data.length ≤ N ∧
    r' = { r with buffer := putCircular r.buffer N r.head.toNat data,
                  head := r.head + .ofNat data.length } := by
  unfold push at h
  split at h
  · cases h
  split at h
  · cases h
  rename_i hfits
  refine ⟨Nat.le_of_not_lt hfits, ?_⟩
  have hbuffer : ∀ k, (if min data.length k < data.length then
      put (put r.buffer (r.head.toNat % N) (data.take (min data.length k))) 0
        (data.drop (min data.length k))
    else put r.buffer (r.head.toNat % N) (data.take (min data.length k))) =
      put (put r.buffer (r.head.toNat % N) (data.take k)) 0 (data.drop k) := by
    intro k
    by_cases hk : k < data.length
    · rw [Nat.min_eq_right (Nat.le_of_lt hk), if_pos hk]
    · have hle := Nat.le_of_not_lt hk
      rw [Nat.min_eq_left hle, if_neg (Nat.lt_irrefl _), List.take_length, List.take_of_length_le hle,
        List.drop_eq_nil_of_le hle]
      funext a
      exact (put_apart (Or.inr (Nat.zero_le a))).symm
  simp only [hbuffer] at h
  cases h
  rfl

/-- The head moves on. -/
theorem occupied_extend (r : IpcGraphicsRing N) {n : Nat} (hfits : r.occupied + n < 2 ^ 64) :
    occupied ({ r with head := r.head + .ofNat n } : IpcGraphicsRing N) = r.occupied + n := by
  have hhead := r.head.toNat_lt
  have htail := r.tail.toNat_lt
  simp only [occupied, UInt64.toNat_sub, UInt64.toNat_add, UInt64.toNat_ofNat'] at hfits ⊢
  omega

/-- The tail moves on. -/
theorem occupied_advance (r : IpcGraphicsRing N) {n : Nat} (hn : n ≤ r.occupied) :
    occupied ({ r with tail := r.tail + .ofNat n } : IpcGraphicsRing N) = r.occupied - n := by
  have hhead := r.head.toNat_lt
  have htail := r.tail.toNat_lt
  simp only [occupied, UInt64.toNat_sub, UInt64.toNat_add, UInt64.toNat_ofNat'] at hn ⊢
  omega

section

variable (hN : N ∣ 2 ^ 64) (hlt : N < 2 ^ 64)

include hN

/-- The bytes behind the contents stand at the head. -/
theorem window_head (r : IpcGraphicsRing N) (n : Nat) :
    window r.buffer N (r.tail.toNat + r.occupied) n = window r.buffer N r.head.toNat n := by
  rw [r.head_eq, window_mod hN]

theorem contents_extend (r : IpcGraphicsRing N) {n : Nat} (hfits : r.occupied + n < 2 ^ 64) :
    contents ({ r with head := r.head + .ofNat n } : IpcGraphicsRing N) =
      r.contents ++ window r.buffer N r.head.toNat n := by
  rw [contents, occupied_extend r hfits, window_append, ← window_head hN]
  rfl

theorem contents_advance (r : IpcGraphicsRing N) {n : Nat} (hn : n ≤ r.occupied) :
    contents ({ r with tail := r.tail + .ofNat n } : IpcGraphicsRing N) = r.contents.drop n := by
  have hsplit : r.contents = window r.buffer N r.tail.toNat n ++ window r.buffer N (r.tail.toNat + n) (r.occupied - n) := by
    rw [← window_append, Nat.add_sub_cancel' hn]
    rfl
  have htail : (r.tail + UInt64.ofNat n).toNat = (r.tail.toNat + n) % 2 ^ 64 := by
    rw [UInt64.toNat_add, UInt64.toNat_ofNat', Nat.add_mod_mod]
  rw [contents, occupied_advance r hn, hsplit, List.drop_left' length_window]
  simp only [htail]
  exact window_mod hN

include hlt

theorem push_contents {r r' : IpcGraphicsRing N} {data : List UInt8} (h : r.push data = .ok r') :
    r'.contents = r.contents ++ data ∧ r'.Fits := by
  obtain ⟨hfits, rfl⟩ := push_ok h
  have hocc : (r.head + UInt64.ofNat data.length - r.tail).toNat = r.occupied + data.length :=
    occupied_extend r (by omega)
  constructor
  · unfold contents occupied
    simp only [hocc]
    rw [window_append, head_eq r, putCircular_mod hN]
    rw [window_put_apart _ _ hfits, window_put_same _ _ (by omega)]
    rfl
  · show (r.head + UInt64.ofNat data.length - r.tail).toNat ≤ N
    rw [hocc]
    exact hfits

omit hlt in
theorem popInto_contents {r : IpcGraphicsRing N} (hr : r.Fits) (outLen : Nat) :
    (r.popInto outLen).1 = r.contents.take outLen ∧
    (r.popInto outLen).2.contents = r.contents.drop outLen ∧ (r.popInto outLen).2.Fits := by
  have hlen := length_contents r
  -- taking more than there is takes all there is
  have htake : r.contents.take outLen = r.contents.take (min r.occupied outLen) := by
    rw [← hlen, Nat.min_comm, ← List.take_eq_take_min]
  have hdrop : r.contents.drop outLen = r.contents.drop (min r.occupied outLen) := by
    rcases Nat.le_total r.occupied outLen with h | h
    · rw [Nat.min_eq_left h, List.drop_eq_nil_of_le (by omega), List.drop_eq_nil_of_le (by omega)]
    · rw [Nat.min_eq_right h]
  have hle := Nat.min_le_left r.occupied outLen
  rw [htake, hdrop]
  simp only [popInto]
  generalize min r.occupied outLen = n at hle
  by_cases h0 : n = 0
  · subst h0
    simp [hr]
  have hfits : r.occupied ≤ N := hr
  have hsplit : r.contents.take n = window r.buffer N r.tail.toNat n := window_take _ _ _ hle
  rw [if_neg h0, hsplit]
  refine ⟨(window_two_runs _ _ (by omega)).symm, contents_advance hN r hle, ?_⟩
  exact (occupied_advance r hle).trans_le (by omega)

end

end IpcGraphicsRing

end Folkering.Gfx
