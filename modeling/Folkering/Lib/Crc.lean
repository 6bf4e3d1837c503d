/-
  Cyclic redundancy checks, bit by bit.

  The register has `w` bits.  A step shifts it left and subtracts the generator when the top bit falls out; a message
  bit is added at the top before the step (`feed`).  Everything follows from three facts:
    * `step_xor`      — a step is LINEAR, so the registers of two messages differ by the register of their difference;
    * `step_inj`      — a step loses nothing, as the generator has a constant term;
    * `feed_eq`       — up to `w` bits may as well be added at once (`word`) and then stepped over.
  So a difference that fits in the register is never fed to zero (`feed_burst`).
-/
import Mathlib.Logic.Function.Iterate

namespace Folkering.Crc

open Function

variable {w : Nat} (g : BitVec w)

/-- One shift of the register, with the generator `g`. -/
def step (s : BitVec w) : BitVec w := (s <<< 1) ^^^ (if s.msb then g else 0#w)

/-- The register with one bit, at the top. -/
def top (b : Bool) : BitVec w := if b then BitVec.twoPow w (w - 1) else 0#w

/-- The register after some message bits. -/
def feed (s : BitVec w) : List Bool → BitVec w
  | [] => s
  | b :: bs => feed (step g (s ^^^ top b)) bs

/-- The bits side by side, the first one at the top. -/
def word : List Bool → BitVec w
  | [] => 0#w
  | b :: bs => (word bs >>> 1) ^^^ top b

variable {g}

/-! ## Steps -/

theorem step_zero : step g 0#w = 0#w := by simp [step]

theorem step_xor (s t : BitVec w) : step g (s ^^^ t) = step g s ^^^ step g t := by
  have hout : (if (s ^^^ t).msb then g else 0#w) = (if s.msb then g else 0#w) ^^^ (if t.msb then g else 0#w) := by
    rw [BitVec.msb_xor]
    cases s.msb <;> cases t.msb <;> simp
  rw [step, hout, BitVec.shiftLeft_xor_distrib, step, step]
  ac_rfl

/-- Bit 0 after a step tells what fell out. -/
theorem step_getLsbD_zero (hw : 0 < w) (hg : g.getLsbD 0 = true) (s : BitVec w) : (step g s).getLsbD 0 = s.msb := by
  rw [step, BitVec.getLsbD_xor]
  cases s.msb <;> simp [hw, hg]

theorem step_inj (hw : 0 < w) (hg : g.getLsbD 0 = true) : Function.Injective (step g) := by
  intro s t h
  have hmsb : s.msb = t.msb := by
    rw [← step_getLsbD_zero hw hg s, ← step_getLsbD_zero hw hg t, h]
  have hshift : s <<< 1 = t <<< 1 := by
    rw [step, step, hmsb] at h
    exact (BitVec.xor_left_inj _).mp h
  apply BitVec.eq_of_getLsbD_eq
  intro i hi
  rcases Nat.lt_or_ge (i + 1) w with hlt | hge
  · have hbit := congrArg (fun x => BitVec.getLsbD x (i + 1)) hshift
    simpa [hlt, ← BitVec.getLsbD_eq_getElem] using hbit
  · obtain rfl : i = w - 1 := by omega
    simpa [BitVec.msb_eq_getLsbD_last] using hmsb

/-- A register whose top bit is clear is only shifted. -/
theorem step_ushiftRight {s : BitVec w} (h : s.getLsbD 0 = false) : step g (s >>> 1) = s := by
  apply BitVec.eq_of_getLsbD_eq
  intro i hi
  have hmsb : (s >>> 1).msb = false := by
    rw [BitVec.msb_eq_getLsbD_last, BitVec.getLsbD_ushiftRight, BitVec.getLsbD_of_ge]
    omega
  rw [step, hmsb, BitVec.getLsbD_xor]
  cases i with
  | zero => simp [h]
  | succ i => simp [hi, Nat.add_comm]

/-! ## Feeding -/

theorem feed_append (s : BitVec w) (bs cs : List Bool) : feed g s (bs ++ cs) = feed g (feed g s bs) cs := by
  induction bs generalizing s with
  | nil => rfl
  | cons b bs ih => exact ih _

/-- Clear bits only step. -/
theorem feed_clear (s : BitVec w) (n : Nat) : feed g s (List.replicate n false) = (step g)^[n] s := by
  induction n generalizing s with
  | zero => rfl
  | succ n ih =>
    rw [List.replicate_succ, feed, ih, iterate_succ_apply]
    simp [top]

theorem top_xor (b c : Bool) : (top (b ^^ c) : BitVec w) = top b ^^^ top c := by
  cases b <;> cases c <;> simp [top]

/-- LINEARITY: the register of a corrupted message is that of the message, corrupted by the register of the errors. -/
theorem feed_xor : ∀ {bs es : List Bool} (s t : BitVec w), es.length = bs.length →
    feed g (s ^^^ t) (List.zipWith xor bs es) = feed g s bs ^^^ feed g t es
  | [], [], _, _, _ => rfl
  | b :: bs, e :: es, s, t, h => by
    have hstep : step g (s ^^^ t ^^^ top (b ^^ e)) = step g (s ^^^ top b) ^^^ step g (t ^^^ top e) := by
      rw [← step_xor, top_xor]
      ac_rfl
    rw [List.zipWith_cons_cons, feed, hstep]
    exact feed_xor _ _ (Nat.succ.inj h)

theorem word_low : ∀ {bs : List Bool} {i : Nat}, i + bs.length < w → (word bs : BitVec w).getLsbD i = false
  | [], _, _ => by simp [word]
  | b :: bs, i, h => by
    rw [List.length_cons] at h
    have hrest := @word_low bs (i + 1) (by omega)
    have htop : (top b : BitVec w).getLsbD i = false := by
      cases b
      · simp [top]
      · simp [top, BitVec.getLsbD_twoPow]
        omega
    rw [word, BitVec.getLsbD_xor, BitVec.getLsbD_ushiftRight, Nat.add_comm 1 i, hrest, htop]
    rfl

/-- Bits that fit in the register are added at once. -/
theorem feed_eq : ∀ {bs : List Bool} (s : BitVec w), bs.length ≤ w → feed g s bs = (step g)^[bs.length] (s ^^^ word bs)
  | [], s, _ => by simp [feed, word]
  | b :: bs, s, h => by
    rw [List.length_cons] at h
    have hmove : step g (s ^^^ top b) ^^^ word bs = step g (s ^^^ word (b :: bs)) := by
      have hword : step g (word bs >>> 1) = word bs := step_ushiftRight (word_low (by omega))
      calc step g (s ^^^ top b) ^^^ word bs = step g (s ^^^ top b) ^^^ step g (word bs >>> 1) := by rw [hword]
        _ = step g (s ^^^ top b ^^^ word bs >>> 1) := (step_xor _ _).symm
        _ = step g (s ^^^ word (b :: bs)) := by
          rw [word]
          ac_rfl
    rw [feed, feed_eq _ (by omega), hmove, List.length_cons, iterate_succ_apply]

/-- No bits at the top of the register, no bits. -/
theorem word_eq_zero : ∀ {bs : List Bool}, bs.length ≤ w → (word bs : BitVec w) = 0#w → ∀ b ∈ bs, b = false
  | [], _, _ => by simp
  | b :: bs, h, h0 => by
    rw [List.length_cons] at h
    have hb : b = false := by
      have hbit := congrArg (fun x => BitVec.getLsbD x (w - 1)) h0
      cases b with
      | false => rfl
      | true =>
        have hout : w ≤ 1 + (w - 1) := by omega
        simp [word, top, BitVec.getLsbD_twoPow, BitVec.getLsbD_of_ge _ _ hout] at hbit
        omega
    have hrest : (word bs : BitVec w) = 0#w := by
      rw [word, hb] at h0
      have hshift : (word bs : BitVec w) >>> 1 = 0#w := by simpa [top] using h0
      rw [← @step_ushiftRight w 0#w (word bs) (word_low (by omega)), hshift, step_zero]
    intro c hc
    rcases List.mem_cons.mp hc with rfl | hc
    · exact hb
    · exact word_eq_zero (by omega) hrest c hc

/-- BURSTS: errors within `w` consecutive bits leave a trace in the register. -/
theorem feed_burst (hw : 0 < w) (hg : g.getLsbD 0 = true) {i j : Nat} {bs : List Bool} (hlen : bs.length ≤ w)
    (h : feed g 0#w (List.replicate i false ++ (bs ++ List.replicate j false)) = 0#w) : ∀ b ∈ bs, b = false := by
  have hinj : ∀ {n : Nat} {s : BitVec w}, (step g)^[n] s = 0#w → s = 0#w := by
    intro n s hs
    rw [← iterate_fixed step_zero n] at hs
    exact (step_inj hw hg).iterate n hs
  rw [feed_append, feed_clear, iterate_fixed step_zero, feed_append, feed_clear] at h
  have hburst := hinj h
  rw [feed_eq 0#w hlen, BitVec.zero_xor] at hburst
  exact word_eq_zero hlen (hinj hburst)

end Folkering.Crc
