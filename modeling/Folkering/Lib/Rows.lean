/-
  Compressed rows.

  A list of pairs that is sorted by its keys holds the row of each key as one stretch: it starts behind the pairs with a
  smaller key (`before`) and is as long as the key is frequent (`degree`).
    * `stretch_eq_row` — the stretch is the row;
    * `next_place`     — a pair stands behind the earlier rows and behind what came before it in its own.
-/
import Mathlib.Data.List.Basic

namespace Folkering.Rows

open List

variable {β : Type} {ps : List (Nat × β)} {k : Nat}

/-- How many pairs have a smaller key. -/
def before (ps : List (Nat × β)) (k : Nat) : Nat := ps.countP fun p => p.1 < k

/-- How many pairs have the key. -/
def degree (ps : List (Nat × β)) (k : Nat) : Nat := ps.countP fun p => p.1 = k

/-- What the pairs of the key hold. -/
def row (ps : List (Nat × β)) (k : Nat) : List β := (ps.filter fun p => p.1 = k).map Prod.snd

/-- Sorted by key. -/
def Sorted (ps : List (Nat × β)) : Prop := ps.Pairwise fun p q => p.1 ≤ q.1

theorem mem_row {x : β} : x ∈ row ps k ↔ (k, x) ∈ ps := by
  simp [row]

theorem before_le (ps : List (Nat × β)) (k : Nat) : before ps k ≤ ps.length := countP_le_length

theorem before_succ (ps : List (Nat × β)) (k : Nat) : before ps (k + 1) = before ps k + degree ps k := by
  unfold before degree
  induction ps with
  | nil => rfl
  | cons p ps ih =>
    simp only [countP_cons, decide_eq_true_eq, ih]
    rcases Nat.lt_trichotomy p.1 k with h | h | h
    · rw [if_pos (by omega), if_pos h, if_neg (by omega)]
      omega
    · rw [if_pos (by omega), if_neg (by omega), if_pos h]
      omega
    · rw [if_neg (by omega), if_neg (by omega), if_neg (by omega)]
      omega

theorem before_eq_zero (h : ∀ p ∈ ps, k ≤ p.1) : before ps k = 0 := by
  rw [before, countP_eq_zero]
  intro p hp
  simpa using h p hp

theorem before_eq_length (h : ∀ p ∈ ps, p.1 < k) : before ps k = ps.length := by
  rw [before, countP_eq_length]
  intro p hp
  simpa using h p hp

/-- A row is one stretch of the sorted pairs. -/
theorem stretch_eq_row (h : Sorted ps) (k : Nat) :
    ((ps.map Prod.snd).drop (before ps k)).take (degree ps k) = row ps k := by
  induction ps with
  | nil => rfl
  | cons p ps ih =>
    obtain ⟨hhead, htail⟩ := pairwise_cons.mp h
    have ih := ih htail
    rcases Nat.lt_trichotomy p.1 k with hlt | rfl | hgt
    · have hb : before (p :: ps) k = before ps k + 1 := by simp [before, hlt]
      have hd : degree (p :: ps) k = degree ps k := by simp [degree, Nat.ne_of_lt hlt]
      have hr : row (p :: ps) k = row ps k := by simp [row, Nat.ne_of_lt hlt]
      rw [hb, hd, hr, map_cons, drop_succ_cons, ih]
    · -- the rest has no smaller key, so the row starts here
      rw [before_eq_zero hhead, drop_zero] at ih
      have hb : before (p :: ps) p.1 = 0 := before_eq_zero fun q hq => by
        rcases mem_cons.mp hq with rfl | hq
        · exact Nat.le_refl _
        · exact hhead q hq
      have hd : degree (p :: ps) p.1 = degree ps p.1 + 1 := by simp [degree]
      have hr : row (p :: ps) p.1 = p.2 :: row ps p.1 := by simp [row]
      rw [hb, hd, hr, drop_zero, map_cons, take_succ_cons, ih]
    · have hnone : ∀ q ∈ p :: ps, q.1 ≠ k := by
        intro q hq
        rcases mem_cons.mp hq with rfl | hq
        · exact Nat.ne_of_gt hgt
        · exact Nat.ne_of_gt (Nat.lt_of_lt_of_le hgt (hhead q hq))
      have hd : degree (p :: ps) k = 0 := by
        rw [degree, countP_eq_zero]
        simpa using hnone
      have hr : row (p :: ps) k = [] := by
        rw [row, filter_eq_nil_iff.mpr (by simpa using hnone)]
        rfl
      rw [hd, hr, take_zero]

/-- The place of the next pair: behind the earlier rows, and behind what its own row has so far. -/
theorem next_place {p : Nat × β} {rest : List (Nat × β)} (h : Sorted (ps ++ p :: rest)) :
    before (ps ++ p :: rest) p.1 + degree ps p.1 = ps.length := by
  obtain ⟨-, hrest, hcross⟩ := pairwise_append.mp h
  have htail : before (p :: rest) p.1 = 0 := before_eq_zero fun q hq => by
    rcases mem_cons.mp hq with rfl | hq
    · exact Nat.le_refl _
    · exact (pairwise_cons.mp hrest).1 q hq
  have hall : before ps (p.1 + 1) = ps.length :=
    before_eq_length fun q hq => Nat.lt_succ_of_le (hcross q hq p mem_cons_self)
  have happ : before (ps ++ p :: rest) p.1 = before ps p.1 + before (p :: rest) p.1 := countP_append
  rw [happ, htail, Nat.add_zero, ← before_succ, hall]

end Folkering.Rows
