/-
  Sequences laid out in a memory.

  A memory is a function on addresses.  `Lies m p xs` says that the sequence `xs` stands at address `p`;
  `put m p xs` writes it there.  What a reader finds after a writer is decided by three facts:
    * `lies_append` — a concatenation lies where its parts lie one after the other;
    * `lies_put`    — what was put lies there;
    * `Lies.put`    — and what lay apart from it still does.
-/
import Mathlib.Data.List.Basic

namespace Folkering.Layout

open List

variable {α : Type}

/-- The sequence stands at the address. -/
def Lies (m : Nat → α) (p : Nat) (xs : List α) : Prop := ∀ i x, xs[i]? = some x → m (p + i) = x

/-- The memory with the sequence at the address. -/
def put (m : Nat → α) (p : Nat) (xs : List α) : Nat → α := fun i =>
  if p ≤ i then (xs[i - p]?).getD (m i) else m i

variable {m m' : Nat → α} {p q : Nat} {x : α} {xs ys : List α}

theorem lies_append : Lies m p (xs ++ ys) ↔ Lies m p xs ∧ Lies m (p + xs.length) ys := by
  constructor
  · intro h
    constructor
    · intro i x hx
      have hi := (List.getElem?_eq_some_iff.mp hx).1
      exact h i x (by rw [getElem?_append_left hi]; exact hx)
    · intro i x hx
      rw [Nat.add_assoc]
      refine h (xs.length + i) x ?_
      rw [getElem?_append_right (Nat.le_add_right _ _), Nat.add_sub_cancel_left]
      exact hx
  · rintro ⟨hxs, hys⟩ i x hx
    by_cases hi : i < xs.length
    · rw [getElem?_append_left hi] at hx
      exact hxs i x hx
    · rw [getElem?_append_right (by omega)] at hx
      have := hys (i - xs.length) x hx
      rwa [show p + xs.length + (i - xs.length) = p + i by omega] at this

@[simp] theorem lies_singleton : Lies m p [x] ↔ m p = x := by
  constructor
  · intro h
    exact h 0 x rfl
  · intro h i y hy
    cases i with
    | zero =>
      cases hy
      exact h
    | succ i => simp at hy

theorem lies_cons : Lies m p (x :: xs) ↔ m p = x ∧ Lies m (p + 1) xs := by
  rw [← singleton_append, lies_append, lies_singleton]
  rfl

theorem Lies.take (h : Lies m p xs) (n : Nat) : Lies m p (xs.take n) := by
  rw [← take_append_drop n xs, lies_append] at h
  exact h.1

theorem Lies.drop (h : Lies m p xs) (n : Nat) (hn : n ≤ xs.length) : Lies m (p + n) (xs.drop n) := by
  rw [← take_append_drop n xs, lies_append, length_take, Nat.min_eq_left hn] at h
  exact h.2

/-- Sequences of one length at one address are equal. -/
theorem Lies.unique (hx : Lies m p xs) (hy : Lies m p ys) (hlen : xs.length = ys.length) : xs = ys := by
  apply ext_getElem? 
  intro i
  by_cases hi : i < xs.length
  · have hi' : i < ys.length := hlen ▸ hi
    rw [getElem?_eq_getElem hi, getElem?_eq_getElem hi',
      ← hx i _ (getElem?_eq_getElem hi), ← hy i _ (getElem?_eq_getElem hi')]
  · rw [getElem?_eq_none (by omega), getElem?_eq_none (by omega)]

theorem Lies.congr (h : Lies m p xs) (heq : ∀ i < xs.length, m' (p + i) = m (p + i)) :
    Lies m' p xs := by
  intro i x hx
  rw [heq i (List.getElem?_eq_some_iff.mp hx).1]
  exact h i x hx

/-- What the memory holds in a range. -/
theorem lies_range (m : Nat → α) (p n : Nat) : Lies m p ((List.range n).map fun i => m (p + i)) := by
  intro i x hx
  rw [getElem?_map, Option.map_eq_some_iff] at hx
  obtain ⟨j, hj, rfl⟩ := hx
  obtain ⟨_, rfl⟩ := List.getElem?_eq_some_iff.mp hj
  simp

/-- The `n` elements from an address on. -/
def bytesAt (m : Nat → α) (p n : Nat) : List α := (List.range n).map fun i => m (p + i)

@[simp] theorem bytesAt_length (m : Nat → α) (p n : Nat) : (bytesAt m p n).length = n := by simp [bytesAt]

theorem Lies.bytesAt (h : Lies m p xs) : bytesAt m p xs.length = xs :=
  (lies_range m p xs.length).unique h (bytesAt_length m p xs.length)

/-- In a row of pieces of one length each piece lies at a multiple of it. -/
theorem Lies.flatten {w : Nat} : ∀ {xss : List (List α)} {p : Nat}, Lies m p xss.flatten →
    (∀ xs ∈ xss, xs.length = w) → ∀ {i xs}, xss[i]? = some xs → Lies m (p + w * i) xs
  | [], _, _, _, i, xs, hi => by simp at hi
  | ys :: xss, p, h, hw, i, xs, hi => by
    rw [flatten_cons, lies_append, hw ys mem_cons_self] at h
    cases i with
    | zero =>
      cases hi
      exact h.1
    | succ i =>
      have hrest := Lies.flatten h.2 (fun zs hzs => hw zs (mem_cons_of_mem _ hzs)) hi
      rwa [show p + w + w * i = p + w * (i + 1) by rw [Nat.mul_succ]; omega] at hrest

/-- A memory that holds nothing else. -/
theorem lies_getD (xs : List α) (d : α) : Lies (fun i => xs.getD i d) 0 xs := by
  intro i x hx
  simp [hx]

theorem lies_put (m : Nat → α) (p : Nat) (xs : List α) : Lies (put m p xs) p xs := by
  intro i x hx
  simp [put, hx]

theorem put_apart {i : Nat} (h : i < p ∨ p + xs.length ≤ i) : put m p xs i = m i := by
  unfold put
  split
  · rw [getElem?_eq_none (by omega), Option.getD_none]
  · rfl

end Folkering.Layout
