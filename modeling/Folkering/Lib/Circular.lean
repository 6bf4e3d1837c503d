/-
  Circular buffers.

  `window m N p n` are the `n` entries of a memory of `N` cells from index `p` on, going round at the end;
  `putCircular m N p xs` writes a sequence so, in at most two runs.  Indices may count on for ever: only
  their remainder modulo `N` matters (`window_mod`).
    * `window_put_same`, `window_put_apart` — what was put is read, what stood before it is not touched;
    * `window_two_runs` — a window is read in at most two runs.
  `between m W N lo hi` are the entries between two cursors that wrap at `W`, each reduced modulo `N` where it is used.
  When `N` divides `W` it is a window, entries are appended at one cursor and taken off at the other
  (`between_push`, `between_pop`); when it does not, two cursors less than `N` apart can share a cell.
-/
import Folkering.Lib.Layout

namespace Folkering.Circular

open Layout List Function

variable {α : Type}

/-- The cells of a run. -/
def run (m : Nat → α) (p n : Nat) : List α := (List.range n).map fun i => m (p + i)

/-- The `n` cells from index `p` on, going round at `N`. -/
def window (m : Nat → α) (N p n : Nat) : List α := (List.range n).map fun i => m ((p + i) % N)

/-- The memory with the sequence from index `p` on, going round at `N`. -/
def putCircular (m : Nat → α) (N p : Nat) (xs : List α) : Nat → α :=
  put (put m (p % N) (xs.take (N - p % N))) 0 (xs.drop (N - p % N))

variable {m : Nat → α} {N p q n : Nat} {xs : List α}

@[simp] theorem length_window : (window m N p n).length = n := by simp [window]

/-- One step round. -/
theorem add_mod_of_lt {w i : Nat} (hw : w < N) (hi : i < N) :
    (w + i) % N = if w + i < N then w + i else w + i - N := by
  split
  · rename_i h
    exact Nat.mod_eq_of_lt h
  · rename_i h
    rw [Nat.mod_eq_sub_mod (by omega), Nat.mod_eq_of_lt (by omega)]

theorem window_append (m : Nat → α) (N p n k : Nat) :
    window m N p (n + k) = window m N p n ++ window m N (p + n) k := by
  simp only [window, range_add, map_append, map_map]
  congr 1
  apply map_congr_left
  intro i _
  simp only [Function.comp, Nat.add_assoc]

theorem window_take (m : Nat → α) (N p : Nat) {i n : Nat} (hi : i ≤ n) : (window m N p n).take i = window m N p i := by
  obtain ⟨k, rfl⟩ := Nat.exists_eq_add_of_le hi
  rw [window_append]
  exact take_left' length_window

/-- Only the remainder of the index matters. -/
theorem window_mod {W : Nat} (h : N ∣ W) : window m N (p % W) n = window m N p n := by
  apply map_congr_left
  intro i _
  rw [Nat.add_mod, Nat.mod_mod_of_dvd _ h, ← Nat.add_mod]

theorem putCircular_mod {W : Nat} (h : N ∣ W) : putCircular m N (p % W) xs = putCircular m N p xs := by
  unfold putCircular
  rw [Nat.mod_mod_of_dvd _ h]

/-- The cell `a` after a circular write: the entry at its distance from the start, if there is one. -/
theorem putCircular_apply {a : Nat} (ha : a < N) (hlen : xs.length ≤ N) :
    putCircular m N p xs a = (xs[(a + (N - p % N)) % N]?).getD (m a) := by
  have hw : p % N < N := Nat.mod_lt _ (by omega)
  unfold putCircular
  generalize p % N = w at hw ⊢
  by_cases haw : w ≤ a
  · -- in the first run, and past the end of the second
    have hindex : (a + (N - w)) % N = a - w := by
      rw [show a + (N - w) = (a - w) + N by omega, Nat.add_mod_right, Nat.mod_eq_of_lt (by omega)]
    rw [put_apart (by rw [length_drop]; omega), put, if_pos haw, hindex,
      getElem?_take_of_lt (by omega)]
  · have hindex : (a + (N - w)) % N = N - w + a := by
      rw [Nat.mod_eq_of_lt (by omega), Nat.add_comm]
    rw [put, if_pos (Nat.zero_le a), Nat.sub_zero, getElem?_drop, put_apart (by omega), hindex]

/-- The distance of an index from another behind it. -/
theorem mod_distance {k : Nat} (hk : k < N) : ((p + k) % N + (N - p % N)) % N = k := by
  have hw : p % N < N := Nat.mod_lt _ (by omega)
  rw [← Nat.mod_add_mod p N k]
  generalize p % N = w at hw ⊢
  rw [add_mod_of_lt hw hk]
  split
  · rw [show w + k + (N - w) = k + N by omega, Nat.add_mod_right, Nat.mod_eq_of_lt hk]
  · rw [show w + k - N + (N - w) = k by omega, Nat.mod_eq_of_lt hk]

/-- What was put is there. -/
theorem window_put_same (m : Nat → α) (p : Nat) (hlen : xs.length ≤ N) :
    window (putCircular m N p xs) N p xs.length = xs := by
  apply ext_getElem?
  intro i
  by_cases hi : i < xs.length
  · have hpos : 0 < N := by omega
    rw [window, getElem?_map, getElem?_range hi, Option.map_some,
      putCircular_apply (Nat.mod_lt _ hpos) hlen, mod_distance (by omega),
      getElem?_eq_getElem hi, Option.getD_some]
  · rw [getElem?_eq_none (by simpa using hi), getElem?_eq_none (by omega)]

/-- What stood before it is not touched. -/
theorem window_put_apart (m : Nat → α) (q : Nat) (hlen : n + xs.length ≤ N) :
    window (putCircular m N (q + n) xs) N q n = window m N q n := by
  apply map_congr_left
  intro i hi
  have hi := mem_range.mp hi
  have hpos : 0 < N := by omega
  have hw : q % N < N := Nat.mod_lt _ hpos
  rw [putCircular_apply (Nat.mod_lt _ hpos) (by omega)]
  -- the cell is a full turn less `n - i` ahead of the start of the write
  have hahead : (q + i) % N = ((q + n) + (N - (n - i))) % N := by
    rw [show (q + n) + (N - (n - i)) = (q + i) + N by omega, Nat.add_mod_right]
  rw [hahead, mod_distance (by omega), getElem?_eq_none (by omega), Option.getD_none]

/-- A window is read in at most two runs. -/
theorem window_two_runs (m : Nat → α) (p : Nat) (hn : n ≤ N) :
    window m N p n = run m (p % N) (min n (N - p % N)) ++ run m 0 (n - min n (N - p % N)) := by
  rcases Nat.eq_zero_or_pos N with rfl | hpos
  · obtain rfl : n = 0 := by omega
    simp [window, run]
  have hw : p % N < N := Nat.mod_lt _ hpos
  have hmod : ∀ i, (p + i) % N = (p % N + i) % N := fun i => (Nat.mod_add_mod p N i).symm
  simp only [window, hmod]
  generalize p % N = w at hw ⊢
  conv_lhs => rw [show n = min n (N - w) + (n - min n (N - w)) by omega]
  rw [range_add, map_append, map_map]
  congr 1
  · apply map_congr_left
    intro i hi
    have hi := mem_range.mp hi
    rw [Nat.mod_eq_of_lt (by omega)]
  · apply map_congr_left
    intro i hi
    have hi := mem_range.mp hi
    simp only [Function.comp]
    rw [show w + (min n (N - w) + i) = i + N by omega, Nat.add_mod_right, Nat.mod_eq_of_lt (by omega),
      Nat.zero_add]

/-! ## Cursors -/

/-- How far a cursor is ahead of another. -/
def lag (W lo hi : Nat) : Nat := (hi + W - lo) % W

/-- The entries from cursor `lo` up to cursor `hi`. -/
def between (m : Nat → α) (W N lo hi : Nat) : List α := (List.range (lag W lo hi)).map fun i => m ((lo + i) % W % N)

variable {W lo hi : Nat}

@[simp] theorem length_between : (between m W N lo hi).length = lag W lo hi := by simp [between]

theorem between_eq_window (h : N ∣ W) : between m W N lo hi = window m N lo (lag W lo hi) := by
  apply map_congr_left
  intro i _
  rw [Nat.mod_mod_of_dvd _ h]

theorem lag_eq (hhi : hi < W) (hlo : lo < W) : lag W lo hi = if lo ≤ hi then hi - lo else hi + W - lo := by
  unfold lag
  split
  · rw [show hi + W - lo = (hi - lo) + W by omega, Nat.add_mod_right, Nat.mod_eq_of_lt (by omega)]
  · rw [Nat.mod_eq_of_lt (by omega)]

theorem succ_mod (hlo : lo < W) : (lo + 1) % W = if lo + 1 = W then 0 else lo + 1 := by
  split
  · rename_i h
    rw [h, Nat.mod_self]
  · rw [Nat.mod_eq_of_lt (by omega)]

theorem lag_succ (hhi : hi < W) (hlo : lo < W) (h : lag W lo hi + 1 < W) :
    lag W lo ((hi + 1) % W) = lag W lo hi + 1 := by
  have hpos : (hi + 1) % W < W := Nat.mod_lt _ (by omega)
  rw [lag_eq hhi hlo] at h ⊢
  rw [lag_eq hpos hlo, succ_mod hhi]
  split_ifs at h ⊢ <;> omega

theorem lag_pop (hhi : hi < W) (hlo : lo < W) (hne : lo ≠ hi) : lag W lo hi = lag W ((lo + 1) % W) hi + 1 := by
  have hpos : (lo + 1) % W < W := Nat.mod_lt _ (by omega)
  rw [lag_eq hhi hlo, lag_eq hhi hpos, succ_mod hlo]
  split_ifs <;> omega

@[simp] theorem lag_self (W lo : Nat) : lag W lo lo = 0 := by simp [lag]

/-- Taking the first entry off. -/
theorem between_pop (m : Nat → α) (N : Nat) (hhi : hi < W) (hlo : lo < W) (hne : lo ≠ hi) :
    between m W N lo hi = m (lo % N) :: between m W N ((lo + 1) % W) hi := by
  unfold between
  rw [lag_pop hhi hlo hne, range_succ_eq_map, map_cons, map_map, Nat.add_zero, Nat.mod_eq_of_lt hlo]
  congr 1
  apply map_congr_left
  intro i _
  simp only [Function.comp, Nat.mod_add_mod]
  congr 3
  omega

/-- A window does not meet the cell behind its end, as long as it is shorter than the ring. -/
theorem window_update (x : α) (hn : n < N) :
    window (update m ((p + n) % N) x) N p (n + 1) = window m N p n ++ [x] := by
  rw [window_append]
  congr 1
  · apply map_congr_left
    intro i hi
    have hi := mem_range.mp hi
    apply update_of_ne
    intro he
    have hdist := mod_distance (p := p) (show i < N by omega)
    rw [he, mod_distance hn] at hdist
    omega
  · simp [window]

/-- Appending an entry behind the last, while the cursors do not meet. -/
theorem between_push_apart (m : Nat → α) (x : α) (h : N ∣ W) (hhi : hi < W) (hlo : lo < W) (hroom : lag W lo hi < N)
    (hapart : lag W lo hi + 1 < W) :
    between (update m (hi % N) x) W N lo ((hi + 1) % W) = between m W N lo hi ++ [x] := by
  have hcell : hi % N = (lo + lag W lo hi) % N := by
    unfold lag
    rw [← Nat.mod_mod_of_dvd (lo + (hi + W - lo) % W) h, Nat.add_mod_mod, show lo + (hi + W - lo) = hi + W by omega,
      Nat.add_mod_right, Nat.mod_mod_of_dvd _ h]
  rw [between_eq_window h, between_eq_window h, lag_succ hhi hlo hapart, hcell]
  exact window_update x hroom

theorem between_push (m : Nat → α) (x : α) (h : N ∣ W) (hhi : hi < W) (hlo : lo < W) (hroom : lag W lo hi < N)
    (hNW : N < W) : between (update m (hi % N) x) W N lo ((hi + 1) % W) = between m W N lo hi ++ [x] :=
  between_push_apart m x h hhi hlo hroom (by omega)

end Folkering.Circular
