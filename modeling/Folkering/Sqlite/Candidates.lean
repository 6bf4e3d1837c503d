/-
  The candidate buffer of the two-pass vector search.

  `CandidateBuffer::insert` keeps the candidates sorted by distance: it walks back from the end over every candidate
  that is STRICTLY farther, shifts those by one cell and writes the new one.  A full buffer loses its worst candidate.

  1. **Program** — `findPos`, `shiftUp` and `CandidateBuffer.insert` on an array of cells.
  2. **Specification** — `stableSort`, Mathlib's insertion sort by distance, of the whole history.
  3. **The crux** (`stableSort_snoc`) — an insertion sort inserts from the last element on, the buffer from the first:
     inserting BEFORE equals commutes with inserting AFTER equals (`insertAfter_comm`).
  The buffer has 1000 cells whatever capacity it is asked for, so it is the top of the sort cut at 1000 (`top_k`).
-/
import Mathlib

namespace Folkering.Sqlite

open List Function

/-- A candidate with its distance. -/
structure BQCandidate (Meta : Type) where
  vectorMeta : Meta
  hammingDistance : Nat
deriving Repr, DecidableEq

/-- The cells of the buffer. -/
def maxCandidates : Nat := 1000

/-- The cells, and how many are in use. -/
structure CandidateBuffer (Meta : Type) where
  candidates : Nat → BQCandidate Meta
  count : Nat

variable {Meta : Type}

/-- The loop that looks for the insertion point, from `pos` downwards. -/
def findPos (cells : Nat → BQCandidate Meta) (hammingDistance : Nat) : Nat → Nat
  | 0 => 0
  | pos + 1 => if hammingDistance < (cells pos).hammingDistance then findPos cells hammingDistance pos else pos + 1

/-- The shifting loop, for `i` in `(pos..n).rev()`. -/
def shiftUp (pos : Nat) : Nat → (Nat → BQCandidate Meta) → Nat → BQCandidate Meta
  | 0, cells => cells
  | n + 1, cells => if pos ≤ n then shiftUp pos n (update cells (n + 1) (cells n)) else cells

/-- Shifts the cells up to `n` and writes at the insertion point. -/
def insertBelow (cells : Nat → BQCandidate Meta) (n : Nat) (a : BQCandidate Meta) : Nat → BQCandidate Meta :=
  let pos := findPos cells a.hammingDistance n
  update (shiftUp pos n cells) pos a

namespace CandidateBuffer

/-- The empty buffer. -/
def new [Inhabited Meta] : CandidateBuffer Meta := { candidates := fun _ => ⟨default, 0⟩, count := 0 }

/-- A buffer for no candidates panics: it reads the cell before the first. -/
def insert (b : CandidateBuffer Meta) (a : BQCandidate Meta) (capacity : Nat) : Option (CandidateBuffer Meta) :=
  let maxKeep := min capacity maxCandidates
  if b.count < maxKeep then
    some { candidates := insertBelow b.candidates b.count a, count := b.count + 1 }
  else if maxKeep = 0 then none
  else if (b.candidates (maxKeep - 1)).hammingDistance ≤ a.hammingDistance then some b
  else some { b with candidates := insertBelow b.candidates (maxKeep - 1) a }

/-- The candidates in the buffer. -/
def asSlice (b : CandidateBuffer Meta) : List (BQCandidate Meta) := (List.range b.count).map b.candidates

/-- A sequence of inserts; `none` is a panic. -/
def insertAll (b : CandidateBuffer Meta) (capacity : Nat) (history : List (BQCandidate Meta)) :
    Option (CandidateBuffer Meta) :=
  history.foldlM (fun b a => b.insert a capacity) b

end CandidateBuffer

/-! ## The stable sort -/

/-- By distance, equal ones in the order of arrival. -/
def stableSort (history : List (BQCandidate Meta)) : List (BQCandidate Meta) :=
  history.insertionSort fun a b => a.hammingDistance ≤ b.hammingDistance

/-- Insertion behind all candidates that are not farther. -/
def insertAfter (a : BQCandidate Meta) (l : List (BQCandidate Meta)) : List (BQCandidate Meta) :=
  l.orderedInsert (fun a b => a.hammingDistance < b.hammingDistance) a

section

variable {a b w : BQCandidate Meta} {l : List (BQCandidate Meta)}

theorem insertAfter_cons (a c : BQCandidate Meta) (l : List (BQCandidate Meta)) :
    insertAfter a (c :: l) = if a.hammingDistance < c.hammingDistance then a :: c :: l else c :: insertAfter a l := rfl

/-- The earlier candidate `b` is inserted before its equals, the later one `a` after them. -/
theorem insertAfter_comm (a b : BQCandidate Meta) (l : List (BQCandidate Meta)) :
    insertAfter a (l.orderedInsert (fun a b => a.hammingDistance ≤ b.hammingDistance) b) =
      (insertAfter a l).orderedInsert (fun a b => a.hammingDistance ≤ b.hammingDistance) b := by
  induction l with
  | nil =>
    simp only [insertAfter, orderedInsert_nil, orderedInsert_cons]
    split_ifs <;> first | rfl | omega
  | cons c l ih =>
    simp only [orderedInsert_cons, insertAfter_cons]
    split_ifs <;> simp only [insertAfter_cons, orderedInsert_cons, ih] <;> split_ifs <;> first | rfl | omega

theorem stableSort_snoc (l : List (BQCandidate Meta)) (a : BQCandidate Meta) :
    stableSort (l ++ [a]) = insertAfter a (stableSort l) := by
  induction l with
  | nil => rfl
  | cons c l ih =>
    change (stableSort (l ++ [a])).orderedInsert _ c = _
    rw [ih]
    exact (insertAfter_comm a c (stableSort l)).symm

theorem insertAfter_eq_append (h : ∀ c ∈ l, c.hammingDistance ≤ a.hammingDistance) : insertAfter a l = l ++ [a] := by
  induction l with
  | nil => rfl
  | cons c l ih =>
    rw [insertAfter_cons, if_neg (Nat.not_lt.mpr (h c mem_cons_self)),
      ih fun d hd => h d (mem_cons_of_mem c hd), cons_append]

/-- The last of a sorted list is the farthest. -/
theorem le_of_last_le (hsorted : (l ++ [w]).Pairwise fun a b => a.hammingDistance ≤ b.hammingDistance)
    (h : w.hammingDistance ≤ a.hammingDistance) : ∀ c ∈ l ++ [w], c.hammingDistance ≤ a.hammingDistance := by
  intro c hc
  rcases mem_append.mp hc with hc | hc
  · exact Nat.le_trans ((pairwise_append.mp hsorted).2.2 c hc w (mem_singleton_self w)) h
  · rw [mem_singleton.mp hc]
    exact h

theorem insertAfter_append (h : a.hammingDistance < w.hammingDistance) :
    insertAfter a (l ++ [w]) = insertAfter a l ++ [w] := by
  induction l with
  | nil => rw [nil_append, insertAfter_cons, if_pos h]; rfl
  | cons c l ih =>
    rw [cons_append, insertAfter_cons, insertAfter_cons, ih]
    split_ifs <;> rfl

theorem take_insertAfter (k : Nat) (a : BQCandidate Meta) (l : List (BQCandidate Meta)) :
    (insertAfter a l).take k = (insertAfter a (l.take k)).take k := by
  induction l generalizing k with
  | nil => rw [take_nil]
  | cons c l ih =>
    cases k with
    | zero => rfl
    | succ k =>
      rw [take_succ_cons, insertAfter_cons, insertAfter_cons]
      split_ifs
      · cases k with
        | zero => rfl
        | succ k => simp only [take_succ_cons, take_take, Nat.min_eq_left (Nat.le_succ k)]
      · rw [take_succ_cons, take_succ_cons, ih k]

end

/-! ## One insertion -/

theorem findPos_le (cells : Nat → BQCandidate Meta) (d n : Nat) : findPos cells d n ≤ n := by
  fun_induction findPos cells d n with
  | case1 => exact Nat.le_refl 0
  | case2 pos _ ih => exact Nat.le_succ_of_le ih
  | case3 => exact Nat.le_refl _

theorem shiftUp_apply (pos n : Nat) (cells : Nat → BQCandidate Meta) (i : Nat) :
    shiftUp pos n cells i = if pos < i ∧ i ≤ n then cells (i - 1) else cells i := by
  fun_induction shiftUp pos n cells with
  | case1 => rw [if_neg (by omega)]
  | case2 n cells hle ih =>
    rw [ih, update_apply, update_apply]
    split_ifs <;> first | rfl | omega | exact congrArg cells (by omega)
  | case3 n cells hlt => rw [if_neg (by omega)]

theorem insertBelow_apply (cells : Nat → BQCandidate Meta) (a : BQCandidate Meta) {n i : Nat} (hi : i ≤ n) :
    insertBelow cells n a i = if i = findPos cells a.hammingDistance n then a
      else if i < findPos cells a.hammingDistance n then cells i else cells (i - 1) := by
  rw [insertBelow, update_apply, shiftUp_apply]
  split_ifs <;> first | rfl | omega

/-- **One insertion** into sorted cells. -/
theorem insertBelow_sorted (cells : Nat → BQCandidate Meta) (n : Nat) (a : BQCandidate Meta)
    (h : ((List.range n).map cells).Pairwise fun a b => a.hammingDistance ≤ b.hammingDistance) :
    (List.range (n + 1)).map (insertBelow cells n a) = insertAfter a ((List.range n).map cells) := by
  induction n with
  | zero => rfl
  | succ n ih =>
    have hsnoc : (List.range (n + 1)).map cells = (List.range n).map cells ++ [cells n] := by
      rw [range_succ, map_append, map_singleton]
    rw [hsnoc] at h ⊢
    rw [range_succ, map_append, map_singleton, insertBelow_apply cells a (Nat.le_refl (n + 1))]
    have hpos := findPos_le cells a.hammingDistance n
    by_cases hlt : a.hammingDistance < (cells n).hammingDistance
    · have hfind : findPos cells a.hammingDistance (n + 1) = findPos cells a.hammingDistance n := if_pos hlt
      rw [insertAfter_append hlt, ← ih (pairwise_append.mp h).1, hfind, if_neg (by omega), if_neg (by omega)]
      refine congrArg (· ++ [cells n]) (map_congr_left fun i hi => ?_)
      have hi := mem_range.mp hi
      rw [insertBelow_apply cells a (by omega : i ≤ n + 1), insertBelow_apply cells a (by omega : i ≤ n), hfind]
    · have hfind : findPos cells a.hammingDistance (n + 1) = n + 1 := if_neg hlt
      rw [insertAfter_eq_append (le_of_last_le h (Nat.not_lt.mp hlt)), hfind, if_pos rfl, ← hsnoc]
      refine congrArg (· ++ [a]) (map_congr_left fun i hi => ?_)
      have hi := mem_range.mp hi
      rw [insertBelow_apply cells a (by omega), hfind, if_neg (by omega), if_pos (by omega)]

/-! ## The history -/

namespace CandidateBuffer

/-- **One step**: a buffer that has the top of the history has the top of the longer one. -/
theorem insert_top {b : CandidateBuffer Meta} {history : List (BQCandidate Meta)} {capacity : Nat} (hcap : 1 ≤ capacity)
    (h : b.asSlice = (stableSort history).take (min capacity maxCandidates)) (a : BQCandidate Meta) :
    ∃ b', b.insert a capacity = some b' ∧
      b'.asSlice = (stableSort (history ++ [a])).take (min capacity maxCandidates) := by
  have hk : 0 < min capacity maxCandidates := Nat.lt_min.mpr ⟨hcap, by decide⟩
  generalize hkeep : min capacity maxCandidates = k at h hk
  have hsorted : b.asSlice.Pairwise fun a b => a.hammingDistance ≤ b.hammingDistance := by
    rw [h]
    exact (pairwise_insertionSort _ history).sublist (take_sublist _ _)
  have hlen : b.asSlice.length = b.count := by rw [asSlice, length_map, length_range]
  have hcount : b.count ≤ k := by
    rw [← hlen, h]
    exact length_take_le _ _
  rw [stableSort_snoc, take_insertAfter, ← h]
  simp only [insert, hkeep]
  by_cases hroom : b.count < k
  · rw [if_pos hroom]
    refine ⟨_, rfl, ?_⟩
    have hins : (List.range (b.count + 1)).map (insertBelow b.candidates b.count a) = insertAfter a b.asSlice :=
      insertBelow_sorted b.candidates b.count a hsorted
    have hall : (insertAfter a b.asSlice).length ≤ k := by
      rw [insertAfter, orderedInsert_length, hlen]
      exact hroom
    rw [take_of_length_le hall]
    exact hins
  · -- full: the worst candidate is the last of the slice
    obtain ⟨n, rfl⟩ : ∃ n, k = n + 1 := ⟨k - 1, by omega⟩
    have hfull : b.count = n + 1 := by omega
    have hslice : b.asSlice = (List.range n).map b.candidates ++ [b.candidates n] := by
      rw [asSlice, hfull, range_succ, map_append, map_singleton]
    rw [if_neg hroom, if_neg (Nat.succ_ne_zero n), Nat.add_sub_cancel]
    rw [hslice] at hsorted
    by_cases hworse : (b.candidates n).hammingDistance ≤ a.hammingDistance
    · rw [if_pos hworse]
      refine ⟨b, rfl, ?_⟩
      rw [← hfull, ← hlen, hslice, insertAfter_eq_append (le_of_last_le hsorted hworse), take_left]
    · rw [if_neg hworse]
      refine ⟨_, rfl, ?_⟩
      have hcells := insertBelow_sorted b.candidates n a (pairwise_append.mp hsorted).1
      have hlength : (insertAfter a ((List.range n).map b.candidates)).length = n + 1 := by
        rw [insertAfter, orderedInsert_length, length_map, length_range]
      rw [hslice, insertAfter_append (Nat.not_le.mp hworse), take_left' hlength, asSlice, hfull]
      exact hcells

theorem insertAll_top [Inhabited Meta] {capacity : Nat} (hcap : 1 ≤ capacity) (history : List (BQCandidate Meta)) :
    ∃ b, insertAll new capacity history = some b ∧
      b.asSlice = (stableSort history).take (min capacity maxCandidates) := by
  induction history using List.reverseRecOn with
  | nil => exact ⟨.new, rfl, by simp [stableSort, asSlice, new]⟩
  | append_singleton history a ih =>
    obtain ⟨b, hb, htop⟩ := ih
    obtain ⟨b', hb', htop'⟩ := insert_top hcap htop a
    refine ⟨b', ?_, htop'⟩
    rw [insertAll, foldlM_append, ← insertAll, hb]
    simpa using hb'

/-- **The buffer is a stable top-k**, cut at its 1000 cells. -/
theorem top_k [Inhabited Meta] (capacity : Nat) (hcap : 1 ≤ capacity) (history : List (BQCandidate Meta)) :
    (insertAll new capacity history).map asSlice =
      some ((stableSort history).take (min capacity 1000)) := by
  obtain ⟨b, hb, htop⟩ := insertAll_top hcap history
  rw [hb, Option.map_some, htop]
  rfl

/-- One cell keeps the first of two candidates at the same distance. -/
theorem top_one : (insertAll new 1 [⟨0, 2⟩, ⟨1, 1⟩, ⟨2, 1⟩]).map asSlice = some [(⟨1, 1⟩ : BQCandidate Nat)] :=
  top_k 1 (by decide) [⟨0, 2⟩, ⟨1, 1⟩, ⟨2, 1⟩]

/-- A buffer asked for 1001 candidates keeps 1000. -/
theorem top_1001 : (insertAll new 1001 (List.replicate 1001 (⟨0, 0⟩ : BQCandidate Nat))).map asSlice ≠
    some ((stableSort (List.replicate 1001 (⟨0, 0⟩ : BQCandidate Nat))).take 1001) := by
  intro heq
  obtain ⟨b, hb, htop⟩ := insertAll_top (by decide : 1 ≤ 1001) (List.replicate 1001 (⟨0, 0⟩ : BQCandidate Nat))
  rw [hb, Option.map_some, htop] at heq
  have hlen := congrArg List.length (Option.some.inj heq)
  rw [length_take, length_take, stableSort, length_insertionSort, length_replicate] at hlen
  exact absurd hlen (by decide)

end CandidateBuffer

end Folkering.Sqlite
