/-
  HEAPSORT and binary search on an array.

  An array is a function on indices with a length.  `heapsort` builds a heap from the middle down and takes its largest
  entry off the front again and again; both use `siftDown`.  The comparison is a Boolean function that decides `<` on a
  key (`hlt` below).
    * `Sifting`        — a heap with one entry out of place, and what its parent knows about its children;
    * `heapsort_perm`, `heapsort_sorted` — the result is a rearrangement, in order;
    * `search_spec`    — halving an array in order finds an entry with the key if there is one.
-/
import Mathlib

namespace Folkering.Heapsort

variable {α β : Type}

/-- Exchange two entries. -/
def swap (a : Nat → α) (i j : Nat) : Nat → α := a ∘ Equiv.swap i j

section

variable (lt : α → α → Bool)

/-- The index of the largest of an entry and its children. -/
def largest (a : Nat → α) (root stop : Nat) : Nat :=
  let max := if lt (a root) (a (2 * root + 1)) then 2 * root + 1 else root
  if 2 * root + 2 < stop ∧ lt (a max) (a (2 * root + 2)) then 2 * root + 2 else max

/-- Moves an entry down until it is as large as its children. -/
def siftDown : Nat → (Nat → α) → Nat → Nat → (Nat → α)
  | 0, a, _, _ => a
  | fuel + 1, a, root, stop =>
    if stop ≤ 2 * root + 1 then a
    else if largest lt a root stop = root then a
    else siftDown fuel (swap a root (largest lt a root stop)) (largest lt a root stop) stop

/-- Sifts the entries below `i`, the last first. -/
def build (n : Nat) : Nat → (Nat → α) → (Nat → α)
  | 0, a => a
  | i + 1, a => build n i (siftDown lt n a i n)

/-- Moves the largest of the first `stop` entries to their end, until there is one left. -/
def extract : Nat → (Nat → α) → (Nat → α)
  | 0, a => a
  | 1, a => a
  | stop + 2, a => extract (stop + 1) (siftDown lt (stop + 1) (swap a 0 (stop + 1)) 0 (stop + 1))

/-- Build the heap, then take its maxima off. -/
def heapsort (n : Nat) (a : Nat → α) : Nat → α := if n ≤ 1 then a else extract lt n (build lt n (n / 2) a)

end

/-! ## Rearrangements -/

/-- The array is the other one with its first `n` entries rearranged. -/
def Rearranged (n : Nat) (a b : Nat → α) : Prop := ∃ σ : Equiv.Perm Nat, b = a ∘ σ ∧ ∀ k, n ≤ k → σ k = k

namespace Rearranged

variable {n m : Nat} {a b c : Nat → α}

theorem refl (n : Nat) (a : Nat → α) : Rearranged n a a := ⟨1, rfl, fun _ _ => rfl⟩

theorem trans (h : Rearranged n a b) (h' : Rearranged n b c) : Rearranged n a c := by
  obtain ⟨σ, rfl, hσ⟩ := h
  obtain ⟨τ, rfl, hτ⟩ := h'
  refine ⟨σ * τ, rfl, fun k hk => ?_⟩
  rw [Equiv.Perm.mul_apply, hτ k hk, hσ k hk]

theorem mono (h : Rearranged n a b) (hnm : n ≤ m) : Rearranged m a b := by
  obtain ⟨σ, hb, hσ⟩ := h
  exact ⟨σ, hb, fun k hk => hσ k (hnm.trans hk)⟩

theorem swap {i j : Nat} (a : Nat → α) (hi : i < n) (hj : j < n) : Rearranged n a (swap a i j) :=
  ⟨Equiv.swap i j, rfl, fun _ hk => Equiv.swap_apply_of_ne_of_ne (by omega) (by omega)⟩

/-- Entries behind the first `n` stay. -/
theorem apply_of_le (h : Rearranged n a b) {k : Nat} (hk : n ≤ k) : b k = a k := by
  obtain ⟨σ, rfl, hσ⟩ := h
  rw [Function.comp, hσ k hk]

/-- An entry among the first `n` was among them before. -/
theorem exists_lt (h : Rearranged n a b) {k : Nat} (hk : k < n) : ∃ i < n, b k = a i := by
  obtain ⟨σ, rfl, hσ⟩ := h
  refine ⟨σ k, ?_, rfl⟩
  by_contra hle
  have hfix := hσ (σ k) (Nat.not_lt.mp hle)
  have hk' := σ.injective hfix
  omega

/-- As lists the arrays are permutations of each other. -/
theorem perm (h : Rearranged n a b) : ((List.range n).map b).Perm ((List.range n).map a) := by
  obtain ⟨σ, rfl, hσ⟩ := h
  have hrange : ((List.range n).map σ).Perm (List.range n) := by
    rw [List.perm_ext_iff_of_nodup (List.nodup_range.map σ.injective) List.nodup_range]
    intro k
    simp only [List.mem_map, List.mem_range]
    constructor
    · rintro ⟨i, hi, rfl⟩
      by_contra hle
      have hi' := σ.injective (hσ (σ i) (Nat.not_lt.mp hle))
      omega
    · intro hk
      refine ⟨σ.symm k, ?_, σ.apply_symm_apply k⟩
      by_contra hle
      have hfix := hσ (σ.symm k) (Nat.not_lt.mp hle)
      rw [σ.apply_symm_apply] at hfix
      omega
  rw [← List.map_map]
  exact hrange.map a

end Rearranged

theorem siftDown_rearranged (lt : α → α → Bool) (fuel : Nat) (a : Nat → α) (root stop : Nat) :
    Rearranged stop a (siftDown lt fuel a root stop) := by
  induction fuel generalizing a root with
  | zero => exact Rearranged.refl stop a
  | succ fuel ih =>
    rw [siftDown]
    split_ifs with hleaf hmax
    · exact Rearranged.refl stop a
    · exact Rearranged.refl stop a
    · refine (Rearranged.swap a (by omega) ?_).trans (ih _ _)
      simp only [largest]
      split_ifs <;> omega

theorem build_rearranged (lt : α → α → Bool) (n i : Nat) (a : Nat → α) : Rearranged n a (build lt n i a) := by
  induction i generalizing a with
  | zero => exact Rearranged.refl n a
  | succ i ih => exact (siftDown_rearranged lt n a i n).trans (ih _)

theorem extract_rearranged (lt : α → α → Bool) (stop : Nat) (a : Nat → α) : Rearranged stop a (extract lt stop a) := by
  fun_induction extract lt stop a with
  | case1 a => exact Rearranged.refl 0 a
  | case2 a => exact Rearranged.refl 1 a
  | case3 stop a ih =>
    have hswap : Rearranged (stop + 2) a (swap a 0 (stop + 1)) := Rearranged.swap a (by omega) (by omega)
    exact hswap.trans (((siftDown_rearranged lt _ _ 0 (stop + 1)).trans ih).mono (by omega))

theorem heapsort_perm (lt : α → α → Bool) (n : Nat) (a : Nat → α) :
    ((List.range n).map (heapsort lt n a)).Perm ((List.range n).map a) := by
  refine Rearranged.perm ?_
  unfold heapsort
  split_ifs
  · exact Rearranged.refl n a
  · exact (build_rearranged lt n _ a).trans (extract_rearranged lt n _)

/-! ## Order -/

section

variable [LinearOrder β] {key : α → β} {lt : α → α → Bool} (hlt : ∀ x y, lt x y = true ↔ key x < key y)

/-- The entry is as large as its children. -/
def Dominates (key : α → β) (a : Nat → α) (i stop : Nat) : Prop :=
  ∀ c, c = 2 * i + 1 ∨ c = 2 * i + 2 → c < stop → key (a c) ≤ key (a i)

/-- From index `s` on the array is a heap, but for the entry `root`. -/
structure Sifting (key : α → β) (a : Nat → α) (s root stop : Nat) : Prop where
  others : ∀ i, s ≤ i → i ≠ root → Dominates key a i stop
  above : ∀ p, s ≤ p → root = 2 * p + 1 ∨ root = 2 * p + 2 →
    ∀ c, c = 2 * root + 1 ∨ c = 2 * root + 2 → c < stop → key (a c) ≤ key (a p)

include hlt

theorem largest_spec (a : Nat → α) {root stop : Nat} (hleft : 2 * root + 1 < stop) :
    (largest lt a root stop = root ∨ largest lt a root stop = 2 * root + 1 ∨ largest lt a root stop = 2 * root + 2) ∧
      largest lt a root stop < stop ∧ key (a root) ≤ key (a (largest lt a root stop)) ∧
      ∀ c, c = 2 * root + 1 ∨ c = 2 * root + 2 → c < stop → key (a c) ≤ key (a (largest lt a root stop)) := by
  unfold largest
  simp only [hlt]
  split_ifs with h1 h2 h3
  · refine ⟨Or.inr (Or.inr rfl), h2.1, (h1.trans h2.2).le, ?_⟩
    rintro c (rfl | rfl) _
    · exact h2.2.le
    · exact le_rfl
  · refine ⟨Or.inr (Or.inl rfl), hleft, h1.le, ?_⟩
    rintro c (rfl | rfl) hc
    · exact le_rfl
    · exact le_of_not_gt fun hgt => h2 ⟨hc, hgt⟩
  · refine ⟨Or.inr (Or.inr rfl), h3.1, h3.2.le, ?_⟩
    rintro c (rfl | rfl) _
    · exact (le_of_not_gt h1).trans h3.2.le
    · exact le_rfl
  · refine ⟨Or.inl rfl, by omega, le_rfl, ?_⟩
    rintro c (rfl | rfl) hc
    · exact le_of_not_gt h1
    · exact le_of_not_gt fun hgt => h3 ⟨hc, hgt⟩

/-- One step down. -/
theorem Sifting.step {a : Nat → α} {s root stop : Nat} (h : Sifting key a s root stop) (hs : s ≤ root)
    (hleft : 2 * root + 1 < stop) (hne : largest lt a root stop ≠ root) :
    Sifting key (swap a root (largest lt a root stop)) s (largest lt a root stop) stop := by
  obtain ⟨hcases, hstop, hroot, hmax⟩ := largest_spec hlt a hleft
  generalize largest lt a root stop = m at *
  have hm : m = 2 * root + 1 ∨ m = 2 * root + 2 := hcases.resolve_left hne
  have hat : swap a root m root = a m := congrArg a (Equiv.swap_apply_left root m)
  have hat' : swap a root m m = a root := congrArg a (Equiv.swap_apply_right root m)
  have hother : ∀ i, i ≠ root → i ≠ m → swap a root m i = a i := fun i hi hi' =>
    congrArg a (Equiv.swap_apply_of_ne_of_ne hi hi')
  constructor
  · intro i hi him c hc hcs
    by_cases hir : i = root
    · subst hir
      rw [hat]
      by_cases hcm : c = m
      · rw [hcm, hat']
        exact hroot
      · rw [hother c (by omega) hcm]
        exact hmax c hc hcs
    · rw [hother i hir him]
      by_cases hcr : c = root
      · -- the parent of the place
        rw [hcr, hat]
        exact h.above i hi (by omega) m hm hstop
      · rw [hother c hcr (by omega)]
        exact h.others i hi hir c hc hcs
  · intro p hp hpm c hc hcs
    obtain rfl : p = root := by omega
    rw [hat, hother c (by omega) (by omega)]
    exact h.others m (by omega) (by omega) c hc hcs

theorem siftDown_heap {fuel s : Nat} {a : Nat → α} {root stop : Nat} (hfuel : stop ≤ fuel + root) (hs : s ≤ root)
    (h : Sifting key a s root stop) : ∀ i, s ≤ i → Dominates key (siftDown lt fuel a root stop) i stop := by
  induction fuel generalizing a root with
  | zero =>
    intro i hi c hc hcs
    exact h.others i hi (by omega) c hc hcs
  | succ fuel ih =>
    rw [siftDown]
    split_ifs with hleaf hmax
    · intro i hi c hc hcs
      exact h.others i hi (by omega) c hc hcs
    · intro i hi c hc hcs
      by_cases hir : i = root
      · subst hir
        have hspec := (largest_spec hlt a (Nat.not_le.mp hleaf)).2.2.2 c hc hcs
        rwa [hmax] at hspec
      · exact h.others i hi hir c hc hcs
    · obtain ⟨hcases, _⟩ := largest_spec hlt a (Nat.not_le.mp hleaf)
      exact ih (by omega) (by omega) (h.step hlt hs (Nat.not_le.mp hleaf) hmax)

/-- The heap is built from the middle down. -/
theorem build_heap {n i : Nat} {a : Nat → α} (h : ∀ j, i ≤ j → Dominates key a j n) :
    ∀ j, Dominates key (build lt n i a) j n := by
  induction i generalizing a with
  | zero => exact fun j => h j (Nat.zero_le j)
  | succ i ih =>
    refine ih (siftDown_heap hlt (by omega) (Nat.le_refl i) ⟨?_, ?_⟩)
    · exact fun j hj hne => h j (by omega)
    · intro p hp hroot
      omega

omit hlt in
/-- The first entry of a heap is its largest. -/
theorem heap_max {a : Nat → α} {stop : Nat} (h : ∀ i, Dominates key a i stop) (i : Nat) (hi : i < stop) :
    key (a i) ≤ key (a 0) := by
  induction i using Nat.strongRecOn with
  | _ i ih =>
    rcases Nat.eq_zero_or_pos i with rfl | hpos
    · exact le_rfl
    · exact (h ((i - 1) / 2) i (by omega) hi).trans (ih ((i - 1) / 2) (by omega) (by omega))

/-- Extraction: a heap in front, and behind it larger entries in order. -/
theorem extract_sorted {n stop : Nat} {a : Nat → α} (hstop : stop ≤ n) (hheap : ∀ i, Dominates key a i stop)
    (hlarge : ∀ i j, i < stop → stop ≤ j → j < n → key (a i) ≤ key (a j))
    (hsorted : ∀ i j, stop ≤ i → i ≤ j → j < n → key (a i) ≤ key (a j)) :
    ∀ i j, i ≤ j → j < n → key (extract lt stop a i) ≤ key (extract lt stop a j) := by
  fun_induction extract lt stop a with
  | case1 a => exact fun i j hij hj => hsorted i j (Nat.zero_le i) hij hj
  | case2 a =>
    intro i j hij hj
    rcases Nat.eq_zero_or_pos i with rfl | hpos
    · rcases Nat.eq_zero_or_pos j with rfl | hpos
      · exact le_rfl
      · exact hlarge 0 j Nat.one_pos hpos hj
    · exact hsorted i j hpos hij hj
  | case3 stop a ih =>
    have hlast : swap a 0 (stop + 1) (stop + 1) = a 0 := congrArg a (Equiv.swap_apply_right 0 (stop + 1))
    have hswap : Rearranged (stop + 2) a (swap a 0 (stop + 1)) := Rearranged.swap a (by omega) (by omega)
    have hsift := siftDown_rearranged lt (stop + 1) (swap a 0 (stop + 1)) 0 (stop + 1)
    have hmove : ∀ k, stop + 1 ≤ k → siftDown lt (stop + 1) (swap a 0 (stop + 1)) 0 (stop + 1) k =
        if k = stop + 1 then a 0 else a k := by
      intro k hk
      rw [hsift.apply_of_le hk]
      split_ifs with hk'
      · rw [hk', hlast]
      · exact hswap.apply_of_le (by omega)
    refine ih (by omega) ?_ ?_ ?_
    · -- the entry that was moved to the front is sifted
      refine fun i => siftDown_heap hlt (by omega) (Nat.le_refl 0) ⟨?_, ?_⟩ i (Nat.zero_le i)
      · intro i _ hi c hc hcs
        have hkeep : ∀ k, k ≠ 0 → k < stop + 1 → swap a 0 (stop + 1) k = a k := fun k hk hk' =>
          congrArg a (Equiv.swap_apply_of_ne_of_ne hk (by omega))
        rw [hkeep c (by omega) hcs, hkeep i hi (by omega)]
        exact hheap i c hc (by omega)
      · intro p _ hroot
        omega
    · intro i j hi hj hjn
      obtain ⟨i', hi', heq⟩ := hsift.exists_lt hi
      obtain ⟨i'', hi'', heq'⟩ := hswap.exists_lt (show i' < stop + 2 by omega)
      rw [heq, heq', hmove j hj]
      split_ifs with hj'
      · exact heap_max hheap i'' hi''
      · exact hlarge i'' j hi'' (by omega) hjn
    · intro i j hi hij hjn
      rw [hmove i hi, hmove j (by omega)]
      split_ifs with hi' hj' hj'
      · exact le_rfl
      · exact hlarge 0 j (by omega) (by omega) hjn
      · omega
      · exact hsorted i j (by omega) hij hjn

/-- The result is in order. -/
theorem heapsort_sorted (n : Nat) (a : Nat → α) {i j : Nat} (hij : i ≤ j) (hj : j < n) :
    key (heapsort lt n a i) ≤ key (heapsort lt n a j) := by
  unfold heapsort
  split_ifs with hn
  · rw [show i = j by omega]
  · refine extract_sorted hlt (Nat.le_refl n) (build_heap hlt ?_) ?_ ?_ i j hij hj
    · intro k hk c hc hcn
      omega
    · intro i j hi hj hjn
      omega
    · intro i j hi hij hjn
      omega

end

/-! ## Search -/

/-- Halves the indices from `lo` to `hi`; `less` and `equal` compare an entry with what is sought. -/
def search (less equal : α → Bool) (a : Nat → α) : Nat → Nat → Nat → Option α
  | 0, _, _ => none
  | fuel + 1, lo, hi =>
    if lo < hi then
      let mid := lo + (hi - lo) / 2
      if less (a mid) then search less equal a fuel (mid + 1) hi
      else if equal (a mid) then some (a mid)
      else search less equal a fuel lo mid
    else none

/-- What a search finds is an entry, in order or not. -/
theorem search_mem {less equal : α → Bool} {a : Nat → α} {fuel lo hi : Nat} {x : α}
    (h : search less equal a fuel lo hi = some x) : ∃ i < hi, a i = x := by
  fun_induction search less equal a fuel lo hi with
  | case1 => cases h
  | case2 fuel lo hi hlt mid hless ih => exact ih h
  | case3 fuel lo hi hlt mid hless hequal => exact ⟨mid, by omega, Option.some.inj h⟩
  | case4 fuel lo hi hlt mid hless hequal ih =>
    obtain ⟨i, hi', hx⟩ := ih h
    exact ⟨i, by omega, hx⟩
  | case5 => cases h

/-- In an array in order the search finds an entry with the key if there is one. -/
theorem search_spec [LinearOrder β] {key : α → β} {less equal : α → Bool} {x : β} {a : Nat → α}
    (hless : ∀ y, less y = true ↔ key y < x) (hequal : ∀ y, equal y = true ↔ key y = x) {n : Nat}
    (hsorted : ∀ i j, i ≤ j → j < n → key (a i) ≤ key (a j)) {fuel lo hi : Nat} (hfuel : hi < fuel + lo) (hhi : hi ≤ n)
    (hbelow : ∀ i, i < lo → key (a i) < x) (habove : ∀ i, hi ≤ i → i < n → x < key (a i)) :
    (∃ i < n, search less equal a fuel lo hi = some (a i) ∧ key (a i) = x) ∨
      search less equal a fuel lo hi = none ∧ ∀ i < n, key (a i) ≠ x := by
  -- nothing is left between the bounds
  have hend : ∀ {lo hi : Nat}, hi ≤ lo → (∀ i, i < lo → key (a i) < x) → (∀ i, hi ≤ i → i < n → x < key (a i)) →
      ∀ i < n, key (a i) ≠ x := by
    intro lo hi hle hbelow habove i hin heq
    rcases Nat.lt_or_ge i lo with h | h
    · exact absurd heq (hbelow i h).ne
    · exact absurd heq (habove i (by omega) hin).ne'
  induction fuel generalizing lo hi with
  | zero => exact Or.inr ⟨rfl, hend (by omega) hbelow habove⟩
  | succ fuel ih =>
    rw [search]
    by_cases hlohi : lo < hi
    · rw [if_pos hlohi]
      simp only
      generalize hmid : lo + (hi - lo) / 2 = mid
      split_ifs with hl he
      · refine ih (by omega) hhi (fun i hin => ?_) habove
        exact lt_of_le_of_lt (hsorted i mid (by omega) (by omega)) ((hless _).mp hl)
      · exact Or.inl ⟨mid, by omega, rfl, (hequal _).mp he⟩
      · refine ih (by omega) (by omega) hbelow fun i hi' hin => ?_
        have hgt : x < key (a mid) :=
          lt_of_le_of_ne (le_of_not_gt fun h => hl ((hless _).mpr h)) fun h => he ((hequal _).mpr h.symm)
        exact lt_of_lt_of_le hgt (hsorted mid i hi' hin)
    · rw [if_neg hlohi]
      exact Or.inr ⟨rfl, hend (by omega) hbelow habove⟩

end Folkering.Heapsort
