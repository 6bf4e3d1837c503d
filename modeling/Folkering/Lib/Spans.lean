/-
  Spans — half-open ranges of addresses, and PACKINGS of them.

  An allocator's safety argument is about ranges, not about the structures that name them: a range is
  cut in two, two neighbours are joined, one is shrunk or dropped, and at every moment no two of the
  ranges in play share an address.  This file is that bookkeeping:
    * `Span`     — a half-open range `[lo, hi)`;
    * `Apart`    — two spans share no address;
    * `Packed`   — a list of spans, pairwise apart (a LIST, so a range listed twice is an overlap);
    * `Packed.split`, `Packed.join`, `Packed.shrink` — the three ways a packing is rearranged;
    * `Packed.sum_size_le` — spans that are apart have no more addresses than the range they lie in;
    * `Tiling`   — a packing that covers a given set of addresses exactly;
    * `Arrangement` — what packings and tilings have in common: order does not matter, and a span
                   may be split or joined with its neighbour;
    * `flat`     — the spans of a family of lists, one list per class, and `flat_take`: taking one
                   element out of one class is taking it out of the whole.
-/
import Mathlib.Algebra.Ring.Nat
import Mathlib.Data.List.Perm.Basic
import Mathlib.Data.List.Range
import Mathlib.Logic.Function.Basic
import Mathlib.Order.Interval.Finset.Nat

namespace Folkering.Spans

open List Function

/-! ## Spans -/

/-- A half-open range of addresses `[lo, hi)`. -/
structure Span where
  lo : Nat
  hi : Nat
deriving Repr, DecidableEq

/-- The address `x` lies in the span. -/
def Span.Has (s : Span) (x : Nat) : Prop := s.lo ≤ x ∧ x < s.hi

/-- Every address of `s` is one of `t`, endpoints included. -/
def Span.Within (s t : Span) : Prop := t.lo ≤ s.lo ∧ s.hi ≤ t.hi

instance (s t : Span) : Decidable (s.Within t) := inferInstanceAs (Decidable (_ ∧ _))

/-- No address lies in both. -/
def Apart (s t : Span) : Prop := ∀ x, ¬ (s.Has x ∧ t.Has x)

theorem Apart.symm {s t : Span} (h : Apart s t) : Apart t s :=
  fun x hx => h x ⟨hx.2, hx.1⟩

instance : Std.Symm Apart := ⟨fun _ _ h => h.symm⟩

/-- Two spans that both have addresses are apart iff one ends before the other begins. -/
theorem apart_iff {s t : Span} (hs : s.lo < s.hi) (ht : t.lo < t.hi) :
    Apart s t ↔ s.hi ≤ t.lo ∨ t.hi ≤ s.lo := by
  constructor
  · intro h
    have h1 := h s.lo
    have h2 := h t.lo
    simp only [Span.Has] at h1 h2
    omega
  · intro h x hx
    simp only [Span.Has] at hx
    omega

theorem Apart.mono {s t s' : Span} (h : Apart s t) (hsub : ∀ x, s'.Has x → s.Has x) : Apart s' t :=
  fun x hx => h x ⟨hsub x hx.1, hx.2⟩

theorem Span.Within.has {s t : Span} (h : s.Within t) {x : Nat} (hx : s.Has x) : t.Has x := by
  simp only [Span.Within, Span.Has] at *
  omega

/-! ## Packings -/

/-- A list of spans no two of which share an address. -/
def Packed (l : List Span) : Prop := l.Pairwise Apart

theorem packed_cons {s : Span} {l : List Span} :
    Packed (s :: l) ↔ (∀ t ∈ l, Apart s t) ∧ Packed l := pairwise_cons

theorem Packed.perm {l l' : List Span} (h : Packed l) (hp : l.Perm l') : Packed l' :=
  (hp.pairwise_iff (fun h => h.symm)).mp h

theorem Packed.sublist {l l' : List Span} (h : Packed l) (hs : l'.Sublist l) : Packed l' :=
  List.Pairwise.sublist hs h

/-- **Shrink**: a span may be replaced by any span whose addresses it had. -/
theorem Packed.shrink {s s' : Span} {l : List Span} (h : Packed (s :: l))
    (hsub : ∀ x, s'.Has x → s.Has x) : Packed (s' :: l) := by
  rw [packed_cons] at h ⊢
  exact ⟨fun t ht => (h.1 t ht).mono hsub, h.2⟩

/-- **Split**: a span cut at `m` gives two. -/
theorem Packed.split {lo m hi : Nat} {l : List Span} (h : Packed (⟨lo, hi⟩ :: l))
    (h1 : lo ≤ m) (h2 : m ≤ hi) : Packed (⟨lo, m⟩ :: ⟨m, hi⟩ :: l) := by
  rw [packed_cons] at h
  rw [packed_cons, packed_cons]
  refine ⟨?_, ?_, h.2⟩
  · intro t ht x hx
    simp only [Span.Has] at hx
    rcases mem_cons.mp ht with rfl | ht
    · simp only at hx; omega
    · exact h.1 t ht x ⟨by simp only [Span.Has]; omega, hx.2⟩
  · intro t ht x hx
    simp only [Span.Has] at hx
    exact h.1 t ht x ⟨by simp only [Span.Has]; omega, hx.2⟩

/-- **Join**: two neighbours give one. -/
theorem Packed.join {lo m hi : Nat} {l : List Span} (h : Packed (⟨lo, m⟩ :: ⟨m, hi⟩ :: l)) :
    Packed (⟨lo, hi⟩ :: l) := by
  rw [packed_cons, packed_cons] at h
  rw [packed_cons]
  refine ⟨fun t ht x hx => ?_, h.2.2⟩
  rcases Nat.lt_or_ge x m with hlt | hge
  · exact h.1 t (mem_cons_of_mem _ ht) x ⟨⟨hx.1.1, hlt⟩, hx.2⟩
  · exact h.2.1 t ht x ⟨⟨hge, hx.1.2⟩, hx.2⟩

/-- The addresses of a packing, as a set with as many elements as the spans have together. -/
theorem Packed.exists_finset : ∀ {l : List Span}, Packed l →
    ∃ F : Finset Nat, F.card = (l.map fun s => s.hi - s.lo).sum ∧ ∀ x, x ∈ F ↔ ∃ s ∈ l, s.Has x
  | [], _ => ⟨∅, rfl, fun x => by simp⟩
  | s :: l, h => by
    rw [packed_cons] at h
    obtain ⟨F, hcard, hmem⟩ := h.2.exists_finset
    have hdis : Disjoint (Finset.Ico s.lo s.hi) F := by
      refine Finset.disjoint_left.mpr fun x hx hF => ?_
      obtain ⟨t, ht, hxt⟩ := (hmem x).mp hF
      exact h.1 t ht x ⟨Finset.mem_Ico.mp hx, hxt⟩
    refine ⟨Finset.Ico s.lo s.hi ∪ F, ?_, fun x => ?_⟩
    · rw [Finset.card_union_of_disjoint hdis, Nat.card_Ico, hcard, map_cons, sum_cons]
    · rw [Finset.mem_union, Finset.mem_Ico, hmem]
      simp only [mem_cons, exists_eq_or_imp, Span.Has]

/-- **A packing is no longer than the addresses it lies in.** -/
theorem Packed.sum_size_le {l : List Span} {n : Nat} (h : Packed l) (hn : ∀ s ∈ l, s.hi ≤ n) :
    (l.map fun s => s.hi - s.lo).sum ≤ n := by
  obtain ⟨F, hcard, hmem⟩ := h.exists_finset
  have hsub : F ⊆ Finset.range n := fun x hx => by
    obtain ⟨s, hs, hxs⟩ := (hmem x).mp hx
    exact Finset.mem_range.mpr (Nat.lt_of_lt_of_le hxs.2 (hn s hs))
  calc (l.map fun s => s.hi - s.lo).sum = F.card := hcard.symm
    _ ≤ (Finset.range n).card := Finset.card_le_card hsub
    _ = n := Finset.card_range n

/-! ## Tilings -/

/-- A packing whose spans have exactly the addresses of `U`. -/
def Tiling (U : Nat → Prop) (l : List Span) : Prop :=
  Packed l ∧ ∀ x, (∃ s ∈ l, s.Has x) ↔ U x

/-- A property of lists of spans that survives every rearrangement which loses no address. -/
structure Arrangement (C : List Span → Prop) : Prop where
  packed : ∀ {l}, C l → Packed l
  perm : ∀ {l l'}, C l → l.Perm l' → C l'
  split : ∀ {lo m hi l}, C (⟨lo, hi⟩ :: l) → lo ≤ m → m ≤ hi → C (⟨lo, m⟩ :: ⟨m, hi⟩ :: l)
  join : ∀ {lo m hi l}, lo ≤ m → m ≤ hi → C (⟨lo, m⟩ :: ⟨m, hi⟩ :: l) → C (⟨lo, hi⟩ :: l)

theorem Arrangement.of_packed : Arrangement Packed where
  packed h := h
  perm h hp := h.perm hp
  split h h1 h2 := h.split h1 h2
  join _ _ h := h.join

/-- Cutting a span changes no address. -/
theorem has_split {lo m hi x : Nat} {l : List Span} (h1 : lo ≤ m) (h2 : m ≤ hi) :
    (∃ s ∈ (⟨lo, m⟩ :: ⟨m, hi⟩ :: l : List Span), s.Has x) ↔
      ∃ s ∈ (⟨lo, hi⟩ :: l : List Span), s.Has x := by
  simp only [exists_mem_cons_iff, ← or_assoc]
  refine or_congr_left ?_
  simp only [Span.Has]
  omega

theorem Arrangement.of_tiling (U : Nat → Prop) : Arrangement (Tiling U) where
  packed h := h.1
  perm h hp := ⟨h.1.perm hp, fun x => by simpa only [hp.mem_iff] using h.2 x⟩
  split h h1 h2 := ⟨h.1.split h1 h2, fun x => (has_split h1 h2).trans (h.2 x)⟩
  join h1 h2 h := ⟨h.1.join, fun x => (has_split h1 h2).symm.trans (h.2 x)⟩

/-! ## A family of lists, one per class -/

/-- All elements of the classes `0 … n-1`, each tagged by `mk`. -/
def flat {α β : Type} (n : Nat) (mk : Nat → α → β) (fl : Nat → List α) : List β :=
  (List.range n).flatMap fun o => (fl o).map (mk o)

theorem mem_flat {α β : Type} {n : Nat} {mk : Nat → α → β} {fl : Nat → List α} {b : β} :
    b ∈ flat n mk fl ↔ ∃ o, o < n ∧ ∃ a ∈ fl o, mk o a = b := by
  simp [flat]

/-- A class above the range does not count. -/
theorem flat_update_ge {α β : Type} {n o : Nat} {mk : Nat → α → β} {fl : Nat → List α}
    {t : List α} (h : n ≤ o) : flat n mk (update fl o t) = flat n mk fl := by
  unfold flat
  rw [flatMap_def, flatMap_def]
  congr 1
  refine map_congr_left fun i hi => ?_
  have : i ≠ o := by have := mem_range.mp hi; omega
  rw [update_of_ne this]

/-- **Taking one element out of one class takes it out of the whole.** -/
theorem flat_take {α β : Type} {n o : Nat} {mk : Nat → α → β} {fl : Nat → List α}
    {a : α} {t : List α} (ho : o < n) (h : (fl o).Perm (a :: t)) :
    (flat n mk fl).Perm (mk o a :: flat n mk (update fl o t)) := by
  induction n with
  | zero => omega
  | succ n ih =>
    have hsplit : ∀ g : Nat → List α, flat (n + 1) mk g = flat n mk g ++ (g n).map (mk n) := by
      intro g
      simp [flat, range_succ]
    rw [hsplit, hsplit]
    rcases Nat.lt_or_ge o n with hlt | hge
    · -- the class lies below the last one, which is left alone
      rw [update_of_ne (by omega), ← cons_append]
      exact (ih hlt).append_right _
    · -- the class IS the last one
      have : o = n := by omega
      subst this
      rw [flat_update_ge (Nat.le_refl o), update_self]
      refine ((h.map (mk o)).append_left _).trans ?_
      rw [map_cons]
      exact perm_middle

end Folkering.Spans
