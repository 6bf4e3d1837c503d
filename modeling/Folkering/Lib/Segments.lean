/-
  Segments of linked cells in a memory of words.

  `Seg next p l q` says that the links lead from the pointer `p` over the cells `l`, in this order, to the pointer `q`;
  the null pointer is `0`.  A search keeps the cell before the one it looks at, to link around it:
    * `walk`, `walk_spec` — the search for the first cell that passes a test, with enough fuel for the list;
    * `Seg.frame`         — what is written elsewhere does not matter;
    * `Seg.link`          — linking the cell before the found one to another list.
-/
import Mathlib.Logic.Function.Basic
import Mathlib.Data.List.Basic

namespace Folkering.Segments

variable {next next' : Nat → Nat} {p q : Nat} {l l₁ l₂ : List Nat}

/-- A linked list from one pointer to another through the given nodes. -/
def Seg (next : Nat → Nat) : Nat → List Nat → Nat → Prop
  | p, [], q => p = q
  | p, a :: l, q => p = a ∧ a ≠ 0 ∧ Seg next (next a) l q

theorem seg_append : ∀ {p : Nat} {l₁ : List Nat}, Seg next p (l₁ ++ l₂) q ↔ ∃ r, Seg next p l₁ r ∧ Seg next r l₂ q
  | p, [] => by simp [Seg]
  | p, a :: l₁ => by
    simp only [List.cons_append, Seg, @seg_append (next a) l₁]
    constructor
    · rintro ⟨hp, ha, r, h₁, h₂⟩
      exact ⟨r, ⟨hp, ha, h₁⟩, h₂⟩
    · rintro ⟨r, ⟨hp, ha, h₁⟩, h₂⟩
      exact ⟨hp, ha, r, h₁, h₂⟩

theorem Seg.frame : ∀ {p : Nat} {l : List Nat}, Seg next p l q → (∀ a ∈ l, next' a = next a) → Seg next' p l q
  | _, [], h, _ => h
  | _, a :: l, ⟨hp, ha, h⟩, heq => by
    refine ⟨hp, ha, ?_⟩
    rw [heq a List.mem_cons_self]
    exact h.frame fun b hb => heq b (List.mem_cons_of_mem _ hb)

/-- A list is empty iff its pointer is null. -/
theorem Seg.head (h : Seg next p l 0) : p = l.head?.getD 0 := by
  cases l with
  | nil => exact h
  | cons a l => exact h.1

theorem Seg.ne_zero : ∀ {p : Nat} {l : List Nat}, Seg next p l q → ∀ a ∈ l, a ≠ 0
  | _, [], _, a, ha => by cases ha
  | _, b :: l, ⟨_, hb, h⟩, a, ha => by
    rcases List.mem_cons.mp ha with rfl | ha
    · exact hb
    · exact h.ne_zero a ha

/-! ## The search -/

/-- From the cell `cur`, with `prev` before it, to the first cell that passes the test. -/
def walk (next : Nat → Nat) (stop : Nat → Bool) : Nat → Nat → Nat → Option (Nat × Nat)
  | 0, _, _ => none
  | n + 1, prev, cur =>
    if cur = 0 ∨ stop cur = true then some (prev, cur) else walk next stop n cur (next cur)

theorem walk_spec {stop : Nat → Bool} : ∀ {l : List Nat} {n prev p : Nat}, Seg next p l 0 → l.length < n →
    ∃ l₁ l₂, l = l₁ ++ l₂ ∧ walk next stop n prev p = some (l₁.getLast?.getD prev, l₂.head?.getD 0) ∧
      (∀ a ∈ l₁, stop a = false) ∧ ∀ a, l₂.head? = some a → stop a = true
  | [], n + 1, prev, p, h, _ => by
    refine ⟨[], [], rfl, ?_, by simp, by simp⟩
    rw [walk, if_pos (.inl h), h]
    rfl
  | a :: l, n + 1, prev, p, ⟨hp, ha, h⟩, hn => by
    subst hp
    by_cases hstop : stop p = true
    · refine ⟨[], p :: l, rfl, ?_, by simp, ?_⟩
      · rw [walk, if_pos (.inr hstop)]
        rfl
      · intro b hb
        cases hb
        exact hstop
    · obtain ⟨l₁, l₂, rfl, hw, hno, hyes⟩ := @walk_spec stop l n p (next p) h (Nat.lt_of_succ_lt_succ hn)
      refine ⟨p :: l₁, l₂, rfl, ?_, ?_, hyes⟩
      · rw [walk, if_neg (by simp [ha, hstop]), hw, List.getLast?_cons]
        rfl
      · intro b hb
        rcases List.mem_cons.mp hb with rfl | hb
        · simpa using hstop
        · exact hno b hb

/-! ## Relinking -/

/-- The head after the cell before (if there is one) was linked to `q`. -/
def linkHead (head prev q : Nat) : Nat := if prev = 0 then q else head

/-- Linking the last cell of a segment to another list, in links that differ at most there. -/
theorem Seg.link {head r : Nat} (h : Seg next head l₁ r) (hl : Seg next q l₂ 0) (hnodup : (l₁ ++ l₂).Nodup)
    (hlink : l₁ ≠ [] → next' (l₁.getLast?.getD 0) = q)
    (hsame : ∀ a ∈ l₁ ++ l₂, a ≠ l₁.getLast?.getD 0 → next' a = next a) :
    Seg next' (linkHead head (l₁.getLast?.getD 0) q) (l₁ ++ l₂) 0 := by
  rcases List.eq_nil_or_concat l₁ with rfl | ⟨l, p, rfl⟩
  · have h0 : ∀ a ∈ l₂, a ≠ 0 := hl.ne_zero
    exact hl.frame fun a ha => hsame a ha (h0 a ha)
  · simp only [List.concat_eq_append, List.getLast?_append, List.getLast?_singleton, Option.some_or,
      Option.getD_some] at h hnodup hlink hsame ⊢
    obtain ⟨r', hpre, hr', hp, -⟩ := seg_append.mp h
    subst hr'
    have hp' : linkHead head r' q = head := if_neg hp
    rw [List.append_assoc, List.nodup_append] at hnodup
    obtain ⟨-, hnodup', hdisj⟩ := hnodup
    rw [hp', List.append_assoc]
    refine seg_append.mpr ⟨r', hpre.frame fun a ha => hsame a (by simp [ha]) ?_, rfl, hp, ?_⟩
    · exact hdisj a ha r' (by simp)
    · rw [hlink (by simp)]
      refine hl.frame fun a ha => hsame a (by simp [ha]) ?_
      rintro rfl
      exact (List.nodup_cons.mp hnodup').1 ha

end Folkering.Segments
