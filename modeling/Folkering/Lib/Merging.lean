/-
  Merging shapes.

  A collection of shapes is made coarser by putting the JOIN of two of them in their place.  Good shapes stay good, and
  no point that was covered is lost (`Coarser`), whatever is joined and in whatever order:
    * `Coarser.join`      — one merge, up to the order of the collection;
    * `Coarser.collapse`  — everything into one;
    * `swapRemove_perm`   — removal that fills the gap with the last element is a removal.
-/
import Mathlib.Data.List.Perm.Basic

namespace Folkering.Merging

open List

variable {α P : Type}

/-- Shapes with their points; joins of good shapes are good and cover both. -/
structure Shapes (α P : Type) where
  good : α → Prop
  has : α → P → Prop
  join : α → α → α
  good_join : ∀ {a b}, good a → good b → good (join a b)
  has_join : ∀ {a b p}, good a → good b → has a p ∨ has b p → has (join a b) p

section

variable (S : Shapes α P)

/-- The second collection is good when the first is, and then covers it. -/
def Coarser (rs rs' : List α) : Prop :=
  (∀ r ∈ rs, S.good r) → (∀ r ∈ rs', S.good r) ∧ ∀ p, (∃ r ∈ rs, S.has r p) → ∃ r ∈ rs', S.has r p

variable {S}

theorem Coarser.refl (rs : List α) : Coarser S rs rs := fun h => ⟨h, fun _ hp => hp⟩

theorem Coarser.trans {rs rs' rs'' : List α} (h : Coarser S rs rs') (h' : Coarser S rs' rs'') : Coarser S rs rs'' := by
  intro hgood
  obtain ⟨hgood', hcover⟩ := h hgood
  obtain ⟨hgood'', hcover'⟩ := h' hgood'
  exact ⟨hgood'', fun p hp => hcover' p (hcover p hp)⟩

theorem Coarser.of_perm {rs rs' : List α} (h : rs.Perm rs') : Coarser S rs rs' := by
  refine fun hgood => ⟨fun r hr => hgood r (h.mem_iff.mpr hr), ?_⟩
  rintro p ⟨r, hr, hp⟩
  exact ⟨r, h.mem_iff.mp hr, hp⟩

/-- Two shapes become one. -/
theorem Coarser.join {rs rs' rest : List α} {a b : α} (h : rs.Perm (a :: b :: rest))
    (h' : (S.join a b :: rest).Perm rs') : Coarser S rs rs' := by
  refine (Coarser.of_perm h).trans (Coarser.trans (fun hgood => ?_) (Coarser.of_perm h'))
  have ha := hgood a mem_cons_self
  have hb := hgood b (by simp)
  refine ⟨fun r hr => ?_, ?_⟩
  · rcases mem_cons.mp hr with rfl | hr
    · exact S.good_join ha hb
    · exact hgood r (by simp [hr])
  · rintro p ⟨r, hr, hp⟩
    rcases mem_cons.mp hr with rfl | hr
    · exact ⟨_, mem_cons_self, S.has_join ha hb (.inl hp)⟩
    · rcases mem_cons.mp hr with rfl | hr
      · exact ⟨_, mem_cons_self, S.has_join ha hb (.inr hp)⟩
      · exact ⟨r, mem_cons_of_mem _ hr, hp⟩

theorem Coarser.collapse : ∀ (r : α) (rs : List α), Coarser S (r :: rs) [rs.foldl S.join r]
  | r, [] => Coarser.refl [r]
  | r, r' :: rs => (Coarser.join (List.Perm.refl _) (List.Perm.refl _)).trans (Coarser.collapse (S.join r r') rs)

end

/-- Remove element `i`; the last element takes its place. -/
def swapRemove (l : List α) (i : Nat) : List α :=
  match l.getLast? with
  | none => []
  | some z => (l.set i z).dropLast

theorem swapRemove_perm {l : List α} {i : Nat} (h : i < l.length) : l.Perm (l[i] :: swapRemove l i) := by
  rcases eq_nil_or_concat l with rfl | ⟨init, z, rfl⟩
  · cases h
  simp only [concat_eq_append] at h ⊢
  rw [length_append, length_singleton] at h
  unfold swapRemove
  rw [getLast?_append, getLast?_singleton, Option.some_or]
  rcases Nat.lt_or_ge i init.length with hi | hi
  · rw [getElem_append_left hi]
    simp only
    rw [set_append_left _ _ hi, dropLast_append_of_ne_nil (by simp), dropLast_singleton,
      append_nil]
    have hset := (set_perm_cons_eraseIdx hi z).symm
    have hget := getElem_cons_eraseIdx_perm hi
    calc (init ++ [z]).Perm (z :: init) := perm_append_comm
      _ |>.Perm (z :: init[i] :: init.eraseIdx i) := hget.symm.cons z
      _ |>.Perm (init[i] :: z :: init.eraseIdx i) := List.Perm.swap _ _ _
      _ |>.Perm (init[i] :: init.set i z) := hset.cons _
  · obtain rfl : i = init.length := by omega
    simp only
    rw [getElem_concat_length rfl, set_append_right _ _ (Nat.le_refl _), Nat.sub_self, set_cons_zero,
      dropLast_append_of_ne_nil (by simp), dropLast_singleton, append_nil]
    exact perm_append_comm

/-- What stands before the gap stays. -/
theorem getElem_swapRemove {l : List α} {i j : Nat} (hij : i < j) (hj : j < l.length) {h : i < (swapRemove l j).length} :
    (swapRemove l j)[i] = l[i] := by
  rcases eq_nil_or_concat l with rfl | ⟨init, z, rfl⟩
  · cases hj
  · unfold swapRemove
    simp [getElem_dropLast, Nat.ne_of_gt hij]

theorem swapRemove_length {l : List α} {i : Nat} (h : i < l.length) : (swapRemove l i).length + 1 = l.length :=
  (swapRemove_perm h).length_eq.symm

end Folkering.Merging
