/-
  Chain — singly linked lists that live in memory.

  A cell stores nothing but the address of the next cell, so a list is a HEAD pointer together with a
  memory `mem : A → Option A`; the abstract list it stands for is the predicate `Linked mem head l`.
  Everything a user needs about such a list is here, with no reference to what the cells are for:
    * `Linked.frame`   — writes outside the list do not disturb it;
    * `Linked.push`    — writing a fresh cell in front of it;
    * `holds`         — the search walk, capped at a number of hops, and what it finds (`holds_iff`);
    * `unlink`        — the removal walk under the same cap, and `unlink_spec`: after a successful
                        search it never gives up and removes exactly the cell searched for.
-/
import Mathlib.Data.List.Basic
import Mathlib.Logic.Function.Basic

namespace Folkering.Chain

open List Function

variable {A : Type}

/-! ## The list a head pointer stands for -/

/-- `Linked mem p l`: following `mem` from the pointer `p` visits exactly the cells `l`, in order. -/
def Linked (mem : A → Option A) : Option A → List A → Prop
  | p, [] => p = none
  | p, a :: l => p = some a ∧ Linked mem (mem a) l

variable {mem : A → Option A} {l : List A}

theorem chain_some_iff {a : A} : Linked mem (some a) l ↔ ∃ t, l = a :: t ∧ Linked mem (mem a) t := by
  cases l with
  | nil => simp [Linked]
  | cons b t =>
    simp only [Linked, Option.some.injEq, List.cons.injEq]
    constructor
    · rintro ⟨rfl, h⟩
      exact ⟨t, ⟨rfl, rfl⟩, h⟩
    · rintro ⟨t', ⟨rfl, rfl⟩, h⟩
      exact ⟨rfl, h⟩

variable {p : Option A}

/-- **Frame**: a memory that agrees on the cells of the list has the same list. -/
theorem Linked.frame {mem mem' : A → Option A} (h : Linked mem p l)
    (heq : ∀ a ∈ l, mem' a = mem a) : Linked mem' p l := by
  induction l generalizing p with
  | nil => exact h
  | cons a l ih =>
    refine ⟨h.1, ?_⟩
    rw [heq a mem_cons_self]
    exact ih h.2 fun b hb => heq b (mem_cons_of_mem _ hb)

/-- The pointer `k` hops on. -/
def hop (mem : A → Option A) : Nat → Option A → Option A
  | 0, p => p
  | _, none => none
  | k + 1, some p => hop mem k (mem p)

theorem hop_none (mem : A → Option A) : ∀ k, hop mem k none = none
  | 0 => rfl
  | _ + 1 => rfl

variable {x : A}

/-- The cells of the list are those some hops away. -/
theorem Linked.mem_iff_hop : ∀ {l : List A} {p : Option A}, Linked mem p l → (x ∈ l ↔ ∃ k, hop mem k p = some x)
  | [], p, h => by
    rw [show p = none from h]
    simp [hop_none]
  | a :: l, p, h => by
    obtain ⟨rfl, ht⟩ := h
    rw [mem_cons, ht.mem_iff_hop]
    constructor
    · rintro (rfl | ⟨k, hk⟩)
      · exact ⟨0, rfl⟩
      · exact ⟨k + 1, hk⟩
    · rintro ⟨_ | k, hk⟩
      · exact .inl (Option.some.inj hk).symm
      · exact .inr ⟨k, hk⟩

variable [DecidableEq A]

theorem Linked.update_of_notMem {a : A}
    {v : Option A} (h : Linked mem p l) (ha : a ∉ l) : Linked (update mem a v) p l :=
  by
  refine h.frame fun b hb => update_of_ne ?_ _ _
  rintro rfl
  exact ha hb

/-- **Push**: a cell outside the list, pointed at the old head, is the new head. -/
theorem Linked.push {a : A} (h : Linked mem p l) (ha : a ∉ l) : Linked (update mem a p) (some a) (a :: l) := by
  refine ⟨rfl, ?_⟩
  rw [update_self]
  exact h.update_of_notMem ha

/-! ## The search walk -/

/-- Look for the cell `x`, following at most `n` cells. -/
def holds (mem : A → Option A) (x : A) : Nat → Option A → Bool
  | _, none => false
  | 0, some _ => false
  | n + 1, some p => if p = x then true else holds mem x n (mem p)

/-- **The search finds the cells less than `n` hops away.** -/
theorem holds_iff : ∀ {n : Nat} {p : Option A}, holds mem x n p = true ↔ ∃ k < n, hop mem k p = some x
  | 0, none => by simp [holds]
  | 0, some _ => by simp [holds]
  | n + 1, none => by simp [holds, hop_none]
  | n + 1, some p => by
    simp only [holds]
    by_cases hp : p = x
    · rw [if_pos hp]
      exact ⟨fun _ => ⟨0, by omega, congrArg some hp⟩, fun _ => rfl⟩
    · rw [if_neg hp, holds_iff]
      constructor
      · rintro ⟨k, hk, h⟩
        exact ⟨k + 1, by omega, h⟩
      · rintro ⟨k, hk, h⟩
        cases k with
        | zero => exact absurd (Option.some.inj h) hp
        | succ k => exact ⟨k, by omega, h⟩

theorem mem_of_holds {n : Nat} (h : Linked mem p l) (hf : holds mem x n p = true) : x ∈ l := by
  induction l generalizing n p with
  | nil =>
    rw [show p = none from h] at hf
    cases n <;> simp [holds] at hf
  | cons a l ih =>
    obtain ⟨rfl, ht⟩ := h
    cases n with
    | zero => simp [holds] at hf
    | succ n =>
      simp only [holds] at hf
      split at hf
      · next he => exact he ▸ mem_cons_self
      · exact mem_cons_of_mem _ (ih ht hf)

/-! ## The removal walk -/

/-- What the removal walk decided to write. -/
inductive Unlink (A : Type) where
  /-- the cell was the head; the head becomes its successor -/
  | newHead (next : Option A)
  /-- the cell followed `prev`, which is pointed at its successor -/
  | relink (prev : A) (next : Option A)
  /-- the hop cap was reached first -/
  | gaveUp
  /-- the end was reached without meeting the cell -/
  | missing
deriving Repr, DecidableEq

/-- Walk to the cell `x`, remembering the cell before, and say which pointer skips it. -/
def unlink (mem : A → Option A) (x : A) : Nat → Option A → Option A → Unlink A
  | _, _, none => .missing
  | 0, _, some _ => .gaveUp
  | n + 1, prev, some p =>
    if p = x then
      match prev with
      | none => .newHead (mem p)
      | some q => .relink q (mem p)
    else unlink mem x n (some p) (mem p)

/-- A cell the search finds is met by the removal, in any memory. -/
theorem unlink_found : ∀ {n : Nat} {p : Option A} (prev : Option A),
    holds mem x n p = true → (∃ t, unlink mem x n prev p = .newHead t) ∨ ∃ q t, unlink mem x n prev p = .relink q t
  | 0, none, _, h => by cases h
  | 0, some _, _, h => by cases h
  | n + 1, none, _, h => by cases h
  | n + 1, some p, prev, h => by
    simp only [holds, unlink] at h ⊢
    by_cases hp : p = x
    · rw [if_pos hp]
      cases prev with
      | none => exact .inl ⟨_, rfl⟩
      | some q => exact .inr ⟨q, _, rfl⟩
    · rw [if_neg hp] at h ⊢
      exact unlink_found (some p) h

/-- The removal walk past its first cell: the pointer rewritten is one of the cells walked over, and
    the list from the first of them on loses exactly `x`. -/
theorem unlink_spec_from : ∀ {n : Nat} {q : A} {l : List A}, Linked mem (mem q) l → (q :: l).Nodup →
      holds mem x n (mem q) = true → ∃ q' t, unlink mem x n (some q) (mem q) = .relink q' t ∧ q' ∈ q :: l ∧
        Linked (update mem q' t) (some q) (q :: l.erase x) := by
  intro n q l
  induction l generalizing n q with
  | nil =>
    intro hc _ hf
    exact absurd (mem_of_holds hc hf) (not_mem_nil)
  | cons b l ih =>
    intro hc hnd hf
    obtain ⟨hqb, hc⟩ := hc
    have hqn : q ∉ b :: l := (nodup_cons.mp hnd).1
    have hnd' : (b :: l).Nodup := (nodup_cons.mp hnd).2
    rw [hqb] at hf ⊢
    cases n with
    | zero => simp [holds] at hf
    | succ n =>
      simp only [holds, unlink] at hf ⊢
      by_cases hbx : b = x
      · -- the next cell is the one: `q` is pointed past it
        subst hbx
        rw [if_pos rfl, erase_cons_head]
        refine ⟨q, mem b, rfl, mem_cons_self, rfl, ?_⟩
        rw [update_self]
        exact hc.update_of_notMem fun h => hqn (mem_cons_of_mem _ h)
      · rw [if_neg hbx] at hf ⊢
        obtain ⟨q', t, hu, hq', hch⟩ := ih hc hnd' hf
        refine ⟨q', t, hu, mem_cons_of_mem _ hq', rfl, ?_⟩
        have hne : q ≠ q' := fun h => hqn (h ▸ hq')
        rw [update_of_ne hne, hqb, erase_cons_tail (by simpa using hbx)]
        exact hch

/-- **Removal after a successful search.**  It does not give up, and either moves the head or
    rewrites one cell of the list; the list that results is the old one without `x`. -/
theorem unlink_spec {n : Nat} (hc : Linked mem p l) (hnd : l.Nodup) (hf : holds mem x n p = true) :
    (∃ t, unlink mem x n none p = .newHead t ∧ Linked mem t (l.erase x)) ∨
    (∃ q t, unlink mem x n none p = .relink q t ∧ q ∈ l ∧ Linked (update mem q t) p (l.erase x)) := by
  cases l with
  | nil => exact absurd (mem_of_holds hc hf) (not_mem_nil)
  | cons a l =>
    obtain ⟨rfl, hc⟩ := hc
    cases n with
    | zero => simp [holds] at hf
    | succ n =>
      simp only [holds, unlink] at hf ⊢
      by_cases hax : a = x
      · subst hax
        rw [if_pos rfl, erase_cons_head]
        exact Or.inl ⟨mem a, rfl, hc⟩
      · rw [if_neg hax] at hf ⊢
        obtain ⟨q, t, hu, hq, hch⟩ := unlink_spec_from hc hnd hf
        rw [erase_cons_tail (by simpa using hax)]
        exact Or.inr ⟨q, t, hu, hq, hch⟩

end Folkering.Chain
