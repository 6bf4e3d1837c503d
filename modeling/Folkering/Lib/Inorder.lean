/-
  In-order traversal — an explicit path against the recursion.

  Places `p : P` are leaves or inner places with kids (`Node`).  `leaves n p` are the leaves below `p`, left
  to right, by recursion, when no path from `p` is longer than `n` places.  A cursor is a leaf and the path
  to it: the inner places above it, innermost first, each with the index of the kid it has entered.
    * `descend`, `climb`  — to the first leaf below a place; from a leaf's path to the next leaf;
    * `Spine`             — a path, with the leaves that are still to come;
    * `descend_spec`, `climb_spec` — the cursor meets the leaves in the order of the recursion.
-/
import Mathlib.Algebra.Ring.Nat
import Mathlib.Data.List.Basic

namespace Folkering.Inorder

/-- A node of a search tree: a leaf, or children. -/
inductive Node (P L : Type) where
  | leaf (l : L)
  | inner (kid : P) (kids : List P)
deriving Repr, DecidableEq

variable {P L : Type}

/-- The concatenation of what `f` gives for the places, if it gives something for each. -/
def collect (f : P → Option (List L)) : List P → Option (List L)
  | [] => some []
  | p :: ps => (f p).bind fun ls => (collect f ps).map (ls ++ ·)

variable (node : P → Option (Node P L))

/-- The leaves below a place, left to right, with at most `n` places on each path. -/
def leaves : Nat → P → Option (List L)
  | 0, _ => none
  | n + 1, p => match node p with
    | none => none
    | some (.leaf l) => some [l]
    | some (.inner kid kids) => collect (leaves n) (kid :: kids)

/-- The first leaf below a place, and the path to it. -/
def descend : Nat → P → List (P × Nat) → Option (P × L × List (P × Nat))
  | 0, _, _ => none
  | n + 1, p, path => match node p with
    | none => none
    | some (.leaf l) => some (p, l, path)
    | some (.inner kid _) => descend n kid ((p, 0) :: path)

/-- The next leaf after those below the kids that a path has entered. -/
def climb (limit : Nat) : List (P × Nat) → Option (Option (P × L × List (P × Nat)))
  | [] => some none
  | (p, i) :: path => match node p with
    | some (.inner kid kids) => match (kid :: kids)[i + 1]? with
      | some k => (descend node (limit - (path.length + 1)) k ((p, i + 1) :: path)).map some
      | none => climb limit path
    | _ => none

/-- A path with the leaves below the kids it has not yet entered. -/
inductive Spine (limit : Nat) : List (P × Nat) → List L → Prop
  | nil : Spine limit [] []
  | cons {p kid : P} {kids : List P} {i : Nat} {path : List (P × Nat)} {ls rest : List L} :
      node p = some (.inner kid kids) → i ≤ kids.length →
      collect (leaves node (limit - (path.length + 1))) ((kid :: kids).drop (i + 1)) = some ls →
      Spine limit path rest → Spine limit ((p, i) :: path) (ls ++ rest)

variable {node} {limit : Nat}

theorem collect_cons {f : P → Option (List L)} {p : P} {ps : List P} {ls : List L}
    (h : collect f (p :: ps) = some ls) :
    ∃ first rest, f p = some first ∧ collect f ps = some rest ∧ ls = first ++ rest := by
  obtain ⟨first, hfirst, h⟩ := Option.bind_eq_some_iff.mp h
  obtain ⟨rest, hrest, rfl⟩ := Option.map_eq_some_iff.mp h
  exact ⟨first, rest, hfirst, hrest, rfl⟩

/-- The descent ends at the first of the leaves and has the others ahead of it. -/
theorem descend_spec {n : Nat} {p : P} {path : List (P × Nat)} {ls rest : List L}
    (hls : leaves node n p = some ls) (hpath : Spine node limit path rest)
    (hn : path.length + n = limit) :
    ∃ q l path' ls', descend node n p path = some (q, l, path') ∧ node q = some (.leaf l) ∧
      ls = l :: ls' ∧ Spine node limit path' (ls' ++ rest) := by
  induction n generalizing p path ls rest with
  | zero => cases hls
  | succ n ih =>
    simp only [leaves] at hls
    cases hp : node p with
    | none => simp [hp] at hls
    | some place =>
      cases place with
      | leaf l =>
        simp only [hp, Option.some.injEq] at hls
        exact ⟨p, l, path, [], by simp [descend, hp], hp, hls.symm, hpath⟩
      | inner kid kids =>
        simp only [hp] at hls
        obtain ⟨first, others, hfirst, hothers, rfl⟩ := collect_cons hls
        have hlimit : limit - (path.length + 1) = n := by omega
        have hspine : Spine node limit ((p, 0) :: path) (others ++ rest) :=
          .cons hp (Nat.zero_le _) (by rw [hlimit]; exact hothers) hpath
        obtain ⟨q, l, path', ls', hd, hq, rfl, hpath'⟩ :=
          ih hfirst hspine (by rw [List.length_cons]; omega)
        refine ⟨q, l, path', ls' ++ others, ?_, hq, rfl, ?_⟩
        · simp only [descend, hp]
          exact hd
        · rw [List.append_assoc]
          exact hpath'

/-- Climbing finds the next leaf, or the end when there is none. -/
theorem climb_spec {path : List (P × Nat)} {rest : List L} (h : Spine node limit path rest) :
    (rest = [] ∧ climb node limit path = some none) ∨
    ∃ q l path' rest', rest = l :: rest' ∧ climb node limit path = some (some (q, l, path')) ∧
      node q = some (.leaf l) ∧ Spine node limit path' rest' := by
  induction h with
  | nil => exact .inl ⟨rfl, rfl⟩
  | @cons p kid kids i path ls rest hp hi hls hpath ih =>
    simp only [climb, hp]
    cases hk : (kid :: kids)[i + 1]? with
    | none =>
      -- the last kid is done: there is nothing left at this place
      have hlen : (kid :: kids).length ≤ i + 1 := List.getElem?_eq_none_iff.mp hk
      rw [List.drop_eq_nil_of_le hlen] at hls
      cases hls
      simpa using ih
    | some k =>
      obtain ⟨hlt, rfl⟩ := List.getElem?_eq_some_iff.mp hk
      rw [List.drop_eq_getElem_cons hlt] at hls
      obtain ⟨first, others, hfirst, hothers, rfl⟩ := collect_cons hls
      have hpos : limit - (path.length + 1) ≠ 0 := by
        intro h0
        rw [h0] at hfirst
        cases hfirst
      have hspine : Spine node limit ((p, i + 1) :: path) (others ++ rest) :=
        .cons hp (Nat.succ_le_of_lt (by simpa using hlt)) hothers hpath
      obtain ⟨q, l, path', ls', hd, hq, rfl, hpath'⟩ :=
        descend_spec hfirst hspine (by rw [List.length_cons]; omega)
      refine .inr ⟨q, l, path', ls' ++ (others ++ rest), ?_, ?_, hq, hpath'⟩
      · simp
      · simp only [hd, Option.map_some]

end Folkering.Inorder
