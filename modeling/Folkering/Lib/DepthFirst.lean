/-
  DepthFirst — a graph walk that marks places when it finds them and goes on from the last one found.

  The walk keeps the places found and a stack of those to go on from, each with the number of steps it was
  found after.  It is meant to give every place within `limit` steps with its distance.  Since it goes on
  from the last place found and not from the first, the numbers are right only if no place is found on a
  longer way before it is found on a shortest one.
  The tree that a right walk follows can be told beforehand: `level` lists the places at each distance, each
  place under the first of the level above that has it as a neighbour (`child`), and `order` is the tree
  depth first.
    * `mem_level`  — the levels are the distances;
    * `fresh_eq`   — at a place of the order, a walk that was right so far finds the children;
    * `right_iff`  — the walk is right exactly when at each place of the order every neighbour that is not
                     farther has been found on a shortest way before.
-/
import Mathlib.Data.List.Induction
import Mathlib.Data.List.Nodup
import Mathlib.Data.List.Pairwise

namespace Folkering.DepthFirst

open List

variable {α : Type}

/-! ## Places with their distances -/

/-- The places of a list that are at a distance. -/
def atDepth (k : Nat) (l : List (α × Nat)) : List α := (l.filter (·.2 = k)).map Prod.fst

variable {k : Nat}

theorem mem_atDepth {l : List (α × Nat)} {x : α} : x ∈ atDepth k l ↔ (x, k) ∈ l := by
  simp [atDepth]

theorem atDepth_append (k : Nat) (l m : List (α × Nat)) : atDepth k (l ++ m) = atDepth k l ++ atDepth k m := by
  simp [atDepth]

theorem atDepth_flatMap (k : Nat) (l : List α) (f : α → List (α × Nat)) :
    atDepth k (l.flatMap f) = l.flatMap fun x => atDepth k (f x) := by
  induction l with
  | nil => rfl
  | cons x l ih => rw [flatMap_cons, atDepth_append, ih, flatMap_cons]

theorem depth_step {stack : List (α × Nat)} {ys : List α} {d limit : Nat} (hd : d < limit)
    (hdepth : ∀ e ∈ stack, e.2 ≤ limit) : ∀ e ∈ (ys.map (·, d + 1)).reverse ++ stack, e.2 ≤ limit := by
  intro e he
  rcases mem_append.mp he with he | he
  · obtain ⟨y, _, rfl⟩ := mem_map.mp (mem_reverse.mp he)
    exact hd
  · exact hdepth e he

variable [DecidableEq α]

/-! ## The walk -/

/-- The entries of a list that are not in `seen`, each once. -/
def fresh (seen : List α) : List α → List α
  | [] => []
  | y :: ys => if y ∈ seen then fresh seen ys else y :: fresh (seen ++ [y]) ys

/-- The walk: the places it finds from here on; nothing when the fuel runs out. -/
def walk (nbrs : α → List α) (limit : Nat) :
    (fuel : Nat) → (visited : List α) → (stack : List (α × Nat)) → Option (List (α × Nat))
  | 0, _, _ => none
  | _ + 1, _, [] => some []
  | fuel + 1, visited, (x, d) :: stack =>
    if limit ≤ d then walk nbrs limit fuel visited stack
    else
      let found := (fresh visited (nbrs x)).map (·, d + 1)
      (walk nbrs limit fuel (visited ++ fresh visited (nbrs x)) (found.reverse ++ stack)).map (found ++ ·)

section

variable (nbrs : α → List α)

/-- The second place is `n` steps from the first. -/
def Walks : Nat → α → α → Prop
  | 0, x, y => x = y
  | n + 1, x, y => ∃ z, Walks n x z ∧ y ∈ nbrs z

/-- It is `n` steps away and not fewer. -/
def IsDist (x y : α) (n : Nat) : Prop := Walks nbrs n x y ∧ ∀ m < n, ¬ Walks nbrs m x y

/-- Every place from one to `limit` steps away once, with its distance. -/
structure Right (start : α) (limit : Nat) (result : List (α × Nat)) : Prop where
  once : (result.map Prod.fst).Nodup
  dist : ∀ v d, (v, d) ∈ result ↔ IsDist nbrs start v d ∧ 1 ≤ d ∧ d ≤ limit

/-! ## The tree -/

/-- The new neighbours of the places of a list, those of each place in reverse. -/
def kids (seen : List α) : List α → List α
  | [] => []
  | x :: xs => (fresh seen (nbrs x)).reverse ++ kids (seen ++ fresh seen (nbrs x)) xs

/-- The places up to a distance, and those at it. -/
def levels (start : α) : Nat → List α × List α
  | 0 => ([start], [start])
  | k + 1 => ((levels start k).1 ++ kids nbrs (levels start k).1 (levels start k).2,
      kids nbrs (levels start k).1 (levels start k).2)

/-- What was reached in the first `k` levels. -/
def seen (start : α) (k : Nat) : List α := (levels nbrs start k).1

/-- What is new in level `k`. -/
def level (start : α) (k : Nat) : List α := (levels nbrs start k).2

/-- The children of a place at distance `k`: its neighbours that no place before it in the level has. -/
def child (start : α) (k : Nat) (x : α) : List α :=
  (fresh (seen nbrs start k ++ kids nbrs (seen nbrs start k)
    ((level nbrs start k).takeWhile (· ≠ x))) (nbrs x)).reverse

/-- The tree below a place, `left` levels deep, depth first. -/
def pre (start : α) : (left k : Nat) → α → List (α × Nat)
  | 0, k, x => [(x, k)]
  | left + 1, k, x => (x, k) :: (child nbrs start k x).flatMap (pre start left (k + 1))

/-- The places within `limit` steps with their distances, depth first. -/
def order (start : α) (limit : Nat) : List (α × Nat) := pre nbrs start limit 0 start

/-- At each place of the order, every neighbour that is not farther is a neighbour of a place before it that
    is one step nearer than this neighbour. -/
def Safe (start : α) (limit : Nat) : Prop :=
  ∀ before x d after, order nbrs start limit = before ++ (x, d) :: after → d < limit →
    ∀ v ∈ nbrs x, ∀ k < d, IsDist nbrs start v (k + 1) → ∃ w, (w, k) ∈ before ∧ v ∈ nbrs w

end

/-! ## Fresh entries -/

section

variable {seen seen' xs : List α} {v : α}

theorem mem_fresh : v ∈ fresh seen xs ↔ v ∈ xs ∧ v ∉ seen := by
  induction xs generalizing seen with
  | nil => simp [fresh]
  | cons y ys ih =>
    rw [fresh]
    split
    · rename_i hy
      rw [ih, mem_cons]
      constructor
      · rintro ⟨hv, hs⟩
        exact ⟨.inr hv, hs⟩
      · rintro ⟨rfl | hv, hs⟩
        · exact absurd hy hs
        · exact ⟨hv, hs⟩
    · rename_i hy
      rw [mem_cons, ih, mem_cons, mem_append, mem_singleton]
      constructor
      · rintro (rfl | ⟨hv, hs⟩)
        · exact ⟨.inl rfl, hy⟩
        · exact ⟨.inr hv, fun h => hs (.inl h)⟩
      · rintro ⟨hv, hs⟩
        by_cases hvy : v = y
        · exact .inl hvy
        · exact .inr ⟨hv.resolve_left hvy, fun h => h.elim hs hvy⟩

theorem nodup_fresh : (fresh seen xs).Nodup := by
  induction xs generalizing seen with
  | nil => exact nodup_nil
  | cons y ys ih =>
    rw [fresh]
    split
    · exact ih
    · refine nodup_cons.mpr ⟨fun hy => ?_, ih⟩
      exact (mem_fresh.mp hy).2 (by simp)

/-- Only whether the entries are in `seen` matters. -/
theorem fresh_congr (h : ∀ y ∈ xs, y ∈ seen ↔ y ∈ seen') : fresh seen xs = fresh seen' xs := by
  induction xs generalizing seen seen' with
  | nil => rfl
  | cons y ys ih =>
    have hy := h y mem_cons_self
    rw [fresh, fresh]
    by_cases hs : y ∈ seen
    · rw [if_pos hs, if_pos (hy.mp hs)]
      exact ih fun z hz => h z (mem_cons_of_mem _ hz)
    · rw [if_neg hs, if_neg fun hs' => hs (hy.mpr hs')]
      refine congrArg _ (ih fun z hz => ?_)
      rw [mem_append, mem_append, h z (mem_cons_of_mem _ hz)]

end

/-! ## Levels -/

section

variable {nbrs : α → List α} {start : α}

theorem mem_kids {seen xs : List α} {v : α} : v ∈ kids nbrs seen xs ↔ v ∉ seen ∧ ∃ x ∈ xs, v ∈ nbrs x := by
  induction xs generalizing seen with
  | nil => simp [kids]
  | cons x xs ih =>
    rw [kids, mem_append, mem_reverse, mem_fresh, ih, mem_append, mem_fresh]
    simp only [mem_cons, exists_eq_or_imp]
    tauto

theorem nodup_kids {seen xs : List α} : (kids nbrs seen xs).Nodup := by
  induction xs generalizing seen with
  | nil => exact nodup_nil
  | cons x xs ih =>
    rw [kids]
    refine List.Nodup.append (nodup_reverse.mpr nodup_fresh) ih fun v hv hkids => ?_
    refine (mem_kids.mp hkids).1 (mem_append_right _ (mem_reverse.mp hv))

theorem kids_congr {seen seen' xs : List α} (h : ∀ v, v ∈ seen ↔ v ∈ seen') :
    kids nbrs seen xs = kids nbrs seen' xs := by
  induction xs generalizing seen seen' with
  | nil => rfl
  | cons x xs ih =>
    have hfresh : fresh seen (nbrs x) = fresh seen' (nbrs x) := fresh_congr fun y _ => h y
    rw [kids, kids, hfresh]
    refine congrArg _ (ih fun v => ?_)
    rw [mem_append, mem_append, h v]

theorem kids_append {seen xs ys : List α} :
    kids nbrs seen (xs ++ ys) = kids nbrs seen xs ++ kids nbrs (seen ++ kids nbrs seen xs) ys := by
  induction xs generalizing seen with
  | nil => simp [kids]
  | cons x xs ih =>
    have hseen : ∀ v, v ∈ seen ++ fresh seen (nbrs x) ++ kids nbrs (seen ++ fresh seen (nbrs x)) xs ↔
        v ∈ seen ++ ((fresh seen (nbrs x)).reverse ++ kids nbrs (seen ++ fresh seen (nbrs x)) xs) := by
      intro v
      simp only [mem_append, mem_reverse]
      tauto
    rw [cons_append, kids, ih, kids_congr hseen, kids, append_assoc]

theorem start_level : start ∈ level nbrs start 0 := mem_singleton.mpr rfl

theorem level_succ (k : Nat) : level nbrs start (k + 1) = kids nbrs (seen nbrs start k) (level nbrs start k) := rfl

theorem seen_succ (k : Nat) : seen nbrs start (k + 1) = seen nbrs start k ++ level nbrs start (k + 1) := rfl

theorem mem_seen {v : α} : v ∈ seen nbrs start k ↔ ∃ j ≤ k, v ∈ level nbrs start j := by
  induction k with
  | zero =>
    constructor
    · intro h
      exact ⟨0, Nat.le_refl 0, h⟩
    · rintro ⟨j, hj, h⟩
      rwa [Nat.le_zero.mp hj] at h
  | succ k ih =>
    rw [seen_succ, mem_append, ih]
    constructor
    · rintro (⟨j, hj, h⟩ | h)
      · exact ⟨j, by omega, h⟩
      · exact ⟨k + 1, Nat.le_refl _, h⟩
    · rintro ⟨j, hj, h⟩
      rcases Nat.lt_or_eq_of_le hj with hlt | rfl
      · exact .inl ⟨j, by omega, h⟩
      · exact .inr h

/-- A place is in one level only. -/
theorem level_unique {j k : Nat} {v : α} (hj : v ∈ level nbrs start j) (hk : v ∈ level nbrs start k) : j = k := by
  wlog hlt : j < k generalizing j k
  · rcases Nat.lt_or_eq_of_le (Nat.le_of_not_lt hlt) with h | h
    · exact (this hk hj h).symm
    · exact h.symm
  obtain ⟨k, rfl⟩ : ∃ m, k = m + 1 := ⟨k - 1, by omega⟩
  rw [level_succ, mem_kids] at hk
  exact absurd (mem_seen.mpr ⟨j, by omega, hj⟩) hk.1

theorem nodup_level (k : Nat) : (level nbrs start k).Nodup := by
  cases k with
  | zero => exact nodup_singleton start
  | succ k => exact nodup_kids

/-- A neighbour is at most one level on. -/
theorem nbr_seen {x v : α} (hx : x ∈ level nbrs start k) (hv : v ∈ nbrs x) : v ∈ seen nbrs start (k + 1) := by
  rw [seen_succ, mem_append]
  by_cases hs : v ∈ seen nbrs start k
  · exact .inl hs
  · exact .inr (mem_kids.mpr ⟨hs, x, hx, hv⟩)

theorem walks_of_level {v : α} (h : v ∈ level nbrs start k) : Walks nbrs k start v := by
  induction k generalizing v with
  | zero => exact (mem_singleton.mp h).symm
  | succ k ih =>
    obtain ⟨_, x, hx, hv⟩ := mem_kids.mp h
    exact ⟨x, ih hx, hv⟩

theorem level_of_walks {n : Nat} {v : α} (h : Walks nbrs n start v) : v ∈ seen nbrs start n := by
  induction n generalizing v with
  | zero => exact mem_singleton.mpr h.symm
  | succ n ih =>
    obtain ⟨z, hz, hv⟩ := h
    obtain ⟨j, hj, hz⟩ := mem_seen.mp (ih hz)
    obtain ⟨i, hi, hv⟩ := mem_seen.mp (nbr_seen hz hv)
    exact mem_seen.mpr ⟨i, by omega, hv⟩

/-- The levels are the distances. -/
theorem mem_level {v : α} : v ∈ level nbrs start k ↔ IsDist nbrs start v k := by
  constructor
  · intro h
    refine ⟨walks_of_level h, fun m hm hw => ?_⟩
    obtain ⟨j, hj, hv⟩ := mem_seen.mp (level_of_walks hw)
    have := level_unique hv h
    omega
  · rintro ⟨hw, hmin⟩
    obtain ⟨j, hj, hv⟩ := mem_seen.mp (level_of_walks hw)
    rcases Nat.lt_or_eq_of_le hj with hlt | rfl
    · exact absurd (walks_of_level hv) (hmin j hlt)
    · exact hv

/-! ## Children -/

/-- The children of a place, from its level cut at it. -/
theorem child_eq {x : α} {before after : List α} (h : level nbrs start k = before ++ x :: after) :
    child nbrs start k x = (fresh (seen nbrs start k ++ kids nbrs (seen nbrs start k) before) (nbrs x)).reverse := by
  have hx : x ∉ before := by
    intro hx
    have hnodup := h ▸ nodup_level k
    exact (nodup_append.mp hnodup).2.2 x hx x mem_cons_self rfl
  have htake : (level nbrs start k).takeWhile (· ≠ x) = before := by
    rw [h, takeWhile_append_of_pos]
    · simp
    · intro y hy
      have : y ≠ x := fun he => hx (he ▸ hy)
      simpa using this
  rw [child, htake]

/-- The first places of a level, and what they have below them. -/
theorem kids_eq {before after : List α} (h : level nbrs start k = before ++ after) :
    kids nbrs (seen nbrs start k) before = before.flatMap (child nbrs start k) := by
  induction before using List.reverseRecOn generalizing after with
  | nil => rfl
  | append_singleton before x ih =>
    rw [append_assoc] at h
    rw [kids_append, flatMap_append, ih h, flatMap_singleton, child_eq h, ih h]
    simp [kids]

theorem level_succ_eq (k : Nat) : level nbrs start (k + 1) = (level nbrs start k).flatMap (child nbrs start k) := by
  rw [level_succ]
  exact kids_eq (append_nil _).symm

theorem child_level {x v : α} (hx : x ∈ level nbrs start k) (hv : v ∈ child nbrs start k x) :
    v ∈ level nbrs start (k + 1) := by
  rw [level_succ_eq]
  exact mem_flatMap.mpr ⟨x, hx, hv⟩

theorem child_nbr {x v : α} (hv : v ∈ child nbrs start k x) : v ∈ nbrs x :=
  (mem_fresh.mp (mem_reverse.mp hv)).1

/-! ## The order -/

theorem pre_depth {left k m : Nat} {x y : α} (h : (y, m) ∈ pre nbrs start left k x) : k ≤ m ∧ m ≤ k + left := by
  induction left generalizing k x with
  | zero =>
    cases mem_singleton.mp h
    omega
  | succ left ih =>
    rcases mem_cons.mp h with h | h
    · cases h
      omega
    · obtain ⟨z, _, hz⟩ := mem_flatMap.mp h
      have := ih hz
      omega

/-- The places `j` levels below a place. -/
def below (nbrs : α → List α) (start : α) : (j k : Nat) → α → List α
  | 0, _, x => [x]
  | j + 1, k, x => (child nbrs start k x).flatMap (below nbrs start j (k + 1))

theorem below_succ (j k : Nat) (x : α) :
    below nbrs start (j + 1) k x = (below nbrs start j k x).flatMap (child nbrs start (k + j)) := by
  induction j generalizing k x with
  | zero => simp [below]
  | succ j ih =>
    rw [below, below, flatMap_assoc]
    refine flatMap_congr fun y _ => ?_
    rw [ih, show k + 1 + j = k + (j + 1) by omega]

theorem below_start (j : Nat) : below nbrs start j 0 start = level nbrs start j := by
  induction j with
  | zero => rfl
  | succ j ih => rw [below_succ, ih, level_succ_eq, Nat.zero_add]

theorem atDepth_pre {left j k : Nat} {x : α} (hj : j ≤ left) :
    atDepth (k + j) (pre nbrs start left k x) = below nbrs start j k x := by
  induction left generalizing j k x with
  | zero =>
    rw [Nat.le_zero.mp hj]
    simp [atDepth, pre, below]
  | succ left ih =>
    rw [pre, ← singleton_append, atDepth_append, atDepth_flatMap]
    cases j with
    | zero =>
      have hnone : (child nbrs start k x).flatMap
          (fun y => atDepth (k + 0) (pre nbrs start left (k + 1) y)) = [] := by
        refine flatMap_eq_nil_iff.mpr fun y _ => ?_
        refine eq_nil_iff_forall_not_mem.mpr fun z hz => ?_
        have := pre_depth (mem_atDepth.mp hz)
        omega
      rw [hnone]
      simp [atDepth, below]
    | succ j =>
      have hhead : atDepth (k + (j + 1)) [(x, k)] = [] := by
        simp [atDepth]
      rw [hhead, nil_append, below]
      refine flatMap_congr fun y _ => ?_
      rw [← ih (by omega), show k + 1 + j = k + (j + 1) by omega]

/-- The places of the order at a distance are its level, in the same order. -/
theorem atDepth_order {limit k : Nat} (hk : k ≤ limit) : atDepth k (order nbrs start limit) = level nbrs start k := by
  rw [← below_start, ← atDepth_pre hk, Nat.zero_add]
  rfl

theorem mem_order {limit k : Nat} {x : α} : (x, k) ∈ order nbrs start limit ↔ k ≤ limit ∧ x ∈ level nbrs start k := by
  constructor
  · intro h
    have hk := pre_depth h
    refine ⟨by omega, ?_⟩
    rw [← atDepth_order (by omega : k ≤ limit)]
    exact mem_atDepth.mpr h
  · rintro ⟨hk, hx⟩
    rw [← atDepth_order hk] at hx
    exact mem_atDepth.mp hx

/-! ## A right walk follows the order -/

/-- What has been found once the places `done` of the order have been gone on from. -/
def Found (nbrs : α → List α) (start : α) (limit : Nat) (done : List (α × Nat)) (visited : List α) : Prop :=
  ∀ v, v ∈ visited ↔ v = start ∨ ∃ z k, (z, k) ∈ done ∧ k < limit ∧ v ∈ child nbrs start k z

/-- What the walk finds at a place of the order. -/
def out (nbrs : α → List α) (start : α) (limit : Nat) (e : α × Nat) : List (α × Nat) :=
  if e.2 < limit then (child nbrs start e.2 e.1).reverse.map (·, e.2 + 1) else []

/-- The order from the places of a stack on. -/
def rest (nbrs : α → List α) (start : α) (limit : Nat) (stack : List (α × Nat)) : List (α × Nat) :=
  stack.flatMap fun e => pre nbrs start (limit - e.2) e.2 e.1

section

variable {limit d : Nat} {done after : List (α × Nat)} {visited : List α} {x : α}

theorem done_level {z : α} (horder : order nbrs start limit = done ++ after)
    (hz : (z, k) ∈ done) : z ∈ level nbrs start k :=
  (mem_order.mp (horder ▸ mem_append_left after hz)).2

/-- Among the places that a place before has as neighbours, those of the next level are found. -/
theorem found_iff (horder : order nbrs start limit = done ++ after)
    (hfound : Found nbrs start limit done visited) {v : α} {k : Nat} (hk : k < limit)
    (hv : v ∈ level nbrs start (k + 1)) : v ∈ visited ↔ ∃ w, (w, k) ∈ done ∧ v ∈ nbrs w := by
  rw [hfound v]
  constructor
  · rintro (rfl | ⟨z, j, hz, _, hchild⟩)
    · have := level_unique hv start_level
      omega
    · have := level_unique hv (child_level (done_level horder hz) hchild)
      obtain rfl : k = j := by omega
      exact ⟨z, hz, child_nbr hchild⟩
  · rintro ⟨w, hw, hvw⟩
    -- the first places of the level of `w` have `v` below them
    have hlevel : level nbrs start k = atDepth k done ++ atDepth k after := by
      rw [← atDepth_append, ← horder, atDepth_order (by omega)]
    have hkids : v ∈ kids nbrs (seen nbrs start k) (atDepth k done) :=
      mem_kids.mpr ⟨(mem_kids.mp hv).1, w, mem_atDepth.mpr hw, hvw⟩
    rw [kids_eq hlevel] at hkids
    obtain ⟨p, hp, hchild⟩ := mem_flatMap.mp hkids
    exact .inr ⟨p, k, mem_atDepth.mp hp, hk, hchild⟩

/-- Where the neighbours that are not farther have been found, the walk finds the children. -/
theorem fresh_eq (horder : order nbrs start limit = done ++ (x, d) :: after) (hd : d < limit)
    (hfound : Found nbrs start limit done visited)
    (hnear : ∀ v ∈ nbrs x, ∀ k < d, v ∈ level nbrs start (k + 1) → v ∈ visited) :
    fresh visited (nbrs x) = (child nbrs start d x).reverse := by
  have hlevel : level nbrs start d = atDepth d done ++ x :: atDepth d after := by
    rw [← atDepth_order (by omega : d ≤ limit), horder, atDepth_append]
    simp [atDepth]
  have hx : x ∈ level nbrs start d := by
    rw [hlevel]
    simp
  rw [child_eq hlevel, reverse_reverse]
  refine fresh_congr fun y hy => ?_
  rw [mem_append, kids_eq hlevel]
  constructor
  · intro hvisited
    rcases (hfound y).mp hvisited with rfl | ⟨z, k, hz, _, hchild⟩
    · exact .inl (mem_seen.mpr ⟨0, Nat.zero_le _, mem_singleton.mpr rfl⟩)
    · -- it is at most one level farther than `x`, so its parent is not farther than `x`
      obtain ⟨j, hj, hyj⟩ := mem_seen.mp (nbr_seen hx hy)
      have hyk := child_level (done_level horder hz) hchild
      have := level_unique hyj hyk
      rcases Nat.lt_or_ge k d with hkd | hkd
      · exact .inl (mem_seen.mpr ⟨k + 1, by omega, hyk⟩)
      · obtain rfl : k = d := by omega
        exact .inr (mem_flatMap.mpr ⟨z, mem_atDepth.mpr hz, hchild⟩)
  · rintro (hseen | hkids)
    · obtain ⟨j, hj, hyj⟩ := mem_seen.mp hseen
      cases j with
      | zero => exact (hfound y).mpr (.inl (mem_singleton.mp hyj))
      | succ k => exact hnear y hy k (by omega) hyj
    · obtain ⟨z, hz, hchild⟩ := mem_flatMap.mp hkids
      exact (hfound y).mpr (.inr ⟨z, d, mem_atDepth.mp hz, hd, hchild⟩)

theorem Found.step (hfound : Found nbrs start limit done visited) (hd : d < limit) :
    Found nbrs start limit (done ++ [(x, d)]) (visited ++ (child nbrs start d x).reverse) := by
  intro v
  rw [mem_append, mem_reverse, hfound v]
  constructor
  · rintro ((rfl | ⟨z, k, hz, hk, hv⟩) | hv)
    · exact .inl rfl
    · exact .inr ⟨z, k, mem_append_left _ hz, hk, hv⟩
    · exact .inr ⟨x, d, by simp, hd, hv⟩
  · rintro (rfl | ⟨z, k, hz, hk, hv⟩)
    · exact .inl (.inl rfl)
    · rcases mem_append.mp hz with hz | hz
      · exact .inl (.inr ⟨z, k, hz, hk, hv⟩)
      · cases mem_singleton.mp hz
        exact .inr hv

/-- A place at the limit is not gone on from. -/
theorem Found.skip (hfound : Found nbrs start limit done visited) (hd : limit ≤ d) :
    Found nbrs start limit (done ++ [(x, d)]) visited := by
  intro v
  rw [hfound v]
  constructor
  · rintro (rfl | ⟨z, k, hz, hk, hv⟩)
    · exact .inl rfl
    · exact .inr ⟨z, k, mem_append_left _ hz, hk, hv⟩
  · rintro (rfl | ⟨z, k, hz, hk, hv⟩)
    · exact .inl rfl
    · rcases mem_append.mp hz with hz | hz
      · exact .inr ⟨z, k, hz, hk, hv⟩
      · cases mem_singleton.mp hz
        omega

theorem rest_limit {stack : List (α × Nat)} (hd : d = limit) :
    rest nbrs start limit ((x, d) :: stack) = (x, d) :: rest nbrs start limit stack := by
  rw [rest, flatMap_cons, hd, Nat.sub_self]
  rfl

/-- Going on from a place puts its children on the stack in its stead. -/
theorem rest_step {stack : List (α × Nat)} (hd : d < limit) : rest nbrs start limit ((x, d) :: stack) = (x, d) ::
      rest nbrs start limit ((((child nbrs start d x).reverse).map (·, d + 1)).reverse ++ stack) := by
  rw [rest, flatMap_cons, ← map_reverse, reverse_reverse, rest, flatMap_append,
    flatMap_map]
  simp only
  rw [show limit - d = limit - (d + 1) + 1 by omega, pre]
  rfl

/-- Where the graph is safe the walk follows the order. -/
theorem walk_eq (hsafe : Safe nbrs start limit) {fuel : Nat} {stack : List (α × Nat)}
    (horder : order nbrs start limit = done ++ rest nbrs start limit stack)
    (hdepth : ∀ e ∈ stack, e.2 ≤ limit) (hfound : Found nbrs start limit done visited)
    (hfuel : (rest nbrs start limit stack).length < fuel) : walk nbrs limit fuel visited stack =
      some ((rest nbrs start limit stack).flatMap (out nbrs start limit)) := by
  induction fuel generalizing done visited stack with
  | zero => omega
  | succ fuel ih =>
    cases stack with
    | nil => rfl
    | cons e stack =>
      obtain ⟨x, d⟩ := e
      rw [walk]
      have hd := hdepth (x, d) mem_cons_self
      by_cases hlimit : limit ≤ d
      · have hstep := @rest_limit α _ nbrs start limit d x stack (Nat.le_antisymm hd hlimit)
        rw [hstep, length_cons] at hfuel
        rw [hstep, ← singleton_append, ← append_assoc] at horder
        rw [if_pos hlimit, hstep, flatMap_cons, ih horder
          (fun e he => hdepth e (mem_cons_of_mem _ he)) (hfound.skip hlimit) (by omega)]
        simp [out, Nat.not_lt.mpr hlimit]
      · have hlt : d < limit := by omega
        have hstep := @rest_step α _ nbrs start limit d x stack hlt
        rw [hstep, length_cons] at hfuel
        rw [hstep] at horder
        have hnew : fresh visited (nbrs x) = (child nbrs start d x).reverse := by
          refine fresh_eq horder hlt hfound fun v hv k hk hvk => ?_
          refine (found_iff horder hfound (by omega) hvk).mpr ?_
          exact hsafe done x d _ horder hlt v hv k hk (mem_level.mp hvk)
        rw [← singleton_append, ← append_assoc] at horder
        rw [if_neg hlimit, hstep, flatMap_cons, hnew]
        simp only
        rw [ih horder (depth_step hlt fun e he => hdepth e (mem_cons_of_mem _ he))
          (hfound.step hlt) (by omega)]
        simp [out, hlt]

/-- A walk whose numbers are all right has found the nearer neighbours of each place before. -/
theorem safe_of_walk {fuel : Nat} {stack result : List (α × Nat)}
    (horder : order nbrs start limit = done ++ rest nbrs start limit stack)
    (hdepth : ∀ e ∈ stack, e.2 ≤ limit) (hfound : Found nbrs start limit done visited)
    (hwalk : walk nbrs limit fuel visited stack = some result)
    (hright : ∀ v k, (v, k) ∈ result → v ∈ level nbrs start k) {before after : List (α × Nat)} {x : α} {d : Nat}
    (hsplit : rest nbrs start limit stack = before ++ (x, d) :: after) (hd : d < limit) {v : α}
    (hv : v ∈ nbrs x) {k : Nat} (hk : k < d) (hvk : v ∈ level nbrs start (k + 1)) :
    ∃ w, (w, k) ∈ done ++ before ∧ v ∈ nbrs w := by
  induction fuel generalizing done visited stack result before with
  | zero => cases hwalk
  | succ fuel ih =>
    cases stack with
    | nil => simp [rest] at hsplit
    | cons e stack =>
      obtain ⟨y, m⟩ := e
      rw [walk] at hwalk
      have hm := hdepth (y, m) mem_cons_self
      by_cases hlimit : limit ≤ m
      · have hstep := @rest_limit α _ nbrs start limit m y stack (Nat.le_antisymm hm hlimit)
        rw [hstep, ← singleton_append, ← append_assoc] at horder
        rw [if_pos hlimit] at hwalk
        rw [hstep] at hsplit
        cases before with
        | nil =>
          cases hsplit
          omega
        | cons e before =>
          obtain ⟨rfl, hrest⟩ := List.cons.inj hsplit
          have := ih horder (fun e he => hdepth e (mem_cons_of_mem _ he)) (hfound.skip hlimit) hwalk
            hright hrest
          rwa [append_assoc] at this
      · have hlt : m < limit := by omega
        have hstep := @rest_step α _ nbrs start limit m y stack hlt
        rw [hstep] at horder hsplit
        rw [if_neg hlimit] at hwalk
        simp only [Option.map_eq_some_iff] at hwalk
        obtain ⟨result', hwalk, rfl⟩ := hwalk
        -- a neighbour that is not farther would be found here with a wrong number
        have hnear : ∀ z ∈ nbrs y, ∀ j < m, z ∈ level nbrs start (j + 1) → z ∈ visited := by
          intro z hz j hj hzj
          by_contra hnot
          have hwrong := hright z (m + 1) (mem_append_left _ (mem_map.mpr
            ⟨z, mem_fresh.mpr ⟨hz, hnot⟩, rfl⟩))
          have := level_unique hzj hwrong
          omega
        have hnew := fresh_eq horder hlt hfound hnear
        rw [hnew] at hwalk
        cases before with
        | nil =>
          cases hsplit
          rw [append_nil]
          exact (found_iff horder hfound (by omega) hvk).mp (hnear v hv k hk hvk)
        | cons e before =>
          obtain ⟨rfl, hrest⟩ := List.cons.inj hsplit
          rw [← singleton_append, ← append_assoc] at horder
          have := ih horder (depth_step hlt fun e he => hdepth e (mem_cons_of_mem _ he))
            (hfound.step hlt) hwalk (fun v k h => hright v k (mem_append_right _ h)) hrest
          rwa [append_assoc] at this

theorem found_start : Found nbrs start limit [] [start] := by
  intro v
  simp

theorem rest_start : rest nbrs start limit [(start, 0)] = order nbrs start limit := by
  simp [rest, order]

theorem nodup_child {x : α} : (child nbrs start k x).Nodup :=
  nodup_reverse.mpr nodup_fresh

end

theorem nodup_order (limit : Nat) : (order nbrs start limit).Nodup := by
  refine nodup_iff_count_le_one.mpr fun ⟨x, k⟩ => ?_
  by_cases hk : k ≤ limit
  · calc (order nbrs start limit).count (x, k)
      _ = ((order nbrs start limit).filter (·.2 = k)).count (x, k) := by
          rw [count_filter (by simp)]
      _ ≤ (((order nbrs start limit).filter (·.2 = k)).map Prod.fst).count (Prod.fst (x, k)) :=
          count_le_count_map
      _ ≤ 1 := by
          show (atDepth k (order nbrs start limit)).count x ≤ 1
          rw [atDepth_order hk]
          exact nodup_iff_count_le_one.mp (nodup_level k) x
  · rw [count_eq_zero.mpr fun h => hk (mem_order.mp h).1]
    exact Nat.zero_le 1

/-- A place is a child of one place only. -/
theorem child_unique {x y v : α} (hx : x ∈ level nbrs start k) (hy : y ∈ level nbrs start k)
    (hvx : v ∈ child nbrs start k x) (hvy : v ∈ child nbrs start k y) : x = y := by
  have hnodup := @nodup_level α _ nbrs start (k + 1)
  rw [level_succ_eq, nodup_flatMap] at hnodup
  have hsymm : Std.Symm (Function.onFun List.Disjoint (child nbrs start k)) :=
    ⟨fun _ _ h v hv hw => h hw hv⟩
  by_contra hne
  exact hnodup.2.forall hx hy hne hvx hvy

/-- What the walk finds where the graph is safe. -/
theorem right_out (limit : Nat) :
    Right nbrs start limit ((order nbrs start limit).flatMap (out nbrs start limit)) := by
  have hmem : ∀ v d, (v, d) ∈ (order nbrs start limit).flatMap (out nbrs start limit) ↔
      ∃ k z, d = k + 1 ∧ k < limit ∧ z ∈ level nbrs start k ∧ v ∈ child nbrs start k z := by
    intro v d
    rw [mem_flatMap]
    constructor
    · rintro ⟨⟨z, k⟩, hz, hv⟩
      unfold out at hv
      split at hv
      · rename_i hk
        obtain ⟨y, hy, heq⟩ := mem_map.mp hv
        cases heq
        exact ⟨k, z, rfl, hk, (mem_order.mp hz).2, mem_reverse.mp hy⟩
      · cases hv
    · rintro ⟨k, z, rfl, hk, hz, hv⟩
      refine ⟨(z, k), mem_order.mpr ⟨by omega, hz⟩, ?_⟩
      unfold out
      rw [if_pos hk]
      exact mem_map.mpr ⟨v, mem_reverse.mpr hv, rfl⟩
  refine ⟨?_, fun v d => ?_⟩
  · have hchild : ∀ v e, v ∈ (out nbrs start limit e).map Prod.fst → v ∈ child nbrs start e.2 e.1 := by
      intro v e hv
      unfold out at hv
      split at hv
      · simpa using hv
      · cases hv
    rw [map_flatMap, nodup_flatMap]
    refine ⟨fun e _ => ?_, (nodup_order limit).imp_of_mem ?_⟩
    · unfold out
      split
      · rw [map_map, show Prod.fst ∘ (fun y : α => (y, e.2 + 1)) = id from rfl, map_id]
        exact nodup_reverse.mpr nodup_child
      · exact nodup_nil
    · rintro ⟨x, j⟩ ⟨y, k⟩ hx hy hne v hvx hvy
      have hvx := hchild v _ hvx
      have hvy := hchild v _ hvy
      have hxl := (mem_order.mp hx).2
      have hyl := (mem_order.mp hy).2
      have := level_unique (child_level hxl hvx) (child_level hyl hvy)
      obtain rfl : j = k := by omega
      exact hne (by rw [child_unique hxl hyl hvx hvy])
  · rw [hmem, ← mem_level]
    constructor
    · rintro ⟨k, z, rfl, hk, hz, hv⟩
      exact ⟨child_level hz hv, by omega, by omega⟩
    · rintro ⟨hv, hpos, hle⟩
      obtain ⟨k, rfl⟩ : ∃ k, d = k + 1 := ⟨d - 1, by omega⟩
      rw [level_succ_eq] at hv
      obtain ⟨z, hz, hv⟩ := mem_flatMap.mp hv
      exact ⟨k, z, rfl, by omega, hz, hv⟩

/-- The walk ends with a right result exactly when the graph is safe. -/
theorem right_iff (limit : Nat) : (∃ fuel result, walk nbrs limit fuel [start] [(start, 0)] = some result ∧
      Right nbrs start limit result) ↔ Safe nbrs start limit := by
  have hdepth : ∀ e ∈ [(start, 0)], e.2 ≤ limit := by
    intro e he
    cases mem_singleton.mp he
    exact Nat.zero_le _
  have horder : order nbrs start limit = [] ++ rest nbrs start limit [(start, 0)] := rest_start.symm
  constructor
  · rintro ⟨fuel, result, hwalk, hright⟩ before x d after hsplit hd v hv k hk hvk
    exact safe_of_walk horder hdepth found_start hwalk
      (fun v k h => mem_level.mpr ((hright.dist v k).mp h).1) (rest_start.trans hsplit) hd hv hk
      (mem_level.mpr hvk)
  · intro hsafe
    refine ⟨(rest nbrs start limit [(start, 0)]).length + 1, _,
      walk_eq hsafe horder hdepth found_start (Nat.lt_succ_self _), ?_⟩
    rw [rest_start]
    exact right_out limit

/-- Two steps are always right: a place is gone on from only after the start. -/
theorem safe_of_le_two {limit : Nat} (h : limit ≤ 2) : Safe nbrs start limit := by
  intro before x d after hsplit hd v _ k hk hv
  obtain ⟨rfl, rfl⟩ : k = 0 ∧ d = 1 := by omega
  obtain ⟨z, rfl, hz⟩ := hv.1
  refine ⟨start, ?_, hz⟩
  cases before with
  | nil =>
    have hhead := congrArg List.head? hsplit
    cases limit with
    | zero => omega
    | succ limit => cases hhead
  | cons e before =>
    have hhead := congrArg List.head? hsplit
    cases limit with
    | zero => omega
    | succ limit =>
      cases hhead
      exact mem_cons_self

end

end Folkering.DepthFirst
