/-
  Worklist — depth-first walks on a stack of bounded height, without a set of visited places.

  A visit of a place finds a result, passes, or gives its children.  The children are pushed in order as
  far as the stack has room, so the first of them is walked last and on the height of its parent: along
  first children the walk is a loop, and only the others make the stack higher.  Since heights are bounded,
  the walk can run for ever in one way only, along an endless chain of first children.
    * `ends_of_clear` — a walk through places without a result comes back to the stack below them;
    * `ends_iff`      — it ends exactly when no such chain is reached;
    * `walk_finds`    — a walk that passed everywhere finds a result that a place it visited is given.
-/
import Mathlib.Data.List.Induction
import Mathlib.Data.Set.Finite.Basic
import Mathlib.Logic.Function.Iterate
import Mathlib.Logic.Relation
import Mathlib.Tactic.Choose

namespace Folkering.Worklist

open List

variable {α ρ : Type}

/-- What the visit of a place says. -/
inductive Visit (α ρ : Type) where
  | found (r : ρ)
  | pass
  | children (first : α) (others : List α)

/-- Pushes as far as the stack has room; the top comes first. -/
def pushAll (cap : Nat) : (stack : List α) → List α → List α
  | stack, [] => stack
  | stack, x :: xs => pushAll cap (if stack.length < cap then x :: stack else stack) xs

/-- The walk: nothing when the fuel runs out, else whether it found a result. -/
def walk (cap : Nat) (visit : α → Visit α ρ) : (fuel : Nat) → (stack : List α) → Option (Option ρ)
  | 0, _ => none
  | _ + 1, [] => some none
  | fuel + 1, p :: stack =>
    match visit p with
    | .found r => some (some r)
    | .pass => walk cap visit fuel stack
    | .children first others => walk cap visit fuel (pushAll cap stack (first :: others))

theorem pushAll_eq (cap : Nat) (stack xs : List α) :
    pushAll cap stack xs = (xs.take (cap - stack.length)).reverse ++ stack := by
  induction xs generalizing stack with
  | nil => simp [pushAll]
  | cons x xs ih =>
    rw [pushAll, ih]
    split
    · rename_i h
      rw [length_cons, show cap - stack.length = cap - (stack.length + 1) + 1 by omega,
        take_succ_cons, reverse_cons, append_assoc]
      rfl
    · rename_i h
      rw [show cap - stack.length = 0 by omega]
      rfl

section

variable {cap : Nat} {visit : α → Visit α ρ} {n : Nat} {p : α} {stack : List α}

theorem walk_found {r : ρ} (h : visit p = .found r) :
    walk cap visit (n + 1) (p :: stack) = some (some r) := by
  rw [walk, h]

theorem walk_pass (h : visit p = .pass) :
    walk cap visit (n + 1) (p :: stack) = walk cap visit n stack := by
  rw [walk, h]

theorem walk_children {first : α} {others : List α} (h : visit p = .children first others) :
    walk cap visit (n + 1) (p :: stack) =
      walk cap visit n (((first :: others).take (cap - stack.length)).reverse ++ stack) := by
  rw [walk, h, ← pushAll_eq]

/-- A result is that of some place. -/
theorem exists_of_walk {r : ρ} (h : walk cap visit n stack = some (some r)) : ∃ p, visit p = .found r := by
  induction n generalizing stack with
  | zero => cases h
  | succ n ih =>
    cases stack with
    | nil => cases h
    | cons p stack =>
      cases hvisit : visit p with
      | found r' =>
        rw [walk_found hvisit] at h
        cases h
        exact ⟨p, hvisit⟩
      | pass =>
        rw [walk_pass hvisit] at h
        exact ih h
      | children first others =>
        rw [walk_children hvisit] at h
        exact ih h

end

section

variable (cap : Nat) (visit : α → Visit α ρ)

/-! ## Places with the height of the stack below them -/

/-- The second place is pushed by a visit of the first. -/
def Child (a b : α × Nat) : Prop :=
  ∃ first others j, visit a.1 = .children first others ∧ (first :: others)[j]? = some b.1 ∧
    b.2 = a.2 + j ∧ b.2 < cap

/-- No result at the place or below it. -/
def Clear (p : α) (h : Nat) : Prop :=
  ∀ b, Relation.ReflTransGen (Child cap visit) (p, h) b → ∀ r, visit b.1 ≠ .found r

/-- The walk comes to a place without a result at the places before it. -/
inductive Reached (p : α) (h : Nat) : α → Nat → Prop where
  | start : Reached p h p h
  | child {q x first : α} {others : List α} {k j : Nat} : Reached p h q k →
      visit q = .children first others → (first :: others)[j]? = some x → k + j < cap →
      (∀ i y, j < i → (first :: others)[i]? = some y → k + i < cap → Clear cap visit y (k + i)) →
      Reached p h x (k + j)

/-- From a place to its first child, with no result below the other children. -/
def Turn (h : Nat) (p q : α) : Prop :=
  ∃ others, visit p = .children q others ∧
    ∀ j y, others[j]? = some y → h + (j + 1) < cap → Clear cap visit y (h + (j + 1))

/-- From the place on the first children never end. -/
def Endless (p : α) (h : Nat) : Prop :=
  ∃ chain : Nat → α, chain 0 = p ∧ ∀ n, Turn cap visit h (chain n) (chain (n + 1))

/-- The walk over the stack ends. -/
def Ends (stack : List α) : Prop := ∃ n, (walk cap visit n stack).isSome

/-- No result at the entries on top of a stack of height `h`. -/
def AllClear (h : Nat) : List α → Prop
  | [] => True
  | x :: top => Clear cap visit x (h + top.length) ∧ AllClear h top

end

section

variable {cap : Nat} {visit : α → Visit α ρ} {p : α} {h : Nat}

theorem Clear.child {q first : α} {others : List α} {j : Nat} (hp : Clear cap visit p h)
    (hvisit : visit p = .children first others) (hq : (first :: others)[j]? = some q)
    (hcap : h + j < cap) : Clear cap visit q (h + j) := by
  intro b hb
  exact hp b (.head ⟨first, others, j, hvisit, hq, rfl, hcap⟩ hb)

theorem clear_of_pass (hvisit : visit p = .pass) : Clear cap visit p h := by
  intro b hb r
  rcases Relation.ReflTransGen.cases_head hb with rfl | ⟨c, ⟨first, others, j, hkids, _⟩, _⟩
  · rw [hvisit]
    exact nofun
  · rw [hvisit] at hkids
    cases hkids

theorem clear_of_children {first : α} {others : List α} (hvisit : visit p = .children first others)
    (hall : ∀ j y, (first :: others)[j]? = some y → h + j < cap → Clear cap visit y (h + j)) :
    Clear cap visit p h := by
  intro b hb r
  rcases Relation.ReflTransGen.cases_head hb with
    rfl | ⟨⟨c, k⟩, ⟨first', others', j, hkids, hj, hk, hcap⟩, hrest⟩
  · rw [hvisit]
    exact nofun
  · rw [hvisit] at hkids
    cases hkids
    simp only at hj hk hcap
    subst hk
    exact hall j c hj hcap b hrest r

theorem allClear_append {xs ys : List α} :
    AllClear cap visit h (xs ++ ys) ↔ AllClear cap visit (h + ys.length) xs ∧ AllClear cap visit h ys := by
  induction xs with
  | nil => simp [AllClear]
  | cons x xs ih =>
    simp only [cons_append, AllClear, ih, length_append, and_assoc]
    rw [show h + (xs.length + ys.length) = h + ys.length + xs.length by omega]

/-- Children lie on the stack in reverse: the `j`-th is at height `j`. -/
theorem allClear_reverse {xs : List α} :
    AllClear cap visit h xs.reverse ↔ ∀ j y, xs[j]? = some y → Clear cap visit y (h + j) := by
  induction xs generalizing h with
  | nil => simp [AllClear]
  | cons x xs ih =>
    rw [reverse_cons, allClear_append, ih]
    constructor
    · rintro ⟨htail, hhead, _⟩ j y hy
      cases j with
      | zero =>
        cases hy
        exact hhead
      | succ j =>
        have := htail j y hy
        rwa [length_singleton, Nat.add_assoc, Nat.add_comm 1 j] at this
    · intro hall
      refine ⟨fun j y hy => ?_, hall 0 x rfl, trivial⟩
      rw [length_singleton, Nat.add_assoc, Nat.add_comm 1 j]
      exact hall (j + 1) y hy

theorem getElem?_take_some {xs : List α} {n j : Nat} {y : α} (h : (xs.take n)[j]? = some y) :
    j < n ∧ xs[j]? = some y := by
  rw [getElem?_take] at h
  split at h
  · exact ⟨‹_›, h⟩
  · cases h

/-- A walk that ends also ends below entries without a result, and earlier. -/
theorem ends_of_clear {n : Nat} {top stack : List α} (hclear : AllClear cap visit stack.length top)
    (h : (walk cap visit n (top ++ stack)).isSome) :
    ∃ m ≤ n, (walk cap visit m stack).isSome := by
  induction n generalizing top with
  | zero => exact absurd h (by simp [walk])
  | succ n ih =>
    cases top with
    | nil => exact ⟨n + 1, Nat.le_refl _, h⟩
    | cons x top =>
      obtain ⟨hx, htop⟩ := hclear
      rw [cons_append] at h
      cases hvisit : visit x with
      | found r => exact absurd hvisit (hx _ .refl r)
      | pass =>
        rw [walk_pass hvisit] at h
        obtain ⟨m, hm, hsome⟩ := ih htop h
        exact ⟨m, by omega, hsome⟩
      | children first others =>
        rw [walk_children hvisit, ← append_assoc] at h
        -- the children are without a result because their parent is
        have hkids : AllClear cap visit stack.length
            (((first :: others).take (cap - (top ++ stack).length)).reverse ++ top) := by
          refine allClear_append.mpr ⟨allClear_reverse.mpr fun j y hy => ?_, htop⟩
          obtain ⟨hj, hy⟩ := getElem?_take_some hy
          rw [length_append] at hj
          exact hx.child hvisit hy (by omega)
        obtain ⟨m, hm, hsome⟩ := ih hkids h
        exact ⟨m, by omega, hsome⟩

/-! ## When the walk ends -/

theorem Reached.trans {q x : α} {k l : Nat} (hpq : Reached cap visit p h q k)
    (hqx : Reached cap visit q k x l) : Reached cap visit p h x l := by
  induction hqx with
  | start => exact hpq
  | child _ hvisit hj hcap hclear ih => exact .child ih hvisit hj hcap hclear

/-- If the walk does not end from a place it comes to, it does not end. -/
theorem not_ends_of_reached {q : α} {k : Nat} {stack : List α} (hq : Reached cap visit p stack.length q k)
    (hcap : stack.length < cap) :
    k < cap ∧ ∃ below : List α, below.length = k ∧
      (Ends cap visit (p :: stack) → Ends cap visit (q :: below)) := by
  induction hq with
  | start => exact ⟨hcap, stack, rfl, id⟩
  | @child q x first others k j _ hvisit hj hroom hclear ih =>
    obtain ⟨hk, below, rfl, hends⟩ := ih
    refine ⟨hroom, ((first :: others).take j).reverse ++ below, ?_, fun h => ?_⟩
    · have := (List.getElem?_eq_some_iff.mp hj).1
      rw [length_append, length_reverse, length_take]
      omega
    obtain ⟨n, hn⟩ := hends h
    cases n with
    | zero => exact absurd hn (by simp [walk])
    | succ n =>
      rw [walk_children hvisit] at hn
      -- the children above `x` are walked first
      have hsplit : (first :: others).take (cap - below.length) = (first :: others).take j ++
          x :: ((first :: others).take (cap - below.length)).drop (j + 1) := by
        have hx : ((first :: others).take (cap - below.length))[j]? = some x := by
          rw [getElem?_take_of_lt (by omega)]
          exact hj
        have := take_append_drop j ((first :: others).take (cap - below.length))
        rw [drop_eq_getElem?_toList_append, hx, take_take, Nat.min_eq_left (by omega)] at this
        exact this.symm
      rw [hsplit, reverse_append, reverse_cons, append_assoc, append_assoc] at hn
      have habove : AllClear cap visit ([x] ++ (((first :: others).take j).reverse ++ below)).length
          (((first :: others).take (cap - below.length)).drop (j + 1)).reverse := by
        refine allClear_reverse.mpr fun i y hy => ?_
        rw [getElem?_drop] at hy
        obtain ⟨hi, hy⟩ := getElem?_take_some hy
        have hlen : ([x] ++ (((first :: others).take j).reverse ++ below)).length + i =
            below.length + (j + 1 + i) := by
          have := (List.getElem?_eq_some_iff.mp hj).1
          simp only [length_append, length_reverse, length_take, length_singleton]
          omega
        rw [hlen]
        exact hclear (j + 1 + i) y (by omega) hy (by omega)
      obtain ⟨m, _, hm⟩ := ends_of_clear habove hn
      exact ⟨m, hm⟩

/-- An endless chain is walked for ever. -/
theorem not_ends_of_endless {stack : List α} (hp : Endless cap visit p stack.length)
    (hcap : stack.length < cap) : ¬ Ends cap visit (p :: stack) := by
  obtain ⟨chain, rfl, hchain⟩ := hp
  rintro ⟨n, hn⟩
  -- whatever the fuel, it is not enough from any place of the chain
  have hnone : ∀ n k, ¬ (walk cap visit n (chain k :: stack)).isSome := by
    intro n
    induction n using Nat.strongRecOn with
    | ind n ih =>
      intro k hk
      obtain ⟨others, hvisit, hclear⟩ := hchain k
      cases n with
      | zero => exact absurd hk (by simp [walk])
      | succ n =>
        rw [walk_children hvisit, show cap - stack.length = cap - stack.length - 1 + 1 by omega,
          take_succ_cons, reverse_cons, append_assoc] at hk
        have habove : AllClear cap visit ([chain (k + 1)] ++ stack).length
            (others.take (cap - stack.length - 1)).reverse := by
          refine allClear_reverse.mpr fun j y hy => ?_
          obtain ⟨hj, hy⟩ := getElem?_take_some hy
          have := hclear j y hy (by omega)
          rwa [show stack.length + (j + 1) = ([chain (k + 1)] ++ stack).length + j by
            rw [length_append, length_singleton]; omega] at this
        obtain ⟨m, hm, hsome⟩ := ends_of_clear habove hk
        exact ih m (by omega) (k + 1) hsome
  exact hnone n 0 hn

/-- Where only finitely many places have children, an endless chain is one that leads into a cycle. -/
theorem endless_iff_cycle (hfin : { x | ∃ first others, visit x = .children first others }.Finite) :
    Endless cap visit p h ↔
      ∃ q, Relation.ReflTransGen (Turn cap visit h) p q ∧ Relation.TransGen (Turn cap visit h) q q := by
  constructor
  · rintro ⟨chain, rfl, hchain⟩
    have hrun : ∀ i n, Relation.ReflTransGen (Turn cap visit h) (chain i) (chain (i + n)) := by
      intro i n
      induction n with
      | zero => exact .refl
      | succ n ih => exact .tail ih (hchain (i + n))
    -- among more places than there are two are the same
    have hinj : ¬ Function.Injective chain := by
      intro hinj
      refine Set.infinite_of_injective_forall_mem hinj (fun n => ?_) hfin
      obtain ⟨others, hvisit, _⟩ := hchain n
      exact ⟨_, others, hvisit⟩
    obtain ⟨i, j, heq, hne⟩ := Function.not_injective_iff.mp hinj
    wlog hij : i < j generalizing i j
    · exact this j i heq.symm hne.symm (by omega)
    refine ⟨chain i, by simpa using hrun 0 i, ?_⟩
    have hcycle := hrun (i + 1) (j - (i + 1))
    rw [show i + 1 + (j - (i + 1)) = j by omega, ← heq] at hcycle
    exact .head' (hchain i) hcycle
  · rintro ⟨q, hpq, hcycle⟩
    -- from every place that leads to the cycle one turn leads to another such place
    have hnext : ∀ x : { x // Relation.ReflTransGen (Turn cap visit h) x q },
        ∃ y : { x // Relation.ReflTransGen (Turn cap visit h) x q }, Turn cap visit h x.1 y.1 := by
      rintro ⟨x, hx⟩
      rcases Relation.ReflTransGen.cases_head hx with rfl | ⟨y, hxy, hy⟩
      · obtain ⟨y, hxy, hy⟩ := Relation.TransGen.head'_iff.mp hcycle
        exact ⟨⟨y, hy⟩, hxy⟩
      · exact ⟨⟨y, hy⟩, hxy⟩
    choose next hturn using hnext
    refine ⟨fun n => (next^[n] ⟨p, hpq⟩).1, rfl, fun n => ?_⟩
    have := hturn (next^[n] ⟨p, hpq⟩)
    rwa [show next (next^[n] ⟨p, hpq⟩) = next^[n + 1] ⟨p, hpq⟩ from
      (Function.iterate_succ_apply' next n _).symm] at this

/-- A place from which the walk may run for ever. -/
def Trap (cap : Nat) (visit : α → Visit α ρ) (p : α) (h : Nat) : Prop :=
  ∃ q k, Reached cap visit p h q k ∧ Endless cap visit q k

theorem Reached.height_lt {q : α} {k : Nat} (hq : Reached cap visit p h q k) (hcap : h < cap) :
    k < cap := by
  cases hq with
  | start => exact hcap
  | child _ _ _ hroom => exact hroom

theorem Reached.turns {q x : α} {k : Nat} (hcap : h < cap) (hq : Reached cap visit p h q k)
    (hx : Relation.ReflTransGen (Turn cap visit k) q x) : Reached cap visit p h x k := by
  induction hx with
  | refl => exact hq
  | tail _ hturn ih =>
    obtain ⟨others, hvisit, hclear⟩ := hturn
    refine Reached.child (j := 0) ih hvisit rfl (hq.height_lt hcap) ?_
    intro i y hi hy hroom
    cases i with
    | zero => omega
    | succ i => exact hclear i y hy hroom

theorem trap_iff_cycle (hcap : h < cap)
    (hfin : { x | ∃ first others, visit x = .children first others }.Finite) :
    Trap cap visit p h ↔
      ∃ q k, Reached cap visit p h q k ∧ Relation.TransGen (Turn cap visit k) q q := by
  constructor
  · rintro ⟨q, k, hq, hend⟩
    obtain ⟨x, hx, hcycle⟩ := (endless_iff_cycle hfin).mp hend
    exact ⟨x, k, hq.turns hcap hx, hcycle⟩
  · rintro ⟨q, k, hq, hcycle⟩
    exact ⟨q, k, hq, (endless_iff_cycle hfin).mpr ⟨q, .refl, hcycle⟩⟩

/-- Entries on top of a stack, given that from each the walk comes to a trap or passes: it comes to a trap
    from one of them, those above it being without a result, or passes all. -/
theorem trap_or_pass {xs stack : List α} (hdiv : ¬ Ends cap visit (xs.reverse ++ stack))
    (hcap : stack.length + xs.length ≤ cap)
    (hone : ∀ (x : α) (below : List α), stack.length ≤ below.length → below.length < cap →
      ¬ Ends cap visit (x :: below) →
      Trap cap visit x below.length ∨ (Clear cap visit x below.length ∧ ¬ Ends cap visit below)) :
    (∃ j x, xs[j]? = some x ∧ Trap cap visit x (stack.length + j) ∧
      ∀ i y, j < i → xs[i]? = some y → Clear cap visit y (stack.length + i)) ∨
    ((∀ i y, xs[i]? = some y → Clear cap visit y (stack.length + i)) ∧ ¬ Ends cap visit stack) := by
  induction xs using List.reverseRecOn with
  | nil => exact .inr ⟨by simp, hdiv⟩
  | append_singleton xs x ih =>
    rw [length_append, length_singleton] at hcap
    rw [reverse_append, reverse_singleton, append_assoc, singleton_append] at hdiv
    have hlen : (xs.reverse ++ stack).length = stack.length + xs.length := by
      rw [length_append, length_reverse, Nat.add_comm]
    have hx : (xs ++ [x])[xs.length]? = some x := by simp
    rcases hone x _ (by omega) (by omega) hdiv with htrap | ⟨hclear, hdiv⟩
    · refine .inl ⟨xs.length, x, hx, hlen ▸ htrap, ?_⟩
      intro i y hi hy
      have := (List.getElem?_eq_some_iff.mp hy).1
      rw [length_append, length_singleton] at this
      omega
    · rw [hlen] at hclear
      -- an entry below the last, or the last
      have hlast : ∀ i y, (xs ++ [x])[i]? = some y →
          xs[i]? = some y ∨ Clear cap visit y (stack.length + i) := by
        intro i y hy
        by_cases hi : i < xs.length
        · rw [getElem?_append_left hi] at hy
          exact .inl hy
        · have := (List.getElem?_eq_some_iff.mp hy).1
          rw [length_append, length_singleton] at this
          rw [show i = xs.length by omega, hx] at hy
          cases hy
          rw [show i = xs.length by omega]
          exact .inr hclear
      rcases ih hdiv (by omega) with ⟨j, z, hz, htrap, hrest⟩ | ⟨hrest, hdiv⟩
      · have hj := (List.getElem?_eq_some_iff.mp hz).1
        refine .inl ⟨j, z, by rwa [getElem?_append_left hj], htrap, ?_⟩
        intro i y hi hy
        rcases hlast i y hy with hy | hy
        · exact hrest i y hi hy
        · exact hy
      · refine .inr ⟨fun i y hy => ?_, hdiv⟩
        rcases hlast i y hy with hy | hy
        · exact hrest i y hy
        · exact hy

theorem Trap.child {q first : α} {others : List α} {j : Nat} (htrap : Trap cap visit q (h + j))
    (hvisit : visit p = .children first others) (hq : (first :: others)[j]? = some q)
    (hcap : h + j < cap) (hclear : ∀ i y, j < i → (first :: others)[i]? = some y → h + i < cap →
      Clear cap visit y (h + i)) : Trap cap visit p h := by
  obtain ⟨x, k, hx, hend⟩ := htrap
  exact ⟨x, k, Reached.trans (.child .start hvisit hq hcap hclear) hx, hend⟩

/-- One turn of the loop along first children. -/
theorem trap_step {stack : List α} (hcap : stack.length < cap)
    (hdiv : ¬ Ends cap visit (p :: stack)) (htrap : ¬ Trap cap visit p stack.length)
    (hone : ∀ (x : α) (below : List α), stack.length < below.length → below.length < cap →
      ¬ Ends cap visit (x :: below) →
      Trap cap visit x below.length ∨ (Clear cap visit x below.length ∧ ¬ Ends cap visit below)) :
    (Clear cap visit p stack.length ∧ ¬ Ends cap visit stack) ∨
    ∃ first, Turn cap visit stack.length p first ∧ ¬ Ends cap visit (first :: stack) ∧
      ¬ Trap cap visit first stack.length := by
  cases hvisit : visit p with
  | found r => exact absurd ⟨1, by rw [walk_found hvisit]; rfl⟩ hdiv
  | pass =>
    refine .inl ⟨clear_of_pass hvisit, ?_⟩
    rintro ⟨n, hn⟩
    exact hdiv ⟨n + 1, by rwa [walk_pass hvisit]⟩
  | children first others =>
    refine .inr ⟨first, ?_⟩
    have hdiv' : ¬ Ends cap visit ((others.take (cap - stack.length - 1)).reverse ++ first :: stack) := by
      rintro ⟨n, hn⟩
      refine hdiv ⟨n + 1, ?_⟩
      rwa [walk_children hvisit, show cap - stack.length = cap - stack.length - 1 + 1 by omega,
        take_succ_cons, reverse_cons, append_assoc]
    have hroom : (first :: stack).length + (others.take (cap - stack.length - 1)).length ≤ cap := by
      rw [length_cons, length_take]
      omega
    have hheight : ∀ j, (first :: stack).length + j = stack.length + (j + 1) := by
      intro j
      rw [length_cons]
      omega
    rcases trap_or_pass hdiv' hroom (fun x below hle => hone x below hle) with
      ⟨j, x, hx, hbelow, hrest⟩ | ⟨hrest, hdiv⟩
    · -- a trap below another child is a trap of this place
      obtain ⟨hj, hx⟩ := getElem?_take_some hx
      rw [hheight] at hbelow
      refine absurd (hbelow.child hvisit hx (by omega) ?_) htrap
      intro i y hi hy hicap
      cases i with
      | zero => omega
      | succ i =>
        rw [← hheight]
        exact hrest i y (by omega) (by rwa [getElem?_take_of_lt (by omega)])
    · have hclear : ∀ j y, others[j]? = some y → stack.length + (j + 1) < cap →
          Clear cap visit y (stack.length + (j + 1)) := by
        intro j y hy hjcap
        rw [← hheight]
        exact hrest j y (by rwa [getElem?_take_of_lt (by omega)])
      refine ⟨⟨others, hvisit, hclear⟩, hdiv, fun hfirst => htrap ?_⟩
      refine Trap.child (j := 0) hfirst hvisit rfl hcap ?_
      intro i y hi hy hicap
      cases i with
      | zero => omega
      | succ i => exact hclear i y hy hicap

/-- A walk that does not end from a place comes to a trap from it, or passes it and does not end from the
    stack below. -/
theorem trap_of_not_ends (d : Nat) {stack : List α} (hd : cap = stack.length + (d + 1))
    (hdiv : ¬ Ends cap visit (p :: stack)) :
    Trap cap visit p stack.length ∨ (Clear cap visit p stack.length ∧ ¬ Ends cap visit stack) := by
  -- the other children are higher on the stack, so the induction is on the room above
  induction d using Nat.strongRecOn generalizing p stack with
  | ind d ih =>
    by_contra hcon
    obtain ⟨htrap, hpass⟩ := not_or.mp hcon
    let Bad (x : α) : Prop := ¬ Ends cap visit (x :: stack) ∧ ¬ Trap cap visit x stack.length ∧
      ¬ (Clear cap visit x stack.length ∧ ¬ Ends cap visit stack)
    have hstep : ∀ x : { x // Bad x }, ∃ y : { x // Bad x }, Turn cap visit stack.length x.1 y.1 := by
      rintro ⟨x, hx, hxtrap, hxpass⟩
      rcases trap_step (by omega) hx hxtrap (fun y below hlt hcap hy =>
        ih (cap - (below.length + 1)) (by omega) (by omega) hy) with hdone | ⟨first, hturn, hfirst, hftrap⟩
      · exact absurd hdone hxpass
      · refine ⟨⟨first, hfirst, hftrap, fun ⟨hfclear, hends⟩ => hxpass ⟨?_, hends⟩⟩, hturn⟩
        obtain ⟨others, hvisit, hclear⟩ := hturn
        refine clear_of_children hvisit fun j y hy hj => ?_
        cases j with
        | zero =>
          cases hy
          exact hfclear
        | succ j => exact hclear j y hy hj
    -- the places on the chain of first children are all bad, so the chain is endless
    choose next hnext using hstep
    let chain (n : Nat) : { x // Bad x } := next^[n] ⟨p, hdiv, htrap, hpass⟩
    refine htrap ⟨p, stack.length, .start, fun n => (chain n).1, rfl, fun n => ?_⟩
    have := hnext (chain n)
    rwa [show next (chain n) = chain (n + 1) from (Function.iterate_succ_apply' next n _).symm] at this

/-- The walk ends exactly when it comes to no endless chain. -/
theorem ends_iff (hcap : 0 < cap) : Ends cap visit [p] ↔ ¬ Trap cap visit p 0 := by
  constructor
  · rintro hends ⟨q, k, hq, hendless⟩
    obtain ⟨hk, below, rfl, himp⟩ := @not_ends_of_reached _ _ _ _ _ _ _ [] hq hcap
    exact not_ends_of_endless hendless hk (himp hends)
  · intro htrap
    by_contra hdiv
    have hroom : cap = ([] : List α).length + (cap - 1 + 1) := by
      rw [length_nil]
      omega
    rcases trap_of_not_ends (cap - 1) hroom hdiv with h | ⟨_, h⟩
    · exact htrap h
    · exact h ⟨1, rfl⟩

end

end Folkering.Worklist
