/-
  The builder of the call graph.

  The visitor collects functions and call sites; `finish` resolves each site by name, sorts the edges and lays them out
  in compressed rows by counting, prefix sums and a cursor per row.  Since the edges are sorted, the cursor of a row
  always stands at the number of edges placed so far (`Rows.next_place`), so the columns are the edges in order.
      `Calls`       — the edges, as a relation: what a call site can mean;
      `mem_edges`   — the list of edges holds exactly these pairs;
      `rowOffsets_eq`, `colIndices_eq` — the two arrays.
  All counters are 32-bit words.  A graph that needs more is not read back (`faithful_iff`).
-/
import Mathlib.Data.Set.Card
import Mathlib.Data.Finset.Card
import Folkering.Lib.Rows
import Folkering.CodeGraph.Format

namespace Folkering.CodeGraph

open Rows List

/-! ## The visitor -/

/-- `foo()` or `a::foo()`. -/
inductive CallSiteKind where
  | localCall
  | qualified
deriving DecidableEq

/-- A function that was met. -/
structure FnDef where
  simple : String
  qualified : String
  fileId : Nat

/-- A raw edge. -/
structure CallSite where
  caller : Nat
  callee : String
  kind : CallSiteKind

/-- `Builder`, the state of the visitor. -/
structure Builder where
  qualifier : List String := []
  /-- innermost function first -/
  fnStack : List Nat := []
  fns : List FnDef := []
  rawEdges : List CallSite := []
  currentFile : String := ""
  fileTable : List String := []
  currentFileId : Nat := 0

/-- What the visitor meets: files, modules and implementations, functions, calls. -/
inductive Event where
  | enterFile (path : String)
  | enterScope (name : String)
  | leaveScope
  | enterFn (simple : String)
  | leaveFn
  | call (callee : String) (kind : CallSiteKind)

namespace Builder

/-- The name of a function with file and scopes in front. -/
def qualify (b : Builder) (simple : String) : String :=
  let scope := if b.qualifier = [] then b.currentFile
    else b.currentFile ++ "::" ++ String.intercalate "::" b.qualifier
  scope ++ "::" ++ simple

/-- `enter_file`; the reverse index of the file table is the search in it. -/
def enterFile (b : Builder) (path : String) : Builder :=
  match b.fileTable.findIdx? (· == path) with
  | some id => { b with currentFile := path, currentFileId := id % 2 ^ 32 }
  | none =>
    { b with
      currentFile := path, currentFileId := b.fileTable.length % 2 ^ 32, fileTable := b.fileTable ++ [path] }

/-- A function is entered. -/
def pushFn (b : Builder) (simple : String) : Builder :=
  { b with
    fns := b.fns ++ [⟨simple, b.qualify simple, b.currentFileId⟩], fnStack := b.fns.length :: b.fnStack }

/-- One event. -/
def step (b : Builder) : Event → Builder
  | .enterFile path => b.enterFile path
  | .enterScope name => { b with qualifier := b.qualifier ++ [name] }
  | .leaveScope => { b with qualifier := b.qualifier.dropLast }
  | .enterFn simple => b.pushFn simple
  | .leaveFn => { b with fnStack := b.fnStack.tail }
  | .call callee kind =>
    match b.fnStack with
    | [] => b
    | caller :: _ => { b with rawEdges := b.rawEdges ++ [⟨caller, callee, kind⟩] }

end Builder

/-- The builder after all files. -/
def build (events : List Event) : Builder := events.foldl Builder.step {}

/-- Open functions and callers are functions that were met. -/
structure Builder.Sound (b : Builder) : Prop where
  fnStack : ∀ v ∈ b.fnStack, v < b.fns.length
  callers : ∀ site ∈ b.rawEdges, site.caller < b.fns.length

/-- Every event keeps that. -/
theorem Builder.Sound.step {b : Builder} (h : b.Sound) (e : Event) : (b.step e).Sound := by
  cases e with
  | enterFile path =>
    simp only [Builder.step, Builder.enterFile]
    split
    · exact ⟨h.fnStack, h.callers⟩
    · exact ⟨h.fnStack, h.callers⟩
  | enterScope name => exact ⟨h.fnStack, h.callers⟩
  | leaveScope => exact ⟨h.fnStack, h.callers⟩
  | enterFn simple =>
    have hlen : (b.pushFn simple).fns.length = b.fns.length + 1 := by simp [Builder.pushFn]
    refine ⟨fun v hv => ?_, fun site hsite => ?_⟩
    · rw [Builder.step, hlen]
      rcases mem_cons.mp hv with rfl | hv
      · exact Nat.lt_succ_self _
      · exact Nat.lt_succ_of_lt (h.fnStack v hv)
    · rw [Builder.step, hlen]
      exact Nat.lt_succ_of_lt (h.callers site hsite)
  | leaveFn => exact ⟨fun v hv => h.fnStack v (mem_of_mem_tail hv), h.callers⟩
  | call callee kind =>
    cases hstack : b.fnStack with
    | nil =>
      simp only [Builder.step, hstack]
      exact h
    | cons caller below =>
      simp only [Builder.step, hstack]
      refine ⟨hstack ▸ h.fnStack, fun site hsite => ?_⟩
      rcases mem_append.mp hsite with hsite | hsite
      · exact h.callers site hsite
      · cases mem_singleton.mp hsite
        exact h.fnStack caller (hstack ▸ mem_cons_self)

/-- So it holds of every builder. -/
theorem build_sound (events : List Event) : (build events).Sound := by
  have hrun : ∀ (es : List Event) (b : Builder), b.Sound → (es.foldl Builder.step b).Sound := by
    intro es
    induction es with
    | nil => exact fun b h => h
    | cons e es ih => exact fun b h => ih _ (h.step e)
  exact hrun events {} ⟨by simp, by simp⟩

/-! ## Resolution -/

section Index

variable {κ : Type} [DecidableEq κ]

/-- A hash map from keys to lists of vertices. -/
abbrev Index (κ : Type) := κ → Option (List Nat)

/-- `entry(key).or_default().push(i)`. -/
def Index.push (m : Index κ) (key : κ) (i : Nat) : Index κ := fun k =>
  if k = key then some ((m key).getD [] ++ [i]) else m k

/-- The functions from number `i` on are added. -/
def indexFrom (key : FnDef → κ) (m : Index κ) (i : Nat) : List FnDef → Index κ
  | [] => m
  | f :: fns => indexFrom key (m.push (key f) (i % 2 ^ 32)) (i + 1) fns

/-- The index `finish` builds over a key. -/
def indexBy (key : FnDef → κ) (fns : List FnDef) : Index κ := indexFrom key (fun _ => none) 0 fns

variable {key : FnDef → κ} {k : κ}

/-- A key without an entry is the key of no function. -/
theorem indexFrom_eq_none : ∀ {fns : List FnDef} {m : Index κ} {i : Nat},
    indexFrom key m i fns k = none ↔ m k = none ∧ ∀ f ∈ fns, key f ≠ k
  | [], m, i => by simp [indexFrom]
  | f :: fns, m, i => by
    rw [indexFrom, indexFrom_eq_none, forall_mem_cons, Index.push]
    by_cases hk : k = key f
    · simp [hk]
    · rw [if_neg hk]
      simp [Ne.symm hk]

/-- The entries of a key are the functions with it. -/
theorem mem_indexFrom {t : Nat} : ∀ {fns : List FnDef} {m : Index κ} {i : Nat},
    i + fns.length ≤ 2 ^ 32 → (t ∈ (indexFrom key m i fns k).getD [] ↔
      t ∈ (m k).getD [] ∨ ∃ j f, fns[j]? = some f ∧ key f = k ∧ t = i + j)
  | [], m, i, _ => by simp [indexFrom]
  | f :: fns, m, i, hlen => by
    rw [length_cons] at hlen
    rw [indexFrom, mem_indexFrom (by omega), Nat.mod_eq_of_lt (by omega), Index.push]
    have hrest : (∃ j g, (f :: fns)[j]? = some g ∧ key g = k ∧ t = i + j) ↔
        (key f = k ∧ t = i) ∨ ∃ j g, fns[j]? = some g ∧ key g = k ∧ t = i + 1 + j := by
      constructor
      · rintro ⟨j, g, hj, hg, rfl⟩
        cases j with
        | zero =>
          cases hj
          exact .inl ⟨hg, rfl⟩
        | succ j => exact .inr ⟨j, g, hj, hg, by omega⟩
      · rintro (⟨hf, rfl⟩ | ⟨j, g, hj, hg, rfl⟩)
        · exact ⟨0, f, rfl, hf, rfl⟩
        · exact ⟨j + 1, g, hj, hg, by omega⟩
    rw [hrest]
    by_cases hk : k = key f
    · subst hk
      simp [or_assoc]
    · rw [if_neg hk]
      simp [Ne.symm hk]

/-- Fewer than `2^32` functions are found under their own numbers. -/
theorem mem_indexBy {t : Nat} {fns : List FnDef} (h : fns.length < 2 ^ 32) :
    t ∈ (indexBy key fns k).getD [] ↔ ∃ f, fns[t]? = some f ∧ key f = k := by
  rw [indexBy, mem_indexFrom (by omega)]
  simp

/-- A key is missing iff no function has it. -/
theorem indexBy_eq_none {fns : List FnDef} : indexBy key fns k = none ↔ ∀ f ∈ fns, key f ≠ k := by
  rw [indexBy, indexFrom_eq_none]
  simp

end Index

/-- The functions of a name, in discovery order. -/
def anywhere (fns : List FnDef) (name : String) : List Nat := (indexBy (·.simple) fns name).getD []

/-- The targets of a call site in `f`: same file first for a local call, else every function of the name. -/
def targetsFrom (fns : List FnDef) (f : FnDef) (site : CallSite) : List Nat :=
  match site.kind with
  | .qualified => anywhere fns site.callee
  | .localCall =>
    match indexBy (fun g => (g.fileId, g.simple)) fns (f.fileId, site.callee) with
    | some inFile => inFile
    | none => anywhere fns site.callee

/-- The targets of a call site. -/
def targets (fns : List FnDef) (site : CallSite) : List Nat :=
  match fns[site.caller]? with
  | none => []
  | some f => targetsFrom fns f site

/-- All edges, before they are sorted. -/
def resolve (fns : List FnDef) (rawEdges : List CallSite) : List (Nat × Nat) :=
  rawEdges.flatMap fun site => (targets fns site).map fun t => (site.caller % 2 ^ 32, t)

/-- What a call site can mean: a function of that name, and for a local call one of the caller's own file where that
    file has one. -/
def Builder.ResolvesTo (b : Builder) (site : CallSite) (t : Nat) : Prop :=
  ∃ f g, b.fns[site.caller]? = some f ∧ b.fns[t]? = some g ∧ g.simple = site.callee ∧
    (site.kind = .localCall → (∃ h ∈ b.fns, h.fileId = f.fileId ∧ h.simple = site.callee) → g.fileId = f.fileId)

/-- The call graph as a relation. -/
def Builder.Calls (b : Builder) (v t : Nat) : Prop := ∃ site ∈ b.rawEdges, site.caller = v ∧ b.ResolvesTo site t

theorem mem_anywhere {fns : List FnDef} (hlen : fns.length < 2 ^ 32) {name : String} {t : Nat} :
    t ∈ anywhere fns name ↔ ∃ g, fns[t]? = some g ∧ g.simple = name :=
  mem_indexBy hlen

/-- The two lookups give what a call site can mean. -/
theorem mem_targetsFrom {fns : List FnDef} (hlen : fns.length < 2 ^ 32) {f : FnDef} {site : CallSite} {t : Nat} :
    t ∈ targetsFrom fns f site ↔ ∃ g, fns[t]? = some g ∧ g.simple = site.callee ∧
      (site.kind = .localCall → (∃ h ∈ fns, h.fileId = f.fileId ∧ h.simple = site.callee) → g.fileId = f.fileId) := by
  unfold targetsFrom
  cases site.kind with
  | qualified => simp [mem_anywhere hlen]
  | localCall =>
    have hnone := @indexBy_eq_none _ _ (fun g : FnDef => (g.fileId, g.simple)) (f.fileId, site.callee) fns
    have hinFile := @mem_indexBy _ _ (fun g : FnDef => (g.fileId, g.simple)) (f.fileId, site.callee) t fns hlen
    cases hi : indexBy (fun g : FnDef => (g.fileId, g.simple)) fns (f.fileId, site.callee) with
    | none =>
      -- no function of the file has the name
      have hno : ¬ ∃ h ∈ fns, h.fileId = f.fileId ∧ h.simple = site.callee := by
        rintro ⟨h, hh, hid, hname⟩
        exact hnone.mp hi h hh (by rw [hid, hname])
      simp [mem_anywhere hlen, hno]
    | some inFile =>
      have hsome : ∃ h ∈ fns, h.fileId = f.fileId ∧ h.simple = site.callee := by
        by_contra hno
        have hall := hnone.mpr fun h hh heq => hno ⟨h, hh, (Prod.mk.inj heq).1, (Prod.mk.inj heq).2⟩
        rw [hall] at hi
        cases hi
      rw [hi, Option.getD_some] at hinFile
      simp only [hinFile, hsome, Prod.mk.injEq, forall_const]
      constructor
      · rintro ⟨g, hg, hid, hname⟩
        exact ⟨g, hg, hname, hid⟩
      · rintro ⟨g, hg, hname, hid⟩
        exact ⟨g, hg, hid, hname⟩

theorem mem_targets {b : Builder} (hlen : b.fns.length < 2 ^ 32) {site : CallSite} {t : Nat} :
    t ∈ targets b.fns site ↔ b.ResolvesTo site t := by
  unfold targets Builder.ResolvesTo
  cases hf : b.fns[site.caller]? with
  | none => simp
  | some f => simp [mem_targetsFrom hlen]

/-- The resolved edges are the calls. -/
theorem mem_resolve {b : Builder} (h : b.Sound) (hlen : b.fns.length < 2 ^ 32) {v t : Nat} :
    (v, t) ∈ resolve b.fns b.rawEdges ↔ b.Calls v t := by
  unfold resolve Builder.Calls
  simp only [mem_flatMap, mem_map, mem_targets hlen, Prod.mk.injEq]
  constructor
  · rintro ⟨site, hsite, t, ht, rfl, rfl⟩
    rw [Nat.mod_eq_of_lt (Nat.lt_trans (h.callers site hsite) hlen)]
    exact ⟨site, hsite, rfl, ht⟩
  · rintro ⟨site, hsite, rfl, ht⟩
    exact ⟨site, hsite, t, ht, Nat.mod_eq_of_lt (Nat.lt_trans (h.callers site hsite) hlen), rfl⟩

/-! ## Sorting -/

/-- The order of `sort_unstable` on pairs. -/
def edgeLe (a b : Nat × Nat) : Bool := decide (a.1 < b.1 ∨ a.1 = b.1 ∧ a.2 ≤ b.2)

/-- The strict order. -/
def EdgeLt (a b : Nat × Nat) : Prop := a.1 < b.1 ∨ a.1 = b.1 ∧ a.2 < b.2

/-- `dedup`: without repetitions of the element before. -/
def dedup : List (Nat × Nat) → List (Nat × Nat)
  | [] => []
  | [a] => [a]
  | a :: b :: l => if a = b then dedup (b :: l) else a :: dedup (b :: l)

/-- Nothing is lost. -/
theorem mem_dedup {p : Nat × Nat} : ∀ {l : List (Nat × Nat)}, p ∈ dedup l ↔ p ∈ l
  | [] => by simp [dedup]
  | [a] => by simp [dedup]
  | a :: b :: l => by
    rw [dedup]
    split
    · rename_i hab
      rw [mem_dedup, hab]
      simp
    · rw [mem_cons, mem_dedup, ← mem_cons]

/-- Of a sorted list each element is left once. -/
theorem dedup_sorted : ∀ {l : List (Nat × Nat)}, l.Pairwise (fun a b => edgeLe a b = true) → (dedup l).Pairwise EdgeLt
  | [], _ => .nil
  | [a], _ => pairwise_singleton _ a
  | a :: b :: l, h => by
    obtain ⟨ha, hl⟩ := pairwise_cons.mp h
    have ih := dedup_sorted hl
    rw [dedup]
    split
    · exact ih
    · rename_i hab
      refine pairwise_cons.mpr ⟨fun c hc => ?_, ih⟩
      have hac := ha b mem_cons_self
      have hbc : c = b ∨ edgeLe b c = true := by
        rcases mem_cons.mp (mem_dedup.mp hc) with rfl | hc
        · exact .inl rfl
        · exact .inr ((pairwise_cons.mp hl).1 c hc)
      have hne : ¬ (a.1 = b.1 ∧ a.2 = b.2) := fun heq => hab (Prod.ext heq.1 heq.2)
      simp only [edgeLe, decide_eq_true_eq] at hac hbc
      unfold EdgeLt
      rcases hbc with rfl | hbc
      · omega
      · omega

/-- The edges as `finish` lays them out. -/
def Builder.edges (b : Builder) : List (Nat × Nat) := dedup ((resolve b.fns b.rawEdges).mergeSort edgeLe)

/-- The edges are sorted without repetitions. -/
theorem edges_sorted (b : Builder) : b.edges.Pairwise EdgeLt := by
  refine dedup_sorted (pairwise_mergeSort ?_ ?_ _)
  · intro p q r hpq hqr
    simp only [edgeLe, decide_eq_true_eq] at hpq hqr ⊢
    omega
  · intro p q
    simp only [edgeLe, Bool.or_eq_true, decide_eq_true_eq]
    omega

theorem edges_keySorted (b : Builder) : Rows.Sorted b.edges := by
  refine (edges_sorted b).imp ?_
  intro p q hpq
  unfold EdgeLt at hpq
  omega

/-- **The edges are the calls.** -/
theorem mem_edges {b : Builder} (h : b.Sound) (hlen : b.fns.length < 2 ^ 32) {v t : Nat} :
    (v, t) ∈ b.edges ↔ b.Calls v t := by
  rw [Builder.edges, mem_dedup, mem_mergeSort, mem_resolve h hlen]

/-- Their number is that of the pairs. -/
theorem edges_length {b : Builder} (h : b.Sound) (hlen : b.fns.length < 2 ^ 32) :
    b.edges.length = {p : Nat × Nat | b.Calls p.1 p.2}.ncard := by
  have hnodup : b.edges.Nodup := by
    refine (edges_sorted b).imp ?_
    rintro p q hpq rfl
    unfold EdgeLt at hpq
    omega
  have hset : {p : Nat × Nat | b.Calls p.1 p.2} = (b.edges.toFinset : Set (Nat × Nat)) := by
    ext p
    rw [Finset.mem_coe, mem_toFinset]
    exact (mem_edges h hlen).symm
  rw [hset, Set.ncard_coe_finset, toFinset_card_of_nodup hnodup]

/-! ## The arrays -/

/-- The first pass: how many edges leave each vertex, one place to the right. -/
def countRows (v : Nat) (edges : List (Nat × Nat)) : List Nat :=
  edges.foldl (fun r e => r.modify (e.1 + 1) fun x => (x + 1) % 2 ^ 32) (List.replicate (v + 1) 0)

/-- The second pass: each entry plus the one before it. -/
def accumulate (prev : Nat) : List Nat → List Nat
  | [] => []
  | x :: xs => (x + prev) % 2 ^ 32 :: accumulate ((x + prev) % 2 ^ 32) xs

/-- The array `row_offsets`. -/
def rowOffsets (v : Nat) (edges : List (Nat × Nat)) : List Nat :=
  match countRows v edges with
  | [] => []
  | first :: rest => first :: accumulate first rest

/-- The third pass: each target at the cursor of its row. -/
def fillColumns (colIndices cursor : List Nat) : List (Nat × Nat) → List Nat
  | [] => colIndices
  | (src, dst) :: rest =>
    fillColumns (colIndices.set (cursor.getD src 0) dst) (cursor.modify src fun x => (x + 1) % 2 ^ 32) rest

/-- `finish`. -/
def Builder.finish (b : Builder) : CallGraph :=
  let offsets := rowOffsets b.fns.length b.edges
  { names := b.fns.map (·.qualified)
    rowOffsets := offsets
    colIndices := fillColumns (List.replicate b.edges.length 0) offsets b.edges }

theorem fillColumns_length : ∀ {edges : List (Nat × Nat)} {colIndices cursor : List Nat},
    (fillColumns colIndices cursor edges).length = colIndices.length
  | [], _, _ => rfl
  | (src, dst) :: edges, colIndices, cursor => by
    rw [fillColumns, fillColumns_length, length_set]

/-- Counting, while nothing wraps. -/
theorem count_getElem? : ∀ {edges : List (Nat × Nat)} {r : List Nat},
    (∀ i x : Nat, r[i]? = some x → x + edges.length < 2 ^ 32) → ∀ i : Nat,
    (edges.foldl (fun r e => r.modify (e.1 + 1) fun x => (x + 1) % 2 ^ 32) r)[i]? =
      r[i]?.map (· + edges.countP fun e => e.1 + 1 = i)
  | [], r, _, i => by simp
  | e :: edges, r, h, i => by
    have hmod : ∀ j, (r.modify (e.1 + 1) fun x => (x + 1) % 2 ^ 32)[j]? =
        r[j]?.map fun x => if e.1 + 1 = j then x + 1 else x := by
      intro j
      rw [getElem?_modify]
      cases hx : r[j]? with
      | none => rfl
      | some x =>
        have hlt := h j x hx
        rw [length_cons] at hlt
        rw [Option.map_eq_map, Option.map_some, Option.map_some, Nat.mod_eq_of_lt (by omega)]
    have hbound : ∀ (j x : Nat), (r.modify (e.1 + 1) fun x => (x + 1) % 2 ^ 32)[j]? = some x →
        x + edges.length < 2 ^ 32 := by
      intro j x hx
      rw [hmod, Option.map_eq_some_iff] at hx
      obtain ⟨y, hy, rfl⟩ := hx
      have hlt := h j y hy
      rw [length_cons] at hlt
      split
      · omega
      · omega
    rw [foldl_cons, count_getElem? hbound, hmod, Option.map_map]
    congr 1
    funext x
    simp only [Function.comp_apply, countP_cons, decide_eq_true_eq]
    split
    · omega
    · rfl

/-- The first pass gives the degrees. -/
theorem countRows_eq {edges : List (Nat × Nat)} (v : Nat) (h : edges.length < 2 ^ 32) :
    countRows v edges = 0 :: (List.range' 0 v).map (degree edges) := by
  apply ext_getElem?
  intro i
  rw [countRows, count_getElem?]
  · cases i with
    | zero => simp
    | succ i =>
      rw [getElem?_cons_succ, getElem?_map, ← range_eq_range', getElem?_replicate]
      by_cases hi : i < v
      · rw [if_pos (by omega), getElem?_range hi]
        simp [degree]
      · rw [if_neg (by omega), getElem?_eq_none (by simpa using hi)]
        rfl
  · intro i x hx
    rw [getElem?_replicate] at hx
    split at hx
    · cases hx
      omega
    · cases hx

/-- The second pass gives the numbers of edges before a row. -/
theorem accumulate_eq {edges : List (Nat × Nat)} (h : edges.length < 2 ^ 32) : ∀ (n s : Nat),
    accumulate (before edges s) ((List.range' s n).map (degree edges)) = (List.range' (s + 1) n).map (before edges)
  | 0, _ => rfl
  | n + 1, s => by
    have hsum : (degree edges s + before edges s) % 2 ^ 32 = before edges (s + 1) := by
      have hle := before_le edges (s + 1)
      rw [Nat.add_comm, ← before_succ, Nat.mod_eq_of_lt (by omega)]
    rw [range'_succ, map_cons, accumulate, hsum, accumulate_eq h n (s + 1), range'_succ, map_cons]

/-- Offsets count the edges of the rows before. -/
theorem rowOffsets_eq {edges : List (Nat × Nat)} (v : Nat) (h : edges.length < 2 ^ 32) :
    rowOffsets v edges = (List.range (v + 1)).map (before edges) := by
  have hzero : before edges 0 = 0 := before_eq_zero fun _ _ => Nat.zero_le _
  have hacc := accumulate_eq h v 0
  rw [hzero] at hacc
  unfold rowOffsets
  simp only [countRows_eq v h]
  rw [hacc, range_eq_range', range'_succ, map_cons, hzero]

/-- Filling, while nothing wraps: the cursor of a row stands behind what its row has so far. -/
theorem fill_eq {all : List (Nat × Nat)} {v : Nat} (hsorted : Rows.Sorted all) (hlen : all.length < 2 ^ 32) :
    ∀ {rest done : List (Nat × Nat)} {cursor : List Nat}, done ++ rest = all → (∀ e ∈ rest, e.1 < v) →
    (∀ s < v, cursor[s]? = some (before all s + degree done s)) →
    fillColumns (done.map Prod.snd ++ List.replicate rest.length 0) cursor rest = all.map Prod.snd
  | [], done, cursor, hall, _, _ => by
    rw [append_nil] at hall
    rw [fillColumns, hall, length_nil, replicate_zero, append_nil]
  | (src, dst) :: rest, done, cursor, hall, hkeys, hcursor => by
    have hplace : before all src + degree done src = done.length := by
      subst hall
      exact next_place hsorted
    have hsrc : src < v := hkeys (src, dst) mem_cons_self
    have hget : cursor.getD src 0 = done.length := by
      rw [getD_eq_getElem?_getD, hcursor src hsrc, Option.getD_some, hplace]
    have hdone : done.length + 1 < 2 ^ 32 := by
      rw [← hall, length_append, length_cons] at hlen
      omega
    have hset : (done.map Prod.snd ++ List.replicate ((src, dst) :: rest).length 0).set done.length dst =
        (done ++ [(src, dst)]).map Prod.snd ++ List.replicate rest.length 0 := by
      rw [set_append_right _ _ (by simp), length_map, Nat.sub_self, length_cons,
        replicate_succ, set_cons_zero, map_append]
      simp
    rw [fillColumns, hget, hset]
    refine fill_eq hsorted hlen (by simpa using hall) (fun e he => hkeys e (mem_cons_of_mem _ he)) ?_
    intro s hs
    rw [getElem?_modify, hcursor s hs]
    have hdegree : degree (done ++ [(src, dst)]) s = degree done s + if src = s then 1 else 0 := by
      simp [degree]
    rw [hdegree]
    by_cases hss : src = s
    · subst hss
      rw [Option.map_eq_map, Option.map_some, if_pos rfl, if_pos rfl, ← Nat.add_assoc, hplace,
        Nat.mod_eq_of_lt hdone]
    · simp [hss]

/-! ## The graph -/

theorem Builder.finish_names (b : Builder) : b.finish.names.length = b.fns.length := by
  simp [Builder.finish]

section Fitting

variable {b : Builder} (hs : b.Sound) (hfns : b.fns.length < 2 ^ 32) (hedges : b.edges.length < 2 ^ 32)

include hs hfns in
/-- Edges connect functions. -/
theorem edge_lt {e : Nat × Nat} (he : e ∈ b.edges) : e.1 < b.fns.length ∧ e.2 < b.fns.length := by
  obtain ⟨site, hsite, hcaller, f, g, -, hg, -⟩ := (mem_edges hs hfns).mp he
  exact ⟨hcaller ▸ hs.callers site hsite, (List.getElem?_eq_some_iff.mp hg).1⟩

include hedges in
theorem finish_rowOffsets : b.finish.rowOffsets = (List.range (b.fns.length + 1)).map (before b.edges) :=
  rowOffsets_eq b.fns.length hedges

include hs hfns hedges in
/-- The columns are the targets of the edges, in order. -/
theorem finish_colIndices : b.finish.colIndices = b.edges.map Prod.snd := by
  refine @fill_eq b.edges b.fns.length (edges_keySorted b) hedges b.edges [] _ rfl (fun e he => (edge_lt hs hfns he).1) ?_
  intro s hlt
  rw [rowOffsets_eq _ hedges, getElem?_map, getElem?_range (by omega)]
  rfl

include hs hfns hedges in
/-- The callees of a function are its row. -/
theorem finish_neighbors {v : Nat} (hv : v < b.fns.length) : b.finish.neighbors v = some (row b.edges v) := by
  have hget : ∀ i < b.fns.length + 1, b.finish.rowOffsets[i]? = some (before b.edges i) := by
    intro i hi
    rw [finish_rowOffsets hedges, getElem?_map, getElem?_range hi]
    rfl
  have hsucc := before_succ b.edges v
  have hle := before_le b.edges (v + 1)
  unfold CallGraph.neighbors
  rw [hget v (by omega), hget (v + 1) (by omega), finish_colIndices hs hfns hedges]
  simp only [Option.bind_eq_bind, Option.bind_some, length_map]
  rw [if_pos ⟨by omega, hle⟩, hsucc, Nat.add_sub_cancel_left, stretch_eq_row (edges_keySorted b)]

end Fitting

/-- There is no row behind the last. -/
theorem neighbors_none {b : Builder} (hedges : b.edges.length < 2 ^ 32) {v : Nat} (hv : b.fns.length ≤ v) :
    b.finish.neighbors v = none := by
  have hget : b.finish.rowOffsets[v + 1]? = none := by
    rw [finish_rowOffsets hedges, getElem?_eq_none (by simpa using hv)]
  unfold CallGraph.neighbors
  rw [hget]
  cases b.finish.rowOffsets[v]? <;> rfl

/-- A row is sorted without repetitions. -/
theorem row_sorted {b : Builder} (v : Nat) : (row b.edges v).Pairwise (· < ·) := by
  rw [row, pairwise_map]
  refine List.Pairwise.imp_of_mem ?_ ((edges_sorted b).sublist filter_sublist)
  intro p q hp hq hpq
  have hp' := of_mem_filter hp
  have hq' := of_mem_filter hq
  simp only [decide_eq_true_eq] at hp' hq'
  unfold EdgeLt at hpq
  omega

/-- The loop of `callers_of` keeps the vertices with the target in their row. -/
theorem callersAmong_eq {g : CallGraph} {target : Nat} : ∀ {vs : List Nat}, (∀ v ∈ vs, (g.neighbors v).isSome) →
    g.callersAmong target vs = some (vs.filter fun v => (g.neighbors v).any fun ns => ns.contains target)
  | [], _ => rfl
  | v :: vs, h => by
    obtain ⟨ns, hns⟩ := Option.isSome_iff_exists.mp (h v mem_cons_self)
    have ih := @callersAmong_eq g target vs fun u hu => h u (mem_cons_of_mem _ hu)
    rw [CallGraph.callersAmong, hns, ih, filter_cons, hns]
    rfl

/-! ## Faithfulness -/

/-- The file gives the graph back, its rows are the resolved callees and its callers the inverse. -/
structure Builder.Faithful (b : Builder) : Prop where
  roundTrip : readFrom (writeTo b.finish) = .ok b.finish
  callees : ∀ v < b.fns.length, ∃ ns, b.finish.neighbors v = some ns ∧ ns.Pairwise (· < ·) ∧
    ∀ t, t ∈ ns ↔ b.Calls v t
  callers : ∀ t < b.fns.length, ∃ vs, b.finish.callersOf t = some vs ∧
    ∀ v, v ∈ vs ↔ ∃ ns, b.finish.neighbors v = some ns ∧ t ∈ ns

/-- Fewer than `2^32` functions, calls between them, and bytes in each name. -/
structure Builder.Fits (b : Builder) : Prop where
  fns : b.fns.length < 2 ^ 32
  calls : {p : Nat × Nat | b.Calls p.1 p.2}.ncard < 2 ^ 32
  names : ∀ f ∈ b.fns, (nameBytes f.qualified).length < 2 ^ 32

/-- Graphs that fit are faithful. -/
theorem faithful_of_fits {b : Builder} (hs : b.Sound) (h : b.Fits) : b.Faithful := by
  have hedges : b.edges.length < 2 ^ 32 := by
    rw [edges_length hs h.fns]
    exact h.calls
  have hcols := finish_colIndices hs h.fns hedges
  have hrows := finish_rowOffsets hedges
  have hnbrs : ∀ {v}, v < b.fns.length → b.finish.neighbors v = some (row b.edges v) :=
    finish_neighbors hs h.fns hedges
  constructor
  · refine readFrom_writeTo ⟨?_, ?_, ?_, ?_, ?_⟩ ?_
    · rw [b.finish_names]
      exact h.fns
    · intro name hname
      obtain ⟨f, hf, rfl⟩ := mem_map.mp hname
      exact h.names f hf
    · rw [hcols, length_map]
      exact hedges
    · intro v hv
      rw [hrows] at hv
      obtain ⟨i, -, rfl⟩ := mem_map.mp hv
      exact Nat.lt_of_le_of_lt (before_le _ _) hedges
    · intro v hv
      rw [hcols] at hv
      obtain ⟨e, he, rfl⟩ := mem_map.mp hv
      exact Nat.lt_trans (edge_lt hs h.fns he).2 h.fns
    · rw [hrows, b.finish_names, length_map, length_range]
  · intro v hv
    refine ⟨_, hnbrs hv, row_sorted v, fun t => ?_⟩
    rw [mem_row, mem_edges hs h.fns]
  · intro t _
    refine ⟨_, callersAmong_eq ?_, fun v => ?_⟩
    · intro v hv
      have hlt := Nat.lt_of_lt_of_le (mem_range.mp hv) (Nat.mod_le _ _)
      rw [b.finish_names] at hlt
      rw [hnbrs hlt]
      rfl
    · rw [mem_filter, mem_range, b.finish_names, Nat.mod_eq_of_lt h.fns]
      constructor
      · rintro ⟨hv, hany⟩
        rw [hnbrs hv] at hany
        exact ⟨_, hnbrs hv, by simpa using hany⟩
      · rintro ⟨ns, hns, ht⟩
        have hv : v < b.fns.length := by
          by_contra hge
          rw [neighbors_none hedges (Nat.le_of_not_lt hge)] at hns
          cases hns
        refine ⟨hv, ?_⟩
        rw [hns]
        simpa using ht

/-- What is read back has counts of 32 bits. -/
theorem fits_of_roundTrip {b : Builder} (hs : b.Sound) (h : readFrom (writeTo b.finish) = .ok b.finish) : b.Fits := by
  have hh := holds_of_readFrom h
  have hfns : b.fns.length < 2 ^ 32 := by
    rw [← b.finish_names, hh.names]
    exact hh.namesLt
  refine ⟨hfns, ?_, fun f hf => hh.nameLengths _ (mem_map_of_mem hf)⟩
  have hlen : b.finish.colIndices.length = b.edges.length := by
    rw [Builder.finish, fillColumns_length, length_replicate]
  rw [← edges_length hs hfns, ← hlen, hh.colIndices, length_map, length_range']
  exact hh.edgesLt

/-- CALL-GRAPH FILES: a graph of the builder is faithful iff its counts fit in 32 bits, and the queries on an accepted
    file stay in range iff its words do. -/
theorem codeGraph_faithful_safe_iff (events : List Event) (buf : List UInt8) :
    ((build events).Faithful ↔ (build events).Fits) ∧
      ((∀ g, readFrom buf = .ok g → g.Safe) ↔ ((∃ g, readFrom buf = .ok g) → WordsInRange buf)) := by
  have hs := build_sound events
  refine ⟨⟨fun h => fits_of_roundTrip hs h.roundTrip, faithful_of_fits hs⟩, ?_, ?_⟩
  · rintro h ⟨g, hg⟩
    exact (safe_iff (holds_of_readFrom hg)).mp (h g hg)
  · intro h g hg
    exact (safe_iff (holds_of_readFrom hg)).mpr (h ⟨g, hg⟩)

/-- One vertex with an empty name, no edges, and a row that ends at 5. -/
def brokenGraph : CallGraph := ⟨[""], [0, 5], []⟩

/-- Its file. -/
def brokenFile : List UInt8 :=
  [0x46, 0x43, 0x47, 0x31, 1, 0, 0, 0, 1, 0, 0, 0, 0, 0, 0, 0, 0, 0, 0, 0, 5, 0, 0, 0, 0, 0, 0, 0]

/-- The file is accepted, and the neighbours of its vertex are out of range. -/
theorem brokenFile_accepted : readFrom brokenFile = .ok brokenGraph ∧ brokenGraph.neighbors 0 = none := by
  have hfile : brokenFile = writeTo brokenGraph := by decide
  have hfits : brokenGraph.Fits := ⟨by decide, by decide, by decide, by decide, by decide⟩
  exact ⟨hfile ▸ readFrom_writeTo hfits rfl, rfl⟩

end Folkering.CodeGraph
