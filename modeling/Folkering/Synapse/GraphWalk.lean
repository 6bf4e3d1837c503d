/-
  The graph walk of the service — `sqlite_graph_walk`.

  A walk over the active edges of the `edges` table, in either direction, that is documented as breadth
  first.  The frontier is a `Vec` that is popped at its end, and an entity is marked when it is found, so
  the walk is the one of `Lib.DepthFirst`: for every table it is right exactly when, along the depth-first
  order of the tree of shortest paths, no entity is met on a longer way first (`graph_walk_iff`).
-/
import Folkering.Synapse.BlobRead
import Folkering.Lib.DepthFirst

namespace Folkering.Synapse

open Sqlite

/-- The name of an entity. -/
abbrev Entity := List UInt8

/-- Subject and object of a row. -/
abbrev EdgeRow := Entity × Entity

/-- The ends of an edge that a row stands for, if it is active; a row with other columns is passed over. -/
def activeEdge (data : Bytes) (record : Record) : Res (Option EdgeRow) := do
  match ← textColumn data record 1 with
  | none => return none
  | some subject =>
    match ← textColumn data record 3 with
    | none => return none
    | some object =>
      match ← record.get data 5 with
      | some (.integer validTo) =>
        return if validTo = 0 then some (subject.toList data, object.toList data) else none
      | _ => return none

/-- The other end of an edge at an entity. -/
def neighbour (current : Entity) (edge : EdgeRow) : Option Entity :=
  if edge.1 = current then some edge.2 else if edge.2 = current then some edge.1 else none

/-- The frontier with its end first. -/
structure WalkState where
  visited : List Entity
  frontier : List (Entity × Nat)
  result : List (Entity × Nat)

/-- An edge of the scan around an entity. -/
def expandEdge (current : Entity) (depth : Nat) (st : WalkState) (edge : EdgeRow) : WalkState :=
  match neighbour current edge with
  | none => st
  | some nb =>
    if nb ∈ st.visited then st
    else { visited := st.visited ++ [nb], frontier := (nb, depth + 1) :: st.frontier
           result := st.result ++ [(nb, depth + 1)] }

/-- A `for` loop over the active rows. -/
def overRows {σ : Type} (data : Bytes) (f : σ → EdgeRow → σ) (st : σ) :
    Except Error Record → Res (σ ⊕ Empty)
  | .error _ => .ok (.inl st)
  | .ok record => do
    match ← activeEdge data record with
    | none => return .inl st
    | some edge => return .inl (f st edge)

/-- The walk loop; nothing when the fuel runs out. -/
def walkLoop (db : Db) (maxDepth : Nat) : (fuel : Nat) → WalkState → Option (Res (List (Entity × Nat)))
  | 0, _ => none
  | fuel + 1, st =>
    match st.frontier with
    | [] => some (.ok st.result)
    | (current, depth) :: frontier =>
      let st := { st with frontier }
      if maxDepth ≤ depth then walkLoop db maxDepth fuel st
      else
        match db.tableScan edgesTable with
        | .error .panic => some (.error .panic)
        | .error (.error _) => some (.ok st.result)
        | .ok scanner =>
          match scanLoop db (overRows db.data (expandEdge current depth)) scanFuel scanner st with
          | .error e => some (.error e)
          | .ok (.inl st) => walkLoop db maxDepth fuel st

/-- The entities found and the depth of each. -/
def sqliteGraphWalk (fuel : Nat) (b : Buffer) (start : Entity) (maxDepth : Nat) :
    Option (Res (List (Entity × Nat))) :=
  if maxDepth = 0 then some (.ok [])
  else
    match openDb b with
    | none => some (.ok [])
    | some db => walkLoop db maxDepth fuel ⟨[start], [(start, 0)], []⟩

/-! ## The rows of a table -/

/-- The active edges of the database, in the order of the scan; none when there is no `edges` table. -/
def activeEdges (b : Buffer) : Res (List EdgeRow) :=
  match openDb b with
  | none => .ok []
  | some db =>
    match db.tableScan edgesTable with
    | .error .panic => .error .panic
    | .error (.error _) => .ok []
    | .ok scanner => do
      match ← scanLoop db (overRows db.data fun rows edge => rows ++ [edge]) scanFuel scanner [] with
      | .inl rows => return rows

/-- The neighbours of an entity, in the order of the rows. -/
def neighbours (rows : List EdgeRow) (current : Entity) : List Entity := rows.filterMap (neighbour current)

/-- A turn of a loop over the rows sees the same edge whatever the loop does with it. -/
theorem overRows_ok {σ : Type} {data : Bytes} {f : σ → EdgeRow → σ} {st : σ} {item : Except Error Record}
    {next : σ ⊕ Empty} (h : overRows data f st item = .ok next) :
    ∃ edge : Option EdgeRow, next = .inl (edge.elim st (f st)) ∧
      ∀ {τ : Type} (g : τ → EdgeRow → τ) (t : τ), overRows data g t item = .ok (.inl (edge.elim t (g t))) := by
  cases item with
  | error e =>
    cases h
    exact ⟨none, rfl, fun _ _ => rfl⟩
  | ok record =>
    obtain ⟨edge, hedge, h⟩ := bind_ok.mp h
    refine ⟨edge, ?_, fun g t => bind_ok.mpr ⟨edge, hedge, ?_⟩⟩
    · cases edge <;> cases h <;> rfl
    · cases edge <;> rfl

/-- A loop over the rows is a fold over the edges that it collects. -/
theorem scanLoop_overRows {σ : Type} {db : Db} (f : σ → EdgeRow → σ) {fuel : Nat} {s : TableScanner}
    {acc rows : List EdgeRow} (st : σ)
    (h : scanLoop db (overRows db.data fun rows edge => rows ++ [edge]) fuel s acc = .ok (.inl rows)) :
    ∃ new, rows = acc ++ new ∧
      scanLoop db (overRows db.data f) fuel s st = .ok (.inl (new.foldl f st)) := by
  induction fuel generalizing s acc st with
  | zero =>
    cases h
    exact ⟨[], (List.append_nil _).symm, rfl⟩
  | succ fuel ih =>
    rw [scanLoop] at h
    obtain ⟨⟨item, s'⟩, hnext, h⟩ := bind_ok.mp h
    cases item with
    | none =>
      cases h
      refine ⟨[], (List.append_nil _).symm, ?_⟩
      rw [scanLoop]
      exact bind_ok.mpr ⟨_, hnext, rfl⟩
    | some item =>
      obtain ⟨acc', hbody, h⟩ := bind_ok.mp h
      obtain ⟨edge, rfl, hedge⟩ := overRows_ok hbody
      obtain ⟨new, rfl, hnew⟩ := ih (edge.elim st (f st)) h
      refine ⟨edge.toList ++ new, ?_, ?_⟩
      · cases edge <;> simp
      · rw [scanLoop]
        refine bind_ok.mpr ⟨_, hnext, bind_ok.mpr ⟨_, hedge f st, ?_⟩⟩
        simp only [hnew]
        cases edge <;> rfl

/-! ## The walk over the rows -/

section

variable {rows : List EdgeRow} {current : Entity} {depth : Nat}

/-- A scan around an entity finds its fresh neighbours. -/
theorem foldl_expandEdge (rows : List EdgeRow) (current : Entity) (depth : Nat) (st : WalkState) :
    rows.foldl (expandEdge current depth) st =
      let new := DepthFirst.fresh st.visited (neighbours rows current)
      { visited := st.visited ++ new, frontier := (new.map (·, depth + 1)).reverse ++ st.frontier
        result := st.result ++ new.map (·, depth + 1) } := by
  induction rows generalizing st with
  | nil => simp [neighbours, DepthFirst.fresh]
  | cons edge rows ih =>
    rw [List.foldl_cons, ih]
    unfold neighbours
    rw [List.filterMap_cons]
    unfold expandEdge
    cases neighbour current edge with
    | none => rfl
    | some nb =>
      simp only [DepthFirst.fresh]
      split
      · rfl
      · simp

/-- Where the table can be scanned, the walk of the service is the one of the library on its rows. -/
theorem walkLoop_eq {db : Db} {maxDepth fuel : Nat} {scanner : TableScanner} (st : WalkState)
    (hscan : db.tableScan edgesTable = .ok scanner)
    (hrows : scanLoop db (overRows db.data fun rows edge => rows ++ [edge]) scanFuel scanner [] =
      .ok (.inl rows)) :
    walkLoop db maxDepth fuel st =
      (DepthFirst.walk (neighbours rows) maxDepth fuel st.visited st.frontier).map
        fun found => .ok (st.result ++ found) := by
  induction fuel generalizing st with
  | zero => rfl
  | succ fuel ih =>
    rw [walkLoop]
    cases hfrontier : st.frontier with
    | nil => simp [DepthFirst.walk]
    | cons e frontier =>
      obtain ⟨current, depth⟩ := e
      simp only [DepthFirst.walk]
      by_cases hdepth : maxDepth ≤ depth
      · rw [if_pos hdepth, if_pos hdepth, ih]
      · obtain ⟨new, hnew, hloop⟩ := scanLoop_overRows (expandEdge current depth)
          { st with frontier } hrows
        rw [List.nil_append] at hnew
        subst hnew
        rw [if_neg hdepth, if_neg hdepth, hscan]
        simp only [hloop]
        rw [ih, foldl_expandEdge]
        simp [Function.comp_def]

/-- Without edges, or with no step allowed, nothing is to be found. -/
theorem right_nil {start : Entity} {maxDepth : Nat} (h : rows = [] ∨ maxDepth = 0) :
    DepthFirst.Right (neighbours rows) start maxDepth [] := by
  refine ⟨List.nodup_nil, fun v d => ⟨fun hmem => absurd hmem List.not_mem_nil, ?_⟩⟩
  rintro ⟨⟨hwalks, _⟩, hpos, hle⟩
  obtain ⟨k, rfl⟩ : ∃ k, d = k + 1 := ⟨d - 1, by omega⟩
  rcases h with rfl | rfl
  · obtain ⟨z, _, hz⟩ := hwalks
    cases hz
  · omega

theorem safe_nil {start : Entity} {maxDepth : Nat} (h : rows = [] ∨ maxDepth = 0) :
    DepthFirst.Safe (neighbours rows) start maxDepth := by
  refine (DepthFirst.right_iff maxDepth).mp ⟨2, [], ?_, right_nil h⟩
  rcases h with rfl | rfl
  · simp [DepthFirst.walk, neighbours, DepthFirst.fresh]
  · simp [DepthFirst.walk]

end

/-- The walk returns the entities within `maxDepth` active edges, each once with its shortest distance,
    exactly when along the depth-first order of the tree of shortest paths every neighbour of an entity that
    is not farther has a nearer neighbour that comes before. -/
theorem graph_walk_iff {b : Buffer} {rows : List EdgeRow} (hrows : activeEdges b = .ok rows)
    (start : Entity) (maxDepth : Nat) :
    (∃ fuel hops, sqliteGraphWalk fuel b start maxDepth = some (.ok hops) ∧
      DepthFirst.Right (neighbours rows) start maxDepth hops) ↔
    DepthFirst.Safe (neighbours rows) start maxDepth := by
  by_cases hzero : maxDepth = 0
  · refine ⟨fun _ => safe_nil (.inr hzero), fun _ => ⟨0, [], ?_, right_nil (.inr hzero)⟩⟩
    simp [sqliteGraphWalk, hzero]
  unfold activeEdges at hrows
  cases hopen : openDb b with
  | none =>
    rw [hopen] at hrows
    cases hrows
    refine ⟨fun _ => safe_nil (.inl rfl), fun _ => ⟨0, [], ?_, right_nil (.inl rfl)⟩⟩
    simp [sqliteGraphWalk, hzero, hopen]
  | some db =>
    rw [hopen] at hrows
    have hwalk : ∀ fuel, sqliteGraphWalk fuel b start maxDepth =
        walkLoop db maxDepth fuel ⟨[start], [(start, 0)], []⟩ := by
      intro fuel
      simp [sqliteGraphWalk, hzero, hopen]
    simp only [hwalk]
    cases hscan : db.tableScan edgesTable with
    | error fault =>
      simp only [hscan] at hrows
      cases fault with
      | panic => cases hrows
      | error e =>
        cases hrows
        refine ⟨fun _ => safe_nil (.inl rfl), fun _ => ⟨1, [], ?_, right_nil (.inl rfl)⟩⟩
        simp [walkLoop, hzero, hscan]
    | ok scanner =>
      simp only [hscan] at hrows
      obtain ⟨found | none_, hloop, hfound⟩ := bind_ok.mp hrows
      swap
      · exact none_.elim
      cases hfound
      rw [← DepthFirst.right_iff]
      simp only [walkLoop_eq _ hscan hloop, List.nil_append]
      constructor
      · rintro ⟨fuel, hops, hw, hright⟩
        obtain ⟨found, hfound, heq⟩ := Option.map_eq_some_iff.mp hw
        cases heq
        exact ⟨fuel, hops, hfound, hright⟩
      · rintro ⟨fuel, hops, hw, hright⟩
        exact ⟨fuel, hops, by rw [hw]; rfl, hright⟩

/-! ## Small tables -/

/-- A row of two entities of one letter that is active. -/
def edgeCell (rowid : UInt8) (edge : UInt8 × UInt8) : List UInt8 :=
  [9, rowid, 7, 0, 15, 0, 15, 0, 8, edge.1, edge.2]

/-- The header of a database of two pages and the schema row of a table `edges` with root page 2. -/
def edgesSchema : Bytes :=
  overlay (overlay (overlay (fun _ => 0) 0
    (sqliteMagic ++ [2, 0] ++ List.replicate 13 0 ++ [2])) 100 [13, 0, 0, 0, 1, 0, 0, 0, 1, 128]) 384
    [16, 1, 5, 23, 23, 0, 1, 116, 97, 98, 108, 101, 101, 100, 103, 101, 115, 2]

/-- A database with an edge table of a few rows. -/
def smallEdges (edges : List (UInt8 × UInt8)) : Buffer where
  data := overlay (overlay edgesSchema 512 ([13, 0, 0, 0, .ofNat edges.length, 0, 0, 0] ++
      (List.range edges.length).flatMap fun i => [0, .ofNat (100 + 11 * i)])) 612
    ((edges.zipIdx 1).flatMap fun (edge, i) => edgeCell (.ofNat i) edge)
  size := 1024
  valid := true
  dirty _ := false
  size_le := twoPages_le

/-- Two ways from `s` to `d`: over `a`, and over `b` and `c`. -/
def twoWays : List (UInt8 × UInt8) := [(115, 97), (115, 98), (98, 99), (99, 100), (97, 100)]

/-- Two ways from `s` to `d`. -/
def twoWaysRows : List EdgeRow :=
  [([115], [97]), ([115], [98]), ([98], [99]), ([99], [100]), ([97], [100])]

theorem activeEdges_twoWays : activeEdges (smallEdges twoWays) = .ok twoWaysRows := by
  decide +kernel

theorem graph_walk_two_steps :
    ∃ fuel hops, sqliteGraphWalk fuel (smallEdges twoWays) [115] 2 = some (.ok hops) ∧
      DepthFirst.Right (neighbours twoWaysRows) [115] 2 hops :=
  (graph_walk_iff activeEdges_twoWays [115] 2).mpr (DepthFirst.safe_of_le_two (by decide))

/-- With three steps the walk finds `d` on the longer way, with depth 3; its distance is 2. -/
theorem longer_way_first :
    activeEdges (smallEdges twoWays) = .ok twoWaysRows ∧
    sqliteGraphWalk 6 (smallEdges twoWays) [115] 3 =
      some (.ok [([97], 1), ([98], 1), ([99], 2), ([100], 3)]) ∧
    DepthFirst.IsDist (neighbours twoWaysRows) [115] [100] 2 := by
  refine ⟨activeEdges_twoWays, by decide +kernel, ⟨[97], ⟨[115], rfl, by decide⟩, by decide⟩, ?_⟩
  intro m hm
  interval_cases m
  · exact (by decide : ([115] : Entity) ≠ [100])
  · rintro ⟨z, rfl, hz⟩
    exact absurd hz (by decide)

end Folkering.Synapse
