/-
  The call graph in compressed rows, and its file format FCG1.

  `read_from` checks magic, version and that the file is long enough.  It checks neither the row offsets nor the column
  indices, which the queries then use as indices:
      `neighbors`    slices `col_indices` from one row offset to the next;
      `callers_of`   does so for every vertex;
      `unreferenced` indexes a table of all vertices by every column index.
  `safe_iff`: on an accepted file they stay in range iff the words of the file do (`WordsInRange`).

  A query that would panic is `none`.  The tool runs on a 64-bit host.
-/
import Mathlib.Algebra.Order.Group.Nat
import Folkering.Lib.Wire
import Folkering.Lib.LittleEndian

namespace Folkering.CodeGraph

open Wire LittleEndian

/-- `CallGraph`. -/
structure CallGraph where
  names : List String
  rowOffsets : List Nat
  colIndices : List Nat

/-! ## Queries -/

namespace CallGraph

/-- `neighbors`: the callees of a vertex. -/
def neighbors (g : CallGraph) (v : Nat) : Option (List Nat) := do
  let s ← g.rowOffsets[v]?
  let e ← g.rowOffsets[v + 1]?
  if s ≤ e ∧ e ≤ g.colIndices.length then some ((g.colIndices.drop s).take (e - s)) else none

/-- The loop of `callers_of`. -/
def callersAmong (g : CallGraph) (target : Nat) : List Nat → Option (List Nat)
  | [] => some []
  | v :: vs => do
    let ns ← g.neighbors v
    let out ← callersAmong g target vs
    some (if ns.contains target then v :: out else out)

/-- `callers_of`. -/
def callersOf (g : CallGraph) (target : Nat) : Option (List Nat) :=
  g.callersAmong target (List.range (g.names.length % 2 ^ 32))

/-- The loop of `unreferenced`. -/
def markReferenced (referenced : List Bool) : List Nat → Option (List Bool)
  | [] => some referenced
  | dst :: rest => if dst < referenced.length then markReferenced (referenced.set dst true) rest else none

/-- `unreferenced`. -/
def unreferenced (g : CallGraph) : Option (List Nat) := do
  let referenced ← markReferenced (List.replicate g.names.length false) g.colIndices
  some ((List.range (g.names.length % 2 ^ 32)).filter fun i => !referenced.getD i false)

end CallGraph

/-! ## The file -/

/-- `FCG1`. -/
def magic : Nat := 0x31474346
/-- The version that is read. -/
def version : Nat := 1

/-- `LoadError`. -/
inductive LoadError where
  | badMagic
  | badVersion (v : Nat)
  | truncated
  | invalidUtf8
deriving DecidableEq

/-- A name as it is written. -/
def nameBytes (name : String) : List UInt8 := name.toByteArray.data.toList

/-- `str::from_utf8`. -/
def fromUtf8 (bytes : List UInt8) : Option String := String.fromUTF8? ⟨bytes.toArray⟩

/-- A name with its length in front. -/
def writeName (name : String) : List UInt8 := leBytes 4 (nameBytes name).length ++ nameBytes name

/-- `write_to`: each count is stored as `len as u32`, the low four bytes. -/
def writeTo (g : CallGraph) : List UInt8 :=
  leBytes 4 magic ++ (leBytes 4 version ++ (leBytes 4 g.names.length ++ (leBytes 4 g.colIndices.length ++
    (g.rowOffsets.flatMap (leBytes 4) ++ (g.colIndices.flatMap (leBytes 4) ++ g.names.flatMap writeName)))))

/-- A word of the file. -/
def readU32 (buf : List UInt8) : Step Nat LoadError Nat := do
  let bytes ← Wire.bytes .truncated 4 buf
  pure (fromLe bytes)

/-- A name. -/
def readName (buf : List UInt8) : Step Nat LoadError String := do
  let len ← readU32 buf
  let bytes ← Wire.bytes .truncated len buf
  match fromUtf8 bytes with
  | none => throw .invalidUtf8
  | some s => pure s

/-- The three lists, once the counts are known. -/
def readLists (nVerts nEdges : Nat) (buf : List UInt8) : Step Nat LoadError CallGraph := do
  let rowOffsets ← many readU32 buf (nVerts + 1)
  let colIndices ← many readU32 buf nEdges
  let names ← many readName buf nVerts
  pure { names, rowOffsets, colIndices }

/-- The header, then the lists. -/
def readGraph (buf : List UInt8) : Step Nat LoadError CallGraph := do
  let m ← readU32 buf
  if m ≠ magic then throw .badMagic
  else do
    let v ← readU32 buf
    if v ≠ version then throw (.badVersion v)
    else do
      let nVerts ← readU32 buf
      let nEdges ← readU32 buf
      readLists nVerts nEdges buf

/-- `read_from`. -/
def readFrom (buf : List UInt8) : Except LoadError CallGraph := (readGraph buf 0).map Prod.fst

/-! ## Round trip -/

/-- What the words of the file can hold. -/
structure CallGraph.Fits (g : CallGraph) : Prop where
  names : g.names.length < 2 ^ 32
  nameLengths : ∀ name ∈ g.names, (nameBytes name).length < 2 ^ 32
  edges : g.colIndices.length < 2 ^ 32
  rowOffsets : ∀ v ∈ g.rowOffsets, v < 2 ^ 32
  colIndices : ∀ v ∈ g.colIndices, v < 2 ^ 32

/-- A word is read back. -/
theorem reads_readU32 {v : Nat} (h : v < 2 ^ 32) : Reads .truncated readU32 v (leBytes 4 v) := by
  have hb : Reads LoadError.truncated (Wire.bytes .truncated 4) (leBytes 4 v) (leBytes 4 v) := by
    simpa using @Reads.bytes _ _ LoadError.truncated (leBytes 4 v)
  have hm := hb.map fromLe
  rwa [fromLe_leBytes h] at hm

theorem fromUtf8_nameBytes (name : String) : fromUtf8 (nameBytes name) = some name := by
  have hb : (⟨(nameBytes name).toArray⟩ : ByteArray) = name.toByteArray := by simp [nameBytes]
  rw [fromUtf8, hb, String.fromUTF8?, dif_pos name.isValidUTF8]
  rfl

/-- So is a name. -/
theorem reads_readName {name : String} (h : (nameBytes name).length < 2 ^ 32) :
    Reads .truncated readName name (writeName name) := by
  have hbytes : Reads LoadError.truncated (Wire.bytes .truncated (nameBytes name).length) (nameBytes name)
      (nameBytes name) := Reads.bytes _
  have hdecode : Reads LoadError.truncated (fun buf => Wire.bytes .truncated (nameBytes name).length buf >>= fun bytes =>
      match fromUtf8 bytes with
      | none => throw .invalidUtf8
      | some s => pure s) name (nameBytes name ++ []) := by
    refine hbytes.bind ?_
    simp only [fromUtf8_nameBytes]
    exact Reads.pure name
  rw [List.append_nil] at hdecode
  exact (reads_readU32 h).bind hdecode

theorem reads_words {vs : List Nat} (h : ∀ v ∈ vs, v < 2 ^ 32) :
    Reads .truncated (fun buf => many readU32 buf vs.length) vs (vs.flatMap (leBytes 4)) :=
  Reads.many fun v hv => reads_readU32 (h v hv)

/-- So is a graph whose numbers fit. -/
theorem reads_readGraph {g : CallGraph} (h : g.Fits) (hrows : g.rowOffsets.length = g.names.length + 1) :
    Reads .truncated readGraph g (writeTo g) := by
  have hnames : Reads LoadError.truncated (fun buf => many readName buf g.names.length) g.names
      (g.names.flatMap writeName) := Reads.many fun name hname => reads_readName (h.nameLengths name hname)
  have hlists : Reads LoadError.truncated (readLists g.names.length g.colIndices.length) g
      (g.rowOffsets.flatMap (leBytes 4) ++ (g.colIndices.flatMap (leBytes 4) ++ g.names.flatMap writeName)) := by
    unfold readLists
    rw [← hrows]
    exact (reads_words h.rowOffsets).bind ((reads_words h.colIndices).bind (hnames.map _))
  refine (reads_readU32 (by decide)).bind (.guarded (by simp) ?_)
  refine (reads_readU32 (by decide)).bind (.guarded (by simp) ?_)
  exact (reads_readU32 h.names).bind ((reads_readU32 h.edges).bind hlists)

/-- **Round trip.** -/
theorem readFrom_writeTo {g : CallGraph} (h : g.Fits) (hrows : g.rowOffsets.length = g.names.length + 1) :
    readFrom (writeTo g) = .ok g := by
  rw [readFrom, (reads_readGraph h hrows).whole.1]
  rfl

/-! ## What an accepted file holds -/

/-- The little-endian word number `i` of the file. -/
def word (buf : List UInt8) (i : Nat) : Nat := fromLe ((buf.drop (4 * i)).take 4)

variable {buf : List UInt8}

theorem readU32_lt {p v q : Nat} (h : readU32 buf p = .ok (v, q)) : v < 2 ^ 32 := by
  obtain ⟨bs, p₁, hbs, h⟩ := Step.bind_ok.mp h
  cases h
  have hlt := fromLe_lt bs
  rwa [bytes_length hbs] at hlt

/-- A word is read where it stands. -/
theorem readU32_ok {i v q : Nat} (h : readU32 buf (4 * i) = .ok (v, q)) : v = word buf i ∧ q = 4 * (i + 1) := by
  obtain ⟨bs, p, hbs, h⟩ := Step.bind_ok.mp h
  cases h
  unfold Wire.bytes at hbs
  split at hbs
  · cases hbs
  · cases hbs
    exact ⟨rfl, rfl⟩

/-- Words are read one after the other. -/
theorem readWords_ok : ∀ {n i q : Nat} {vs : List Nat},
    many readU32 buf n (4 * i) = .ok (vs, q) → vs = (List.range' i n).map (word buf) ∧ q = 4 * (i + n)
  | 0, i, q, vs, h => by
    cases h
    exact ⟨rfl, rfl⟩
  | n + 1, i, q, vs, h => by
    obtain ⟨v, p₁, hv, h⟩ := Step.bind_ok.mp h
    obtain ⟨ws, p₂, hws, h⟩ := Step.bind_ok.mp h
    cases h
    obtain ⟨rfl, rfl⟩ := readU32_ok hv
    obtain ⟨rfl, rfl⟩ := readWords_ok hws
    refine ⟨rfl, ?_⟩
    omega

/-- A name has as many bytes as its length says. -/
theorem readName_length {p q : Nat} {name : String} (h : readName buf p = .ok (name, q)) :
    (nameBytes name).length < 2 ^ 32 := by
  obtain ⟨len, p₁, hlen, h⟩ := Step.bind_ok.mp h
  obtain ⟨bs, p₂, hbs, h⟩ := Step.bind_ok.mp h
  have hlt := readU32_lt hlen
  cases hs : fromUtf8 bs with
  | none =>
    rw [hs] at h
    cases h
  | some s =>
    rw [hs] at h
    cases h
    -- a decoded string has the bytes it was decoded from
    unfold fromUtf8 String.fromUTF8? at hs
    split at hs
    · cases hs
      rw [← bytes_length hbs] at hlt
      simpa [nameBytes, String.fromUTF8] using hlt
    · cases hs

theorem readNames_length : ∀ {n p q : Nat} {names : List String},
    many readName buf n p = .ok (names, q) → ∀ name ∈ names, (nameBytes name).length < 2 ^ 32
  | 0, p, q, names, h => by
    cases h
    simp
  | n + 1, p, q, names, h => by
    obtain ⟨s, p₁, hs, h⟩ := Step.bind_ok.mp h
    obtain ⟨ss, p₂, hss, h⟩ := Step.bind_ok.mp h
    cases h
    intro name hname
    rcases List.mem_cons.mp hname with rfl | hname
    · exact readName_length hs
    · exact readNames_length hss name hname

/-- The lists of an accepted file are its words, in as many as it says. -/
structure Holds (buf : List UInt8) (g : CallGraph) : Prop where
  names : g.names.length = word buf 2
  rowOffsets : g.rowOffsets = (List.range' 4 (word buf 2 + 1)).map (word buf)
  colIndices : g.colIndices = (List.range' (5 + word buf 2) (word buf 3)).map (word buf)
  namesLt : word buf 2 < 2 ^ 32
  edgesLt : word buf 3 < 2 ^ 32
  nameLengths : ∀ name ∈ g.names, (nameBytes name).length < 2 ^ 32

/-- The lists behind the header. -/
theorem holds_of_readLists {g : CallGraph} {q : Nat}
    (h : readLists (word buf 2) (word buf 3) buf (4 * 4) = .ok (g, q)) (hv : word buf 2 < 2 ^ 32)
    (he : word buf 3 < 2 ^ 32) : Holds buf g := by
  obtain ⟨rowOffsets, p₁, hrows, h⟩ := Step.bind_ok.mp h
  obtain ⟨rfl, rfl⟩ := readWords_ok hrows
  obtain ⟨colIndices, p₂, hcols, h⟩ := Step.bind_ok.mp h
  obtain ⟨rfl, rfl⟩ := readWords_ok hcols
  obtain ⟨names, p₃, hnames, h⟩ := Step.bind_ok.mp h
  cases h
  refine ⟨many_length hnames, rfl, ?_, hv, he, readNames_length hnames⟩
  rw [show 4 + (word buf 2 + 1) = 5 + word buf 2 by omega]

/-- **What an accepted file holds.** -/
theorem holds_of_readFrom {g : CallGraph} (h : readFrom buf = .ok g) : Holds buf g := by
  unfold readFrom at h
  cases hg : readGraph buf 0 with
  | error e =>
    rw [hg] at h
    cases h
  | ok r =>
    rw [hg] at h
    cases h
    obtain ⟨g, q⟩ := r
    obtain ⟨m, p₁, hm, hg⟩ := Step.bind_ok.mp hg
    obtain ⟨rfl, rfl⟩ := @readU32_ok buf 0 _ _ hm
    split at hg
    · cases hg
    obtain ⟨v, p₂, hv, hg⟩ := Step.bind_ok.mp hg
    obtain ⟨rfl, rfl⟩ := readU32_ok hv
    split at hg
    · cases hg
    obtain ⟨n, p₃, hn, hg⟩ := Step.bind_ok.mp hg
    obtain ⟨rfl, rfl⟩ := readU32_ok hn
    obtain ⟨e, p₄, he, hg⟩ := Step.bind_ok.mp hg
    obtain ⟨rfl, rfl⟩ := readU32_ok he
    exact holds_of_readLists hg (readU32_lt hn) (readU32_lt he)

/-! ## Range -/

/-- No query on the graph indexes out of range. -/
structure CallGraph.Safe (g : CallGraph) : Prop where
  neighbors : ∀ v < g.names.length, (g.neighbors v).isSome
  callersOf : ∀ target < g.names.length, (g.callersOf target).isSome
  unreferenced : g.unreferenced.isSome

/-- The row offsets of the file do not decrease and stay within the edges, and its column indices are vertices. -/
def WordsInRange (buf : List UInt8) : Prop :=
  (∀ v < word buf 2, word buf (4 + v) ≤ word buf (5 + v) ∧ word buf (5 + v) ≤ word buf 3) ∧
    ∀ j < word buf 3, word buf (5 + word buf 2 + j) < word buf 2

/-- The loop over the vertices stays in range iff every row does. -/
theorem callersAmong_isSome {g : CallGraph} {target : Nat} : ∀ {vs : List Nat},
    (g.callersAmong target vs).isSome ↔ ∀ v ∈ vs, (g.neighbors v).isSome
  | [] => by simp [CallGraph.callersAmong]
  | v :: vs => by
    have ih := @callersAmong_isSome g target vs
    rw [List.forall_mem_cons, ← ih, CallGraph.callersAmong]
    cases g.neighbors v <;> cases g.callersAmong target vs <;> simp

/-- The marking stays in range iff every column index does. -/
theorem markReferenced_isSome : ∀ {cols : List Nat} {referenced : List Bool},
    (CallGraph.markReferenced referenced cols).isSome ↔ ∀ dst ∈ cols, dst < referenced.length
  | [], referenced => by simp [CallGraph.markReferenced]
  | dst :: cols, referenced => by
    rw [List.forall_mem_cons, CallGraph.markReferenced]
    split
    · rename_i hdst
      rw [markReferenced_isSome, List.length_set]
      exact ⟨fun h => ⟨hdst, h⟩, And.right⟩
    · rename_i hdst
      simp [hdst]

/-- `unreferenced` stays in range iff the column indices are vertices. -/
theorem unreferenced_isSome {g : CallGraph} : g.unreferenced.isSome ↔ ∀ dst ∈ g.colIndices, dst < g.names.length := by
  have hmark := @markReferenced_isSome g.colIndices (List.replicate g.names.length false)
  rw [List.length_replicate] at hmark
  rw [← hmark, CallGraph.unreferenced]
  cases CallGraph.markReferenced (List.replicate g.names.length false) g.colIndices <;> simp

/-- A row is in range iff its offsets are. -/
theorem neighbors_isSome {g : CallGraph} {v s e : Nat} (hs : g.rowOffsets[v]? = some s)
    (he : g.rowOffsets[v + 1]? = some e) : (g.neighbors v).isSome ↔ s ≤ e ∧ e ≤ g.colIndices.length := by
  unfold CallGraph.neighbors
  rw [hs, he]
  simp only [Option.bind_eq_bind, Option.bind_some]
  split
  · rename_i h
    simp [h]
  · rename_i h
    simp [h]

/-- The queries on an accepted file stay in range iff its words do. -/
theorem safe_iff {g : CallGraph} (h : Holds buf g) : g.Safe ↔ WordsInRange buf := by
  have hedges : g.colIndices.length = word buf 3 := by
    rw [h.colIndices, List.length_map, List.length_range']
  have hrow : ∀ v < word buf 2, (g.neighbors v).isSome ↔
      word buf (4 + v) ≤ word buf (5 + v) ∧ word buf (5 + v) ≤ word buf 3 := by
    intro v hv
    have hget : ∀ i < word buf 2 + 1, g.rowOffsets[i]? = some (word buf (4 + i)) := by
      intro i hi
      rw [h.rowOffsets, List.getElem?_map, List.getElem?_range' hi, Nat.one_mul]
      rfl
    rw [neighbors_isSome (hget v (by omega)) (hget (v + 1) (by omega)), hedges,
      show 4 + (v + 1) = 5 + v by omega]
  have hcols : g.unreferenced.isSome ↔ ∀ j < word buf 3, word buf (5 + word buf 2 + j) < word buf 2 := by
    rw [unreferenced_isSome, h.names, h.colIndices]
    simp only [List.mem_map, List.mem_range', forall_exists_index, and_imp, Nat.one_mul]
    constructor
    · intro hall j hj
      exact hall _ _ j hj rfl rfl
    · rintro hall dst i j hj rfl rfl
      exact hall j hj
  constructor
  · intro hsafe
    refine ⟨fun v hv => (hrow v hv).mp (hsafe.neighbors v ?_), hcols.mp hsafe.unreferenced⟩
    rw [h.names]
    exact hv
  · rintro ⟨hoffsets, hindices⟩
    have hall : ∀ v < g.names.length, (g.neighbors v).isSome := by
      intro v hv
      rw [h.names] at hv
      exact (hrow v hv).mpr (hoffsets v hv)
    refine ⟨hall, fun target _ => ?_, hcols.mpr hindices⟩
    rw [CallGraph.callersOf, callersAmong_isSome]
    intro v hv
    exact hall v (Nat.lt_of_lt_of_le (List.mem_range.mp hv) (Nat.mod_le _ _))

end Folkering.CodeGraph
