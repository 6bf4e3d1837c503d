/-
  TABLE SCAN — what the scanner yields.

  A page of a table tree is a leaf with its cell offsets, or an interior page with its children, the right
  pointer last (`Db.node`).  The leaves below a root, left to right, are `Inorder.leaves`; an image whose
  leaves exist with at most 64 pages on each path is a well-formed tree.
    * `descendToLeaf_eq`, `advance_eq` — the scanner moves as the cursor of `Lib.Inorder` does;
    * `yields_scan`       — it yields the cells of the leaves up to the first that is empty, then ends;
    * `scan_complete_iff` — so it yields every cell exactly when no empty leaf has cells to its right.
-/
import Folkering.Sqlite.Table
import Folkering.Lib.Inorder

namespace Folkering.Sqlite

open Inorder List

/-! ## Results -/

theorem bind_ok {α β : Type} {x : Res α} {f : α → Res β} {b : β} :
    x.bind f = .ok b ↔ ∃ a, x = .ok a ∧ f a = .ok b := by
  cases x with
  | error e =>
    constructor
    · intro h
      cases h
    · rintro ⟨a, h, _⟩
      cases h
  | ok a =>
    constructor
    · intro h
      exact ⟨a, rfl, h⟩
    · rintro ⟨_, h, hf⟩
      cases h
      exact hf

theorem mapM_ok_iff {α β : Type} {f : α → Res β} {xs : List α} {ys : List β} :
    xs.mapM f = .ok ys ↔ List.Forall₂ (fun x y => f x = .ok y) xs ys := by
  induction xs generalizing ys with
  | nil =>
    rw [mapM_nil, forall₂_nil_left_iff]
    constructor
    · intro h
      cases h
      rfl
    · rintro rfl
      rfl
  | cons x xs ih =>
    rw [mapM_cons, forall₂_cons_left_iff]
    constructor
    · intro h
      obtain ⟨y, hy, h⟩ := bind_ok.mp h
      obtain ⟨zs, hzs, h⟩ := bind_ok.mp h
      cases h
      exact ⟨y, zs, hy, ih.mp hzs, rfl⟩
    · rintro ⟨y, zs, hy, hzs, rfl⟩
      exact bind_ok.mpr ⟨y, hy, bind_ok.mpr ⟨zs, ih.mpr hzs, rfl⟩⟩

/-- The first entries of a table of results. -/
theorem mapM_range_take {β : Type} {f : Nat → Res β} {n m : Nat} {ys : List β}
    (h : (List.range n).mapM f = .ok ys) (hm : m ≤ n) : (List.range m).mapM f = .ok (ys.take m) := by
  rw [mapM_ok_iff] at h ⊢
  have := forall₂_take m h
  rwa [take_range, Nat.min_eq_left hm] at this

/-! ## Pages as places of a tree -/

/-- A leaf page with the offsets of its cells. -/
structure Leaf where
  page : Nat
  cells : List Nat
deriving Repr, DecidableEq

/-- The cell offsets of a page. -/
def cellPointers (data : Bytes) (page : Slice) (h : BTreePageHeader) (headerOffset : Nat) :
    Res (List Nat) :=
  (List.range h.cellCount).mapM (cellPointer data page h headerOffset)

/-- A page of a table tree: cells within the page, and for an interior page its children. -/
def Db.node (db : Db) (pageNum : Nat) : Option (Node Nat Leaf) :=
  match db.pageHeader pageNum with
  | .error _ => none
  | .ok (page, h) =>
    match cellPointers db.data page h (headerOffset pageNum) with
    | .error _ => none
    | .ok offsets =>
      match h.pageType, h.rightPointer with
      | .leafTable, _ =>
        if offsets.all (· < page.len) then some (.leaf { page := pageNum, cells := offsets }) else none
      | .interiorTable, some right =>
        match offsets.mapM (leftChild db.data page) with
        | .ok (kid :: kids) => some (.inner kid (kids ++ [right]))
        | .ok [] => some (.inner right [])
        | .error _ => none
      | _, _ => none

/-- The leaves of the table tree with this root, if it is one. -/
def Db.leaves (db : Db) (root : Nat) : Option (List Leaf) := Inorder.leaves db.node maxDepth root

section

variable {db : Db} {p q : Nat}

/-- What a leaf page looks like to the reader. -/
structure LeafPage (db : Db) (p : Nat) (l : Leaf) (page : Slice) (h : BTreePageHeader) : Prop where
  header : db.pageHeader p = .ok (page, h)
  type : h.pageType = .leafTable
  pointers : cellPointers db.data page h (headerOffset p) = .ok l.cells
  inside : ∀ offset ∈ l.cells, offset < page.len
  number : l.page = p

theorem node_leaf {l : Leaf} (h : db.node p = some (.leaf l)) : ∃ page header, LeafPage db p l page header := by
  unfold Db.node at h
  split at h
  · cases h
  rename_i page header hheader
  split at h
  · cases h
  rename_i offsets hoffsets
  split at h
  · rename_i _ _ htype
    split at h
    · rename_i hall
      cases h
      exact ⟨page, header, hheader, htype, hoffsets, by simpa using hall, rfl⟩
    · cases h
  · split at h
    all_goals cases h
  · cases h

/-- What an interior page looks like to the reader. -/
structure InteriorPage (db : Db) (p : Nat) (kid : Nat) (kids : List Nat) (page : Slice)
    (h : BTreePageHeader) (offsets children : List Nat) (right : Nat) : Prop where
  header : db.pageHeader p = .ok (page, h)
  type : h.pageType = .interiorTable
  rightPointer : h.rightPointer = some right
  pointers : cellPointers db.data page h (headerOffset p) = .ok offsets
  left : offsets.mapM (leftChild db.data page) = .ok children
  kids : kid :: kids = children ++ [right]

theorem node_inner {kid : Nat} {kids : List Nat} (h : db.node p = some (.inner kid kids)) :
    ∃ page header offsets children right, InteriorPage db p kid kids page header offsets children right := by
  unfold Db.node at h
  split at h
  · cases h
  rename_i page header hheader
  split at h
  · cases h
  rename_i offsets hoffsets
  split at h
  · split at h
    all_goals cases h
  · rename_i _ _ right htype hright
    split at h
    · rename_i hleft
      cases h
      exact ⟨page, header, offsets, _, right, hheader, htype, hright, hoffsets, hleft, rfl⟩
    · rename_i hleft
      cases h
      exact ⟨page, header, offsets, [], _, hheader, htype, hright, hoffsets, hleft, rfl⟩
    · cases h
  · cases h

theorem length_of_mapM {α β : Type} {f : α → Res β} {xs : List α} {ys : List β}
    (h : xs.mapM f = .ok ys) : ys.length = xs.length :=
  (mapM_ok_iff.mp h).length_eq.symm

theorem getElem_of_mapM {α β : Type} {f : α → Res β} {xs : List α} {ys : List β}
    (h : xs.mapM f = .ok ys) {i : Nat} {x : α} (hx : xs[i]? = some x) : ∃ y, ys[i]? = some y ∧ f x = .ok y := by
  obtain ⟨hi, rfl⟩ := List.getElem?_eq_some_iff.mp hx
  have hi' : i < ys.length := by rw [length_of_mapM h]; exact hi
  exact ⟨ys[i], getElem?_eq_getElem hi', (forall₂_iff_get.mp (mapM_ok_iff.mp h)).2 i hi hi'⟩

/-- Walking the iterator finds the entries of the pointer array. -/
theorem getCellOffset_eq {data : Bytes} {page : Slice} {h : BTreePageHeader} {off : Nat}
    {offsets : List Nat} (hp : cellPointers data page h off = .ok offsets) (n : Nat) :
    getCellOffset data page h off n = .ok offsets[n]? := by
  have hlen : offsets.length = h.cellCount := by
    rw [length_of_mapM hp, length_range]
  unfold getCellOffset
  rw [mapM_range_take hp (Nat.min_le_right _ _)]
  show Except.ok (offsets.take _)[n]? = _
  rw [getElem?_take]
  split
  · rfl
  · rename_i hn
    rw [getElem?_eq_none (by omega)]

/-! ## The scanner moves as the cursor -/

theorem pageHeader_page {page : Slice} {h : BTreePageHeader} (hp : db.pageHeader p = .ok (page, h)) :
    page = ⟨(p - 1) * db.pageSize, db.pageSize⟩ ∧ h.cellCount < 2 ^ 16 := by
  obtain ⟨page', hpage, hp⟩ := bind_ok.mp hp
  obtain ⟨h', hparse, hp⟩ := bind_ok.mp hp
  cases hp
  constructor
  · unfold Db.page at hpage
    split at hpage
    · cases hpage
    · split at hpage
      · cases hpage
      · cases hpage
        rfl
  · have hlt := beNat_lt db.data (page.start + headerOffset p + 3) 2
    unfold BTreePageHeader.parse at hparse
    split at hparse
    · cases hparse
    obtain ⟨type, _, hparse⟩ := bind_ok.mp hparse
    split at hparse
    · cases hparse
      exact hlt
    · split at hparse
      · cases hparse
      · cases hparse
        exact hlt

theorem cellPointer_inside {data : Bytes} {page : Slice} {h : BTreePageHeader} {off i v : Nat}
    (hp : cellPointer data page h off i = .ok v) : off + h.headerSize + i * 2 + 1 < page.len := by
  obtain ⟨high, _, hp⟩ := bind_ok.mp hp
  obtain ⟨low, hlow, _⟩ := bind_ok.mp hp
  unfold Slice.byte at hlow
  split at hlow
  · assumption
  · cases hlow

section

variable {kid right : Nat} {kids offsets children : List Nat} {page : Slice} {h : BTreePageHeader}

theorem InteriorPage.length_offsets (hp : InteriorPage db p kid kids page h offsets children right) :
    offsets.length = h.cellCount := by
  rw [length_of_mapM hp.pointers, length_range]

theorem InteriorPage.length_kids (hp : InteriorPage db p kid kids page h offsets children right) :
    kids.length = h.cellCount := by
  have hk := congrArg List.length hp.kids
  rw [length_cons, length_append, length_of_mapM hp.left, hp.length_offsets] at hk
  simpa using hk

/-- The pointer array is within the page, so an interior page has few children. -/
theorem InteriorPage.cellCount_lt (hp : InteriorPage db p kid kids page h offsets children right) :
    h.cellCount < 2 ^ 15 := by
  cases hc : h.cellCount with
  | zero => decide
  | succ n =>
    have hrange : (List.range h.cellCount)[n]? = some n := by
      rw [hc]
      simp
    obtain ⟨v, _, hv⟩ := getElem_of_mapM hp.pointers hrange
    have hin := cellPointer_inside hv
    have hsize := db.pageSize_le
    have hsize12 : h.headerSize = 12 := by
      rw [BTreePageHeader.headerSize, hp.type]
      rfl
    rw [(pageHeader_page hp.header).1] at hin
    simp only at hin
    omega

theorem InteriorPage.leftChild (hp : InteriorPage db p kid kids page h offsets children right)
    {i : Nat} (hi : i < h.cellCount) :
    ∃ offset child, offsets[i]? = some offset ∧ leftChild db.data page offset = .ok child ∧
      (kid :: kids)[i]? = some child := by
  have hlen : i < offsets.length := by rw [hp.length_offsets]; exact hi
  obtain ⟨child, hchild, hleft⟩ := getElem_of_mapM hp.left (getElem?_eq_getElem hlen)
  refine ⟨offsets[i], child, getElem?_eq_getElem hlen, hleft, ?_⟩
  rw [hp.kids, getElem?_append_left (List.getElem?_eq_some_iff.mp hchild).1]
  exact hchild

theorem InteriorPage.last (hp : InteriorPage db p kid kids page h offsets children right) :
    (kid :: kids)[h.cellCount]? = some right := by
  rw [hp.kids, ← hp.length_offsets, ← length_of_mapM hp.left]
  simp

theorem InteriorPage.firstChild (hp : InteriorPage db p kid kids page h offsets children right) :
    getFirstChild db.data page h (headerOffset p) = .ok kid := by
  unfold getFirstChild
  split
  · rename_i h0
    have hlast := hp.last
    rw [h0] at hlast
    cases hlast
    rw [hp.rightPointer]
  · rename_i h0
    have hpos : 0 < h.cellCount := Nat.pos_of_ne_zero h0
    obtain ⟨offset, child, hoffset, hleft, hchild⟩ := hp.leftChild hpos
    cases hchild
    have hrange : (List.range h.cellCount)[0]? = some 0 := by
      rw [getElem?_range hpos]
    obtain ⟨v, hv, hpointer⟩ := getElem_of_mapM hp.pointers hrange
    rw [hoffset] at hv
    cases hv
    exact bind_ok.mpr ⟨offset, hpointer, hleft⟩

end

theorem descendToLeaf_eq {room : Nat} {path path' : Path} {l : Leaf}
    (h : descend db.node room p path = some (q, l, path')) :
    descendToLeaf db room p path = .ok ((q, 0) :: path') := by
  induction room generalizing p path with
  | zero => cases h
  | succ room ih =>
    simp only [descend] at h
    cases hp : db.node p with
    | none => simp [hp] at h
    | some place =>
      cases place with
      | leaf l' =>
        simp only [hp, Option.some.injEq, Prod.mk.injEq] at h
        obtain ⟨rfl, rfl, rfl⟩ := h
        obtain ⟨page, header, hl⟩ := node_leaf hp
        refine bind_ok.mpr ⟨_, hl.header, ?_⟩
        simp [hl.type, PageType.isLeaf]
        rfl
      | inner kid kids =>
        simp only [hp] at h
        obtain ⟨page, header, offsets, children, right, hi⟩ := node_inner hp
        refine bind_ok.mpr ⟨_, hi.header, ?_⟩
        simp only [hi.type, PageType.isLeaf, Bool.false_eq_true, if_false]
        exact bind_ok.mpr ⟨kid, hi.firstChild, ih h⟩

theorem advance_leaf {l : Leaf} {page : Slice} {h : BTreePageHeader} (hl : LeafPage db p l page h)
    {i : Nat} (hi : i < l.cells.length) (path : Path) : advance db ((p, i) :: path) =
      if i + 1 < l.cells.length then .ok (some ((p, i + 1) :: path)) else advance db path := by
  have hlen : l.cells.length = h.cellCount := by
    rw [length_of_mapM hl.pointers, length_range]
  have hcount := (pageHeader_page hl.header).2
  have hmod : (i + 1) % 2 ^ 16 = i + 1 := Nat.mod_eq_of_lt (by omega)
  rw [advance, hl.header]
  show (if h.pageType.isLeaf = true then _ else _) = _
  rw [hl.type, hmod, hlen]
  rfl

/-- From an exhausted leaf the scanner goes where the cursor climbs to. -/
theorem advance_eq {path : Path} {rest : List Leaf} (hs : Spine db.node maxDepth path rest)
    {dest : Option (Nat × Leaf × Path)} (hc : climb db.node maxDepth path = some dest) :
    advance db path = .ok (dest.map fun (q, _, path') => (q, 0) :: path') := by
  induction hs with
  | nil =>
    cases hc
    rfl
  | @cons p kid kids i path ls rest hp hi _ hpath ih =>
    obtain ⟨page, h, offsets, children, right, hpage⟩ := node_inner hp
    have hcount := hpage.cellCount_lt
    have hkids := hpage.length_kids
    have hmod : (i + 1) % 2 ^ 16 = i + 1 := Nat.mod_eq_of_lt (by omega)
    simp only [climb, hp] at hc
    rw [advance, hpage.header]
    show (if h.pageType.isLeaf = true then _ else _) = _
    rw [hpage.type, hmod]
    simp only [PageType.isLeaf, Bool.false_eq_true, if_false]
    rcases Nat.lt_trichotomy (i + 1) h.cellCount with hlt | heq | hgt
    · -- the next cell's child
      obtain ⟨offset, child, hoffset, hleft, hchild⟩ := hpage.leftChild hlt
      rw [hchild] at hc
      obtain ⟨⟨q, l, path'⟩, hd, rfl⟩ := Option.map_eq_some_iff.mp hc
      rw [if_pos hlt]
      refine bind_ok.mpr ⟨_, getCellOffset_eq hpage.pointers (i + 1), ?_⟩
      rw [hoffset]
      exact bind_ok.mpr ⟨child, hleft, bind_ok.mpr ⟨_, descendToLeaf_eq hd, rfl⟩⟩
    · -- the right pointer
      have hlast := hpage.last
      rw [← heq] at hlast
      rw [hlast] at hc
      obtain ⟨⟨q, l, path'⟩, hd, rfl⟩ := Option.map_eq_some_iff.mp hc
      rw [if_neg (by omega), if_pos heq, hpage.rightPointer]
      exact bind_ok.mpr ⟨_, descendToLeaf_eq hd, rfl⟩
    · -- both are done
      have hnone : (kid :: kids)[i + 1]? = none := by
        rw [List.getElem?_eq_none_iff, length_cons]
        omega
      rw [hnone] at hc
      rw [if_neg (by omega), if_neg (by omega)]
      exact ih hc

/-! ## What the scanner yields -/

/-- The items of the iterator from a scanner on, up to its end; from then on it yields nothing. -/
inductive Yields (db : Db) : TableScanner → List (Except Error Record) → Prop
  | done {s s' : TableScanner} : s.next db = .ok (none, s') → s'.finished = true → Yields db s []
  | item {s s' : TableScanner} {x : Except Error Record} {xs : List (Except Error Record)} :
      s.next db = .ok (some x, s') → Yields db s' xs → Yields db s (x :: xs)

theorem Yields.unique {s : TableScanner} {xs ys : List (Except Error Record)} (hx : Yields db s xs)
    (hy : Yields db s ys) : xs = ys := by
  induction hx generalizing ys with
  | done hnext _ =>
    cases hy with
    | done => rfl
    | item hnext' _ =>
      rw [hnext] at hnext'
      cases hnext'
  | item hnext _ ih =>
    cases hy with
    | done hnext' _ =>
      rw [hnext] at hnext'
      cases hnext'
    | item hnext' hrest =>
      rw [hnext] at hnext'
      cases hnext'
      rw [ih hrest]

/-- The record of a cell of a leaf. -/
def Db.cellRecord (db : Db) (l : Leaf) (offset : Nat) : Res Record :=
  parseLeafCell db.data ⟨(l.page - 1) * db.pageSize, db.pageSize⟩ offset

/-- The records of the cells of the leaves, in order. -/
def Db.records (db : Db) (ls : List Leaf) : List (Res Record) :=
  ls.flatMap fun l => l.cells.map (db.cellRecord l)

/-- The leaf has a cell. -/
def Leaf.nonempty (l : Leaf) : Bool := !l.cells.isEmpty

section

variable {l : Leaf}

theorem currentRecord_none (hq : db.node q = some (.leaf l)) {i : Nat} (hi : l.cells.length ≤ i) :
    currentRecord db q i = .ok none := by
  obtain ⟨page, h, hl⟩ := node_leaf hq
  refine bind_ok.mpr ⟨_, hl.header, ?_⟩
  simp only [hl.type, PageType.isLeaf, PageType.isTable, Bool.not_true, Bool.or_self,
    Bool.false_eq_true, if_false]
  refine bind_ok.mpr ⟨_, getCellOffset_eq hl.pointers i, ?_⟩
  rw [getElem?_eq_none hi]
  rfl

theorem currentRecord_some (hq : db.node q = some (.leaf l)) {i offset : Nat} {r : Record}
    (hi : l.cells[i]? = some offset) (hr : db.cellRecord l offset = .ok r) : currentRecord db q i = .ok (some r) := by
  obtain ⟨page, h, hl⟩ := node_leaf hq
  refine bind_ok.mpr ⟨_, hl.header, ?_⟩
  simp only [hl.type, PageType.isLeaf, PageType.isTable, Bool.not_true, Bool.or_self,
    Bool.false_eq_true, if_false]
  refine bind_ok.mpr ⟨_, getCellOffset_eq hl.pointers i, ?_⟩
  rw [hi]
  refine bind_ok.mpr ⟨r, ?_, rfl⟩
  rw [Db.cellRecord, hl.number, ← (pageHeader_page hl.header).1] at hr
  exact hr

/-- An empty leaf ends the iteration. -/
theorem yields_empty (hq : db.node q = some (.leaf l)) (hl : l.nonempty = false) (path : Path) :
    Yields db ⟨(q, 0) :: path, false⟩ [] := by
  have hcells : l.cells = [] := by simpa [Leaf.nonempty] using hl
  have hcurrent : currentRecord db q 0 = .ok none := currentRecord_none hq (by simp [hcells])
  have hnext : TableScanner.next db ⟨(q, 0) :: path, false⟩ = .ok (none, ⟨(q, 0) :: path, true⟩) := by
    simp [TableScanner.next, hcurrent, attempt, bind, Except.bind]
    rfl
  exact .done hnext rfl

/-- A cell is yielded, and the scanner goes on. -/
theorem next_cell (hq : db.node q = some (.leaf l)) {i offset : Nat} {r : Record} {path : Path}
    {dest : Option Path} (hi : l.cells[i]? = some offset) (hr : db.cellRecord l offset = .ok r)
    (ha : advance db ((q, i) :: path) = .ok dest) :
    TableScanner.next db ⟨(q, i) :: path, false⟩ =
      .ok (some (.ok r), match dest with
        | none => ⟨[], true⟩
        | some path' => ⟨path', false⟩) := by
  have hcurrent := currentRecord_some hq hi hr
  cases dest <;> simp [TableScanner.next, hcurrent, ha, attempt, bind, Except.bind] <;> rfl

/-- From a cell of a leaf on, the scanner yields the rest of the leaf and then the cells of the leaves
    ahead up to the first that is empty.  The induction is on the items. -/
theorem yields_cell {i : Nat} {path : Path} {rest : List Leaf} {items : List Record}
    (hq : db.node q = some (.leaf l)) (hspine : Spine db.node maxDepth path rest) (hi : i < l.cells.length)
    (hitems : (l.cells.drop i).map (db.cellRecord l) ++ db.records (rest.takeWhile Leaf.nonempty) = items.map .ok) :
    Yields db ⟨(q, i) :: path, false⟩ (items.map .ok) := by
  induction items generalizing q l i path rest with
  | nil =>
    rw [drop_eq_getElem_cons hi] at hitems
    cases hitems
  | cons r items ih =>
    rw [drop_eq_getElem_cons hi, map_cons, cons_append, map_cons,
      List.cons.injEq] at hitems
    obtain ⟨hr, hitems⟩ := hitems
    obtain ⟨page, h, hl⟩ := node_leaf hq
    have hcell := getElem?_eq_getElem hi
    by_cases hlast : i + 1 < l.cells.length
    · -- the next cell of the leaf
      have ha : advance db ((q, i) :: path) = .ok (some ((q, i + 1) :: path)) := by
        rw [advance_leaf hl hi, if_pos hlast]
      exact .item (next_cell hq hcell hr ha) (ih hq hspine hlast hitems)
    · have ha : advance db ((q, i) :: path) = advance db path := by
        rw [advance_leaf hl hi, if_neg hlast]
      rw [drop_eq_nil_of_le (by omega), map_nil, nil_append] at hitems
      rcases climb_spec hspine with ⟨rfl, hclimb⟩ | ⟨q', l', path', rest', rfl, hclimb, hq', hspine'⟩
      · -- no leaf is ahead
        rw [advance_eq hspine hclimb] at ha
        cases items with
        | nil =>
          have hend : TableScanner.next db ⟨[], true⟩ = .ok (none, ⟨[], true⟩) := rfl
          exact .item (next_cell hq hcell hr ha) (.done hend rfl)
        | cons r' items => cases hitems
      · rw [advance_eq hspine hclimb] at ha
        refine .item (next_cell hq hcell hr ha) ?_
        cases hne : l'.nonempty with
        | false =>
          rw [takeWhile_cons_of_neg (by simp [hne])] at hitems
          cases items with
          | nil => exact yields_empty hq' hne path'
          | cons r' items => cases hitems
        | true =>
          rw [takeWhile_cons_of_pos hne] at hitems
          refine ih hq' hspine' ?_ hitems
          exact length_pos_iff.mpr (by simpa [Leaf.nonempty] using hne)

end

/-- A scan yields the cells of the leaves up to the first that is empty. -/
theorem yields_scan {root : Nat} {ls : List Leaf} {items : List Record} (hls : db.leaves root = some ls)
    (hitems : db.records (ls.takeWhile Leaf.nonempty) = items.map .ok) :
    ∃ s, TableScanner.new db root = .ok s ∧ Yields db s (items.map .ok) := by
  obtain ⟨q, l, path, rest, hd, hq, rfl, hspine⟩ := descend_spec hls .nil (Nat.zero_add maxDepth)
  rw [append_nil] at hspine
  refine ⟨⟨(q, 0) :: path, false⟩, bind_ok.mpr ⟨_, descendToLeaf_eq hd, rfl⟩, ?_⟩
  cases hne : l.nonempty with
  | false =>
    rw [takeWhile_cons_of_neg (by simp [hne])] at hitems
    cases items with
    | nil => exact yields_empty hq hne path
    | cons r items => cases hitems
  | true =>
    rw [takeWhile_cons_of_pos hne] at hitems
    refine yields_cell hq hspine ?_ hitems
    exact length_pos_iff.mpr (by simpa [Leaf.nonempty] using hne)

end

/-! ## Completeness -/

/-- The scanner yields the cells of all leaves of the table, in order, and ends. -/
def ScansExactly (db : Db) (root : Nat) : Prop :=
  ∃ (ls : List Leaf) (items : List Record) (s : TableScanner), db.leaves root = some ls ∧
    db.records ls = items.map .ok ∧ TableScanner.new db root = .ok s ∧ Yields db s (items.map .ok)

/-- Every leaf cell holds a record that the library can read. -/
def CellsReadable (db : Db) (ls : List Leaf) : Prop := ∀ x ∈ db.records ls, ∃ r, x = .ok r

/-- No empty leaf has a leaf with cells to its right. -/
def EmptyLeavesLast (ls : List Leaf) : Prop :=
  ls.Pairwise fun a b => a.nonempty = false → b.nonempty = false

theorem exists_items {xs : List (Res Record)} (h : ∀ x ∈ xs, ∃ r, x = .ok r) :
    ∃ items : List Record, xs = items.map .ok := by
  induction xs with
  | nil => exact ⟨[], rfl⟩
  | cons x xs ih =>
    obtain ⟨r, rfl⟩ := h x (by simp)
    obtain ⟨items, rfl⟩ := ih fun y hy => h y (by simp [hy])
    exact ⟨r :: items, rfl⟩

theorem records_append (db : Db) (as bs : List Leaf) :
    db.records (as ++ bs) = db.records as ++ db.records bs := flatMap_append

/-- The leaves after the first empty one have no cells, exactly when empty leaves come last. -/
theorem records_dropWhile_eq_nil (db : Db) {ls : List Leaf} :
    db.records (ls.dropWhile Leaf.nonempty) = [] ↔ EmptyLeavesLast ls := by
  induction ls with
  | nil => simp [Db.records, EmptyLeavesLast]
  | cons l ls ih =>
    cases hne : l.nonempty with
    | true =>
      rw [dropWhile_cons_of_pos hne, ih, EmptyLeavesLast, EmptyLeavesLast, pairwise_cons]
      simp [hne]
    | false =>
      rw [dropWhile_cons_of_neg (by simp [hne])]
      constructor
      · intro h
        have hall : ∀ b ∈ l :: ls, b.nonempty = false := by
          intro b hb
          have := flatMap_eq_nil_iff.mp h b hb
          simpa [Leaf.nonempty] using this
        refine pairwise_of_forall_mem_list ?_
        intro a _ b hb _
        exact hall b hb
      · intro h
        apply flatMap_eq_nil_iff.mpr
        intro b hb
        have hb' : b.nonempty = false := by
          rcases mem_cons.mp hb with rfl | hb
          · exact hne
          · exact (pairwise_cons.mp h).1 b hb hne
        simpa [Leaf.nonempty] using hb'

/-- On a well-formed table tree the scan is complete exactly when its cells are readable and no empty
    leaf has cells to its right. -/
theorem scan_complete_iff {db : Db} {root : Nat} {ls : List Leaf} (hls : db.leaves root = some ls) :
    ScansExactly db root ↔ CellsReadable db ls ∧ EmptyLeavesLast ls := by
  have hsplit : db.records ls = db.records (ls.takeWhile Leaf.nonempty) ++
      db.records (ls.dropWhile Leaf.nonempty) := by
    rw [← records_append, takeWhile_append_dropWhile]
  constructor
  · rintro ⟨ls', items, s, hls', hitems, hs, hy⟩
    rw [hls] at hls'
    cases hls'
    have hread : CellsReadable db ls := by
      intro x hx
      rw [hitems] at hx
      obtain ⟨r, _, rfl⟩ := mem_map.mp hx
      exact ⟨r, rfl⟩
    refine ⟨hread, ?_⟩
    -- what the scanner yields is all it can: nothing is left past the first empty leaf
    have hread' : ∀ x ∈ db.records (ls.takeWhile Leaf.nonempty), ∃ r, x = .ok r := by
      intro x hx
      exact hread x (by rw [hsplit]; exact mem_append_left _ hx)
    obtain ⟨items', hitems'⟩ := exists_items hread'
    obtain ⟨s', hs', hy'⟩ := yields_scan hls hitems'
    rw [hs] at hs'
    cases hs'
    have hsame : items.length = items'.length := by
      simpa using congrArg List.length (hy.unique hy')
    have hlen := congrArg List.length hsplit
    rw [length_append, hitems, hitems', length_map, length_map, hsame] at hlen
    rw [← records_dropWhile_eq_nil db]
    exact length_eq_zero_iff.mp (by omega)
  · rintro ⟨hread, hlast⟩
    obtain ⟨items, hitems⟩ := exists_items hread
    rw [← records_dropWhile_eq_nil db] at hlast
    rw [hlast, append_nil] at hsplit
    obtain ⟨s, hs, hy⟩ := yields_scan hls (hsplit ▸ hitems)
    exact ⟨ls, items, s, hls, hitems, hs, hy⟩

/-- A database of four pages of 512 bytes: page 2 is an interior page over the leaves 3 and 4, page 4 has
    one cell and page 3 has `n`. -/
def twoLeaves (n : UInt8) : Bytes := fun i =>
  if i < 16 then sqliteMagic.getD i 0
  else ([(16, 2), (31, 4),
    (512, 0x05), (516, 1), (523, 4), (524, 1), (525, 0xF4), (1015, 3), (1016, 1),
    (1024, 0x0d), (1028, n), (1032, 1), (1033, 0xF4), (1524, 2), (1525, 1), (1526, 2), (1527, 8),
    (1536, 0x0d), (1540, 1), (1544, 1), (1545, 0xF4), (2036, 2), (2037, 2), (2038, 2),
    (2039, 9)].lookup i).getD 0

/-- A table of two leaves, with so many cells in the first. -/
def twoLeavesDb (n : UInt8) : Db :=
  { data := twoLeaves n, len := 2048, pageSize := 512, reservedBytes := 0, dbSizePages := 4,
    pageSize_le := smallPage_le }

theorem open_twoLeaves : Db.open (twoLeaves 0) 2048 = .ok (twoLeavesDb 0) := by
  have hpages : rawPageSize (twoLeaves 0) = 512 ∧ rawPages (twoLeaves 0) 2048 = 4 ∧
      Slice.toList (twoLeaves 0) ⟨0, 16⟩ = sqliteMagic := by decide +kernel
  simp only [Db.open, hpages.1, hpages.2.1, hpages.2.2]
  rfl

theorem scan_complete_twoLeaves : ScansExactly (twoLeavesDb 1) 2 := by
  have hls : (twoLeavesDb 1).leaves 2 = some [⟨3, [500]⟩, ⟨4, [500]⟩] := by decide +kernel
  refine (scan_complete_iff hls).mpr ⟨?_, by unfold EmptyLeavesLast; decide⟩
  have hok : ((twoLeavesDb 1).records [⟨3, [500]⟩, ⟨4, [500]⟩]).all Except.isOk = true := by
    decide +kernel
  intro x hx
  cases x with
  | ok r => exact ⟨r, rfl⟩
  | error e => exact absurd (all_eq_true.mp hok _ hx) (by simp [Except.isOk, Except.toBool])

/-- An empty first leaf hides the row of the second. -/
theorem scan_stops_at_empty_leaf : Db.open (twoLeaves 0) 2048 = .ok (twoLeavesDb 0) ∧
    (twoLeavesDb 0).leaves 2 = some [⟨3, []⟩, ⟨4, [500]⟩] ∧
    CellsReadable (twoLeavesDb 0) [⟨3, []⟩, ⟨4, [500]⟩] ∧ ¬ ScansExactly (twoLeavesDb 0) 2 := by
  have hls : (twoLeavesDb 0).leaves 2 = some [⟨3, []⟩, ⟨4, [500]⟩] := by decide +kernel
  have hok : ((twoLeavesDb 0).records [⟨3, []⟩, ⟨4, [500]⟩]).all Except.isOk = true := by
    decide +kernel
  refine ⟨open_twoLeaves, hls, ?_, ?_⟩
  · intro x hx
    cases x with
    | ok r => exact ⟨r, rfl⟩
    | error e => exact absurd (all_eq_true.mp hok _ hx) (by simp [Except.isOk, Except.toBool])
  · rintro ⟨ls, items, s, hls', hitems, hs, hy⟩
    rw [hls] at hls'
    cases hls'
    have hnone : (twoLeavesDb 0).records ([⟨3, []⟩, ⟨4, [500]⟩].takeWhile Leaf.nonempty) =
        ([] : List Record).map .ok := rfl
    obtain ⟨s', hs', hy'⟩ := yields_scan hls hnone
    rw [hs] at hs'
    cases hs'
    have hlen := congrArg List.length (hy.unique hy')
    have hone := congrArg List.length hitems
    rw [length_map] at hlen hone
    rw [hlen] at hone
    cases hone

end Folkering.Sqlite
