/-
  libsqlite, upper half — the database, its pages and the table scanner.

  `Db` is an opened database: bytes, length and the header fields that the reader uses.  A page is a slice;
  `BTreePageHeader.parse` reads its header.  The scanner keeps the path from the root to the leaf it is at
  as a stack of pages with the index of the cell each is at (top of the stack first).
-/
import Folkering.Sqlite.Record

namespace Folkering.Sqlite

/-! ## Pages -/

/-- The kinds of page. -/
inductive PageType where
  | interiorIndex
  | interiorTable
  | leafIndex
  | leafTable
deriving Repr, DecidableEq

/-- The kind a page's first byte names. -/
def PageType.fromByte (byte : Nat) : Res PageType :=
  if byte = 0x02 then .ok .interiorIndex
  else if byte = 0x05 then .ok .interiorTable
  else if byte = 0x0a then .ok .leafIndex
  else if byte = 0x0d then .ok .leafTable
  else .error (.error .invalidPageType)

/-- A page without children. -/
def PageType.isLeaf : PageType → Bool
  | .leafIndex | .leafTable => true
  | _ => false

/-- A page of a table. -/
def PageType.isTable : PageType → Bool
  | .interiorTable | .leafTable => true
  | _ => false

/-- The header of a page. -/
structure BTreePageHeader where
  pageType : PageType
  cellCount : Nat
  rightPointer : Option Nat
deriving Repr, DecidableEq

/-- The header of a page: it follows the database header on page 1. -/
def BTreePageHeader.parse (data : Bytes) (page : Slice) (headerOffset : Nat) :
    Res BTreePageHeader :=
  if page.len < headerOffset + 8 then .error (.error .tooSmall)
  else do
    let hdr := page.start + headerOffset
    let pageType ← PageType.fromByte (data hdr).toNat
    let cellCount := beNat data (hdr + 3) 2
    if pageType.isLeaf then return { pageType, cellCount, rightPointer := none }
    else if page.len - headerOffset < 12 then .error (.error .tooSmall)
    else return { pageType, cellCount, rightPointer := some (beNat data (hdr + 8) 4) }

/-- Its length. -/
def BTreePageHeader.headerSize (h : BTreePageHeader) : Nat := if h.pageType.isLeaf then 8 else 12

/-- Entry `i` of the cell pointer array. -/
def cellPointer (data : Bytes) (page : Slice) (h : BTreePageHeader) (headerOffset i : Nat) :
    Res Nat := do
  let offset := headerOffset + h.headerSize + i * 2
  let high ← page.byte data offset
  let low ← page.byte data (offset + 1)
  return high * 256 + low

/-- Entry `n`, by walking the iterator over the entries up to it. -/
def getCellOffset (data : Bytes) (page : Slice) (h : BTreePageHeader) (headerOffset n : Nat) :
    Res (Option Nat) := do
  let pointers ← (List.range (min (n + 1) h.cellCount)).mapM (cellPointer data page h headerOffset)
  return pointers[n]?

/-! ## The database -/

/-- `SQLite format 3` and a zero. -/
def sqliteMagic : List UInt8 :=
  [83, 81, 76, 105, 116, 101, 32, 102, 111, 114, 109, 97, 116, 32, 51, 0]

/-- An opened database. -/
structure Db where
  data : Bytes
  len : Nat
  pageSize : Nat
  reservedBytes : Nat
  dbSizePages : Nat
  pageSize_le : pageSize ≤ 2 ^ 16

theorem smallPage_le : 512 ≤ 2 ^ 16 := by decide

/-- The page size field: 1 stands for 65536. -/
def rawPageSize (data : Bytes) : Nat := if beNat data 16 2 = 1 then 65536 else beNat data 16 2

theorem beNat_lt (data : Bytes) (pos n : Nat) : beNat data pos n < 256 ^ n := by
  induction n with
  | zero => simp [beNat]
  | succ n ih =>
    have hbyte := (data (pos + n)).toNat_lt
    rw [beNat, Nat.pow_succ]
    omega

theorem rawPageSize_le (data : Bytes) : rawPageSize data ≤ 2 ^ 16 := by
  have := beNat_lt data 16 2
  unfold rawPageSize
  split <;> omega

/-- The page count field; a zero stands for what the length gives. -/
def rawPages (data : Bytes) (len : Nat) : Nat :=
  if beNat data 28 4 = 0 then (len / rawPageSize data) % 2 ^ 32 else beNat data 28 4

/-- Check the file header. -/
def Db.open (data : Bytes) (len : Nat) : Res Db :=
  if len < 100 then .error (.error .tooSmall)
  else if Slice.toList data ⟨0, 16⟩ ≠ sqliteMagic then .error (.error .invalidMagic)
  else if rawPageSize data < 512 ∨ rawPageSize data &&& (rawPageSize data - 1) ≠ 0 then
    .error (.error .invalidPageSize)
  else .ok { data, len, pageSize := rawPageSize data, reservedBytes := (data 20).toNat,
             dbSizePages := rawPages data len, pageSize_le := rawPageSize_le data }

/-- The bytes of a page. -/
def Db.page (db : Db) (pageNum : Nat) : Res Slice :=
  if pageNum = 0 ∨ db.dbSizePages < pageNum then .error (.error .pageOutOfBounds)
  else if db.len < (pageNum - 1) * db.pageSize + db.pageSize then .error (.error .pageOutOfBounds)
  else .ok ⟨(pageNum - 1) * db.pageSize, db.pageSize⟩

/-- The first page has the file header in front. -/
def headerOffset (pageNum : Nat) : Nat := if pageNum = 1 then 100 else 0

/-- A page with its header. -/
def Db.pageHeader (db : Db) (pageNum : Nat) : Res (Slice × BTreePageHeader) := do
  let page ← db.page pageNum
  let header ← BTreePageHeader.parse db.data page (headerOffset pageNum)
  return (page, header)

/-! ## The scanner -/

/-- The deepest tree that is followed. -/
def maxDepth : Nat := 64

/-- The child of an interior cell. -/
def leftChild (data : Bytes) (page : Slice) (cellOffset : Nat) : Res Nat := do
  let cell ← page.suffix cellOffset
  if cell.len < 4 then .error (.error .invalidRecord) else .ok (beNat data cell.start 4)

/-- The leftmost child of an interior page. -/
def getFirstChild (data : Bytes) (page : Slice) (h : BTreePageHeader) (headerOffset : Nat) :
    Res Nat :=
  if h.cellCount = 0 then
    match h.rightPointer with
    | some right => .ok right
    | none => .error (.error .invalidPageType)
  else do
    let first ← cellPointer data page h headerOffset 0
    leftChild data page first

/-- The path of the scanner, top first: page and index of the cell it is at. -/
abbrev Path := List (Nat × Nat)

/-- Descends from a page to its leftmost leaf, with room for `room` more pages on the path. -/
def descendToLeaf (db : Db) : (room pageNum : Nat) → Path → Res Path
  | 0, _, _ => .error (.error .pageOutOfBounds)
  | room + 1, pageNum, path => do
    let (page, header) ← db.pageHeader pageNum
    if header.pageType.isLeaf then return (pageNum, 0) :: path
    else
      let child ← getFirstChild db.data page header (headerOffset pageNum)
      descendToLeaf db room child ((pageNum, 0) :: path)

/-- Advances to the next cell; nothing when the path is used up. -/
def advance (db : Db) : Path → Res (Option Path)
  | [] => .ok none
  | (pageNum, cellIdx) :: path => do
    let (page, header) ← db.pageHeader pageNum
    let nextCell := (cellIdx + 1) % 2 ^ 16
    if header.pageType.isLeaf then
      if nextCell < header.cellCount then return some ((pageNum, nextCell) :: path)
      else advance db path
    else if nextCell < header.cellCount then
      match ← getCellOffset db.data page header (headerOffset pageNum) nextCell with
      | none => throw (.error .invalidRecord)
      | some cellOffset =>
        let child ← leftChild db.data page cellOffset
        return some (← descendToLeaf db (maxDepth - (path.length + 1)) child ((pageNum, nextCell) :: path))
    else if nextCell = header.cellCount then
      match header.rightPointer with
      | some right =>
        return some (← descendToLeaf db (maxDepth - (path.length + 1)) right ((pageNum, nextCell) :: path))
      | none => advance db path
    else advance db path

/-- The record of a leaf cell; of a payload that does not fit the page, what is on the page. -/
def parseLeafCell (data : Bytes) (page : Slice) (cellOffset : Nat) : Res Record := do
  let cell ← page.suffix cellOffset
  let (payloadSize, psLen) ← decodeVarintWord data cell
  let rest ← cell.suffix psLen
  let (rowid, rowidLen) ← decodeVarint data rest
  let payloadStart := psLen + rowidLen
  if cell.len < (payloadStart + payloadSize) % 2 ^ 64 then
    if cell.len - payloadStart = 0 then .error (.error .invalidRecord)
    else
      let payload ← cell.suffix payloadStart
      Record.parse data rowid payload
  else
    let payload ← cell.range payloadStart ((payloadStart + payloadSize) % 2 ^ 64)
    Record.parse data rowid payload

/-- The way down to the current leaf. -/
structure TableScanner where
  path : Path
  finished : Bool
deriving Repr, DecidableEq

/-- The scanner in front of the first row. -/
def TableScanner.new (db : Db) (rootPage : Nat) : Res TableScanner := do
  let path ← descendToLeaf db maxDepth rootPage []
  return { path, finished := false }

/-- The record at the current position; nothing past the last cell of the leaf. -/
def currentRecord (db : Db) (pageNum cellIdx : Nat) : Res (Option Record) := do
  let (page, header) ← db.pageHeader pageNum
  if !header.pageType.isLeaf || !header.pageType.isTable then .error (.error .invalidPageType)
  else
    match ← getCellOffset db.data page header (headerOffset pageNum) cellIdx with
    | none => return none
    | some cellOffset => return some (← parseLeafCell db.data page cellOffset)

/-- The item of one call of the iterator and the scanner after it. -/
def TableScanner.next (db : Db) (s : TableScanner) :
    Res (Option (Except Error Record) × TableScanner) :=
  if s.finished then .ok (none, s)
  else match s.path with
    | [] => .ok (none, { s with finished := true })
    | (pageNum, cellIdx) :: path => do
      match ← attempt (currentRecord db pageNum cellIdx) with
      | .error e => return (some (.error e), { s with finished := true })
      | .ok none => return (none, { s with finished := true })
      | .ok (some record) =>
        match ← attempt (advance db ((pageNum, cellIdx) :: path)) with
        | .error e => return (some (.error e), { s with finished := true })
        | .ok none => return (some (.ok record), { path := [], finished := true })
        | .ok (some path) => return (some (.ok record), { s with path })

/-! ## Loops over a scanner -/

/-- More than the items of any scan: a path has at most 64 pages of at most 65536 places each. -/
@[irreducible] def scanFuel : Nat := 65536 ^ 65

/-- A `for` loop over the items, with what it accumulates and a value it may leave with. -/
def scanLoop {σ β : Type} (db : Db) (body : σ → Except Error Record → Res (σ ⊕ β)) :
    Nat → TableScanner → σ → Res (σ ⊕ β)
  | 0, _, acc => .ok (.inl acc)
  | fuel + 1, s, acc => do
    let (item, s) ← s.next db
    match item with
    | none => return .inl acc
    | some result =>
      match ← body acc result with
      | .inr b => return .inr b
      | .inl acc => scanLoop db body fuel s acc

/-- `table`. -/
def tableText : List UInt8 := [116, 97, 98, 108, 101]

/-- The root page that a row of the schema gives for a table. -/
def schemaRoot (data : Bytes) (tableName : List UInt8) (record : Record) : Res (Option Nat) :=
  if record.columnCount < 4 then .ok none
  else do
    let type ← record.get data 0
    let name ← record.get data 1
    let root ← record.get data 3
    match type, name, root with
    | some (.text type), some (.text name), some (.integer root) =>
      if type.toList data = tableText ∧ name.toList data = tableName then
        return some (root % 2 ^ 32).toNat
      else return none
    | _, _, _ => return none

/-- The root page of a table, from the schema table. -/
def Db.findTableRoot (db : Db) (tableName : List UInt8) : Res Nat := do
  let scanner ← TableScanner.new db 1
  let found ← scanLoop db (fun _ result => do
    match result with
    | .error e => throw (.error e)
    | .ok record =>
      match ← schemaRoot db.data tableName record with
      | some root => return .inr root
      | none => return .inl ()) scanFuel scanner ()
  match found with
  | .inr root => return root
  | .inl () => throw (.error .tableNotFound)

/-- A scanner over a table. -/
def Db.tableScan (db : Db) (tableName : List UInt8) : Res TableScanner := do
  TableScanner.new db (← db.findTableRoot tableName)

end Folkering.Sqlite
