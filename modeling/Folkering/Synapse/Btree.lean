/-
  The B-tree write path of the service.

  Inserts append to the rightmost leaf of a table; when the leaf is full a new leaf page takes its place
  under the parent.  Payloads that do not fit a leaf spill into a chain of overflow pages.  Deletes remove
  a cell pointer, overwrites and expiries rewrite bytes in place.  `usize` arithmetic wraps, as in a release
  build; what the service prints is left out.
-/
import Folkering.Synapse.Buffer

namespace Folkering.Synapse

open Sqlite

/-- A result on `usize`. -/
def wrap (n : Nat) : Nat := n % 2 ^ 64

/-- `a - b` on `usize`. -/
def wsub (a b : Nat) : Nat := if b ≤ a then a - b else a + 2 ^ 64 - b

theorem wrap_of_lt {n : Nat} (h : n < 2 ^ 64) : wrap n = n := Nat.mod_eq_of_lt h

theorem wsub_of_le {a b : Nat} (h : b ≤ a) : wsub a b = a - b := if_pos h

/-- `v as u64`. -/
def asU64 (v : Int) : Nat := (v % 2 ^ 64).toNat

/-- A read with `unwrap_or(0)`. -/
def orZero (r : Except BufferError Nat) : Nat := r.toOption.getD 0

/-! ## Overflow pages -/

/-- The bytes that stay in the cell and those that spill. -/
def computeOverflowSplit (payloadSize usableSize : Nat) : Nat × Nat :=
  let maxLocal := usableSize - 35
  if payloadSize ≤ maxLocal then (payloadSize, 0)
  else
    let minLocal := (usableSize - 12) * 32 / 255 - 23
    let ring := usableSize - 4
    let excess := payloadSize - minLocal
    let n := minLocal + excess % ring
    let local_ := if n ≤ maxLocal then n else minLocal
    (local_, payloadSize - local_)

/-- Writes zeros over `[start, start + n)`. -/
def zeroFill (b : Buffer) (start n : Nat) : Buffer :=
  (List.range n).foldl (fun b k => b.putByte (start + k) 0) b

/-- One overflow page: next pointer, chunk, zeros up to the usable size. -/
def writeOverflowPage (b : Buffer) (pageOff nextPage : Nat) (chunk : List UInt8) (usableSize : Nat) :
    Bool × Buffer :=
  match b.writeBeU32 pageOff nextPage with
  | .error _ => (false, b)
  | .ok b =>
    match b.writeSlice (pageOff + 4) chunk with
    | .error _ => (false, b)
    | .ok b =>
      if chunk.length < usableSize - 4 then
        (true, zeroFill b (pageOff + 4 + chunk.length)
          (pageOff + usableSize - (pageOff + 4 + chunk.length)))
      else (true, b)

/-- The pages of the chain from number `i` on; `left` are to be written. -/
def overflowLoop (data : List UInt8) (pageSize usableSize startPage : Nat) :
    (left i dataPos : Nat) → Buffer → Bool × Buffer
  | 0, _, _, b => (true, b)
  | left + 1, i, dataPos, b =>
    let pageNum := startPage + i
    let nextPage := if left = 0 then 0 else startPage + i + 1
    let chunkEnd := min (dataPos + (usableSize - 4)) data.length
    let chunk := (data.drop dataPos).take (chunkEnd - dataPos)
    match writeOverflowPage b ((pageNum - 1) * pageSize) nextPage chunk usableSize with
    | (false, b) => (false, b)
    | (true, b) =>
      overflowLoop data pageSize usableSize startPage left (i + 1) chunkEnd (b.markPageDirty (pageNum - 1))

/-- A chain of overflow pages with the data; its first page. -/
def allocateOverflowChain (b : Buffer) (data : List UInt8) (pageSize usableSize : Nat) :
    Option Nat × Buffer :=
  if data.isEmpty then (none, b)
  else
    let chunkSize := usableSize - 4
    if chunkSize = 0 then (none, b)
    else
      let pagesNeeded := (data.length + chunkSize - 1) / chunkSize
      let startPage := b.pageCount + 1
      let endPage := startPage + pagesNeeded - 1
      if maxDbSize < endPage * pageSize then (none, b)
      else
        match overflowLoop data pageSize usableSize startPage pagesNeeded 0 0 b with
        | (false, b) => (none, b)
        | (true, b) =>
          let b := b.setPageCount endPage
          let b := b.setSize (endPage * pageSize)
          (some startPage, b.incrementChangeCounter)

/-! ## Encoding -/

/-- The smallest integer type code the writer uses for a value. -/
def pickIntegerType (val : Nat) : Nat :=
  if val = 0 then 8
  else if val = 1 then 9
  else if val ≤ 0xFF then 1
  else if val ≤ 0xFFFF then 2
  else if val ≤ 0xFFFFFF then 3
  else if val ≤ 0xFFFFFFFF then 4
  else if val ≤ 0xFFFFFFFFFF then 5
  else 6

/-- The bytes of an integer type. -/
def integerTypeSize (typeCode : Nat) : Nat :=
  match typeCode with
  | 1 => 1
  | 2 => 2
  | 3 => 3
  | 4 => 4
  | 5 => 6
  | 6 => 8
  | _ => 0

/-- An integer in the bytes of its type. -/
def encodeIntegerValue (val typeCode : Nat) : List UInt8 := beBytes (integerTypeSize typeCode) val

/-- A record header in a scratch buffer of `cap` bytes; nothing when its size does not fit one byte. -/
def recordHeader (cap : Nat) (types : List Nat) : Res (Option (List UInt8)) :=
  let codes := types.flatMap encodeVarint
  if cap < 1 + codes.length then .error .panic
  else if 127 < 1 + codes.length then .ok none
  else .ok (some (.ofNat (1 + codes.length) :: codes))

/-- The type code of a text. -/
def textType (s : List UInt8) : Nat := 13 + s.length * 2

/-! ## The tree -/

/-- The rightmost leaf below a page, or 0; at most ten pages deep. -/
def findRightmostLeaf (b : Buffer) (pageSize : Nat) : (left page : Nat) → Nat
  | 0, _ => 0
  | left + 1, page =>
    if page = 0 ∨ b.pageCount < page then 0
    else
      let hdr := (page - 1) * pageSize + headerOffset page
      match b.readByte hdr with
      | .error _ => 0
      | .ok type =>
        if type = 0x0d then page
        else if type = 0x05 then
          match b.readBeU32 (hdr + 8) with
          | .error _ => 0
          | .ok right => findRightmostLeaf b pageSize left right
        else 0

/-- Redirects the right pointer that leads to `oldLeaf`, marking the pages on the way. -/
def updateParentRightPointer (oldLeaf newLeaf pageSize : Nat) : (left page : Nat) → Buffer → Buffer
  | 0, _, b => b
  | left + 1, page, b =>
    let hdr := wrap (wsub page 1 * pageSize) + headerOffset page
    match b.readByte hdr with
    | .error _ => b
    | .ok type =>
      if type = 0x05 then
        match b.readBeU32 (hdr + 8) with
        | .error _ => b
        | .ok right =>
          if right = oldLeaf then
            (b.putSlice (hdr + 8) (beBytes 4 newLeaf)).markPageDirty (page - 1)
          else
            updateParentRightPointer oldLeaf newLeaf pageSize left right (b.markPageDirty (wsub page 1))
      else b

/-- A new leaf page with the cell, linked in place of the full leaf. -/
def allocateNewLeafPage (b : Buffer) (rootPage leafPage : Nat) (cell : List UInt8) (pageSize : Nat) :
    Bool × Buffer :=
  let newPage := b.pageCount + 1
  let np := b.pageCount * pageSize
  if maxDbSize < np + pageSize then (false, b)
  else
    let newCellStart := wsub pageSize cell.length
    let b := b.putByte np 0x0d
    let b := b.putByte (np + 1) 0
    let b := b.putByte (np + 2) 0
    let b := b.putSlice (np + 3) (beBytes 2 1)
    let b := b.putSlice (np + 5) (beBytes 2 newCellStart)
    let b := b.putByte (np + 7) 0
    let b := b.putSlice (wrap (np + newCellStart)) cell
    let b := b.putSlice (np + 8) (beBytes 2 newCellStart)
    let b := b.setPageCount newPage
    let b := b.incrementChangeCounter
    let b := updateParentRightPointer leafPage newPage pageSize 10 rootPage b
    let b := b.setSize (newPage * pageSize)
    (true, b.markPageDirty (newPage - 1))

/-! ## Inserts -/

/-- The leaf an insert appends to. -/
structure Spot where
  rootPage : Nat
  pageSize : Nat
  usableSize : Nat
  leafPage : Nat
  cellCount : Nat
  cellContentStart : Nat
deriving Repr, DecidableEq

/-- Where the leaf starts. -/
def Spot.pageOffset (s : Spot) : Nat := (s.leafPage - 1) * s.pageSize

/-- Where its header starts. -/
def Spot.hdr (s : Spot) : Nat := s.pageOffset + headerOffset s.leafPage

/-- Where its pointer array ends. -/
def Spot.pointerArrayEnd (s : Spot) : Nat := headerOffset s.leafPage + 8 + s.cellCount * 2

/-- A database view and the root page of a table. -/
def tableRoot (b : Buffer) (table : List UInt8) : Res (Option (Db × Nat)) :=
  if !b.valid then .ok none
  else do
    match ← attempt (Db.open b.data b.size) with
    | .error _ => return none
    | .ok db =>
      match ← attempt (db.findTableRoot table) with
      | .error _ => return none
      | .ok root => return some (db, root)

/-- The rightmost leaf of a table. -/
def findSpot (b : Buffer) (table : List UInt8) : Res (Option Spot) := do
  match ← tableRoot b table with
  | none => return none
  | some (db, rootPage) =>
    let leafPage := findRightmostLeaf b db.pageSize 10 rootPage
    let hdr := (leafPage - 1) * db.pageSize + headerOffset leafPage
    if leafPage = 0 then return none
    else if orZero (b.readByte hdr) ≠ 0x0d then return none
    else
      let raw := orZero (b.readBeU16 (hdr + 5))
      return some { rootPage, pageSize := db.pageSize, usableSize := db.pageSize - db.reservedBytes,
                    leafPage, cellCount := orZero (b.readBeU16 (hdr + 3)),
                    cellContentStart := if raw = 0 then db.pageSize else raw }

/-- Puts a cell into the leaf, or into a new one when the free space is too small. -/
def placeCell (b : Buffer) (s : Spot) (freeSpace : Nat) (cell : List UInt8) : Bool × Buffer :=
  if freeSpace < cell.length + 2 then allocateNewLeafPage b s.rootPage s.leafPage cell s.pageSize
  else
    let newCellOffset := wsub s.cellContentStart cell.length
    let b := b.putSlice (wrap (s.pageOffset + newCellOffset)) cell
    let b := b.putSlice (s.hdr + 8 + s.cellCount * 2) (beBytes 2 newCellOffset)
    let b := b.putSlice (s.hdr + 3) (beBytes 2 (s.cellCount + 1))
    let b := b.putSlice (s.hdr + 5) (beBytes 2 newCellOffset)
    let b := b.incrementChangeCounter
    (true, b.markPageDirty (s.leafPage - 1))

/-- `files`. -/
def filesTable : List UInt8 := [102, 105, 108, 101, 115]

/-- `file_intents`. -/
def intentsTable : List UInt8 := [102, 105, 108, 101, 95, 105, 110, 116, 101, 110, 116, 115]

/-- `entities`. -/
def entitiesTable : List UInt8 := [101, 110, 116, 105, 116, 105, 101, 115]

/-- `edges`. -/
def edgesTable : List UInt8 := [101, 100, 103, 101, 115]

/-- The overflow chain of a payload, if it spills; nothing when there is no room for it. -/
def spillPayload (b : Buffer) (s : Spot) (payload : List UInt8) : Option (List UInt8) × Buffer :=
  let split := computeOverflowSplit payload.length s.usableSize
  if 0 < split.2 then
    match allocateOverflowChain b (payload.drop split.1) s.pageSize s.usableSize with
    | (none, b) => (none, b)
    | (some first, b) => (some (payload.take split.1 ++ beBytes 4 first), b)
  else (some (payload.take split.1), b)

/-- Insert a row into `files`. -/
def sqliteInsertFile (b : Buffer) (rowid : Int) (name content : List UInt8) : Res (Bool × Buffer) := do
  match ← findSpot b filesTable with
  | none => return (false, b)
  | some s =>
    let sizeType := pickIntegerType content.length
    match ← recordHeader 32 [0, textType name, 9, sizeType, 12 + content.length * 2, 0] with
    | none => return (false, b)
    | some header =>
      let payload := header ++ name ++ encodeIntegerValue content.length sizeType ++ content
      match spillPayload b s payload with
      | (none, b) => return (false, b)
      | (some body, b) =>
        let cell := encodeVarint payload.length ++ encodeVarint (asU64 rowid) ++ body
        return placeCell b s (wsub s.cellContentStart s.pointerArrayEnd) cell

/-- The cell is built in an array of 2048 bytes. -/
def sqliteInsertIntent (b : Buffer) (fileId : Int) (mimeType intentJson : List UInt8) :
    Res (Bool × Buffer) := do
  match ← findSpot b intentsTable with
  | none => return (false, b)
  | some s =>
    let jsonType := if intentJson.isEmpty then 0 else textType intentJson
    match ← recordHeader 16 [0, textType mimeType, jsonType, 9] with
    | none => return (false, b)
    | some header =>
      let body := header ++ mimeType ++ intentJson
      let cell := encodeVarint body.length ++ encodeVarint (asU64 fileId) ++ body
      if 2048 < cell.length then .error .panic
      else return placeCell b s (wsub s.cellContentStart s.pointerArrayEnd) cell

/-- One more than the largest rowid that a scan of the table meets. -/
def nextRowidFor (b : Buffer) (table : List UInt8) : Res Int :=
  if !b.valid then .ok 1
  else do
    match ← attempt (Db.open b.data b.size) with
    | .error _ => return 1
    | .ok db =>
      match ← attempt (db.tableScan table) with
      | .error _ => return 1
      | .ok scanner =>
        let found ← scanLoop db (maxRowid : Int → _ → Res (Int ⊕ Empty)) scanFuel scanner 0
        match found with
        | .inl best => return toSigned 64 (asU64 (best + 1))
where
  /-- the larger of the rowids so far; an unreadable row is passed over -/
  maxRowid (best : Int) : Except Error Record → Res (Int ⊕ Empty)
    | .error _ => .ok (.inl best)
    | .ok record => .ok (.inl (if best < record.rowid then record.rowid else best))

/-- A row with its own rowid; here the free space is a saturating difference. -/
def insertRow (b : Buffer) (table : List UInt8) (types : List Nat) (values : List UInt8) :
    Res (Option Int × Buffer) := do
  match ← findSpot b table with
  | none => return (none, b)
  | some s =>
    let rowid ← nextRowidFor b table
    match ← recordHeader 32 types with
    | none => return (none, b)
    | some header =>
      let body := header ++ values
      let cell := encodeVarint body.length ++ encodeVarint (asU64 rowid) ++ body
      match placeCell b s (s.cellContentStart - s.pointerArrayEnd) cell with
      | (false, b) => return (none, b)
      | (true, b) => return (some rowid, b)

/-- Insert a row into `entities`, and return its row id. -/
def sqliteInsertEntity (b : Buffer) (entityId name entityType : List UInt8) (createdAt : Int) :
    Res (Option Int × Buffer) :=
  insertRow b entitiesTable [textType entityId, textType name, textType entityType, 0, 6]
    (entityId ++ name ++ entityType ++ beBytes 8 (asU64 createdAt))

/-- `confidence` are the bits of the number. -/
def sqliteInsertEdge (b : Buffer) (edgeId subjectId predicate objectId : List UInt8)
    (validFrom validTo : Int) (confidence : Nat) : Res (Option Int × Buffer) :=
  insertRow b edgesTable
    [textType edgeId, textType subjectId, textType predicate, textType objectId, 6, 6, 7, 0]
    (edgeId ++ subjectId ++ predicate ++ objectId ++ beBytes 8 (asU64 validFrom) ++
      beBytes 8 (asU64 validTo) ++ beBytes 8 confidence)

/-! ## Expiry -/

/-- The text in a column, if there is one. -/
def textColumn (data : Bytes) (record : Record) (index : Nat) : Res (Option Slice) := do
  match ← record.get data index with
  | some (.text s) => return some s
  | _ => return none

/-- The offset of `valid_to` in an active row of the pair. -/
def expireTarget (data : Bytes) (subjectId predicate : List UInt8) (record : Record) :
    Res (Option Nat) := do
  let subject ← textColumn data record 1
  let pred ← textColumn data record 2
  let validTo ← record.get data 5
  if subject.map (·.toList data) = some subjectId ∧ pred.map (·.toList data) = some predicate ∧
      validTo = some (.integer 0) then
    let object ← textColumn data record 3
    -- valid_from takes the eight bytes after the object
    return object.map fun s => s.start + s.len + 8
  else return none

/-- Rewrites `valid_to` of the first active row of the pair; the number of rows it rewrote. -/
def sqliteExpireEdge (b : Buffer) (subjectId predicate : List UInt8) (expireAt : Int) :
    Res (Nat × Buffer) :=
  if !b.valid then .ok (0, b)
  else do
    match ← attempt (Db.open b.data b.size) with
    | .error _ => return (0, b)
    | .ok db =>
      match ← attempt (db.tableScan edgesTable) with
      | .error _ => return (0, b)
      | .ok scanner =>
        let found ← scanLoop db (fun (_ : Unit) result =>
          match result with
          | .error _ => .ok (.inl ())
          | .ok record => do
            match ← expireTarget b.data subjectId predicate record with
            | none => return .inl ()
            | some offset => return .inr offset) scanFuel scanner ()
        match found with
        | .inl () => return (0, b)
        | .inr offset =>
          match b.writeSlice offset (beBytes 8 (asU64 expireAt)) with
          | .error _ => return (0, b)
          | .ok b => return (1, b.incrementChangeCounter)

/-! ## Overwrite -/

/-- What a row of the name says about an overwrite: where its blob is, or that it is too small. -/
def blobTarget (data : Bytes) (name : List UInt8) (newLen : Nat) (record : Record) :
    Res (Option (Option Slice)) := do
  match ← textColumn data record 1 with
  | none => return none
  | some s =>
    if s.toList data = name then
      match ← record.get data 4 with
      | some (.blob old) => return some (if old.len < newLen then none else some old)
      | _ => return none
    else return none

/-- Replaces a blob in place and fills the rest with zeros. -/
def overwriteBlobInplace (b : Buffer) (name newData : List UInt8) : Res (Bool × Buffer) :=
  if !b.valid then .ok (false, b)
  else do
    match ← attempt (Db.open b.data b.size) with
    | .error _ => return (false, b)
    | .ok db =>
      match ← attempt (db.tableScan filesTable) with
      | .error _ => return (false, b)
      | .ok scanner =>
        let found ← scanLoop db (fun (_ : Unit) result =>
          match result with
          | .error _ => .ok (.inl ())
          | .ok record => do
            match ← blobTarget b.data name newData.length record with
            | none => return .inl ()
            | some target => return .inr target) scanFuel scanner ()
        match found with
        | .inl () | .inr none => return (false, b)
        | .inr (some old) =>
          match b.writeSlice old.start newData with
          | .error _ => return (false, b)
          | .ok b =>
            let b := zeroFill b (old.start + newData.length) (old.len - newData.length)
            return (true, b.incrementChangeCounter)

/-! ## Delete -/

/-- The children that the leaf walk pushes for an interior page, in order. -/
def pushedChildren (b : Buffer) (pageOff hdr : Nat) : List Nat :=
  let right := orZero (b.readBeU32 (hdr + 8))
  let cellCount := orZero (b.readBeU16 (hdr + 3))
  (if right = 0 then [] else [right]) ++
    (List.range (min cellCount 64)).filterMap fun i =>
      match b.readBeU16 (hdr + 12 + i * 2) with
      | .error _ => none
      | .ok cellOffset =>
        match b.readBeU32 (pageOff + cellOffset) with
        | .error _ => none
        | .ok child => if child = 0 then none else some child

/-- The leaves that a depth-first walk meets, with at most `left` pages visited. -/
def collectLeafPages (b : Buffer) (pageSize : Nat) : (left : Nat) → (stack out : List Nat) → List Nat
  | 0, _, out => out
  | _ + 1, [], out => out
  | left + 1, page :: stack, out =>
    if page = 0 ∨ b.pageCount < page then collectLeafPages b pageSize left stack out
    else
      let pageOff := (page - 1) * pageSize
      let hdr := pageOff + headerOffset page
      match b.readByte hdr with
      | .error _ => collectLeafPages b pageSize left stack out
      | .ok type =>
        if type = 0x0d then collectLeafPages b pageSize left stack (out ++ [page])
        else if type = 0x05 then
          collectLeafPages b pageSize left ((pushedChildren b pageOff hdr).reverse ++ stack) out
        else collectLeafPages b pageSize left stack out

/-- The service's own varint decoder, from byte `i` on; bytes past the end read as zero. -/
def decodeVarintAt (b : Buffer) (start : Nat) : (left i value : Nat) → Nat × Nat
  | 0, _, value => (value * 256 + orZero (b.readByte (start + 8)), 9)
  | left + 1, i, value =>
    let byte := orZero (b.readByte (start + i))
    let value := value * 128 + byte % 128
    if byte < 128 then (value, i + 1) else decodeVarintAt b start left (i + 1) value

/-- The first cell of a leaf with the rowid. -/
def findCell (b : Buffer) (pageOff hdr rowid : Nat) : (left i : Nat) → Option Nat
  | 0, _ => none
  | left + 1, i =>
    let cellOffset := orZero (b.readBeU16 (hdr + 8 + i * 2))
    if cellOffset = 0 then findCell b pageOff hdr rowid left (i + 1)
    else
      let psLen := (decodeVarintAt b (pageOff + cellOffset) 8 0 0).2
      if (decodeVarintAt b (pageOff + cellOffset + psLen) 8 0 0).1 = rowid then some i
      else findCell b pageOff hdr rowid left (i + 1)

/-- Moves the pointers after index `i` one place down. -/
def shiftPointers (ptrArray : Nat) : (left i : Nat) → Buffer → Bool × Buffer
  | 0, _, b => (true, b)
  | left + 1, i, b =>
    match b.readBeU16 (ptrArray + (i + 1) * 2) with
    | .error _ => (false, b)
    | .ok next =>
      match b.writeBeU16 (ptrArray + i * 2) next with
      | .error _ => (false, b)
      | .ok b => shiftPointers ptrArray left (i + 1) b

/-- Close the gap in the pointer array. -/
def removeCellPointer (b : Buffer) (leafPage pageSize cellIdx : Nat) : Bool × Buffer :=
  let hdr := (leafPage - 1) * pageSize + headerOffset leafPage
  let cellCount := orZero (b.readBeU16 (hdr + 3))
  if cellCount ≤ cellIdx then (false, b)
  else
    match shiftPointers (hdr + 8) (cellCount - 1 - cellIdx) cellIdx b with
    | (false, b) => (false, b)
    | (true, b) =>
      let b := b.putSlice (hdr + 8 + (cellCount - 1) * 2) (beBytes 2 0)
      match b.writeBeU16 (hdr + 3) (cellCount - 1) with
      | .error _ => (false, b)
      | .ok b => (true, b.incrementChangeCounter.markPageDirty (leafPage - 1))

/-- Removes the cell from the first leaf that has one with the rowid. -/
def deleteFromLeaves (b : Buffer) (pageSize rowid : Nat) : List Nat → Bool × Buffer
  | [] => (false, b)
  | leaf :: leaves =>
    let pageOff := (leaf - 1) * pageSize
    let hdr := pageOff + headerOffset leaf
    match findCell b pageOff hdr rowid (orZero (b.readBeU16 (hdr + 3))) 0 with
    | some cellIdx => removeCellPointer b leaf pageSize cellIdx
    | none => deleteFromLeaves b pageSize rowid leaves

/-- Delete the row of `files` with the row id. -/
def sqliteDeleteFileByRowid (b : Buffer) (rowid : Int) : Res (Bool × Buffer) := do
  match ← tableRoot b filesTable with
  | none => return (false, b)
  | some (db, root) =>
    return deleteFromLeaves b db.pageSize (asU64 rowid)
      (collectLeafPages b db.pageSize 256 [root] [])

end Folkering.Synapse
