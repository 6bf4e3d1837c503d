/-
  The blob reader of the service — `read_sqlite_blob_large`.

  It does not use the library's scanner: a stack of pages, from page 2 on, is walked without a set of the
  pages seen, and the cells, records and overflow chains are decoded here.  The stack holds 63 pages at
  most; of the children of an interior page the right one is pushed first, so it is walked last and the
  pages that its right pointers lead to make a loop.  The walk ends exactly when it comes to no cycle of
  right pointers (`read_ends_iff`).
-/
import Folkering.Synapse.Encoding
import Folkering.Lib.Worklist

namespace Folkering.Sqlite

/-- The bytes of a page that are not reserved. -/
def Db.usableSize (db : Db) : Nat := db.pageSize - db.reservedBytes

end Folkering.Sqlite

namespace Folkering.Synapse

open Sqlite Worklist

/-- The database in the buffer. -/
def openDb (b : Buffer) : Option Db := if b.valid then (Db.open b.data b.size).toOption else none

/-- A varint as an unsigned word. -/
def dv (data : Bytes) (s : Slice) : Option (Nat × Nat) :=
  match decodeVarint data s with
  | .ok (v, n) => some (asU64 v, n)
  | .error _ => none

/-- The reader's count of the payload bytes that stay in a cell. -/
def localSize (payloadSize usableSize : Nat) : Nat :=
  let maxLocal := wsub usableSize 35
  if payloadSize ≤ maxLocal then payloadSize
  else
    let minLocal := wsub (wrap (wsub usableSize 12 * 32) / 255) 23
    let m := wrap (minLocal + wsub payloadSize minLocal % wsub usableSize 4)
    if m ≤ maxLocal then m else minLocal

/-- The reader's size of a column; the reserved codes 10 and 11 give a size near `2 ^ 63`. -/
def columnSize (typeCode : Nat) : Nat :=
  match typeCode with
  | 0 => 0
  | 1 => 1
  | 2 => 2
  | 3 => 3
  | 4 => 4
  | 5 => 6
  | 6 => 8
  | 7 => 8
  | 8 => 0
  | 9 => 0
  | n => wsub n 12 / 2

/-! ## A cell -/

/-- A row of the name: where it is and how it is laid out. -/
structure Row where
  cell : Slice
  hdrStart : Nat
  payloadSize : Nat
  dataStart : Nat
  /-- nothing when the fifth column is not a blob -/
  blobSize : Option Nat
deriving Repr, DecidableEq

/-- At most `left` type codes of a record header. -/
def columnTypes (data : Bytes) (record : Slice) (hdrSize : Nat) : (left pos : Nat) → List Nat
  | 0, _ => []
  | left + 1, pos =>
    if pos < hdrSize then
      match dv data ⟨record.start + pos, record.len - pos⟩ with
      | none => []
      | some (code, n) => code :: columnTypes data record hdrSize left (pos + n)
    else []

/-- The header size of a record and its type codes; a column without a code counts as null. -/
def recordTypes (data : Bytes) (record : Slice) : Option (Nat × (Nat → Nat)) :=
  match dv data record with
  | none => none
  | some (hdrSize, n) =>
    if record.len < hdrSize then none
    else some (hdrSize, fun i => (columnTypes data record hdrSize 6 n).getD i 0)

/-- The payload size of a cell and where its record starts. -/
def cellHead (data : Bytes) (cell : Slice) : Option (Nat × Nat) :=
  match dv data cell with
  | none => none
  | some (payloadSize, psLen) =>
    match dv data ⟨cell.start + psLen, cell.len - psLen⟩ with
    | none => none
    | some (_, rowidLen) => some (payloadSize, psLen + rowidLen)

/-- The part of the record that is in the cell. -/
def localRecord (usableSize payloadSize hdrStart : Nat) (cell : Slice) : Slice :=
  ⟨cell.start + hdrStart, min (localSize payloadSize usableSize) (cell.len - hdrStart)⟩

/-- The row, if the cell has one with the name.  The end of the name may wrap; then the slice of the name
    is out of range. -/
def matchCell (data : Bytes) (usableSize : Nat) (name : List UInt8) (cell : Slice) : Res (Option Row) :=
  match cellHead data cell with
  | none => .ok none
  | some (payloadSize, hdrStart) =>
    if cell.len < hdrStart + 10 then .ok none
    else
      let record := localRecord usableSize payloadSize hdrStart cell
      match recordTypes data record with
      | none => .ok none
      | some (hdrSize, type) =>
        if type 1 < 13 ∨ type 1 % 2 = 0 then .ok none
        else
          let nameOffset := hdrSize + columnSize (type 0)
          let nameEnd := wrap (nameOffset + (type 1 - 13) / 2)
          if record.len < nameEnd then .ok none
          else do
            let recName ← record.range nameOffset nameEnd
            if recName.toList data = name then
              return some
                { cell, hdrStart, payloadSize
                  dataStart := wrap (nameEnd + columnSize (type 2) + columnSize (type 3))
                  blobSize := if 12 ≤ type 4 ∧ type 4 % 2 = 0 then some ((type 4 - 12) / 2) else none }
            else return none

/-! ## The blob -/

/-- Follows a chain of overflow pages until the blob or the output is complete: `skip` bytes of the chain
    belong to other columns.  Nothing when the fuel runs out. -/
def followChain (db : Db) (outLen : Nat) :
    (fuel page skip remaining : Nat) → (out : List UInt8) → Option (List UInt8)
  | 0, _, _, _, _ => none
  | fuel + 1, page, skip, remaining, out =>
    if page = 0 ∨ remaining = 0 ∨ outLen ≤ out.length then some out
    else
      match db.page page with
      | .error _ => some out
      | .ok s =>
        if s.len < 4 then some out
        else
        let content : Slice := ⟨s.start + 4, min db.usableSize s.len - 4⟩
        -- with nothing to skip this is the other branch of the source
        let skipHere := min skip content.len
        let copy := min (min (content.len - skipHere) remaining) (outLen - out.length)
        followChain db outLen fuel (beNat db.data s.start 4) (skip - skipHere) (remaining - copy)
          (out ++ Slice.toList db.data ⟨content.start + skipHere, copy⟩)

/-- The bytes of the blob that are copied out of a row.  Each page of the chain makes what is to skip or to
    copy smaller, so their sum is fuel enough (`copyBlob_isSome`). -/
def copyBlob (db : Db) (outLen : Nat) (row : Row) (blobSize : Nat) : Option (List UInt8) :=
  let local_ := localSize row.payloadSize db.usableSize
  let inlineStart := wrap (row.hdrStart + row.dataStart)
  let inlineCopy := min (min (local_ - row.dataStart) blobSize) outLen
  let out := if wrap (inlineStart + inlineCopy) ≤ row.cell.len then
      Slice.toList db.data ⟨row.cell.start + inlineStart, inlineCopy⟩
    else []
  if local_ < row.payloadSize ∧ row.hdrStart + local_ + 4 ≤ row.cell.len then
    let first := beNat db.data (row.cell.start + (row.hdrStart + local_)) 4
    let remaining := blobSize - inlineCopy
    let skip := row.dataStart - local_
    followChain db outLen (skip + remaining + 1) first skip remaining out
  else some out

/-- The blob of a row, cut to the caller's buffer. -/
def readRow (db : Db) (outLen : Nat) (row : Row) : Option (List UInt8) :=
  match row.blobSize with
  | none => some []
  | some blobSize => copyBlob db outLen row blobSize

/-! ## The walk -/

/-- The children of the cells whose pointers lie in the page. -/
def leftChildren (data : Bytes) (page : Slice) (arrayStart cellCount : Nat) : List Nat :=
  ((List.range cellCount).takeWhile fun i => arrayStart + i * 2 + 2 ≤ page.len).filterMap fun i =>
    let cellOff := beNat data (page.start + (arrayStart + i * 2)) 2
    if cellOff + 4 ≤ page.len then some (beNat data (page.start + cellOff) 4) else none

/-- The first cell of a leaf, from index `i` on, with a row of the name. -/
def findRow (data : Bytes) (usableSize : Nat) (name : List UInt8) (page : Slice) (arrayStart : Nat) :
    (left i : Nat) → Res (Option Row)
  | 0, _ => .ok none
  | left + 1, i =>
    if page.len < arrayStart + i * 2 + 2 then .ok none
    else
      let cellOff := beNat data (page.start + (arrayStart + i * 2)) 2
      if page.len ≤ cellOff then findRow data usableSize name page arrayStart left (i + 1)
      else do
        match ← matchCell data usableSize name ⟨page.start + cellOff, page.len - cellOff⟩ with
        | some row => return some row
        | none => findRow data usableSize name page arrayStart left (i + 1)

/-- The visit of a page: an interior page gives its children, the right one first. -/
def visitPage (db : Db) (name : List UInt8) (outLen pageNum : Nat) :
    Visit Nat (Res (Option (List UInt8))) :=
  match db.page pageNum with
  | .error _ => .pass
  | .ok page =>
    let hdr := headerOffset pageNum
    if page.len < hdr + 8 then .pass
    else
      let cellCount := beNat db.data (page.start + hdr + 3) 2
      if db.data (page.start + hdr) = 0x05 then
        .children (beNat db.data (page.start + hdr + 8) 4)
          (leftChildren db.data page (hdr + 12) cellCount)
      else if db.data (page.start + hdr) = 0x0d then
        match findRow db.data db.usableSize name page (hdr + 8) cellCount 0 with
        | .error e => .found (.error e)
        | .ok none => .pass
        | .ok (some row) => .found (.ok (readRow db outLen row))
      else .pass

/-- The pages that the stack holds. -/
def scanCap : Nat := 63

/-- The bytes that are written to an output of `outLen` bytes; nothing when the fuel runs out. -/
def readSqliteBlobLarge (fuel : Nat) (b : Buffer) (name : List UInt8) (outLen : Nat) :
    Option (Res (List UInt8)) :=
  match openDb b with
  | none => some (.ok [])
  | some db =>
    match walk scanCap (visitPage db name outLen) fuel [2] with
    | none => none
    | some none => some (.ok [])
    | some (some (.error e)) => some (.error e)
    | some (some (.ok read)) => read.map .ok

/-! ## The walk ends unless right pointers run in a cycle -/

section

variable {b : Buffer} {db : Db}

theorem openDb_some : openDb b = some db ↔ b.valid = true ∧ Db.open b.data b.size = .ok db := by
  unfold openDb
  cases b.valid with
  | false => simp
  | true =>
    cases h : Db.open b.data b.size with
    | error e => simp [Except.toOption]
    | ok db' => simp [Except.toOption]

/-- What opening checks, and where the fields of the view come from. -/
theorem open_ok {data : Bytes} {len : Nat} : Db.open data len = .ok db ↔
    100 ≤ len ∧ Slice.toList data ⟨0, 16⟩ = sqliteMagic ∧
    ¬ (rawPageSize data < 512 ∨ rawPageSize data &&& (rawPageSize data - 1) ≠ 0) ∧
    db = { data, len, pageSize := rawPageSize data, reservedBytes := (data 20).toNat,
           dbSizePages := rawPages data len, pageSize_le := rawPageSize_le data } := by
  unfold Db.open
  split_ifs with hlen hmagic hsize
  · simp; omega
  · simp [hmagic]
  · simp [hsize]
  · simp only [Except.ok.injEq]
    constructor
    · rintro rfl
      exact ⟨by omega, not_not.mp hmagic, hsize, rfl⟩
    · rintro ⟨_, _, _, rfl⟩
      rfl

theorem page_ok {pageNum : Nat} {s : Slice} : db.page pageNum = .ok s ↔
    1 ≤ pageNum ∧ pageNum ≤ db.dbSizePages ∧ (pageNum - 1) * db.pageSize + db.pageSize ≤ db.len ∧
    s = ⟨(pageNum - 1) * db.pageSize, db.pageSize⟩ := by
  unfold Db.page
  split_ifs with hrange hlen
  · simp; omega
  · simp; omega
  · simp only [Except.ok.injEq]
    constructor
    · rintro rfl
      exact ⟨by omega, by omega, by omega, rfl⟩
    · rintro ⟨_, _, _, rfl⟩
      rfl

/-- The pages of an opened database are at least 512 bytes long, and at most 255 of them are reserved. -/
theorem sizes_of_open (h : openDb b = some db) :
    512 ≤ db.pageSize ∧ db.pageSize ≤ 65536 ∧ db.reservedBytes < 256 := by
  obtain ⟨_, hopen⟩ := openDb_some.mp h
  obtain ⟨_, _, hsize, rfl⟩ := open_ok.mp hopen
  exact ⟨by simp only; omega, rawPageSize_le b.data, (b.data 20).toNat_lt⟩

/-- A page of the chain has room, so that what is to skip or to copy gets smaller. -/
theorem followChain_isSome {outLen fuel page skip remaining : Nat} {out : List UInt8}
    (hroom : 4 < db.usableSize) (hfuel : skip + remaining < fuel) :
    (followChain db outLen fuel page skip remaining out).isSome := by
  induction fuel generalizing page skip remaining out with
  | zero => omega
  | succ fuel ih =>
    rw [followChain]
    split
    · rfl
    · rename_i hgo
      cases hpage : db.page page with
      | error e => rfl
      | ok s =>
        obtain ⟨_, _, _, rfl⟩ := page_ok.mp hpage
        simp only
        split
        · rfl
        · have : db.usableSize ≤ db.pageSize := Nat.sub_le _ _
          exact ih (by omega)

theorem usableSize_ge (h : openDb b = some db) : 257 ≤ db.usableSize ∧ db.usableSize ≤ 65536 := by
  have := sizes_of_open h
  unfold Db.usableSize
  omega

theorem copyBlob_isSome (h : openDb b = some db) (outLen : Nat) (row : Row) (blobSize : Nat) :
    (copyBlob db outLen row blobSize).isSome := by
  have := usableSize_ge h
  unfold copyBlob
  simp only
  split
  · exact followChain_isSome (by omega) (Nat.lt_succ_self _)
  · rfl

theorem readRow_isSome (h : openDb b = some db) (outLen : Nat) (row : Row) :
    (readRow db outLen row).isSome := by
  unfold readRow
  cases row.blobSize with
  | none => rfl
  | some blobSize => exact copyBlob_isSome h outLen row blobSize

theorem visitPage_interior {name : List UInt8} {outLen pageNum : Nat} {page : Slice}
    (hpage : db.page pageNum = .ok page) (hlen : headerOffset pageNum + 8 ≤ page.len)
    (htype : db.data (page.start + headerOffset pageNum) = 0x05) :
    visitPage db name outLen pageNum = .children (beNat db.data (page.start + headerOffset pageNum + 8) 4)
      (leftChildren db.data page (headerOffset pageNum + 12)
        (beNat db.data (page.start + headerOffset pageNum + 3) 2)) := by
  unfold visitPage
  rw [hpage]
  simp only
  rw [if_neg (by omega), if_pos htype]

/-- What a visit can say, and of which page. -/
theorem visitPage_cases (db : Db) (name : List UInt8) (outLen pageNum : Nat) :
    visitPage db name outLen pageNum = .pass ∨
    (∃ e, visitPage db name outLen pageNum = .found (.error e)) ∨
    (∃ row, visitPage db name outLen pageNum = .found (.ok (readRow db outLen row))) ∨
    (pageNum ≤ db.dbSizePages ∧ ∃ right lefts, visitPage db name outLen pageNum = .children right lefts) := by
  unfold visitPage
  cases hpage : db.page pageNum with
  | error e => exact .inl rfl
  | ok page =>
    have hle := (page_ok.mp hpage).2.1
    simp only
    split_ifs with hlen hinterior hleaf
    · exact .inl rfl
    · exact .inr (.inr (.inr ⟨hle, _, _, rfl⟩))
    · cases findRow db.data db.usableSize name page (headerOffset pageNum + 8)
        (beNat db.data (page.start + headerOffset pageNum + 3) 2) 0 with
      | error e => exact .inr (.inl ⟨e, rfl⟩)
      | ok row =>
        cases row with
        | none => exact .inl rfl
        | some row => exact .inr (.inr (.inl ⟨row, rfl⟩))
    · exact .inl rfl

/-- The walk from page 2 comes, over pages without a row of the name, to interior pages whose right
    pointers run in a cycle, and there is no such row below their left children either. -/
def RightCycle (db : Db) (name : List UInt8) (outLen : Nat) : Prop :=
  ∃ page height, Reached scanCap (visitPage db name outLen) 2 0 page height ∧
    Relation.TransGen (Turn scanCap (visitPage db name outLen) height) page page

/-- The reader ends exactly when its walk comes to no cycle of right pointers. -/
theorem read_ends_iff (b : Buffer) (name : List UInt8) (outLen : Nat) :
    (∃ fuel, (readSqliteBlobLarge fuel b name outLen).isSome) ↔
      ∀ db, openDb b = some db → ¬ RightCycle db name outLen := by
  cases hopen : openDb b with
  | none =>
    constructor
    · intro _ db hdb
      cases hdb
    · intro _
      exact ⟨0, by simp [readSqliteBlobLarge, hopen]⟩
  | some db =>
    -- a read of a row ends, so the reader ends when its walk does
    have hwalk : ∀ fuel, (readSqliteBlobLarge fuel b name outLen).isSome ↔
        (walk scanCap (visitPage db name outLen) fuel [2]).isSome := by
      intro fuel
      simp only [readSqliteBlobLarge, hopen]
      cases hw : walk scanCap (visitPage db name outLen) fuel [2] with
      | none => simp
      | some result =>
        cases result with
        | none => simp
        | some result =>
          cases result with
          | error e => simp
          | ok read =>
            obtain ⟨page, hpage⟩ := exists_of_walk hw
            rcases visitPage_cases db name outLen page with h | ⟨e, h⟩ | ⟨row, h⟩ | ⟨_, _, _, h⟩
            · rw [h] at hpage
              cases hpage
            · rw [h] at hpage
              cases hpage
            · rw [h] at hpage
              cases hpage
              simp [readRow_isSome hopen outLen row]
            · rw [h] at hpage
              cases hpage
    have hfin : { x | ∃ right lefts, visitPage db name outLen x = .children right lefts }.Finite := by
      refine (Set.finite_le_nat db.dbSizePages).subset ?_
      rintro x ⟨right, lefts, hx⟩
      rcases visitPage_cases db name outLen x with h | ⟨e, h⟩ | ⟨row, h⟩ | ⟨hle, _⟩
      · rw [h] at hx
        cases hx
      · rw [h] at hx
        cases hx
      · rw [h] at hx
        cases hx
      · exact hle
    simp only [hwalk, Option.some.injEq, forall_eq']
    rw [RightCycle, ← trap_iff_cycle (by decide) hfin, ← ends_iff (by decide)]
    rfl

end

/-- Two pages, the second an interior page that is its own right child. -/
def rightLoop : Buffer where
  data i := if i < 16 then sqliteMagic.getD i 0
    else if i = 16 ∨ i = 31 ∨ i = 523 then 2 else if i = 512 then 5 else 0
  size := 1024
  valid := true
  dirty _ := false
  size_le := twoPages_le

/-- A table whose right child is itself. -/
def rightLoopDb : Db := ⟨rightLoop.data, 1024, 512, 0, 2, Sqlite.smallPage_le⟩

theorem openDb_rightLoop : openDb rightLoop = some rightLoopDb := by
  refine openDb_some.mpr ⟨rfl, open_ok.mpr ⟨by decide, by decide +kernel, by decide +kernel, ?_⟩⟩
  rw [rightLoopDb, Db.mk.injEq]
  exact ⟨rfl, rfl, by decide +kernel, by decide +kernel, by decide +kernel⟩

/-- On it the reader never ends. -/
theorem right_loop_never_ends : ¬ ∃ fuel r, readSqliteBlobLarge fuel rightLoop [97] 16 = some r := by
  have hpage : visitPage rightLoopDb [97] 16 2 = .children 2 [] := by
    rw [visitPage_interior (page_ok.mpr ⟨by decide, by decide, by decide, rfl⟩) (by decide)
      (by decide +kernel)]
    refine congr (congrArg _ ?_) ?_
    · decide +kernel
    · decide +kernel
  rintro ⟨fuel, r, hr⟩
  have hwalk : walk scanCap (visitPage rightLoopDb [97] 16) fuel [2] = none := by
    clear hr
    induction fuel with
    | zero => rfl
    | succ fuel ih =>
      rw [walk_children hpage]
      exact ih
  simp only [readSqliteBlobLarge, openDb_rightLoop, hwalk] at hr
  cases hr

end Folkering.Synapse
