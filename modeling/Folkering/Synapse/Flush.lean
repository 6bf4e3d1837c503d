/-
  DIRTY TRACKING — the flush, and what it forgets.

  A flush writes the sectors of the pages that are marked, one at a time, and then clears every mark.  A
  `World` is the buffer with the bytes that were last written to the disk without an error.
    * `Tracked`  — a byte that differs from what was last written is on a marked page;
    * `careful_…` — every operation on the buffer marks what it changes;
    * `tracked_flush_iff` — a flush keeps `Tracked` exactly when each byte that differs lies in a whole
      sector of the database whose write succeeds;
    * `tracked_run_iff`   — and so along every run.
-/
import Folkering.Synapse.Btree
import Folkering.Sqlite.Scan
import Folkering.Lib.WriteBack

namespace Folkering.Synapse

open Sqlite WriteBack List

/-! ## The flush -/

/-- `FOLKDISK`. -/
def folkdiskMagic : List UInt8 := [70, 79, 76, 75, 68, 73, 83, 75]

/-- The little-endian number of the bytes. -/
def leNat : List UInt8 → Nat
  | [] => 0
  | a :: rest => a.toNat + 256 * leNat rest

/-- The first sector of the database, from the disk header. -/
def dbSectorField (header : List UInt8) : Nat := leNat ((header.drop 48).take 8)

/-- The length of the database in sectors, from the disk header. -/
def dbSectorsField (header : List UInt8) : Nat := leNat ((header.drop 56).take 8)

/-- The `n` little-endian bytes of a number. -/
def leBytes : (n v : Nat) → List UInt8
  | 0, _ => []
  | n + 1, v => .ofNat (v % 256) :: leBytes n (v / 256)

/-- One sector of the database that a flush writes. -/
structure SectorWrite where
  /-- number within the database -/
  index : Nat
  /-- number on the disk -/
  sector : Nat
  data : List UInt8
  ok : Bool
deriving Repr, DecidableEq

/-- What a flush did. -/
structure FlushResult where
  success : Bool
  buffer : Buffer
  writes : List SectorWrite
  /-- the disk header, when its length field is brought up to date -/
  header : Option (List UInt8)

/-- The sectors of a page that hold the database. -/
def sectorsInPage (size page : Nat) : Nat :=
  if page * 4096 + 4096 ≤ size then 8 else (size - page * 4096 + 511) / 512

/-- The sectors that a flush writes; one that the database ends within is passed over. -/
def flushSectors (b : Buffer) : List Nat :=
  (List.range ((b.size + 4095) / 4096)).flatMap fun page =>
    if b.isPageDirty page then
      ((List.range (sectorsInPage b.size page)).map (page * 8 + ·)).filter
        fun k => decide (k * 512 + 512 ≤ b.size)
    else []

/-- The disk header says where the database is. -/
def locatesDb (header : List UInt8) : Bool :=
  decide (header.take 8 = folkdiskMagic) && decide (dbSectorField header ≠ 0)

/-- A flush, with the disk header it reads (if it can) and the sector writes that succeed. -/
def flushSqliteToDisk (b : Buffer) (header : Option (List UInt8)) (accepts : Nat → Bool) :
    FlushResult :=
  match header with
  | none => { success := false, buffer := b, writes := [], header := none }
  | some header =>
    if !locatesDb header then { success := false, buffer := b, writes := [], header := none }
    else
      let totalSectors := (b.size + 511) / 512
      { success := true
        buffer := b.clearDirty
        writes := (flushSectors b).map fun k =>
          { index := k, sector := (dbSectorField header + k) % 2 ^ 64,
            data := Slice.toList b.data ⟨k * 512, 512⟩, ok := accepts k }
        header := if totalSectors ≠ dbSectorsField header then
            some (header.take 56 ++ leBytes 8 totalSectors ++ header.drop 64)
          else none }

/-! ## The world -/

/-- The buffer, and the bytes of the database that were last written without an error. -/
structure World where
  buffer : Buffer
  written : Bytes

/-- The bytes after the writes of a flush. -/
def recordWrites (written : Bytes) (writes : List SectorWrite) : Bytes :=
  writes.foldl (fun w x => if x.ok then overlay w (x.index * 512) x.data else w) written

/-- An operation on the buffer. -/
inductive Op where
  | setValid (valid : Bool)
  | setSize (size : Nat)
  | writeByte (offset : Nat) (byte : UInt8)
  | writeSlice (offset : Nat) (src : List UInt8)
  | writeBeU16 (offset val : Nat)
  | writeBeU32 (offset val : Nat)
  | incrementChangeCounter
  | setPageCount (count : Nat)
  | markPageDirty (page : Nat)
  | markRangeDirty (offset len : Nat)
  | insertFile (rowid : Int) (name content : List UInt8)
  | insertIntent (fileId : Int) (mimeType intentJson : List UInt8)
  | insertEntity (entityId name entityType : List UInt8) (createdAt : Int)
  | insertEdge (edgeId subjectId predicate objectId : List UInt8) (validFrom validTo : Int)
      (confidence : Nat)
  | expireEdge (subjectId predicate : List UInt8) (expireAt : Int)
  | overwriteBlob (name newData : List UInt8)
  | deleteFile (rowid : Int)

/-- The buffer after an operation; nothing when it panics. -/
def Op.run (b : Buffer) : Op → Option Buffer
  | .setValid valid => some { b with valid }
  | .setSize size => some (b.setSize size)
  | .writeByte offset byte => some (b.putByte offset byte)
  | .writeSlice offset src => some (b.putSlice offset src)
  | .writeBeU16 offset val => some (b.putSlice offset (beBytes 2 val))
  | .writeBeU32 offset val => some (b.putSlice offset (beBytes 4 val))
  | .incrementChangeCounter => some b.incrementChangeCounter
  | .setPageCount count => some (b.setPageCount count)
  | .markPageDirty page => some (b.markPageDirty page)
  | .markRangeDirty offset len => some (b.markRangeDirty offset len)
  | .insertFile rowid name content => (sqliteInsertFile b rowid name content).toOption.map (·.2)
  | .insertIntent fileId mime json => (sqliteInsertIntent b fileId mime json).toOption.map (·.2)
  | .insertEntity id name type at_ => (sqliteInsertEntity b id name type at_).toOption.map (·.2)
  | .insertEdge id s p o vf vt c => (sqliteInsertEdge b id s p o vf vt c).toOption.map (·.2)
  | .expireEdge s p at_ => (sqliteExpireEdge b s p at_).toOption.map (·.2)
  | .overwriteBlob name data => (overwriteBlobInplace b name data).toOption.map (·.2)
  | .deleteFile rowid => (sqliteDeleteFileByRowid b rowid).toOption.map (·.2)

/-- A change of the buffer, or a flush. -/
inductive Act where
  | op (o : Op)
  /-- a flush, with the disk header it reads and the sector writes that succeed -/
  | flush (header : Option (List UInt8)) (accepts : Nat → Bool)

/-- One of these. -/
def World.step (w : World) : Act → Option World
  | .op o => (o.run w.buffer).map fun b => { w with buffer := b }
  | .flush header accepts =>
    let result := flushSqliteToDisk w.buffer header accepts
    some { buffer := result.buffer, written := recordWrites w.written result.writes }

/-- A byte that differs from what was last written is on a marked page. -/
def Tracked (w : World) : Prop :=
  ∀ i, w.buffer.data i ≠ w.written i → w.buffer.isPageDirty (i / 4096) = true

/-! ## Every operation marks what it changes -/

section

variable {b b' : Buffer}

theorem careful_markRangeDirty (offset len : Nat) : Careful b (b.markRangeDirty offset len) := by
  constructor
  · intro i hi
    exact absurd rfl hi
  · intro q hq
    rw [isPageDirty_markRangeDirty, hq, Bool.true_or]

theorem careful_zeroFill {b : Buffer} (start n : Nat) : Careful b (zeroFill b start n) := by
  unfold zeroFill
  induction List.range n generalizing b with
  | nil => exact .refl b
  | cons k ks ih => exact (careful_putByte _ _).trans ih

variable {ok : Bool}

theorem careful_writeOverflowPage {pageOff nextPage usableSize : Nat} {chunk : List UInt8}
    (h : writeOverflowPage b pageOff nextPage chunk usableSize = (ok, b')) : Careful b b' := by
  unfold writeOverflowPage at h
  split at h
  · cases h
    exact .refl b
  · rename_i b1 h1
    have hc1 : Careful b b1 := careful_writeSlice h1
    split at h
    · cases h
      exact hc1
    · rename_i b2 h2
      have hc2 : Careful b b2 := hc1.trans (careful_writeSlice h2)
      split at h
      · cases h
        exact hc2.trans (careful_zeroFill _ _)
      · cases h
        exact hc2

theorem careful_overflowLoop {data : List UInt8} {pageSize usableSize startPage left i dataPos : Nat}
    (h : overflowLoop data pageSize usableSize startPage left i dataPos b = (ok, b')) : Careful b b' := by
  induction left generalizing i dataPos b with
  | zero =>
    cases h
    exact .refl _
  | succ left ih =>
    simp only [overflowLoop] at h
    split at h
    · rename_i hpage
      cases h
      exact careful_writeOverflowPage hpage
    · rename_i hpage
      exact ((careful_writeOverflowPage hpage).trans (careful_markPageDirty _)).trans (ih h)

theorem careful_allocateOverflowChain {data : List UInt8} {pageSize usableSize : Nat} {first : Option Nat}
    (h : allocateOverflowChain b data pageSize usableSize = (first, b')) : Careful b b' := by
  unfold allocateOverflowChain at h
  split at h
  · cases h
    exact .refl b
  simp only at h
  split at h
  · cases h
    exact .refl b
  split at h
  · cases h
    exact .refl b
  split at h
  · rename_i hloop
    cases h
    exact careful_overflowLoop hloop
  · rename_i hloop
    cases h
    exact (((careful_overflowLoop hloop).trans (careful_setPageCount _)).trans
      (careful_setSize _)).trans careful_incrementChangeCounter

theorem careful_updateParentRightPointer (oldLeaf newLeaf pageSize left page : Nat) :
    Careful b (updateParentRightPointer oldLeaf newLeaf pageSize left page b) := by
  induction left generalizing page b with
  | zero => exact .refl b
  | succ left ih =>
    simp only [updateParentRightPointer]
    split
    · exact .refl b
    · split
      · split
        · exact .refl b
        · split
          · exact (careful_putSlice _ _).trans (careful_markPageDirty _)
          · exact (careful_markPageDirty _).trans (ih _)
      · exact .refl b

theorem careful_allocateNewLeafPage {rootPage leafPage pageSize : Nat} {cell : List UInt8}
    (h : allocateNewLeafPage b rootPage leafPage cell pageSize = (ok, b')) : Careful b b' := by
  unfold allocateNewLeafPage at h
  simp only at h
  split at h
  · cases h
    exact .refl b
  · cases h
    exact (careful_putByte _ _).trans <| (careful_putByte _ _).trans <| (careful_putByte _ _).trans <|
      (careful_putSlice _ _).trans <| (careful_putSlice _ _).trans <| (careful_putByte _ _).trans <|
      (careful_putSlice _ _).trans <| (careful_putSlice _ _).trans <| (careful_setPageCount _).trans <|
      careful_incrementChangeCounter.trans <| (careful_updateParentRightPointer _ _ _ _ _).trans <|
      (careful_setSize _).trans (careful_markPageDirty _)

theorem careful_placeCell {s : Spot} {freeSpace : Nat} {cell : List UInt8}
    (h : placeCell b s freeSpace cell = (ok, b')) : Careful b b' := by
  unfold placeCell at h
  split at h
  · exact careful_allocateNewLeafPage h
  · cases h
    exact (careful_putSlice _ _).trans <| (careful_putSlice _ _).trans <|
      (careful_putSlice _ _).trans <| (careful_putSlice _ _).trans <|
      careful_incrementChangeCounter.trans (careful_markPageDirty _)

theorem careful_spillPayload {s : Spot} {payload : List UInt8} {body : Option (List UInt8)}
    (h : spillPayload b s payload = (body, b')) : Careful b b' := by
  unfold spillPayload at h
  simp only at h
  split at h
  · split at h
    · rename_i hchain
      cases h
      exact careful_allocateOverflowChain hchain
    · rename_i hchain
      cases h
      exact careful_allocateOverflowChain hchain
  · cases h
    exact .refl b

theorem careful_sqliteInsertFile {rowid : Int} {name content : List UInt8}
    (h : sqliteInsertFile b rowid name content = .ok (ok, b')) : Careful b b' := by
  obtain ⟨spot, _, h⟩ := bind_ok.mp h
  cases spot with
  | none =>
    cases h
    exact .refl b
  | some s =>
    obtain ⟨header, _, h⟩ := bind_ok.mp h
    cases header with
    | none =>
      cases h
      exact .refl b
    | some header =>
      simp only at h
      split at h
      · rename_i hspill
        cases h
        exact careful_spillPayload hspill
      · rename_i hspill
        exact (careful_spillPayload hspill).trans (careful_placeCell (Except.ok.inj h))

theorem careful_sqliteInsertIntent {fileId : Int} {mime json : List UInt8}
    (h : sqliteInsertIntent b fileId mime json = .ok (ok, b')) : Careful b b' := by
  obtain ⟨spot, _, h⟩ := bind_ok.mp h
  cases spot with
  | none =>
    cases h
    exact .refl b
  | some s =>
    obtain ⟨header, _, h⟩ := bind_ok.mp h
    cases header with
    | none =>
      cases h
      exact .refl b
    | some header =>
      simp only at h
      split at h
      · cases h
      · exact careful_placeCell (Except.ok.inj h)

theorem careful_insertRow {table values : List UInt8} {types : List Nat} {rowid : Option Int}
    (h : insertRow b table types values = .ok (rowid, b')) : Careful b b' := by
  obtain ⟨spot, _, h⟩ := bind_ok.mp h
  cases spot with
  | none =>
    cases h
    exact .refl b
  | some s =>
    obtain ⟨next, _, h⟩ := bind_ok.mp h
    obtain ⟨header, _, h⟩ := bind_ok.mp h
    cases header with
    | none =>
      cases h
      exact .refl b
    | some header =>
      simp only at h
      split at h
      · rename_i hplace
        cases h
        exact careful_placeCell hplace
      · rename_i hplace
        cases h
        exact careful_placeCell hplace

theorem careful_sqliteExpireEdge {subjectId predicate : List UInt8} {expireAt : Int} {n : Nat}
    (h : sqliteExpireEdge b subjectId predicate expireAt = .ok (n, b')) : Careful b b' := by
  unfold sqliteExpireEdge at h
  split at h
  · cases h
    exact .refl b
  obtain ⟨db, _, h⟩ := bind_ok.mp h
  cases db with
  | error e =>
    cases h
    exact .refl b
  | ok db =>
    obtain ⟨scanner, _, h⟩ := bind_ok.mp h
    cases scanner with
    | error e =>
      cases h
      exact .refl b
    | ok scanner =>
      obtain ⟨found, _, h⟩ := bind_ok.mp h
      cases found with
      | inl u =>
        cases h
        exact .refl b
      | inr offset =>
        simp only at h
        split at h
        · cases h
          exact .refl b
        · rename_i hwrite
          cases h
          exact (careful_writeSlice hwrite).trans careful_incrementChangeCounter

theorem careful_overwriteBlobInplace {name newData : List UInt8}
    (h : overwriteBlobInplace b name newData = .ok (ok, b')) : Careful b b' := by
  unfold overwriteBlobInplace at h
  split at h
  · cases h
    exact .refl b
  obtain ⟨db, _, h⟩ := bind_ok.mp h
  cases db with
  | error e =>
    cases h
    exact .refl b
  | ok db =>
    obtain ⟨scanner, _, h⟩ := bind_ok.mp h
    cases scanner with
    | error e =>
      cases h
      exact .refl b
    | ok scanner =>
      obtain ⟨found, _, h⟩ := bind_ok.mp h
      simp only at h
      split at h
      · cases h
        exact .refl b
      · cases h
        exact .refl b
      · split at h
        · cases h
          exact .refl b
        · rename_i hwrite
          cases h
          exact ((careful_writeSlice hwrite).trans (careful_zeroFill _ _)).trans
            careful_incrementChangeCounter

theorem careful_shiftPointers {ptrArray left i : Nat}
    (h : shiftPointers ptrArray left i b = (ok, b')) : Careful b b' := by
  induction left generalizing i b with
  | zero =>
    cases h
    exact .refl _
  | succ left ih =>
    simp only [shiftPointers] at h
    split at h
    · cases h
      exact .refl _
    · split at h
      · cases h
        exact .refl _
      · rename_i hwrite
        exact (careful_writeSlice hwrite).trans (ih h)

theorem careful_removeCellPointer {leafPage pageSize cellIdx : Nat}
    (h : removeCellPointer b leafPage pageSize cellIdx = (ok, b')) : Careful b b' := by
  unfold removeCellPointer at h
  simp only at h
  split at h
  · cases h
    exact .refl b
  · split at h
    · rename_i hshift
      cases h
      exact careful_shiftPointers hshift
    · rename_i hshift
      have hc := careful_shiftPointers hshift
      split at h
      · cases h
        exact hc.trans (careful_putSlice _ _)
      · rename_i hwrite
        cases h
        exact hc.trans <| (careful_putSlice _ _).trans <| (careful_writeSlice hwrite).trans <|
          careful_incrementChangeCounter.trans (careful_markPageDirty _)

theorem careful_sqliteDeleteFileByRowid {rowid : Int}
    (h : sqliteDeleteFileByRowid b rowid = .ok (ok, b')) : Careful b b' := by
  obtain ⟨root, _, h⟩ := bind_ok.mp h
  cases root with
  | none =>
    cases h
    exact .refl b
  | some root =>
    have h := Except.ok.inj h
    generalize collectLeafPages b root.1.pageSize 256 [root.2] [] = leaves at h
    induction leaves with
    | nil =>
      cases h
      exact .refl b
    | cons leaf leaves ih =>
      simp only [deleteFromLeaves] at h
      split at h
      · exact careful_removeCellPointer h
      · exact ih h

/-- Every operation marks what it changes. -/
theorem careful_op {o : Op} (h : o.run b = some b') : Careful b b' := by
  have hres : ∀ {α : Type} {r : Res (α × Buffer)}, (r.toOption.map (·.2)) = some b' →
      ∃ a, r = .ok (a, b') := by
    intro α r hr
    cases r with
    | error e => cases hr
    | ok x =>
      cases hr
      exact ⟨x.1, rfl⟩
  cases o with
  | setValid valid =>
    cases h
    exact ⟨fun _ hi => absurd rfl hi, fun _ hq => hq⟩
  | setSize size =>
    cases h
    exact careful_setSize size
  | writeByte offset byte =>
    cases h
    exact careful_putByte offset byte
  | writeSlice offset src =>
    cases h
    exact careful_putSlice offset src
  | writeBeU16 offset val =>
    cases h
    exact careful_putSlice offset _
  | writeBeU32 offset val =>
    cases h
    exact careful_putSlice offset _
  | incrementChangeCounter =>
    cases h
    exact careful_incrementChangeCounter
  | setPageCount count =>
    cases h
    exact careful_setPageCount count
  | markPageDirty page =>
    cases h
    exact careful_markPageDirty page
  | markRangeDirty offset len =>
    cases h
    exact careful_markRangeDirty offset len
  | insertFile rowid name content =>
    obtain ⟨_, h⟩ := hres h
    exact careful_sqliteInsertFile h
  | insertIntent fileId mime json =>
    obtain ⟨_, h⟩ := hres h
    exact careful_sqliteInsertIntent h
  | insertEntity id name type at_ =>
    obtain ⟨_, h⟩ := hres h
    exact careful_insertRow h
  | insertEdge id s p o vf vt c =>
    obtain ⟨_, h⟩ := hres h
    exact careful_insertRow h
  | expireEdge s p at_ =>
    obtain ⟨_, h⟩ := hres h
    exact careful_sqliteExpireEdge h
  | overwriteBlob name data =>
    obtain ⟨_, h⟩ := hres h
    exact careful_overwriteBlobInplace h
  | deleteFile rowid =>
    obtain ⟨_, h⟩ := hres h
    exact careful_sqliteDeleteFileByRowid h

end

/-! ## What a flush forgets -/

/-- Operations keep the tracking: the buffer is a write-back memory whose items are the pages. -/
theorem tracked_op {w : World} {b : Buffer} (h : Tracked w) (hc : Careful w.buffer b) :
    Tracked { w with buffer := b } := by
  have hsound : ∀ w : World, Tracked w ↔ Sound (fun p d m => ∀ i, i / 4096 = p → d i = m i)
      ({ mem := w.buffer.data, disk := w.written, marked := { p | w.buffer.isPageDirty p = true }
         claim := ∅, snap := none } : View Nat Bytes Bytes) := by
    intro w
    constructor
    · intro h
      refine ⟨?_, fun m hm => by cases hm⟩
      intro p hp _ i hi
      by_contra hne
      exact hp (hi ▸ h i (Ne.symm hne))
    · intro h i hi
      by_contra hd
      exact hi (h.clean (i / 4096) hd (by simp) i rfl).symm
  rw [hsound] at h ⊢
  refine h.mutate { p | ∃ i, i / 4096 = p ∧ b.data i ≠ w.buffer.data i } rfl rfl ?_ ?_
    (fun _ hx => hx) ?_
  · intro p hp
    exact hc.keeps p hp
  · rintro _ ⟨i, rfl, hi⟩
    exact hc.marks i hi
  · intro p hp d hd i hi
    rw [hd i hi]
    by_contra hne
    exact hp ⟨i, hi, Ne.symm hne⟩

/-- One sector is written. -/
theorem overlay_sector (w data : Bytes) (k i : Nat) :
    overlay w (k * 512) (Slice.toList data ⟨k * 512, 512⟩) i = if i / 512 = k then data i else w i := by
  unfold overlay Slice.toList
  by_cases hle : k * 512 ≤ i
  · rw [if_pos hle, getElem?_map]
    by_cases hlt : i - k * 512 < 512
    · rw [getElem?_range hlt, if_pos (by omega)]
      simp only [Option.map_some, Option.getD_some]
      congr 1
      omega
    · rw [getElem?_eq_none (by simpa using hlt), if_neg (by omega)]
      rfl
  · rw [if_neg hle, if_neg (by omega)]

/-- After the writes a byte of an accepted sector is what the buffer has. -/
theorem recordWrites_sectors (data w : Bytes) (sector : Nat → Nat) (accepts : Nat → Bool) (ks : List Nat) (i : Nat) :
    recordWrites w (ks.map fun k =>
      { index := k, sector := sector k, data := Slice.toList data ⟨k * 512, 512⟩, ok := accepts k }) i =
      if i / 512 ∈ ks ∧ accepts (i / 512) = true then data i else w i := by
  unfold recordWrites
  induction ks generalizing w with
  | nil => simp
  | cons k ks ih =>
    rw [map_cons, foldl_cons, ih]
    by_cases hin : i / 512 ∈ ks ∧ accepts (i / 512) = true
    · rw [if_pos hin, if_pos ⟨mem_cons_of_mem k hin.1, hin.2⟩]
    · rw [if_neg hin]
      by_cases hk : i / 512 = k
      · subst hk
        cases ha : accepts (i / 512) with
        | false => simp
        | true => simp [overlay_sector]
      · have hnot : ¬ (i / 512 ∈ k :: ks ∧ accepts (i / 512) = true) := by
          rintro ⟨hmem, ha⟩
          rcases mem_cons.mp hmem with h | h
          · exact hk h
          · exact hin ⟨h, ha⟩
        rw [if_neg hnot]
        cases accepts k with
        | false => simp
        | true => simp [overlay_sector, hk]

/-- The sectors of a flush: the whole sectors of the database on marked pages. -/
theorem mem_flushSectors {b : Buffer} {k : Nat} :
    k ∈ flushSectors b ↔ b.isPageDirty (k / 8) = true ∧ k * 512 + 512 ≤ b.size := by
  unfold flushSectors
  rw [mem_flatMap]
  constructor
  · rintro ⟨page, _, hk⟩
    split at hk
    · rename_i hdirty
      obtain ⟨hk, hsize⟩ := mem_filter.mp hk
      obtain ⟨s, hs, rfl⟩ := mem_map.mp hk
      have hs8 : s < 8 := by
        have := mem_range.mp hs
        unfold sectorsInPage at this
        split at this <;> omega
      have hpage : (page * 8 + s) / 8 = page := by omega
      exact ⟨by rw [hpage]; exact hdirty, by simpa using hsize⟩
    · cases hk
  · rintro ⟨hdirty, hsize⟩
    refine ⟨k / 8, mem_range.mpr (by omega), ?_⟩
    rw [if_pos hdirty]
    refine mem_filter.mpr ⟨mem_map.mpr ⟨k % 8, mem_range.mpr ?_, by omega⟩, by simpa using hsize⟩
    unfold sectorsInPage
    split <;> omega

/-- When the flush gets to its writes, each byte that differs lies in a whole sector of the database
    whose write succeeds. -/
def Covers (w : World) (header : Option (List UInt8)) (accepts : Nat → Bool) : Prop :=
  header.any locatesDb = true → ∀ i, w.buffer.data i ≠ w.written i →
    i / 512 * 512 + 512 ≤ w.buffer.size ∧ accepts (i / 512) = true

/-- A flush keeps track iff its writes cover. -/
theorem tracked_flush_iff {w w' : World} (h : Tracked w) {header : Option (List UInt8)}
    {accepts : Nat → Bool} (hstep : w.step (.flush header accepts) = some w') :
    Tracked w' ↔ Covers w header accepts := by
  cases hstep
  unfold flushSqliteToDisk
  cases header with
  | none => exact iff_of_true h fun hany => by cases hany
  | some header =>
    simp only [Covers, Option.any_some]
    cases hloc : locatesDb header with
    | false => exact iff_of_true h fun hany => by cases hany
    | true =>
      simp only [Bool.not_true, Bool.false_eq_true, if_false, forall_const]
      have hclean : ∀ p, w.buffer.clearDirty.isPageDirty p = false := by
        intro p
        simp [Buffer.clearDirty, Buffer.isPageDirty]
      have hwritten := recordWrites_sectors w.buffer.data w.written
        (fun k => (dbSectorField header + k) % 2 ^ 64) accepts (flushSectors w.buffer)
      constructor
      · intro h' i hi
        by_contra hnot
        -- the byte was not written, so it still differs and nothing marks it
        have hsame := (hwritten i).trans
          (if_neg fun hk => hnot ⟨(mem_flushSectors.mp hk.1).2, hk.2⟩)
        have hdirty := h' i fun heq => hi (heq.trans hsame)
        rw [hclean] at hdirty
        cases hdirty
      · intro hcov i hi
        refine absurd (Eq.trans ?_ (hwritten i).symm) hi
        by_cases hne : w.buffer.data i = w.written i
        · rw [← hne, ite_self]
          rfl
        · obtain ⟨hsize, hok⟩ := hcov i hne
          have hpage : i / 512 / 8 = i / 4096 := by omega
          rw [if_pos ⟨mem_flushSectors.mpr ⟨by rw [hpage]; exact h i hne, hsize⟩, hok⟩]
          rfl

/-! ## Runs -/

/-- The worlds that a run goes through. -/
def World.states (w : World) : List Act → List World
  | [] => [w]
  | a :: acts => w :: match w.step a with
    | none => []
    | some w' => w'.states acts

/-- Every flush of the run covers what differs when it starts. -/
def Covered (w : World) : List Act → Prop
  | [] => True
  | .op o :: acts => ∀ w', w.step (.op o) = some w' → Covered w' acts
  | .flush header accepts :: acts => Covers w header accepts ∧
      ∀ w', w.step (.flush header accepts) = some w' → Covered w' acts

/-- The run lemma. -/
theorem tracked_states_iff {w : World} (h : Tracked w) (acts : List Act) :
    (∀ v ∈ w.states acts, Tracked v) ↔ Covered w acts := by
  induction acts generalizing w with
  | nil => simpa [World.states, Covered] using h
  | cons a acts ih =>
    cases a with
    | op o =>
      simp only [World.states, Covered, forall_mem_cons]
      cases hstep : w.step (.op o) with
      | none => simp [h]
      | some w' =>
        obtain ⟨b, hb, rfl⟩ := Option.map_eq_some_iff.mp hstep
        have htracked := tracked_op h (careful_op hb)
        simp [h, ih htracked]
    | flush header accepts =>
      simp only [World.states, Covered, forall_mem_cons]
      cases hstep : w.step (.flush header accepts) with
      | none => cases hstep
      | some w' =>
        have hiff := tracked_flush_iff h hstep
        by_cases hcov : Covers w header accepts
        · simp [h, ih (hiff.mpr hcov), hcov]
        · -- the state right after the flush is not tracked
          have hw' : w' ∈ w'.states acts := by cases acts <;> simp [World.states]
          constructor
          · rintro ⟨_, hall⟩
            exact absurd (hiff.mp (hall w' hw')) hcov
          · rintro ⟨hc, _⟩
            exact absurd hc hcov

/-- From a buffer that is as the disk has it, every state of a run is tracked exactly when every flush
    of the run covers what differs. -/
theorem tracked_run_iff (b : Buffer) (acts : List Act) :
    (∀ v ∈ World.states { buffer := b, written := b.data } acts, Tracked v) ↔
      Covered { buffer := b, written := b.data } acts := by
  apply tracked_states_iff
  intro i hi
  exact absurd rfl hi

/-- One page of zeros, loaded and clean. -/
def onePage : Buffer :=
  { data := fun _ => 0, size := 4096, valid := true, dirty := fun _ => false, size_le := by decide }

/-- A disk header with the database at sector 1. -/
def folkdiskHeader : List UInt8 := folkdiskMagic ++ List.replicate 40 0 ++ [1] ++ List.replicate 463 0

/-- A byte is changed and the flush's sector write fails: the page is not marked any more. -/
theorem failed_write_forgotten : ∃ v ∈ World.states { buffer := onePage, written := onePage.data }
        [.op (.writeByte 0 1), .flush (some folkdiskHeader) fun _ => false],
      v.buffer.data 0 ≠ v.written 0 ∧ v.buffer.isPageDirty 0 = false := by
  refine ⟨_, mem_cons_of_mem _ (mem_cons_of_mem _ (mem_singleton.mpr rfl)), ?_, ?_⟩
  · decide +kernel
  · decide +kernel

end Folkering.Synapse
