/-
  The boot image: FOLK-PACK.

  `create_fpk` of the host tool writes the image, the ramdisk driver of the kernel reads it; they share nothing but the
  layout.  Behind a header of 64 bytes stands a table of 64 bytes per entry, and from the next page on the contents,
  each at a page boundary.  The last content is not padded, and an empty content takes no room at all, so that the
  next one stands at the same offset:
      `entriesWithOffsets` — the offsets, each the end of the content before it rounded up;
      `blobs_lie`          — the contents lie at these offsets and end inside the file;
      `entries_createFpk`  — the driver sees the table that was written;
      `find_createFpk`     — and finds the first entry of a name.

  The four bytes that `repr(C)` leaves between the name and the offset of an entry are written as they stand in memory:
  they are a parameter, as is the digest of the contents.
-/
import Mathlib.Data.List.Nodup
import Folkering.Lib.Layout
import Folkering.Lib.LittleEndian
import Folkering.Lib.Word64

namespace Folkering.FolkPack

open Word64 Layout LittleEndian

/-- The bytes `FOLK`. -/
def fpkMagic : List UInt8 := [70, 79, 76, 75]
/-- The version of the format. -/
def fpkVersion : Nat := 1
/-- File contents start at multiples of this. -/
def fpkPageSize : Nat := 4096
/-- The bytes of a name field. -/
def fpkNameLen : Nat := 32

/-- `size_of::<FpkHeader>()` and `size_of::<FpkEntry>()`. -/
def headerSize : Nat := 64
/-- The bytes of a row of the table. -/
def entrySize : Nat := 64

/-- The header of an image. -/
structure FpkHeader where
  magic : List UInt8
  version : Nat
  entryCount : Nat
  totalSize : Nat
  reserved : List UInt8

/-- A row of the entry table. -/
structure FpkEntry where
  id : Nat
  entryType : Nat
  name : List UInt8
  offset : Nat
  size : Nat
  hash : List UInt8
deriving DecidableEq

/-! ## The writer -/

/-- A file to be packed: its name and type from the command line, and what was read from it. -/
structure AddEntry where
  name : List UInt8
  entryType : UInt16
  data : List UInt8
deriving DecidableEq

/-- So many zero bytes. -/
def zeros (n : Nat) : List UInt8 := List.replicate n 0

/-- `align_up`, for a power of two. -/
def alignUp (value align : Nat) : Nat := wsub (wadd value align) 1 &&& wnot (align - 1)

/-- The header as it lies in memory. -/
def FpkHeader.asBytes (header : FpkHeader) : List UInt8 :=
  header.magic ++ (leBytes 2 header.version ++ (leBytes 2 header.entryCount ++
    (leBytes 8 header.totalSize ++ header.reserved)))

/-- A row as it lies in memory, with any value of its padding. -/
def FpkEntry.asBytes (gap : Vector UInt8 4) (entry : FpkEntry) : List UInt8 :=
  leBytes 2 entry.id ++ (leBytes 2 entry.entryType ++ (entry.name ++ (gap.toList ++
    (leBytes 8 entry.offset ++ (leBytes 8 entry.size ++ entry.hash)))))

section Writer

-- the digest, and the bytes between the fields of each entry
variable (sha256 : List UInt8 → Vector UInt8 32) (gap : Nat → Vector UInt8 4)

/-- Offset, size and hash of each entry. -/
def entriesWithOffsets (currentOffset : Nat) : List AddEntry → List (Nat × Nat × List UInt8)
  | [] => []
  | a :: rest =>
    (currentOffset, a.data.length, (sha256 a.data).toList.take 8) ::
      entriesWithOffsets (alignUp (wadd currentOffset a.data.length) fpkPageSize) rest

/-- Where the offsets end. -/
def totalSize (currentOffset : Nat) : List AddEntry → Nat
  | [] => currentOffset
  | a :: rest => totalSize (alignUp (wadd currentOffset a.data.length) fpkPageSize) rest

/-- A name, filled up with zeros. -/
def nameField (name : List UInt8) : List UInt8 := name ++ zeros (fpkNameLen - name.length)

/-- A row of the table. -/
def fpkEntry (i : Nat) : AddEntry × Nat × Nat × List UInt8 → FpkEntry
  | (a, offset, size, hash) =>
    { id := i % 2 ^ 16, entryType := a.entryType.toNat, name := nameField a.name, offset, size, hash }

/-- The contents, each but the last padded to the next offset.  (The assertion of the source compares an offset with
    the expression it was computed by.) -/
def blobs : List AddEntry → List (Nat × Nat × List UInt8) → List UInt8
  | a :: rest, (offset, _, _) :: more =>
    let padding := match more with
      | [] => []
      | (nextOffset, _, _) :: _ => zeros (nextOffset - (offset + a.data.length))
    a.data ++ (padding ++ blobs rest more)
  | _, _ => []

/-- The image of some files. -/
def createFpk (fileData : List AddEntry) : List UInt8 :=
  let entryTableSize := entrySize * fileData.length
  let dataStart := alignUp (headerSize + entryTableSize) fpkPageSize
  let offsets := entriesWithOffsets sha256 dataStart fileData
  let header : FpkHeader :=
    { magic := fpkMagic, version := fpkVersion, entryCount := fileData.length % 2 ^ 16,
      totalSize := totalSize dataStart fileData, reserved := zeros 48 }
  let fpkEntries := (fileData.zip offsets).mapIdx fpkEntry
  header.asBytes ++ ((fpkEntries.mapIdx fun i e => e.asBytes (gap i)).flatten ++
    (zeros (dataStart - (headerSize + entryTableSize)) ++ blobs fileData offsets))

end Writer

/-! ## The driver -/

/-- Why an image is refused. -/
inductive RamdiskError where
  | tooSmall
  | badMagic
  | badVersion
  | entryTableOverflow
  | entryDataOverflow
deriving DecidableEq

/-- Where the image lies. -/
structure Ramdisk where
  base : Nat
  size : Nat
deriving DecidableEq

/-- The memory, by address. -/
abbrev Mem := Nat → UInt8

/-- A little-endian number in memory. -/
def leAt (mem : Mem) (addr n : Nat) : Nat := fromLe (bytesAt mem addr n)

/-- The header at an address. -/
def headerAt (mem : Mem) (addr : Nat) : FpkHeader where
  magic := bytesAt mem addr 4
  version := leAt mem (addr + 4) 2
  entryCount := leAt mem (addr + 6) 2
  totalSize := leAt mem (addr + 8) 8
  reserved := bytesAt mem (addr + 16) 48

/-- The row at an address. -/
def entryAt (mem : Mem) (addr : Nat) : FpkEntry where
  id := leAt mem addr 2
  entryType := leAt mem (addr + 2) 2
  name := bytesAt mem (addr + 4) fpkNameLen
  offset := leAt mem (addr + 40) 8
  size := leAt mem (addr + 48) 8
  hash := bytesAt mem (addr + 56) 8

/-- Magic and version are right. -/
def FpkHeader.isValid (header : FpkHeader) : Bool := header.magic == fpkMagic && header.version == fpkVersion

/-- The rows behind the header. -/
def entriesFromRaw (mem : Mem) (base count : Nat) : List FpkEntry :=
  (List.range count).map fun i => entryAt mem (base + headerSize + entrySize * i)

/-- The check of one entry: `checked_add`, then the comparison. -/
def outside (size : Nat) (entry : FpkEntry) : Bool :=
  decide (2 ^ 64 ≤ entry.offset + entry.size) || decide (size < entry.offset + entry.size)

/-- Accept an image if header, table and contents lie inside it. -/
def fromMemory (mem : Mem) (virtAddr size : Nat) : Except RamdiskError Ramdisk :=
  if size < headerSize then .error .tooSmall
  else
    let header := headerAt mem virtAddr
    if !header.isValid then
      if header.magic ≠ fpkMagic then .error .badMagic else .error .badVersion
    else if headerSize + header.entryCount * entrySize > size then .error .entryTableOverflow
    else if (entriesFromRaw mem virtAddr header.entryCount).any (outside size) then .error .entryDataOverflow
    else .ok ⟨virtAddr, size⟩

/-- All rows of an accepted image. -/
def entries (mem : Mem) (disk : Ramdisk) : List FpkEntry :=
  entriesFromRaw mem disk.base (headerAt mem disk.base).entryCount

/-- The comparison of `find`: the bytes before the first zero, against the name. -/
def nameMatches (name : List UInt8) (e : FpkEntry) : Bool :=
  let len := (e.name.findIdx? (· == 0)).getD fpkNameLen
  len == name.length && (List.range len).all fun j => e.name.getD j 0 == name.getD j 0

/-- The first row with the name. -/
def find (mem : Mem) (disk : Ramdisk) (name : List UInt8) : Option FpkEntry :=
  if name.length ≥ fpkNameLen then none else (entries mem disk).find? (nameMatches name)

/-- The contents of a file. -/
def read (mem : Mem) (disk : Ramdisk) (entry : FpkEntry) : List UInt8 :=
  bytesAt mem (disk.base + entry.offset) entry.size

/-! ## Fields -/

/-- A number is read back. -/
theorem leAt_of_lies {mem : Mem} {addr n v : Nat} (h : Lies mem addr (leBytes n v)) (hv : v < 256 ^ n) :
    leAt mem addr n = v := by
  have hb := h.bytesAt
  rw [leBytes_length] at hb
  rw [leAt, hb, fromLe_leBytes hv]

/-- Bytes are read back. -/
theorem bytesAt_of_lies {mem : Mem} {addr n : Nat} {bs : List UInt8} (h : Lies mem addr bs) (hn : bs.length = n) :
    bytesAt mem addr n = bs := by
  rw [← hn, h.bytesAt]

/-- The values of a row that its bytes can hold. -/
structure FpkEntry.Fits (e : FpkEntry) : Prop where
  id : e.id < 2 ^ 16
  entryType : e.entryType < 2 ^ 16
  name : e.name.length = fpkNameLen
  offset : e.offset < 2 ^ 64
  size : e.size < 2 ^ 64
  hash : e.hash.length = 8

theorem FpkEntry.Fits.length {e : FpkEntry} (h : e.Fits) (gap : Vector UInt8 4) :
    (e.asBytes gap).length = entrySize := by
  simp [FpkEntry.asBytes, h.name, h.hash, fpkNameLen, entrySize]

/-- A row is read back. -/
theorem FpkEntry.Fits.entryAt {e : FpkEntry} (h : e.Fits) {gap : Vector UInt8 4} {mem : Mem} {addr : Nat}
    (hlie : Lies mem addr (e.asBytes gap)) : entryAt mem addr = e := by
  unfold FpkEntry.asBytes at hlie
  simp only [lies_append, leBytes_length, h.name, Vector.length_toList, fpkNameLen, Nat.add_assoc] at hlie
  obtain ⟨hid, htype, hname, -, hoffset, hsize, hhash⟩ := hlie
  rw [FolkPack.entryAt, leAt_of_lies hid h.id, leAt_of_lies htype h.entryType, bytesAt_of_lies hname h.name,
    leAt_of_lies hoffset h.offset, leAt_of_lies hsize h.size, bytesAt_of_lies hhash h.hash]

theorem FpkHeader.asBytes_length {header : FpkHeader} (hm : header.magic.length = 4)
    (hr : header.reserved.length = 48) : header.asBytes.length = headerSize := by
  simp [FpkHeader.asBytes, hm, hr, headerSize]

/-- What the driver looks at in the header. -/
theorem headerAt_of_lies {header : FpkHeader} (hm : header.magic.length = 4) (hv : header.version < 2 ^ 16)
    (hc : header.entryCount < 2 ^ 16) {mem : Mem} {addr : Nat} (hlie : Lies mem addr header.asBytes) :
    (headerAt mem addr).magic = header.magic ∧ (headerAt mem addr).version = header.version ∧
      (headerAt mem addr).entryCount = header.entryCount := by
  unfold FpkHeader.asBytes at hlie
  simp only [lies_append, leBytes_length, hm, Nat.add_assoc] at hlie
  obtain ⟨hmagic, hversion, hcount, -⟩ := hlie
  exact ⟨bytesAt_of_lies hmagic hm, leAt_of_lies hversion hv, leAt_of_lies hcount hc⟩

/-! ## Names -/

/-- The name ends at its first zero. -/
theorem findIdx?_nameField {name : List UInt8} (hz : 0 ∉ name) (hlen : name.length < fpkNameLen) :
    (nameField name).findIdx? (· == 0) = some name.length := by
  obtain ⟨k, hk⟩ : ∃ k, fpkNameLen - name.length = k + 1 := ⟨_, (Nat.succ_pred_eq_of_pos (by omega)).symm⟩
  rw [nameField, hk, zeros, List.replicate_succ, List.findIdx?_append]
  have hnone : name.findIdx? (· == 0) = none := by
    rw [List.findIdx?_eq_none_iff]
    intro b hb
    simpa using fun h : b = 0 => hz (h ▸ hb)
  simp [hnone, List.findIdx?_cons]

/-- The name in the table is the given one. -/
theorem nameMatches_nameField {name query : List UInt8} (hz : 0 ∉ name) (hlen : name.length < fpkNameLen)
    {e : FpkEntry} (he : e.name = nameField name) : nameMatches query e = true ↔ name = query := by
  simp only [nameMatches, he, findIdx?_nameField hz hlen, Option.getD_some, Bool.and_eq_true, beq_iff_eq,
    List.all_eq_true, List.mem_range]
  have hget : ∀ j < name.length, (nameField name).getD j 0 = name.getD j 0 := by
    intro j hj
    rw [nameField, List.getD_append _ _ _ _ hj]
  constructor
  · rintro ⟨hl, hall⟩
    refine List.ext_getElem hl fun j h₁ h₂ => ?_
    have hj := hall j h₁
    rwa [hget j h₁, List.getD_eq_getElem _ _ h₁, List.getD_eq_getElem _ _ h₂] at hj
  · rintro rfl
    exact ⟨rfl, hget⟩

/-! ## Offsets -/

/-- Rounding up where nothing wraps. -/
theorem alignUp_spec {value : Nat} (h : value + fpkPageSize ≤ 2 ^ 64) :
    value ≤ alignUp value fpkPageSize ∧ alignUp value fpkPageSize < value + fpkPageSize := by
  have hup : alignUp value (2 ^ 12) = (value + 2 ^ 12 - 1) / 2 ^ 12 * 2 ^ 12 := round_up (by decide) h
  rw [show fpkPageSize = 2 ^ 12 from rfl, hup]
  omega

/-- Room that the contents take at most. -/
def room (fileData : List AddEntry) : Nat := (fileData.map fun a => a.data.length + fpkPageSize).sum

variable {sha256 : List UInt8 → Vector UInt8 32} {gap : Nat → Vector UInt8 4}

theorem entriesWithOffsets_length (cur : Nat) (fileData : List AddEntry) :
    (entriesWithOffsets sha256 cur fileData).length = fileData.length := by
  induction fileData generalizing cur with
  | nil => rfl
  | cons a rest ih => rw [entriesWithOffsets, List.length_cons, List.length_cons, ih]

/-- The content of each entry ends inside the file, and lies at its offset wherever the file is. -/
theorem blobs_lie : ∀ {fileData : List AddEntry} {cur : Nat}, cur + room fileData < 2 ^ 64 →
    ∀ {i : Nat} {a : AddEntry}, fileData[i]? = some a → ∃ offset, (entriesWithOffsets sha256 cur fileData)[i]? =
        some (offset, a.data.length, (sha256 a.data).toList.take 8) ∧
      offset + a.data.length ≤ cur + (blobs fileData (entriesWithOffsets sha256 cur fileData)).length ∧
      offset + a.data.length < 2 ^ 64 ∧ ∀ {mem : Mem} {base : Nat},
        Lies mem (base + cur) (blobs fileData (entriesWithOffsets sha256 cur fileData)) →
        Lies mem (base + offset) a.data
  | [], _, _, i, a, hi => by simp at hi
  | [b], cur, hroom, i, a, hi => by
    have hb : blobs [b] (entriesWithOffsets sha256 cur [b]) = b.data := by
      simp [blobs, entriesWithOffsets]
    rw [hb]
    simp only [room, List.map_cons, List.sum_cons] at hroom
    cases i with
    | zero =>
      cases hi
      exact ⟨cur, rfl, Nat.le_refl _, by omega, id⟩
    | succ i => simp at hi
  | b :: c :: rest, cur, hroom, i, a, hi => by
    have hroom' : cur + (b.data.length + fpkPageSize + room (c :: rest)) < 2 ^ 64 := hroom
    have hadd : wadd cur b.data.length = cur + b.data.length := wadd_eq (by omega)
    obtain ⟨hge, hlt⟩ := @alignUp_spec (cur + b.data.length) (by omega)
    -- the second content starts where the padding behind the first ends
    generalize hnext : alignUp (cur + b.data.length) fpkPageSize = next at hge hlt
    have hoffsets : entriesWithOffsets sha256 cur (b :: c :: rest) =
        (cur, b.data.length, (sha256 b.data).toList.take 8) :: entriesWithOffsets sha256 next (c :: rest) := by
      rw [entriesWithOffsets, hadd, hnext]
    have hblobs : blobs (b :: c :: rest) (entriesWithOffsets sha256 cur (b :: c :: rest)) =
        b.data ++ (zeros (next - (cur + b.data.length)) ++
          blobs (c :: rest) (entriesWithOffsets sha256 next (c :: rest))) := by
      rw [hoffsets]
      rfl
    have hpad : (zeros (next - (cur + b.data.length))).length = next - (cur + b.data.length) :=
      List.length_replicate
    rw [hblobs, hoffsets, List.length_append, List.length_append, hpad]
    cases i with
    | zero =>
      cases hi
      exact ⟨cur, rfl, by omega, by omega, fun hlie => (lies_append.mp hlie).1⟩
    | succ i =>
      obtain ⟨offset, hget, hend, hfit, hlies⟩ := @blobs_lie (c :: rest) next (by omega) i a hi
      refine ⟨offset, hget, by omega, hfit, fun {mem base} hlie => hlies ?_⟩
      rw [lies_append, lies_append, hpad] at hlie
      rw [show base + next = base + cur + b.data.length + (next - (cur + b.data.length)) by omega]
      exact hlie.2.2

/-! ## The image -/

/-- What the packing tool is given. -/
structure Packable (fileData : List AddEntry) : Prop where
  count : fileData.length < 65536
  distinct : (fileData.map (·.name)).Nodup
  short : ∀ a ∈ fileData, a.name.length ≤ 31
  zeroFree : ∀ a ∈ fileData, 0 ∉ a.name
  /-- all contents are in memory at once -/
  memory : (fileData.map (·.data.length)).sum < 2 ^ 63

theorem room_eq (fileData : List AddEntry) :
    room fileData = (fileData.map (·.data.length)).sum + fpkPageSize * fileData.length := by
  induction fileData with
  | nil => rfl
  | cons a rest ih =>
    rw [room] at ih ⊢
    rw [List.map_cons, List.sum_cons, ih, List.map_cons, List.sum_cons, List.length_cons, Nat.mul_succ]
    omega

/-- The image fits in memory. -/
theorem Packable.room_lt {fileData : List AddEntry} (h : Packable fileData) : room fileData < 2 ^ 63 + 2 ^ 28 := by
  have hc := h.count
  have hm := h.memory
  rw [room_eq, fpkPageSize]
  omega

section Image

variable {fileData : List AddEntry} {mem : Mem} {base : Nat}

/-- Where the contents start. -/
def dataStart (fileData : List AddEntry) : Nat := alignUp (headerSize + entrySize * fileData.length) fpkPageSize

/-- The contents start behind the table, at a page. -/
theorem dataStart_spec (h : Packable fileData) : headerSize + entrySize * fileData.length ≤ dataStart fileData ∧
      dataStart fileData < headerSize + entrySize * fileData.length + fpkPageSize := by
  have hc := h.count
  apply alignUp_spec
  unfold headerSize entrySize fpkPageSize
  omega

/-- The rows of the table. -/
def table (sha256 : List UInt8 → Vector UInt8 32) (fileData : List AddEntry) : List FpkEntry :=
  (fileData.zip (entriesWithOffsets sha256 (dataStart fileData) fileData)).mapIdx fpkEntry

theorem table_length : (table sha256 fileData).length = fileData.length := by
  rw [table, List.length_mapIdx, List.length_zip, entriesWithOffsets_length, Nat.min_self]

/-- The contents as they stand in the file. -/
def contents (sha256 : List UInt8 → Vector UInt8 32) (fileData : List AddEntry) : List UInt8 :=
  blobs fileData (entriesWithOffsets sha256 (dataStart fileData) fileData)

/-- A row of the table describes its entry. -/
structure Describes (sha256 : List UInt8 → Vector UInt8 32) (fileData : List AddEntry) (e : FpkEntry)
    (a : AddEntry) : Prop where
  fits : e.Fits
  name : e.name = nameField a.name
  size : e.size = a.data.length
  inside : e.offset + e.size ≤ dataStart fileData + (contents sha256 fileData).length
  noWrap : e.offset + e.size < 2 ^ 64
  lies : ∀ {mem : Mem} {base : Nat}, Lies mem (base + dataStart fileData) (contents sha256 fileData) →
    Lies mem (base + e.offset) a.data

/-- Every file has a row. -/
theorem row_of_getElem? (h : Packable fileData) {i : Nat} {a : AddEntry} (hi : fileData[i]? = some a) :
    ∃ e, (table sha256 fileData)[i]? = some e ∧ Describes sha256 fileData e a := by
  have hc := h.count
  have hstart := (dataStart_spec h).2
  have hroom := h.room_lt
  unfold headerSize entrySize fpkPageSize at hstart
  obtain ⟨offset, hget, hend, hfit, hlies⟩ := @blobs_lie sha256 fileData (dataStart fileData) (by omega) i a hi
  have hname := h.short a (List.mem_of_getElem? hi)
  have hzip : (fileData.zip (entriesWithOffsets sha256 (dataStart fileData) fileData))[i]? =
      some (a, offset, a.data.length, (sha256 a.data).toList.take 8) :=
    List.getElem?_zip_eq_some.mpr ⟨hi, hget⟩
  refine ⟨fpkEntry i (a, offset, a.data.length, (sha256 a.data).toList.take 8), ?_, ?_, rfl, rfl, hend, hfit, hlies⟩
  · rw [table, List.getElem?_mapIdx, hzip]
    rfl
  · refine ⟨Nat.mod_lt _ (Nat.two_pow_pos 16), a.entryType.toNat_lt, ?_, ?_, ?_, ?_⟩
    · simp only [fpkEntry, nameField, zeros, List.length_append, List.length_replicate, fpkNameLen]
      omega
    · exact Nat.lt_of_le_of_lt (Nat.le_add_right _ _) hfit
    · exact Nat.lt_of_le_of_lt (Nat.le_add_left _ _) hfit
    · simp [fpkEntry]

/-- Every row is of a file. -/
theorem entry_of_row (h : Packable fileData) {i : Nat} {e : FpkEntry} (hi : (table sha256 fileData)[i]? = some e) :
    ∃ a ∈ fileData, Describes sha256 fileData e a := by
  have hlt : i < fileData.length := @table_length sha256 fileData ▸ (List.getElem?_eq_some_iff.mp hi).1
  obtain ⟨e', he', hdescr⟩ := @row_of_getElem? sha256 fileData h i _ (List.getElem?_eq_getElem hlt)
  cases hi.symm.trans he'
  exact ⟨_, List.getElem_mem hlt, hdescr⟩

/-- The rows as bytes. -/
def rows (sha256 : List UInt8 → Vector UInt8 32) (gap : Nat → Vector UInt8 4) (fileData : List AddEntry) :
    List (List UInt8) :=
  (table sha256 fileData).mapIdx fun i e => e.asBytes (gap i)

theorem rows_length (h : Packable fileData) : ∀ row ∈ rows sha256 gap fileData, row.length = entrySize := by
  intro row hrow
  obtain ⟨i, hi, rfl⟩ := List.mem_mapIdx.mp hrow
  obtain ⟨a, -, hdescr⟩ := entry_of_row h (List.getElem?_eq_getElem hi)
  exact hdescr.fits.length _

theorem rows_flatten_length (h : Packable fileData) :
    (rows sha256 gap fileData).flatten.length = entrySize * fileData.length := by
  have hmap : (rows sha256 gap fileData).map List.length = List.replicate fileData.length entrySize := by
    rw [List.map_eq_replicate_iff.mpr (rows_length h), rows, List.length_mapIdx, table_length]
  rw [List.length_flatten, hmap, List.sum_replicate_nat, Nat.mul_comm]

/-- The length of an image. -/
theorem createFpk_length (h : Packable fileData) :
    (createFpk sha256 gap fileData).length = dataStart fileData + (contents sha256 fileData).length := by
  have hrows := @rows_flatten_length sha256 gap fileData h
  have hstart := (dataStart_spec h).1
  unfold rows table at hrows
  unfold createFpk contents
  unfold dataStart at hrows hstart ⊢
  simp only [List.length_append, hrows, zeros, List.length_replicate]
  rw [FpkHeader.asBytes_length rfl rfl]
  omega

/-- The parts of the image, where they lie. -/
structure Loaded (sha256 : List UInt8 → Vector UInt8 32) (gap : Nat → Vector UInt8 4) (fileData : List AddEntry)
    (mem : Mem) (base : Nat) : Prop where
  magic : (headerAt mem base).magic = fpkMagic
  version : (headerAt mem base).version = fpkVersion
  entryCount : (headerAt mem base).entryCount = fileData.length
  rows : Lies mem (base + headerSize) (rows sha256 gap fileData).flatten
  contents : Lies mem (base + dataStart fileData) (contents sha256 fileData)

/-- Header, table and contents lie where they are looked for. -/
theorem loaded_of_lies (h : Packable fileData) (hlie : Lies mem base (createFpk sha256 gap fileData)) :
    Loaded sha256 gap fileData mem base := by
  have hrows := @rows_flatten_length sha256 gap fileData h
  have hstart := (dataStart_spec h).1
  have hc : fileData.length % 2 ^ 16 = fileData.length := Nat.mod_eq_of_lt h.count
  unfold rows table at hrows
  unfold createFpk at hlie
  unfold dataStart at hrows hstart
  simp only [lies_append, hrows, zeros, List.length_replicate] at hlie
  obtain ⟨hheader, htable, -, hcontents⟩ := hlie
  obtain ⟨hmagic, hversion, hcount⟩ := headerAt_of_lies rfl (show 1 < 2 ^ 16 by decide) (Nat.mod_lt _ (Nat.two_pow_pos 16)) hheader
  rw [FpkHeader.asBytes_length rfl (by simp)] at htable hcontents
  refine ⟨hmagic, hversion, hcount.trans hc, htable, ?_⟩
  unfold contents dataStart
  convert hcontents using 1
  omega

/-- The driver sees the table that was written. -/
theorem Loaded.entries (h : Packable fileData) (hl : Loaded sha256 gap fileData mem base) :
    entriesFromRaw mem base fileData.length = table sha256 fileData := by
  apply List.ext_getElem?
  intro i
  rw [entriesFromRaw, List.getElem?_map]
  by_cases hi : i < fileData.length
  · obtain ⟨e, he, hdescr⟩ := @row_of_getElem? sha256 fileData h i _ (List.getElem?_eq_getElem hi)
    have hrow : (FolkPack.rows sha256 gap fileData)[i]? = some (e.asBytes (gap i)) := by
      rw [FolkPack.rows, List.getElem?_mapIdx, he]
      rfl
    have hentry := hdescr.fits.entryAt (hl.rows.flatten (rows_length h) hrow)
    rw [List.getElem?_range hi, he, Option.map_some, hentry]
  · rw [List.getElem?_eq_none (by simpa using Nat.le_of_not_lt hi),
      List.getElem?_eq_none (by rw [table_length]; omega)]
    rfl

/-- The driver accepts the image. -/
theorem Loaded.fromMemory (h : Packable fileData) (hl : Loaded sha256 gap fileData mem base) :
    fromMemory mem base (createFpk sha256 gap fileData).length =
      .ok ⟨base, (createFpk sha256 gap fileData).length⟩ := by
  have hlen := @createFpk_length sha256 gap fileData h
  have hstart := (dataStart_spec h).1
  have hvalid : (headerAt mem base).isValid = true := by
    rw [FpkHeader.isValid, hl.magic, hl.version]
    decide
  have hinside : (table sha256 fileData).any (outside (createFpk sha256 gap fileData).length) = false := by
    rw [List.any_eq_false]
    intro e he
    obtain ⟨i, hi⟩ := List.mem_iff_getElem?.mp he
    obtain ⟨a, -, hdescr⟩ := entry_of_row h hi
    have hend := hdescr.inside
    have hwrap := hdescr.noWrap
    simp only [outside, Bool.or_eq_true, decide_eq_true_eq]
    omega
  unfold FolkPack.fromMemory
  rw [if_neg (by omega)]
  simp only [hvalid, hl.entryCount, hl.entries h, hinside]
  rw [if_neg (by simp), if_neg (by rw [Nat.mul_comm]; omega), if_neg (by simp)]

/-- What the driver finds has the name that was asked for. -/
theorem Loaded.find (h : Packable fileData) (hl : Loaded sha256 gap fileData mem base) {size : Nat}
    {name : List UInt8} {e : FpkEntry} (hf : find mem ⟨base, size⟩ name = some e) :
    ∃ a ∈ fileData, a.name = name ∧ Describes sha256 fileData e a := by
  unfold FolkPack.find FolkPack.entries at hf
  rw [hl.entryCount, hl.entries h] at hf
  split at hf
  · cases hf
  · obtain ⟨i, hi⟩ := List.mem_iff_getElem?.mp (List.mem_of_find?_eq_some hf)
    obtain ⟨a, ha, hdescr⟩ := entry_of_row h hi
    have hshort := h.short a ha
    refine ⟨a, ha, ?_, hdescr⟩
    exact (nameMatches_nameField (h.zeroFree a ha) (by unfold fpkNameLen; omega) hdescr.name).mp
      (List.find?_some hf)

/-- A name of the list is found. -/
theorem Loaded.find_isSome (h : Packable fileData) (hl : Loaded sha256 gap fileData mem base) {size : Nat}
    {a : AddEntry} (ha : a ∈ fileData) : (FolkPack.find mem ⟨base, size⟩ a.name).isSome := by
  have hshort := h.short a ha
  have hlt : a.name.length < fpkNameLen := by
    unfold fpkNameLen
    omega
  obtain ⟨i, hi⟩ := List.mem_iff_getElem?.mp ha
  obtain ⟨e, he, hdescr⟩ := @row_of_getElem? sha256 fileData h i a hi
  unfold FolkPack.find FolkPack.entries
  rw [hl.entryCount, hl.entries h, if_neg (by omega), List.find?_isSome]
  exact ⟨e, List.mem_of_getElem? he, (nameMatches_nameField (h.zeroFree a ha) hlt hdescr.name).mpr rfl⟩

end Image

/-- BOOT IMAGE ROUND TRIP: wherever the image lies in memory, the driver accepts it, finds every name with exactly its
    content, and finds no other name. -/
theorem folkPack_round_trip (sha256 : List UInt8 → Vector UInt8 32) (gap : Nat → Vector UInt8 4)
    {fileData : List AddEntry} (h : Packable fileData) {mem : Mem} {base : Nat}
    (hlie : Lies mem base (createFpk sha256 gap fileData)) :
    ∃ disk, fromMemory mem base (createFpk sha256 gap fileData).length = .ok disk ∧
      (∀ a ∈ fileData, (find mem disk a.name).map (read mem disk) = some a.data) ∧
      ∀ name, name ∉ fileData.map (·.name) → find mem disk name = none := by
  have hl := loaded_of_lies h hlie
  refine ⟨_, hl.fromMemory h, ?_, ?_⟩
  · intro a ha
    obtain ⟨e, he⟩ := Option.isSome_iff_exists.mp (hl.find_isSome h ha)
    obtain ⟨b, hb, hname, hdescr⟩ := hl.find h he
    -- the names are distinct, so what was found is the entry itself
    cases List.inj_on_of_nodup_map h.distinct hb ha hname
    rw [he, Option.map_some, read, bytesAt_of_lies (hdescr.lies hl.contents) hdescr.size.symm]
  · intro name hname
    rw [Option.eq_none_iff_forall_ne_some]
    intro e he
    obtain ⟨b, hb, rfl, -⟩ := hl.find h he
    exact hname (List.mem_map_of_mem hb)

/-- An empty file and one of two bytes. -/
def twoFiles : List AddEntry := [⟨[97], 1, []⟩, ⟨[98], 0, [1, 2]⟩]

/-- Their image, with a constant digest. -/
def twoImage : List UInt8 := createFpk (fun _ => .replicate 32 0) (fun _ => .replicate 4 0) twoFiles

/-- An image of two files, at address 0. -/
def twoMem : Mem := fun i => twoImage.getD i 0

/-- Two files. -/
theorem folkPack_round_trip_twoFiles : Packable twoFiles ∧ Lies twoMem 0 twoImage ∧
    ∃ disk, fromMemory twoMem 0 twoImage.length = .ok disk ∧
      (∀ a ∈ twoFiles, (find twoMem disk a.name).map (read twoMem disk) = some a.data) ∧
      ∀ name, name ∉ twoFiles.map (·.name) → find twoMem disk name = none := by
  have h : Packable twoFiles := ⟨by decide, by decide, by decide, by decide, by decide⟩
  have hlie : Lies twoMem 0 twoImage := lies_getD twoImage 0
  exact ⟨h, hlie, folkPack_round_trip (fun _ => .replicate 32 0) (fun _ => .replicate 4 0) h hlie⟩

end Folkering.FolkPack
