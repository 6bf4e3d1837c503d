/-
  The database buffer of the service — `SafeSqliteBuffer`.

  Four megabytes of which the first `size` are the loaded database, and one dirty flag for each 4 KiB page.
  Reads are checked against the loaded size, writes against the capacity.  Every mutator marks what it
  changes; `Careful` says so of a step from one buffer to the next and is closed under composition, so that
  whatever is built from the mutators is careful too.
-/
import Folkering.Sqlite.Table

namespace Folkering.Synapse

open Sqlite

/-- 4 MiB. -/
def maxDbSize : Nat := 4 * 1024 * 1024

/-- The pages of a full buffer. -/
def maxPages : Nat := maxDbSize / 4096

/-- An access out of bounds. -/
structure BufferError where
  offset : Nat
  len : Nat
  max : Nat
deriving Repr, DecidableEq

/-- The bytes with `src` at an offset. -/
def overlay (data : Bytes) (offset : Nat) (src : List UInt8) : Bytes := fun i =>
  if offset ≤ i then (src[i - offset]?).getD (data i) else data i

/-- The `n` big-endian bytes of a number. -/
def beBytes : (n v : Nat) → List UInt8
  | 0, _ => []
  | n + 1, v => beBytes n (v / 256) ++ [.ofNat (v % 256)]

/-- The database in memory, with a dirty flag for each page. -/
structure Buffer where
  data : Bytes
  size : Nat
  valid : Bool
  dirty : Nat → Bool
  size_le : size ≤ maxDbSize

/-- Two of the smallest pages. -/
theorem twoPages_le : 1024 ≤ maxDbSize := by decide

namespace Buffer

/-- Set the size, at most the capacity. -/
def setSize (b : Buffer) (size : Nat) : Buffer :=
  { b with size := min size maxDbSize, size_le := Nat.min_le_right _ _ }

/-! ## Reads -/

/-- One byte inside the size. -/
def readByte (b : Buffer) (offset : Nat) : Except BufferError Nat :=
  if b.size ≤ offset then .error { offset, len := 1, max := b.size }
  else .ok (b.data offset).toNat

/-- Some bytes inside the size. -/
def readSlice (b : Buffer) (offset len : Nat) : Except BufferError (List UInt8) :=
  if b.size < offset + len then .error { offset, len, max := b.size }
  else .ok (Slice.toList b.data ⟨offset, len⟩)

/-- A big-endian number of `n` bytes. -/
def readBe (b : Buffer) (offset n : Nat) : Except BufferError Nat :=
  if b.size < offset + n then .error { offset, len := n, max := b.size }
  else .ok (beNat b.data offset n)

/-- A 16-bit field. -/
def readBeU16 (b : Buffer) (offset : Nat) : Except BufferError Nat := b.readBe offset 2

/-- A 32-bit field. -/
def readBeU32 (b : Buffer) (offset : Nat) : Except BufferError Nat := b.readBe offset 4

/-- The page count field of the database header. -/
def pageCount (b : Buffer) : Nat := beNat b.data 28 4

/-! ## The dirty flags -/

/-- The page is to be written. -/
def markPageDirty (b : Buffer) (pageNum : Nat) : Buffer :=
  if pageNum < maxPages then { b with dirty := Function.update b.dirty pageNum true } else b

/-- Marks the pages of `[offset, offset + len)`. -/
def markRangeDirty (b : Buffer) (offset len : Nat) : Buffer :=
  let startPage := offset / 4096
  let endPage := min ((offset + len + 4095) / 4096) maxPages
  { b with dirty := fun p => b.dirty p || (decide (startPage ≤ p) && decide (p < endPage)) }

/-- The page is to be written at the next flush. -/
def isPageDirty (b : Buffer) (pageNum : Nat) : Bool := decide (pageNum < maxPages) && b.dirty pageNum

/-- Nothing is to be written. -/
def clearDirty (b : Buffer) : Buffer := { b with dirty := fun _ => false }

/-! ## Writes -/

/-- One byte inside the capacity. -/
def writeByte (b : Buffer) (offset : Nat) (byte : UInt8) : Except BufferError Buffer :=
  if maxDbSize ≤ offset then .error { offset, len := 1, max := maxDbSize }
  else .ok ({ b with data := overlay b.data offset [byte] }.markPageDirty (offset / 4096))

/-- Some bytes inside the capacity. -/
def writeSlice (b : Buffer) (offset : Nat) (src : List UInt8) : Except BufferError Buffer :=
  if maxDbSize < offset + src.length then .error { offset, len := src.length, max := maxDbSize }
  else .ok ({ b with data := overlay b.data offset src }.markRangeDirty offset src.length)

/-- A 16-bit field. -/
def writeBeU16 (b : Buffer) (offset val : Nat) : Except BufferError Buffer :=
  b.writeSlice offset (beBytes 2 val)

/-- A 32-bit field. -/
def writeBeU32 (b : Buffer) (offset val : Nat) : Except BufferError Buffer :=
  b.writeSlice offset (beBytes 4 val)

/-- Count a change in the file header. -/
def incrementChangeCounter (b : Buffer) : Buffer :=
  { b with data := overlay b.data 24 (beBytes 4 ((beNat b.data 24 4 + 1) % 2 ^ 32)) }.markPageDirty 0

/-- The page count of the file header. -/
def setPageCount (b : Buffer) (count : Nat) : Buffer :=
  { b with data := overlay b.data 28 (beBytes 4 count) }.markPageDirty 0

end Buffer

/-! ## Steps that mark what they change -/

/-- Every byte that differs is on a page that is marked, and marks stay. -/
structure Careful (b b' : Buffer) : Prop where
  marks : ∀ i, b'.data i ≠ b.data i → b'.isPageDirty (i / 4096) = true
  keeps : ∀ p, b.isPageDirty p = true → b'.isPageDirty p = true

theorem Careful.refl (b : Buffer) : Careful b b := ⟨fun _ h => absurd (Eq.refl _) h, fun _ h => h⟩

theorem Careful.trans {a b c : Buffer} (hab : Careful a b) (hbc : Careful b c) : Careful a c := by
  constructor
  · intro i hi
    by_cases h : c.data i = b.data i
    · exact hbc.keeps _ (hab.marks i (h ▸ hi))
    · exact hbc.marks i h
  · intro p hp
    exact hbc.keeps p (hab.keeps p hp)

/-- An overlay changes only where it lies. -/
theorem overlay_ne {data : Bytes} {offset i : Nat} {src : List UInt8}
    (h : overlay data offset src i ≠ data i) : offset ≤ i ∧ i < offset + src.length := by
  unfold overlay at h
  split at h
  · rename_i hle
    refine ⟨hle, ?_⟩
    by_contra hge
    rw [List.getElem?_eq_none (by omega)] at h
    exact h rfl
  · exact absurd rfl h

@[simp] theorem length_beBytes (n v : Nat) : (beBytes n v).length = n := by
  induction n generalizing v with
  | zero => rfl
  | succ n ih => simp [beBytes, ih]

section

variable {b b' : Buffer}

@[simp] theorem data_markPageDirty (p : Nat) : (b.markPageDirty p).data = b.data := by
  unfold Buffer.markPageDirty
  split <;> rfl

theorem isPageDirty_markPageDirty (p q : Nat) :
    (b.markPageDirty p).isPageDirty q = (b.isPageDirty q || (decide (q = p) && decide (p < maxPages))) := by
  unfold Buffer.markPageDirty Buffer.isPageDirty
  split
  · rename_i hp
    by_cases hqp : q = p
    · subst hqp
      simp [hp]
    · simp [hqp]
  · rename_i hp
    simp [hp]

theorem isPageDirty_markRangeDirty (offset len q : Nat) :
    (b.markRangeDirty offset len).isPageDirty q = (b.isPageDirty q ||
      (decide (offset / 4096 ≤ q) && decide (q < min ((offset + len + 4095) / 4096) maxPages))) := by
  unfold Buffer.markRangeDirty Buffer.isPageDirty
  by_cases hq : q < maxPages
  · simp [hq]
  · have : ¬ q < min ((offset + len + 4095) / 4096) maxPages := by omega
    simp [hq, this]

theorem careful_markPageDirty (p : Nat) : Careful b (b.markPageDirty p) := by
  constructor
  · intro i hi
    simp at hi
  · intro q hq
    rw [isPageDirty_markPageDirty, hq, Bool.true_or]

theorem careful_setSize (size : Nat) : Careful b (b.setSize size) :=
  ⟨fun _ hi => absurd rfl hi, fun _ hq => hq⟩

/-- Laying bytes over a part of one page and marking it. -/
theorem careful_overlay_page {offset p : Nat} {src : List UInt8} (hp : p < maxPages)
    (hin : ∀ i, offset ≤ i → i < offset + src.length → i / 4096 = p) :
    Careful b ({ b with data := overlay b.data offset src }.markPageDirty p) := by
  constructor
  · intro i hi
    rw [data_markPageDirty] at hi
    obtain ⟨hle, hlt⟩ := overlay_ne hi
    rw [isPageDirty_markPageDirty, hin i hle hlt]
    simp [hp]
  · intro q hq
    rw [isPageDirty_markPageDirty]
    exact Bool.or_eq_true_iff.mpr (.inl hq)

theorem careful_writeByte {offset : Nat} {byte : UInt8} (h : b.writeByte offset byte = .ok b') :
    Careful b b' := by
  unfold Buffer.writeByte at h
  split at h
  · cases h
  · rename_i hlt
    cases h
    apply careful_overlay_page
    · unfold maxPages
      unfold maxDbSize at hlt ⊢
      omega
    · intro i hle hlt
      rw [List.length_singleton] at hlt
      have : i = offset := by omega
      rw [this]

theorem careful_writeSlice {offset : Nat} {src : List UInt8} (h : b.writeSlice offset src = .ok b') :
    Careful b b' := by
  unfold Buffer.writeSlice at h
  split at h
  · cases h
  · rename_i hle
    cases h
    constructor
    · intro i hi
      obtain ⟨hlo, hhi⟩ := overlay_ne hi
      -- a byte of the range is on a page of the range
      have hpage : offset / 4096 ≤ i / 4096 ∧
          i / 4096 < min ((offset + src.length + 4095) / 4096) maxPages := by
        unfold maxPages
        unfold maxDbSize at hle ⊢
        omega
      rw [isPageDirty_markRangeDirty]
      simp [hpage]
    · intro q hq
      rw [isPageDirty_markRangeDirty]
      exact Bool.or_eq_true_iff.mpr (.inl hq)

theorem careful_incrementChangeCounter : Careful b b.incrementChangeCounter := by
  refine careful_overlay_page (by decide) ?_
  intro i hlo hhi
  rw [length_beBytes] at hhi
  omega

theorem careful_setPageCount (count : Nat) : Careful b (b.setPageCount count) := by
  refine careful_overlay_page (by decide) ?_
  intro i hlo hhi
  rw [length_beBytes] at hhi
  omega

end

/-! ## Writes whose result is not looked at -/

/-- `let _ = buf.write_slice(offset, src)`. -/
def Buffer.putSlice (b : Buffer) (offset : Nat) (src : List UInt8) : Buffer :=
  (b.writeSlice offset src).toOption.getD b

/-- `let _ = buf.write_byte(offset, byte)`. -/
def Buffer.putByte (b : Buffer) (offset : Nat) (byte : UInt8) : Buffer :=
  (b.writeByte offset byte).toOption.getD b

theorem careful_putSlice {b : Buffer} (offset : Nat) (src : List UInt8) :
    Careful b (b.putSlice offset src) := by
  unfold Buffer.putSlice
  cases h : b.writeSlice offset src with
  | error e => exact .refl b
  | ok b' => exact careful_writeSlice h

theorem careful_putByte {b : Buffer} (offset : Nat) (byte : UInt8) :
    Careful b (b.putByte offset byte) := by
  unfold Buffer.putByte
  cases h : b.writeByte offset byte with
  | error e => exact .refl b
  | ok b' => exact careful_writeByte h

end Folkering.Synapse
