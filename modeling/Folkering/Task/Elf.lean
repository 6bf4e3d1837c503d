/-
  The ELF parser of the task loader, and where it reads.

  `parse` checks the header of the file and nothing about the program header table, whose offset, entry size and entry
  count are fields of the file.  The iterator over the table checks each entry, in the machine word:
      `ph_offset + 56 > binary.len()`          with `ph_offset = offset + current * entsize`.
  Both additions wrap.  An entry that passes the check is within the file, and the file is shorter than `2^63` bytes, so
  the step to the next entry cannot wrap (`after_offset`): only the FIRST entry can.  It does when the table is said to
  start in the last 56 bytes of the address space, and then the check passes (`headers_inside_iff`).
-/
import Mathlib.Algebra.Order.Group.Nat
import Folkering.Lib.Word64

namespace Folkering.Elf

open Word64 Option

/-! ## The file -/

/-- The byte string and the memory around it, by the distance from its first byte (a machine word). -/
structure Binary where
  mem : Nat → UInt8
  len : Nat
  /-- a slice has at most `isize::MAX` bytes -/
  len_lt : len < 2 ^ 63

/-- The little-endian number of `n` bytes from `pos`. -/
def leAt (mem : Nat → UInt8) (pos : Nat) : Nat → Nat
  | 0 => 0
  | n + 1 => (mem pos).toNat + 256 * leAt mem (pos + 1) n

theorem leAt_lt (mem : Nat → UInt8) (pos n : Nat) : leAt mem pos n < 256 ^ n := by
  induction n generalizing pos with
  | zero => exact Nat.one_pos
  | succ n ih =>
    have hbyte := (mem pos).toNat_lt
    have hrest := ih (pos + 1)
    rw [leAt, Nat.pow_succ]
    omega

/-- Why a file is refused. -/
inductive ElfError where
  | tooSmall
  | invalidMagic
  | not64Bit
  | wrongEndianness
  | notExecutable
  | wrongArch
  | invalidPhoff
  | kernelVaddr
deriving DecidableEq

/-- The first four bytes. -/
def elfMagic : List UInt8 := [0x7F, 69, 76, 70]

/-- The checks of `parse`, in their order. -/
def checkHeader (binary : Binary) : Except ElfError Unit :=
  if binary.len < 64 then .error .tooSmall
  else if [binary.mem 0, binary.mem 1, binary.mem 2, binary.mem 3] ≠ elfMagic then .error .invalidMagic
  else if binary.mem 4 ≠ 2 then .error .not64Bit
  else if binary.mem 5 ≠ 1 then .error .wrongEndianness
  else if leAt binary.mem 16 2 ≠ 2 then .error .notExecutable
  else if leAt binary.mem 18 2 ≠ 62 then .error .wrongArch
  else .ok ()

/-- `ElfBinary`: a file that `parse` accepts. -/
structure ElfBinary where
  binary : Binary
  checked : checkHeader binary = .ok ()

/-- A file whose header passes the checks. -/
def parse (binary : Binary) : Except ElfError ElfBinary :=
  match h : checkHeader binary with
  | .ok () => .ok ⟨binary, h⟩
  | .error e => .error e

namespace ElfBinary

/-- Where the program headers start. -/
def ePhoff (elf : ElfBinary) : Nat := leAt elf.binary.mem 32 8
/-- Their distance. -/
def ePhentsize (elf : ElfBinary) : Nat := leAt elf.binary.mem 54 2
/-- Their number. -/
def ePhnum (elf : ElfBinary) : Nat := leAt elf.binary.mem 56 2

end ElfBinary

/-! ## The program headers -/

/-- The place of the iterator. -/
structure ProgramHeaderIter where
  binary : Binary
  offset : Nat
  count : Nat
  entsize : Nat
  current : Nat

/-- `size_of::<Elf64ProgramHeader>()`. -/
def phSize : Nat := 56

/-- The iterator at the first header. -/
def ElfBinary.programHeaders (elf : ElfBinary) : ProgramHeaderIter :=
  { binary := elf.binary, offset := elf.ePhoff, count := elf.ePhnum, entsize := elf.ePhentsize, current := 0 }

namespace ProgramHeaderIter

/-- `self.offset + self.current * self.entsize`. -/
def phOffset (it : ProgramHeaderIter) : Nat := wadd it.offset (it.current * it.entsize)

/-- The place of the next header: it is a reference into memory, `ph_offset` bytes behind the start of the file. -/
def next (it : ProgramHeaderIter) : Option (Nat × ProgramHeaderIter) :=
  if it.count ≤ it.current then none
  else if it.binary.len < wadd it.phOffset phSize then none
  else some (it.phOffset, { it with current := it.current + 1 })

/-- The iterator after `k` headers. -/
def after (it : ProgramHeaderIter) : Nat → Option ProgramHeaderIter
  | 0 => some it
  | k + 1 => (it.after k).bind fun it => it.next.map (·.2)

end ProgramHeaderIter

/-- **The headers stay inside the file.** -/
structure HeadersInside (elf : ElfBinary) : Prop where
  ends : ∃ n, elf.programHeaders.after n = none
  exact : ∀ k it, elf.programHeaders.after k = some it → it.current < it.count →
    it.offset + it.current * it.entsize + phSize < 2 ^ 64
  inside : ∀ k it place rest, elf.programHeaders.after k = some it → it.next = some (place, rest) →
    place + phSize ≤ elf.binary.len

section

variable {elf : ElfBinary}

/-- What a yielded header passed. -/
theorem next_some {k place : Nat} {rest : ProgramHeaderIter}
    (h : ({ elf.programHeaders with current := k } : ProgramHeaderIter).next = some (place, rest)) :
    k < elf.ePhnum ∧ place = wadd elf.ePhoff (k * elf.ePhentsize) ∧ wadd place phSize ≤ elf.binary.len ∧
      rest = { elf.programHeaders with current := k + 1 } := by
  unfold ProgramHeaderIter.next at h
  split at h
  · cases h
  next hcount =>
  split at h
  · cases h
  next hcheck =>
  cases h
  exact ⟨Nat.not_le.mp hcount, rfl, Nat.not_lt.mp hcheck, rfl⟩

/-- The iterator only counts. -/
theorem after_eq {k : Nat} {it : ProgramHeaderIter} (h : elf.programHeaders.after k = some it) :
    it = { elf.programHeaders with current := k } := by
  induction k generalizing it with
  | zero =>
    cases h
    rfl
  | succ k ih =>
    obtain ⟨it₁, h₁, hmap⟩ := bind_eq_some_iff.mp h
    obtain ⟨⟨place, rest⟩, hnext, rfl⟩ := map_eq_some_iff.mp hmap
    cases ih h₁
    exact (next_some hnext).2.2.2

/-- Iterating ends behind the last entry. -/
theorem after_count : elf.programHeaders.after (elf.ePhnum + 1) = none := by
  cases h : elf.programHeaders.after elf.ePhnum with
  | none => rw [ProgramHeaderIter.after, h, Option.bind_none]
  | some it =>
    have hstop : it.next = none := by
      rw [after_eq h]
      exact if_pos (Nat.le_refl _)
    rw [ProgramHeaderIter.after, h, bind_some, hstop, map_none]

/-- A header that passed the check is inside the file, if its offset did not wrap. -/
theorem inside_of_exact {k place : Nat} {rest : ProgramHeaderIter}
    (hexact : elf.ePhoff + k * elf.ePhentsize + phSize < 2 ^ 64)
    (h : ({ elf.programHeaders with current := k } : ProgramHeaderIter).next = some (place, rest)) :
    place = elf.ePhoff + k * elf.ePhentsize ∧ place + phSize ≤ elf.binary.len := by
  obtain ⟨-, hplace, hcheck, -⟩ := next_some h
  rw [wadd_eq (Nat.lt_of_le_of_lt (Nat.le_add_right _ phSize) hexact)] at hplace
  rw [hplace, wadd_eq hexact] at hcheck
  exact ⟨hplace, hplace ▸ hcheck⟩

/-- **The offsets do not wrap**: not at the first entry by assumption, and later because the entry before was inside. -/
theorem after_offset (hphoff : elf.ePhoff + phSize < 2 ^ 64) {k : Nat} {it : ProgramHeaderIter}
    (h : elf.programHeaders.after k = some it) : elf.ePhoff + k * elf.ePhentsize + phSize < 2 ^ 64 := by
  induction k generalizing it with
  | zero => rwa [Nat.zero_mul, Nat.add_zero]
  | succ k ih =>
    obtain ⟨it₁, h₁, hmap⟩ := bind_eq_some_iff.mp h
    obtain ⟨⟨place, rest⟩, hnext, -⟩ := map_eq_some_iff.mp hmap
    have hbefore := ih h₁
    cases after_eq h₁
    obtain ⟨rfl, hin⟩ := inside_of_exact hbefore hnext
    have hlen := elf.binary.len_lt
    have hsize : elf.ePhentsize < 2 ^ 16 := leAt_lt _ _ _
    rw [Nat.succ_mul]
    omega

end

/-- **The headers stay inside the file unless the first one is said to lie in the last 56 bytes of the address space.** -/
theorem headers_inside_iff (elf : ElfBinary) :
    HeadersInside elf ↔ elf.ePhnum = 0 ∨ elf.ePhoff + phSize < 2 ^ 64 := by
  constructor
  · intro h
    rcases Nat.eq_zero_or_pos elf.ePhnum with hzero | hpos
    · exact .inl hzero
    · have hfirst := h.exact 0 elf.programHeaders rfl hpos
      rw [show elf.programHeaders.current = 0 from rfl, Nat.zero_mul, Nat.add_zero] at hfirst
      exact .inr hfirst
  · intro h
    have hexact : ∀ {k it}, elf.programHeaders.after k = some it → k < elf.ePhnum →
        elf.ePhoff + k * elf.ePhentsize + phSize < 2 ^ 64 := by
      intro k it hk hlt
      rcases h with hzero | hphoff
      · omega
      · exact after_offset hphoff hk
    refine ⟨⟨_, after_count⟩, fun k it hk hlt => ?_, fun k it place rest hk hnext => ?_⟩
    · cases after_eq hk
      exact hexact hk hlt
    · cases after_eq hk
      exact (inside_of_exact (hexact hk (next_some hnext).1) hnext).2

/-- A file of 120 bytes with one program header, said to be at `phoff`. -/
def oneHeader (phoff : List UInt8) : Binary where
  mem i := (elfMagic ++ [2, 1] ++ List.replicate 10 0 ++ [2, 0, 62, 0] ++ List.replicate 12 0 ++ phoff ++
    List.replicate 14 0 ++ [56, 0, 1, 0]).getD i 0
  len := 120
  len_lt := by decide

/-- A program header that starts below the file. -/
def beforeFile : Binary := oneHeader [0xF6, 0xFF, 0xFF, 0xFF, 0xFF, 0xFF, 0xFF, 0xFF]

/-- A table that is said to start 10 bytes before the file: its header is yielded from there. -/
theorem header_before_file : ∃ elf, parse beforeFile = .ok elf ∧
    elf.programHeaders.next.map (·.1) = some (2 ^ 64 - 10) ∧ ¬ HeadersInside elf := by
  refine ⟨⟨beforeFile, by decide⟩, rfl, by decide, fun h => ?_⟩
  have hfirst := h.exact 0 _ rfl (by decide)
  exact absurd hfirst (by decide)

end Folkering.Elf
