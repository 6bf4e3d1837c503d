/-
  The physical page allocator (kernel/src/memory/physical.rs), as the kernel runs it.

  Two allocators share the work.  The BUDDY allocator keeps one intrusive free list per order
  `0 … 10`; a free block's first word, seen through the higher-half direct map (HHDM), is the pointer
  to the next free block of its order.  The BOOTSTRAP allocator bumps a cursor through each of at most
  sixteen usable regions of the boot memory map.  The public calls ask the buddy lists first (they
  hold what was freed) and fall back on the bump arenas.

  Conventions of this model:
    * `usize` is a `Nat` below `2^64`; the kernel is built with `--release`, so `+`, `-` and `*` WRAP
      and a shift amount is taken modulo 64 (`wadd`, `wsub`, `wshl`);
    * `mem v` is the `FreeBlock { next }` stored at the virtual address `v`;
    * a Rust panic (double free, a missing block, an index out of bounds) is `Except.error`;
    * recursion over the order and the capped list walks run on explicit fuel that the code's own
      bounds (`MAX_ORDER`, one million hops) supply.
-/
import Folkering.Lib.Chain
import Folkering.Lib.Word64

namespace Folkering.Physical

open Chain Word64 Function

/-! ## Constants and state -/

/-- 4 KiB. -/
def pageSize : Nat := 4096

/-- `2^10` pages, 4 MiB, is the largest buddy block. -/
def maxOrder : Nat := 10

/-- Number of regions the bootstrap allocator can hold. -/
def maxRegions : Nat := 16

/-- Cap on the number of list nodes a free-list walk visits. -/
def maxHops : Nat := 1000000

/-- Start of the higher half; a pointer below it is refused. -/
def higherHalf : Nat := 0xFFFF800000000000

/-- Ways the allocator can panic. -/
inductive Panic where
  | doubleFree (addr order : Nat)
  | removeMissing (addr order : Nat)
  | indexOutOfBounds (index : Nat)
deriving Repr, DecidableEq

/-- The buddy allocator, with the memory its intrusive lists live in. -/
structure BuddyAllocator where
  /-- head of the free list of each order (virtual addresses) -/
  freeLists : Nat → Option Nat
  totalPages : Nat
  freePages : Nat
  /-- the `next` pointer stored at a virtual address -/
  mem : Nat → Option Nat

/-- One bump arena. -/
structure BootstrapRegion where
  nextPage : Nat
  endPage : Nat
deriving Repr, DecidableEq

/-- The global state: `ALLOCATOR`, `BOOTSTRAP_ALLOCATOR` and the two counters. -/
structure Pmm where
  allocator : BuddyAllocator
  /-- the registered regions in registration order; `none` before `init` -/
  bootstrap : Option (List BootstrapRegion)
  totalRamPages : Nat
  allocatedPages : Nat

section

variable (hhdm : Nat)

/-- Physical to virtual through the HHDM. -/
def physToVirt (phys : Nat) : Nat := wadd hhdm phys

/-- Virtual to physical; addresses below the HHDM have none. -/
def virtToPhys (virt : Nat) : Option Nat :=
  if hhdm ≤ virt then some (virt - hhdm) else none

/-! ## The buddy allocator -/

/-- Put a block in front of its order's list.  A block whose direct-map address is not in the higher
    half is reported and NOT listed. -/
def freeBlockUnchecked (s : BuddyAllocator) (addr order : Nat) : BuddyAllocator :=
  let virtAddr := physToVirt hhdm addr
  if virtAddr < higherHalf then s
  else { s with
    mem := update s.mem virtAddr (s.freeLists order)
    freeLists := update s.freeLists order (some virtAddr) }

@[simp] theorem freeBlockUnchecked_freePages (s : BuddyAllocator) (addr order : Nat) :
    (freeBlockUnchecked hhdm s addr order).freePages = s.freePages := by
  unfold freeBlockUnchecked
  dsimp only
  split <;> rfl

/-- `alloc_pages(order)` of the buddy allocator: pop the order's list, or split a block of the next
    order.  The first argument bounds the recursion; `maxOrder + 1` levels always suffice. -/
def BuddyAllocator.allocPages : Nat → BuddyAllocator → Nat → Option Nat × BuddyAllocator
  | 0, s, _ => (none, s)
  | fuel + 1, s, order =>
    if maxOrder < order then (none, s)
    else match s.freeLists order with
      | some blockPtr =>
        let s := { s with
          freeLists := update s.freeLists order (s.mem blockPtr)
          freePages := wsub s.freePages (2 ^ order) }
        (virtToPhys hhdm blockPtr, s)
      | none =>
        if order < maxOrder then
          match BuddyAllocator.allocPages fuel s (order + 1) with
          | (some largerBlockAddr, s) =>
            let buddyAddr := wadd largerBlockAddr (2 ^ order * pageSize)
            let s := freeBlockUnchecked hhdm s buddyAddr order
            (some largerBlockAddr, { s with freePages := wadd s.freePages (2 ^ order) })
          | (none, s) => (none, s)
        else (none, s)

/-- The address of the block a block would merge with. -/
def buddyAddress (addr order : Nat) : Nat := addr ^^^ (pageSize * 2 ^ order)

/-- Walk the order's free list looking for a block; past `maxHops` nodes it reports "not free". -/
def isBlockFree (s : BuddyAllocator) (addr order : Nat) : Bool :=
  holds s.mem (physToVirt hhdm addr) maxHops (s.freeLists order)

/-- Take a block out of its order's free list. -/
def removeFromFreeList (s : BuddyAllocator) (addr order : Nat) : Except Panic BuddyAllocator :=
  match unlink s.mem (physToVirt hhdm addr) maxHops none (s.freeLists order) with
  | .newHead next => .ok { s with freeLists := update s.freeLists order next }
  | .relink prev next => .ok { s with mem := update s.mem prev next }
  | .gaveUp => .ok s
  | .missing => .error (.removeMissing addr order)

/-- `free_pages(addr, order)` of the buddy allocator: refuse a double free, merge with a free buddy
    and go up one order, or list the block.  The two `debug_assert!`s are compiled out. -/
def BuddyAllocator.freePagesAt :
    Nat → BuddyAllocator → Nat → Nat → Except Panic BuddyAllocator
  | 0, s, _, _ => .ok s
  | fuel + 1, s, addr, order =>
    if maxOrder < order then .error (.indexOutOfBounds order)
    else if isBlockFree hhdm s addr order then .error (.doubleFree addr order)
    else
      let buddyAddr := buddyAddress addr order
      if order < maxOrder ∧ isBlockFree hhdm s buddyAddr order then do
        let s ← removeFromFreeList hhdm s buddyAddr order
        let s := { s with freePages := wsub s.freePages (2 ^ order) }
        BuddyAllocator.freePagesAt fuel s (min addr buddyAddr) (order + 1)
      else
        let s := freeBlockUnchecked hhdm s addr order
        .ok { s with freePages := wadd s.freePages (2 ^ order) }

/-! ## The bootstrap allocator -/

/-- One page from the first region that has any left. -/
def bootstrapAllocPage : List BootstrapRegion → Option (Nat × List BootstrapRegion)
  | [] => none
  | r :: rs =>
    if r.nextPage < r.endPage then
      some (r.nextPage, { r with nextPage := wadd r.nextPage pageSize } :: rs)
    else
      (bootstrapAllocPage rs).map fun (page, rs) => (page, r :: rs)

/-- The start of the aligned block a region would hand out. -/
def alignedStart (r : BootstrapRegion) (order : Nat) : Nat :=
  let alignment := wshl pageSize order
  wsub (wadd r.nextPage alignment) 1 &&& wnot (wsub alignment 1)

/-- `2^order` naturally aligned pages from the first region whose tail covers them.  A region whose
    block end does not fit in a `usize` is skipped (`checked_add`). -/
def allocBlock (order : Nat) : List BootstrapRegion → Option (Nat × List BootstrapRegion)
  | [] => none
  | r :: rs =>
    let blockSize := wshl pageSize order
    let start := alignedStart r order
    if start + blockSize < 2 ^ 64 ∧ start + blockSize ≤ r.endPage then
      some (start, { r with nextPage := start + blockSize } :: rs)
    else
      (allocBlock order rs).map fun (start, rs) => (start, r :: rs)

/-! ## The public calls -/

/-- `alloc_pages(order)`: the buddy lists first, then (for `order > 0`) the bump arenas. -/
def Pmm.allocPages (p : Pmm) (order : Nat) : Option Nat × Pmm :=
  match p.allocator.allocPages hhdm (maxOrder + 1) order with
  | (some addr, s) => (some addr, { p with allocator := s })
  | (none, s) =>
    let p := { p with allocator := s }
    if 0 < order then
      match p.bootstrap.bind (allocBlock order) with
      | some (addr, rs) =>
        (some addr, { p with
          bootstrap := some rs
          allocatedPages := wadd p.allocatedPages (wshl 1 order) })
      | none => (none, p)
    else (none, p)

/-- `alloc_page()`: a recycled page, or the next page of a bump arena. -/
def Pmm.allocPage (p : Pmm) : Option Nat × Pmm :=
  match p.allocPages hhdm 0 with
  | (some page, p) => (some page, p)
  | (none, p) =>
    match p.bootstrap.bind bootstrapAllocPage with
    | some (page, rs) =>
      (some page, { p with bootstrap := some rs, allocatedPages := wadd p.allocatedPages 1 })
    | none => (none, p)

/-- The order search of `alloc_contiguous`: `while (1 << order) < num_pages && order < 10`. -/
def contiguousOrder (numPages : Nat) : Nat → Nat → Nat
  | 0, order => order
  | fuel + 1, order =>
    if 2 ^ order < numPages ∧ order < 10 then contiguousOrder numPages fuel (order + 1) else order

/-- A block of at least so many pages. -/
def Pmm.allocContiguous (p : Pmm) (numPages : Nat) : Option Nat × Pmm :=
  if numPages = 0 then (none, p) else p.allocPages hhdm (contiguousOrder numPages 10 0)

/-- Give a block back to the buddy lists. -/
def Pmm.freePages (p : Pmm) (addr order : Nat) : Except Panic Pmm := do
  let s ← p.allocator.freePagesAt hhdm (maxOrder + 1) addr order
  .ok { p with allocator := s }

end

/-! ## Boot -/

/-- One entry of the bootloader's memory map (only "usable or not" is read of its type). -/
structure MemoryMapEntry where
  usable : Bool
  base : Nat
  length : Nat
deriving Repr, DecidableEq

/-- `(x + PAGE_SIZE - 1) & !(PAGE_SIZE - 1)`. -/
def pageAlignUp (x : Nat) : Nat := wsub (wadd x pageSize) 1 &&& wnot (pageSize - 1)

/-- The page-aligned extent `init` gives an entry, if it has any page. -/
def MemoryMapEntry.extent (e : MemoryMapEntry) : Option (Nat × Nat) :=
  let alignedBase := pageAlignUp e.base
  let alignedEnd := pageAlignUp (wadd e.base e.length)
  if e.usable ∧ alignedBase < alignedEnd then
    some (alignedBase, (alignedEnd - alignedBase) / pageSize)
  else none

/-- The regions above the first megabyte, at most sixteen, in map order. -/
def usableRegions (map : List MemoryMapEntry) : List (Nat × Nat) :=
  ((map.filterMap MemoryMapEntry.extent).filter fun r => 0x100000 ≤ r.1).take maxRegions

/-- Index of the largest region among `regions[i..]`, the inner loop of the selection sort. -/
def maxFrom (regions : Array (Nat × Nat)) (i : Nat) : Nat :=
  (List.range' (i + 1) (regions.size - (i + 1))).foldl
    (fun maxJ j => if (regions.getD maxJ (0, 0)).2 < (regions.getD j (0, 0)).2 then j else maxJ) i

/-- Largest-first selection sort. -/
def sortRegions (regions : Array (Nat × Nat)) : Array (Nat × Nat) :=
  (List.range regions.size).foldl (fun rs i => rs.swapIfInBounds i (maxFrom rs i)) regions

/-- `BootstrapAllocator::add_region`. -/
def addRegion (rs : List BootstrapRegion) (start numPages : Nat) : List BootstrapRegion :=
  if maxRegions ≤ rs.length then rs
  else rs ++ [{ nextPage := start, endPage := wadd start (numPages * pageSize) }]

/-- Pages counted by `init`, all of them or only those above the first megabyte. -/
def countPages (map : List MemoryMapEntry) (low : Nat) : Nat :=
  ((map.filterMap MemoryMapEntry.extent).filter fun r => low ≤ r.1).foldl
    (fun n r => wadd n r.2) 0

/-- `init(boot_info)`: count memory, register the usable regions with the bootstrap allocator and
    leave the buddy lists EMPTY.  `mem` is whatever memory holds at boot. -/
def init (map : List MemoryMapEntry) (mem : Nat → Option Nat) : Pmm :=
  let regions := (sortRegions (usableRegions map).toArray).toList
  { allocator :=
      { freeLists := fun _ => none
        totalPages := countPages map 0
        freePages := countPages map 0x100000
        mem := mem }
    bootstrap := some (regions.foldl (fun rs r => addRegion rs r.1 r.2) [])
    totalRamPages := countPages map 0
    allocatedPages := 0 }

end Folkering.Physical
