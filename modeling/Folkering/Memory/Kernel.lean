/-
  The memory system calls: anonymous mappings, shared regions, device ranges, and a task's birth and death.

  One state (`Kernel`) holds what the calls share: the frame allocator, the page tables, the list of recycled
  addresses, the table of shared regions, the tasks.  A call is a step on it that can abort the kernel
  (`Abort`: a panic of an address type or of the allocator); an error of the call itself is a value.
    * the physical allocator and the `x86_64` crate are parameters (`Platform`);
    * machine words are natural numbers, with `% 2 ^ 64` where the code adds without a check.
-/
import Folkering.Lib.Steps
import Folkering.Lib.Word64
import Folkering.Memory.Paging

namespace Folkering.Memory

open Function Word64

open Capability (PageTableFlags)

/-! ## State -/

/-- The kernel's own allocator. -/
def pmmFrames (hhdm : Nat) : FrameOps Physical.Pmm where
  alloc p order := if order = 0 then p.allocPage hhdm else p.allocPages hhdm order
  free p addr order := p.freePages hhdm addr order

/-- Ways a call can bring the kernel down. -/
inductive Abort where
  | address (panic : Capability.Panic)
  | allocator (panic : Physical.Panic)
deriving Repr, DecidableEq

/-- Recycled virtual ranges, as start and number of pages; at most 256. -/
structure MmapFreelist where
  entries : List (Nat × Nat)
  bounded : entries.length ≤ 256

/-- What the tasks of a region may do with its pages. -/
inductive ShmemPerms where
  | readOnly
  | writeOnly
  | readWrite
deriving Repr, DecidableEq

/-- A shared region. -/
structure SharedMemory where
  /-- the first addresses of its blocks -/
  physPages : List Nat
  /-- their order: 0, or 9 for blocks of 2 MiB -/
  blockOrder : Nat
  perms : ShmemPerms
  /-- who may map the region; the creator is first -/
  tasks : List Nat
  /-- where it is mapped: task and address -/
  mappings : List (Nat × Nat)
deriving Repr, DecidableEq

/-- `block_order == HUGE_PAGE_ORDER`. -/
def SharedMemory.huge (r : SharedMemory) : Bool := r.blockOrder == hugeOrder

/-- A task, as far as memory goes. -/
structure Task where
  /-- the frame of the PML4 -/
  pageTablePhys : Nat
  exited : Bool
deriving Repr, DecidableEq

/-- The state of the kernel. -/
structure Kernel (α : Type) where
  frames : α
  tasks : Nat → Option Task
  nextTaskId : Nat
  /-- the lower half of each task, and the upper half -/
  halves : Option Nat → Half
  freelist : MmapFreelist
  nextMmapAddr : Nat
  regions : Nat → Option SharedMemory
  /-- the keys of the region table, in the order of its iterator -/
  regionIds : List Nat
  nextShmemId : Nat

/-- A step of the kernel that may abort. -/
abbrev Mem (α β : Type) := Step (Kernel α) Abort β

namespace Kernel

variable {α : Type}

/-- New frames in the allocator. -/
def setFrames (k : Kernel α) (frames : α) : Kernel α := { k with frames := frames }

/-- Another half in the place of one. -/
def setHalf (k : Kernel α) (o : Option Nat) (h : Half) : Kernel α :=
  { k with halves := update k.halves o h }

/-- `insert` into the table of regions. -/
def setRegion (k : Kernel α) (id : Nat) (r : SharedMemory) : Kernel α :=
  { k with
    regions := update k.regions id (some r)
    regionIds := if id ∈ k.regionIds then k.regionIds else k.regionIds ++ [id] }

/-- `remove` from the table of regions. -/
def removeRegion (k : Kernel α) (id : Nat) : Kernel α :=
  { k with regions := update k.regions id none, regionIds := k.regionIds.erase id }

@[simp] theorem setHalf_self (k : Kernel α) (o : Option Nat) (h : Half) : (k.setHalf o h).halves o = h :=
  update_self _ _ _

theorem setHalf_ne (k : Kernel α) {o o' : Option Nat} (ho : o' ≠ o) (h : Half) :
    (k.setHalf o h).halves o' = k.halves o' := update_of_ne ho _ _

/-- The half that an address of a task belongs to. -/
def halfOf (t addr : Nat) : Option Nat := if addr < userTop then some t else none

/-- A page is taken out of a half. -/
def clear (k : Kernel α) (o : Option Nat) (page : Page) : Kernel α := k.setHalf o ((k.halves o).clear page)

/-- The entry of the small page at a canonical address of a task. -/
def entryAt (k : Kernel α) (t addr : Nat) : Option Pte := (k.halves (halfOf t addr)).leaves ⟨false, addr⟩

end Kernel

/-- `u64::MAX`, the error value of the system calls. -/
def u64Max : Nat := 2 ^ 64 - 1

section

variable {α : Type} (A : Platform α)

/-! ## Frames and page tables -/

/-- `alloc_pages(order)`; order 0 is `alloc_page()`. -/
def allocPages (order : Nat) : Mem α (Option Nat) := fun k =>
  .ok ((A.alloc k.frames order).1, k.setFrames (A.alloc k.frames order).2)

/-- `alloc_page()`. -/
def allocPage : Mem α (Option Nat) := allocPages A 0

/-- `free_pages(addr, order)`. -/
def freePages (order addr : Nat) : Mem α Unit := fun k =>
  match A.free k.frames addr order with
  | .ok frames => .ok ((), k.setFrames frames)
  | .error panic => .error (.allocator panic)

/-- `free_page(addr)`. -/
def freePage (addr : Nat) : Mem α Unit := freePages A 0 addr

/-- An address type's check. -/
def checked (r : Except Capability.Panic Nat) : Mem α Nat := fun k =>
  match r with
  | .ok addr => .ok (addr, k)
  | .error panic => .error (.address panic)

/-- `map_to` in one half. -/
def mapTo (o : Option Nat) (page : Page) (pte : Pte) : Mem α Bool := fun k =>
  let r := A.mapTo (k.halves o) page pte k.frames
  .ok (r.1, (k.setFrames r.2.2).setHalf o r.2.1)

/-- `unmap` in one half. -/
def unmap (o : Option Nat) (page : Page) : Mem α (Option Nat) := fun k =>
  .ok ((A.unmap (k.halves o) page).1, k.setHalf o (A.unmap (k.halves o) page).2)

/-- The page of a size at an address. -/
def pageFor (huge : Bool) (addr : Nat) : Page := ⟨huge, A.containingAddress (blockSize huge) addr⟩

/-- The lines that `map_page_in_table` and `map_huge_page_in_table` have in common. -/
def mapSized (huge : Bool) (t virtAddr physAddr : Nat) (flags : PageTableFlags) : Mem α Bool := do
  let virt ← checked (A.virtAddrNew virtAddr)
  let phys ← checked (A.physAddrNew physAddr)
  mapTo A (Kernel.halfOf t virt) (pageFor A huge virt) ⟨A.containingAddress (blockSize huge) phys, flags⟩

/-- `map_page_in_table`. -/
def mapPageInTable (t virtAddr physAddr : Nat) (flags : PageTableFlags) : Mem α Bool :=
  mapSized A false t virtAddr physAddr flags

/-- `map_huge_page_in_table`. -/
def mapHugePageInTable (t virtAddr physAddr : Nat) (flags : PageTableFlags) : Mem α Bool :=
  if virtAddr % hugePageSize ≠ 0 ∨ physAddr % hugePageSize ≠ 0 then pure false
  else mapSized A true t virtAddr physAddr flags

/-- The lines that `unmap_page_in_table` and `unmap_huge_page_in_table` have in common. -/
def unmapSized (huge : Bool) (t virtAddr : Nat) : Mem α (Option Nat) := do
  let virt ← checked (A.virtAddrNew virtAddr)
  unmap A (Kernel.halfOf t virt) (pageFor A huge virt)

/-- `unmap_page_in_table`. -/
def unmapPageInTable (t virtAddr : Nat) : Mem α (Option Nat) := unmapSized A false t virtAddr

/-- `unmap_huge_page_in_table`. -/
def unmapHugePageInTable (t virtAddr : Nat) : Mem α (Option Nat) :=
  if virtAddr % hugePageSize ≠ 0 then pure none else unmapSized A true t virtAddr

/-- `protect_in_table`: `translate_page`, `unmap`, `map_to` with the new flags. -/
def protectInTable (t virtAddr : Nat) (flags : PageTableFlags) : Mem α Bool := do
  let virt ← checked (A.virtAddrNew virtAddr)
  let k ← get
  match A.translatePage (k.halves (Kernel.halfOf t virt)) (pageFor A false virt) with
  | none => pure false
  | some frame => do
    match ← unmap A (Kernel.halfOf t virt) (pageFor A false virt) with
    | none => pure false
    | some _ => mapTo A (Kernel.halfOf t virt) (pageFor A false virt) ⟨frame, flags⟩

/-- The loop of `mmap` and of the loader: a fresh frame for each page.  A page that cannot be mapped ends the
    loop, and what was obtained stays. -/
def mapFresh (t base : Nat) (flags : PageTableFlags) : Nat → Nat → Mem α Bool
  | 0, _ => pure true
  | n + 1, i => do
    match ← allocPage A with
    | none => pure false
    | some phys => do
      if ← mapPageInTable A t (pageAt base i) phys flags then mapFresh t base flags n (i + 1)
      else pure false

/-! ## Anonymous memory -/

namespace MmapFreelist

/-- Merges a range with the first entry it touches. -/
def coalesce (addr pages : Nat) : List (Nat × Nat) → Option (List (Nat × Nat))
  | [] => none
  | e :: rest =>
    if pageAt addr pages = e.1 then some ((addr, (pages + e.2) % 2 ^ 64) :: rest)
    else if pageAt e.1 e.2 = addr then some ((e.1, (e.2 + pages) % 2 ^ 64) :: rest)
    else (coalesce addr pages rest).map (e :: ·)

/-- Merging does not lengthen the list. -/
theorem coalesce_length {addr pages : Nat} : ∀ {l l' : List (Nat × Nat)}, coalesce addr pages l = some l' →
    l'.length = l.length
  | [], _, h => by cases h
  | e :: rest, l', h => by
    unfold coalesce at h
    split_ifs at h
    · cases h
      rfl
    · cases h
      rfl
    · obtain ⟨l'', hrec, rfl⟩ := Option.map_eq_some_iff.mp h
      rw [List.length_cons, List.length_cons, coalesce_length hrec]

/-- A full list drops the range. -/
def push (l : MmapFreelist) (addr pages : Nat) : MmapFreelist :=
  match h : coalesce addr pages l.entries with
  | some entries => ⟨entries, by rw [coalesce_length h]; exact l.bounded⟩
  | none =>
    if hfull : l.entries.length < 256 then
      ⟨l.entries ++ [(addr, pages)], by rw [List.length_append, List.length_singleton]; omega⟩
    else l

/-- The first entry that is large enough: its front, or all of it, with the last entry moved into its place. -/
def popFit (l : MmapFreelist) (needed : Nat) : Option (Nat × MmapFreelist) :=
  match l.entries.findIdx? fun e => needed ≤ e.2 with
  | none => none
  | some i =>
    let e := l.entries.getD i (0, 0)
    let leftover := e.2 - needed
    if 0 < leftover then
      some (e.1, ⟨l.entries.set i (pageAt e.1 needed, leftover), by rw [List.length_set]; exact l.bounded⟩)
    else
      let last := l.entries.getLastD (0, 0)
      some (e.1, ⟨(l.entries.set i last).dropLast,
        by rw [List.length_dropLast, List.length_set]; exact (Nat.sub_le _ _).trans l.bounded⟩)

end MmapFreelist

/-- Where automatic placement starts. -/
def mmapBase : Nat := 0x40000000

/-- The largest mapping. -/
def maxMmapSize : UInt64 := 16 * 1024 * 1024

/-- The page flags for `PROT_WRITE` and `PROT_EXEC`. -/
def protFlags (flags : UInt64) : PageTableFlags :=
  { present := true, userAccessible := true
    writable := flags &&& 0x2 != 0
    noExecute := flags &&& 0x4 == 0
    noCache := false, writeThrough := false }

/-- `(size + PAGE_SIZE - 1) / PAGE_SIZE`. -/
def pagesOf (size : UInt64) : Nat := (size.toNat + 4095) % 2 ^ 64 / 4096

/-- The hint of the caller, in the user half. -/
def hintedAddr (hint : UInt64) (numPages : Nat) : Option Nat :=
  let addr := hint.toNat
  if addr % 4096 ≠ 0 ∨ addr < mmapBase then none
  else if 2 ^ 64 ≤ addr + numPages * 4096 then none
  else if userTop ≤ addr ∨ userTop < addr + numPages * 4096 then none
  else some addr

/-- The next address; the counter moves on also when the call fails. -/
def bumpAddr (numPages : Nat) : Mem α (Option Nat) := fun k =>
  let addr := k.nextMmapAddr
  .ok (if 0x7FFF00000000 < pageAt addr numPages then none else some addr,
    { k with nextMmapAddr := pageAt addr numPages })

/-- A recycled address, or the next one. -/
def automaticAddr (numPages : Nat) : Mem α (Option Nat) := do
  let k ← get
  match k.freelist.popFit numPages with
  | some (addr, freelist) => do
    modify fun k => { k with freelist := freelist }
    pure (some addr)
  | none => bumpAddr numPages

/-- The address of a mapping. -/
def chooseAddr (hint : UInt64) (numPages : Nat) : Mem α (Option Nat) :=
  if hint ≠ 0 then pure (hintedAddr hint numPages) else automaticAddr numPages

/-- `mmap`. -/
def syscallMmap (t : Nat) (hint size flags : UInt64) : Mem α Nat :=
  if size = 0 ∨ maxMmapSize < size then pure u64Max
  else do
    let numPages := pagesOf size
    match ← chooseAddr hint numPages with
    | none => pure u64Max
    | some base => do
      if ← mapFresh A t base (protFlags flags) numPages 0 then pure base else pure u64Max

/-- The loop of `munmap`, which counts the pages it freed. -/
def unmapAndFree (t base : Nat) : Nat → Nat → Nat → Mem α Nat
  | 0, _, freed => pure freed
  | n + 1, i, freed => do
    match ← unmapPageInTable A t (pageAt base i) with
    | some phys => do
      freePage A phys
      unmapAndFree t base n (i + 1) (freed + 1)
    | none => unmapAndFree t base n (i + 1) freed

/-- `munmap`. -/
def syscallMunmap (t : Nat) (virtAddr size : UInt64) : Mem α Nat :=
  if size = 0 ∨ virtAddr.toNat % 4096 ≠ 0 ∨ virtAddr.toNat < mmapBase then pure u64Max
  else do
    let freed ← unmapAndFree A t virtAddr.toNat (pagesOf size) 0 0
    Step.when (0 < freed) (modify fun k => { k with freelist := k.freelist.push virtAddr.toNat freed })
    pure 0

/-- The loop of `mprotect`. -/
def protectPages (t base : Nat) (flags : PageTableFlags) : Nat → Nat → Mem α Nat
  | 0, _ => pure 0
  | n + 1, i => do
    if ← protectInTable A t (pageAt base i) flags then protectPages t base flags n (i + 1) else pure u64Max

/-- `mprotect`. -/
def syscallMprotect (t : Nat) (virtAddr size flags : UInt64) : Mem α Nat :=
  if size = 0 ∨ virtAddr.toNat % 4096 ≠ 0 ∨ virtAddr.toNat < mmapBase then pure u64Max
  else if 2 ^ 64 ≤ virtAddr.toNat + size.toNat then pure u64Max
  else if userTop ≤ virtAddr.toNat ∨ userTop < virtAddr.toNat + size.toNat then pure u64Max
  else if flags &&& 0x2 ≠ 0 ∧ flags &&& 0x4 ≠ 0 then pure u64Max
  else protectPages A t virtAddr.toNat (protFlags flags) (pagesOf size) 0

/-! ## Shared memory -/

/-- The errors of the region calls. -/
inductive ShmemError where
  | invalidId
  | permissionDenied
  | outOfMemory
  | idOverflow
  | invalidSize
  | mapFailed
  | unmapFailed
deriving Repr, DecidableEq

/-- Gives blocks of an order back, one after the other. -/
def freeAll (order : Nat) : List Nat → Mem α Unit
  | [] => pure ()
  | addr :: rest => do
    freePages A order addr
    freeAll order rest

/-- The blocks of a new region; when one is missing the others go back. -/
def allocRegion (order : Nat) : Nat → List Nat → Mem α (Option (List Nat))
  | 0, physPages => pure (some physPages)
  | n + 1, physPages => do
    match ← allocPages A order with
    | some page => allocRegion order n (physPages ++ [page])
    | none => do
      freeAll A order physPages
      pure none

/-- `NEXT_SHMEM_ID.fetch_add(1)`. -/
def drawId : Mem α Nat := fun k => .ok (k.nextShmemId, { k with nextShmemId := (k.nextShmemId + 1) % 2 ^ 32 })

/-- The blocks that a size takes. -/
def blocksFor (huge : Bool) (size : Nat) : Nat := wsub (wadd size (blockSize huge)) 1 / blockSize huge

/-- `shmem_create`. -/
def shmemCreate (t size : Nat) (perms : ShmemPerms) : Mem α (Except ShmemError Nat) :=
  if size = 0 then pure (.error .invalidSize)
  else do
    match ← allocRegion A 0 (blocksFor false size) [] with
    | none => pure (.error .outOfMemory)
    | some physPages => do
      let id ← drawId
      -- the pages stay allocated when the counter has come round to 0
      if id = 0 then pure (.error .idOverflow)
      else do
        modify fun k => k.setRegion id { physPages, blockOrder := 0, perms, tasks := [t], mappings := [] }
        pure (.ok id)

/-- `shmem_create_huge`; without enough blocks of 2 MiB it falls back on small pages. -/
def shmemCreateHuge (t size : Nat) (perms : ShmemPerms) : Mem α (Except ShmemError Nat) :=
  if size = 0 then pure (.error .invalidSize)
  else do
    match ← allocRegion A hugeOrder (blocksFor true size) [] with
    | none => shmemCreate A t size perms
    | some physPages => do
      let id ← drawId
      if id = 0 then do
        freeAll A hugeOrder physPages
        pure (.error .idOverflow)
      else do
        modify fun k => k.setRegion id { physPages, blockOrder := hugeOrder, perms, tasks := [t], mappings := [] }
        pure (.ok id)

/-- `convert_page_flags`: never executable. -/
def shmemFlags (perms : ShmemPerms) : PageTableFlags :=
  { present := true, userAccessible := true, writable := perms != .readOnly, noExecute := true
    noCache := false, writeThrough := false }

/-- A block of a region is mapped with the routine of its size. -/
def mapBlock (huge : Bool) (t virt phys : Nat) (flags : PageTableFlags) : Mem α Bool :=
  if huge then mapHugePageInTable A t virt phys flags else mapPageInTable A t virt phys flags

/-- It is unmapped with the routine of its size. -/
def unmapBlock (huge : Bool) (t virt : Nat) : Mem α (Option Nat) :=
  if huge then unmapHugePageInTable A t virt else unmapPageInTable A t virt

/-- Maps the blocks of a region; on a failure, how many were mapped. -/
def mapBlocks (huge : Bool) (t virt : Nat) (flags : PageTableFlags) : List Nat → Nat → Mem α (Except Nat Unit)
  | [], _ => pure (.ok ())
  | phys :: rest, i => do
    if ← mapBlock A huge t (blockAt (blockSize huge) virt i) phys flags then mapBlocks huge t virt flags rest (i + 1)
    else pure (.error i)

/-- Unmaps blocks, mapped or not. -/
def unmapBlocks (huge : Bool) (t virt : Nat) : Nat → Nat → Mem α Unit
  | 0, _ => pure ()
  | n + 1, i => do
    let _ ← unmapBlock A huge t (blockAt (blockSize huge) virt i)
    unmapBlocks huge t virt n (i + 1)

/-- Unmaps blocks up to the first that is not mapped. -/
def unmapMapped (huge : Bool) (t virt : Nat) : Nat → Nat → Mem α Bool
  | 0, _ => pure true
  | n + 1, i => do
    match ← unmapBlock A huge t (blockAt (blockSize huge) virt i) with
    | some _ => unmapMapped huge t virt n (i + 1)
    | none => pure false

/-- The end of `shmem_map`: the record, or the way back over the blocks that were mapped. -/
def finishMap (t id virt : Nat) (shmem : SharedMemory) : Except Nat Unit → Mem α (Except ShmemError Unit)
  | .error mapped => do
    unmapBlocks A shmem.huge t virt mapped 0
    pure (.error .mapFailed)
  | .ok () => do
    modify fun k => k.setRegion id { shmem with mappings := shmem.mappings ++ [(t, virt)] }
    pure (.ok ())

/-- `shmem_map`. -/
def shmemMap (t id virt : Nat) : Mem α (Except ShmemError Unit) := do
  let k ← get
  match k.regions id with
  | none => pure (.error .invalidId)
  | some shmem =>
    if virt % blockSize shmem.huge ≠ 0 then pure (.error .invalidSize)
    else if t ∉ shmem.tasks then pure (.error .permissionDenied)
    else mapBlocks A shmem.huge t virt (shmemFlags shmem.perms) shmem.physPages 0 >>= finishMap A t id virt shmem

/-- `shmem_unmap`. -/
def shmemUnmap (t id virt : Nat) : Mem α (Except ShmemError Unit) := do
  let k ← get
  match k.regions id with
  | none => pure (.error .invalidId)
  | some shmem =>
    if virt % blockSize shmem.huge ≠ 0 then pure (.error .invalidSize)
    else do
      if ← unmapMapped A shmem.huge t virt shmem.physPages.length 0 then do
        modify fun k =>
          k.setRegion id { shmem with mappings := shmem.mappings.filter fun m => !(m.1 == t && m.2 == virt) }
        pure (.ok ())
      else pure (.error .unmapFailed)

/-- `clear_mappings`: takes a region of `n` blocks out of every address space it is recorded in. -/
def clearMappings (huge : Bool) (n : Nat) : List (Nat × Nat) → Mem α Unit
  | [] => pure ()
  | (task, virt) :: rest => do
    let k ← get
    Step.when ((k.tasks task).isSome = true) (unmapBlocks A huge task virt n 0)
    clearMappings huge n rest

/-- The end of `shmem_destroy`: the mappings are cleared before the blocks go back. -/
def release (r : SharedMemory) (mappings : List (Nat × Nat)) : Mem α Unit := do
  clearMappings A r.huge r.physPages.length mappings
  freeAll A r.blockOrder r.physPages

/-- `shmem_destroy`. -/
def shmemDestroy (t id : Nat) : Mem α (Except ShmemError Unit) := do
  let k ← get
  match k.regions id with
  | none => pure (.error .invalidId)
  | some shmem =>
    if t ∉ shmem.tasks then pure (.error .permissionDenied)
    else do
      modify fun k => k.removeRegion id
      release A shmem shmem.mappings
      pure (.ok ())

/-- `shmem_grant`. -/
def shmemGrant (t id target : Nat) : Mem α (Except ShmemError Unit) := do
  let k ← get
  match k.regions id with
  | none => pure (.error .invalidId)
  | some shmem =>
    if t ∉ shmem.tasks then pure (.error .permissionDenied)
    else do
      Step.when (target ∉ shmem.tasks)
        (modify fun k => k.setRegion id { shmem with tasks := shmem.tasks ++ [target] })
      pure (.ok ())

/-- The return value for a result without one. -/
def status : Except ShmemError Unit → Nat
  | .ok () => 0
  | .error _ => u64Max

/-- The system call `shmem_create`, for at most a gigabyte. -/
def syscallShmemCreate (t : Nat) (size : UInt64) : Mem α Nat :=
  if size = 0 ∨ 1024 * 1024 * 1024 < size then pure u64Max
  else do
    match ← shmemCreate A t size.toNat .readWrite with
    | .ok id => pure id
    | .error _ => pure u64Max

/-- `read_into_shmem` and its system call, as far as they touch memory: a region for a model of `dataLen` bytes, with
    `reads` whether the disk could be read. -/
def readIntoShmem (t dataLen : Nat) (reads : Bool) : Mem α Nat := do
  match ← shmemCreateHuge A t dataLen .readWrite with
  | .ok id => pure (if reads then id * 2 ^ 48 % 2 ^ 64 + dataLen % 2 ^ 48 else u64Max)
  | .error _ => pure u64Max

/-- `NonZeroU32::new(shmem_id as u32)`. -/
def shmemIdOf (shmemId : UInt64) : Option Nat :=
  let id := shmemId.toNat % 2 ^ 32
  if id = 0 then none else some id

/-- The system call `shmem_map`. -/
def syscallShmemMap (t : Nat) (shmemId virtAddr : UInt64) : Mem α Nat :=
  match shmemIdOf shmemId with
  | none => pure u64Max
  | some id =>
    if virtAddr = 0 ∨ userTop ≤ virtAddr.toNat ∨ virtAddr.toNat % 4096 ≠ 0 then pure u64Max
    else do pure (status (← shmemMap A t id virtAddr.toNat))

/-- The system call `shmem_grant`. -/
def syscallShmemGrant (t : Nat) (shmemId target : UInt64) : Mem α Nat :=
  match shmemIdOf shmemId with
  | none => pure u64Max
  | some id =>
    if target = 0 ∨ 2 ^ 32 ≤ target.toNat then pure u64Max
    else do pure (status (← shmemGrant t id target.toNat))

/-- The system call `shmem_unmap`. -/
def syscallShmemUnmap (t : Nat) (shmemId virtAddr : UInt64) : Mem α Nat :=
  match shmemIdOf shmemId with
  | none => pure u64Max
  | some id =>
    if virtAddr = 0 then pure u64Max
    else do pure (status (← shmemUnmap A t id virtAddr.toNat))

/-- The system call `shmem_destroy`. -/
def syscallShmemDestroy (t : Nat) (shmemId : UInt64) : Mem α Nat :=
  match shmemIdOf shmemId with
  | none => pure u64Max
  | some id => do pure (status (← shmemDestroy A t id))

/-! ## Device memory -/

/-- The loop of `map_physical`. -/
def mapDevice (t physAddr virtAddr : Nat) (flags : PageTableFlags) : Nat → Nat → Mem α Nat
  | 0, _ => pure 0
  | n + 1, i => do
    if ← mapPageInTable A t (pageAt virtAddr i) (pageAt physAddr i) flags then
      mapDevice t physAddr virtAddr flags n (i + 1)
    else pure u64Max

/-- `permitted` is the outcome of the capability check. -/
def syscallMapPhysical (t : Nat) (physAddr virtAddr size flags : UInt64) (permitted : Bool) : Mem α Nat :=
  if physAddr.toNat % 4096 ≠ 0 ∨ virtAddr.toNat % 4096 ≠ 0 then pure u64Max
  else if 0x8000000000000000 ≤ virtAddr then pure u64Max
  else if size = 0 ∨ 256 * 1024 * 1024 < size then pure u64Max
  else if !permitted then pure u64Max
  else mapDevice A t physAddr.toNat virtAddr.toNat (Capability.pageFlags flags) (Capability.numPages size) 0

/-! ## Birth and death of a task -/

/-- What the loader reads of a loadable segment. -/
structure Segment where
  vaddr : UInt64
  memsz : UInt64
  writable : Bool
deriving Repr, DecidableEq

/-- The flags of a page of code. -/
def userCode : PageTableFlags :=
  { present := true, userAccessible := true, writable := false, noExecute := false
    noCache := false, writeThrough := false }

/-- The flags of a page of data. -/
def userData : PageTableFlags :=
  { present := true, userAccessible := true, writable := true, noExecute := true
    noCache := false, writeThrough := false }

/-- The pages of one segment; false when it is refused or does not fit. -/
def loadSegment (t : Nat) (seg : Segment) : Mem α Bool :=
  if seg.memsz = 0 then pure true
  else
    let vaddr := seg.vaddr.toNat
    let segEnd := vaddr + seg.memsz.toNat
    if userTop ≤ vaddr ∨ userTop < segEnd then pure false
    else
      let startPage := vaddr / 4096 * 4096
      let endPage := (segEnd + 0xFFF) / 4096 * 4096
      mapFresh A t startPage (if seg.writable then userData else userCode) ((endPage - startPage) / 4096) 0

/-- The segments of a program. -/
def loadSegments (t : Nat) : List Segment → Mem α Bool
  | [] => pure true
  | seg :: rest => do
    if ← loadSegment A t seg then loadSegments t rest else pure false

/-- The pages of a stack. -/
def stackPages : Nat := 64

/-- The end of a stack. -/
def stackTop : Nat := 0x7FFFFFFF0000

/-- `spawn`: a number, a PML4, the segments, the stack, and then the entry in the task table.  A failure
    returns what it finds: nothing is given back. -/
def spawn (segments : List Segment) : Mem α (Option Nat) := do
  let k ← get
  let t := k.nextTaskId
  modify fun k => { k with nextTaskId := (t + 1) % 2 ^ 32 }
  match ← allocPage A with
  | none => pure none
  | some pml4 => do
    modify fun k => k.setHalf (some t) .empty
    if ← loadSegments A t segments then
      if ← mapFresh A t (stackTop - stackPages * 4096) userData stackPages 0 then do
        modify fun k => { k with tasks := update k.tasks t (some ⟨pml4, false⟩) }
        pure (some t)
      else pure none
    else pure none

/-- The frames that `free_intermediate_table` frees below an entry, in its order; a huge page is no table. -/
def tablesBelow (h : Half) : Nat → Nat → List Nat
  | 0, _ => []
  | level + 1, idx =>
    match h.tables (level + 1, idx) with
    | none => []
    | some frame => ((List.range 512).flatMap fun i => tablesBelow h level (idx * 512 + i)) ++ [frame]

/-- `free_task_page_table`: the tables of the lower half, then the PML4.  Pages are not freed. -/
def freeTaskPageTable (t pml4 : Nat) : Mem α Unit := do
  let k ← get
  freeAll A 0 ((List.range 256).flatMap (tablesBelow (k.halves (some t)) 3))
  freePage A pml4

/-- Drops an exiting task from a region it did not create. -/
def dropTask (t : Nat) (r : SharedMemory) : SharedMemory :=
  if r.tasks.head? = some t then r
  else { r with tasks := r.tasks.filter (· != t), mappings := r.mappings.filter (·.1 != t) }

/-- The regions that are destroyed when a task exits. -/
def destroyRegions (t : Nat) : List SharedMemory → Mem α Unit
  | [] => pure ()
  | r :: rest => do
    release A r (r.mappings.filter (·.1 != t))
    destroyRegions t rest

/-- `free_task_regions`. -/
def freeTaskRegions (t : Nat) : Mem α Unit := do
  let k ← get
  let created := fun id => (k.regions id).any fun r => r.tasks.head? == some t
  let ids := k.regionIds.filter created
  modify fun k => { k with
    regions := fun id => if created id then none else (k.regions id).map (dropTask t)
    regionIds := k.regionIds.filter fun id => !created id }
  destroyRegions A t (ids.filterMap k.regions)

/-- `exit`, as far as it touches memory. -/
def syscallExit (t : Nat) : Mem α Nat := do
  let k ← get
  match k.tasks t with
  | none => pure 0
  | some task => do
    modify fun k => { k with tasks := update k.tasks t (some { task with exited := true }) }
    freeTaskRegions A t
    modify fun k => { k with tasks := update k.tasks t none }
    freeTaskPageTable A t task.pageTablePhys
    pure 0

/-! ## Calls -/

/-- The calls of the tasks, and the spawn of a program by the kernel. -/
inductive Call where
  | mmap (t : Nat) (hint size flags : UInt64)
  | munmap (t : Nat) (virtAddr size : UInt64)
  | mprotect (t : Nat) (virtAddr size flags : UInt64)
  | shmemCreate (t : Nat) (size : UInt64)
  | readIntoShmem (t dataLen : Nat) (reads : Bool)
  | shmemGrant (t : Nat) (shmemId target : UInt64)
  | shmemMap (t : Nat) (shmemId virtAddr : UInt64)
  | shmemUnmap (t : Nat) (shmemId virtAddr : UInt64)
  | shmemDestroy (t : Nat) (shmemId : UInt64)
  | mapPhysical (t : Nat) (physAddr virtAddr size flags : UInt64) (permitted : Bool)
  | exit (t : Nat)
  | spawn (segments : List Segment)
deriving Repr, DecidableEq

/-- A call, and what it returns. -/
def perform : Call → Mem α Nat
  | .mmap t hint size flags => syscallMmap A t hint size flags
  | .munmap t virtAddr size => syscallMunmap A t virtAddr size
  | .mprotect t virtAddr size flags => syscallMprotect A t virtAddr size flags
  | .shmemCreate t size => syscallShmemCreate A t size
  | .readIntoShmem t dataLen reads => readIntoShmem A t dataLen reads
  | .shmemGrant t shmemId target => syscallShmemGrant t shmemId target
  | .shmemMap t shmemId virtAddr => syscallShmemMap A t shmemId virtAddr
  | .shmemUnmap t shmemId virtAddr => syscallShmemUnmap A t shmemId virtAddr
  | .shmemDestroy t shmemId => syscallShmemDestroy A t shmemId
  | .mapPhysical t physAddr virtAddr size flags permitted =>
    syscallMapPhysical A t physAddr virtAddr size flags permitted
  | .exit t => syscallExit A t
  | .spawn segments => do pure ((← spawn A segments).getD u64Max)

/-- The task that makes the call; a spawn is made by the kernel. -/
def Call.caller : Call → Option Nat
  | .mmap t _ _ _ | .munmap t _ _ | .mprotect t _ _ _ | .shmemCreate t _ | .readIntoShmem t _ _ | .shmemGrant t _ _
  | .shmemMap t _ _ | .shmemUnmap t _ _ | .shmemDestroy t _ | .mapPhysical t _ _ _ _ _ | .exit t => some t
  | .spawn _ => none

/-- The task is in the table and has not exited. -/
def Kernel.live (k : Kernel α) (t : Nat) : Bool := (k.tasks t).any fun task => !task.exited

/-- Only live tasks call. -/
def Kernel.canCall (k : Kernel α) (c : Call) : Bool := c.caller.all k.live

/-- The call returns `value` and leaves `k'`. -/
def Steps (k : Kernel α) (c : Call) (value : Nat) (k' : Kernel α) : Prop :=
  k.canCall c = true ∧ perform A c k = .ok (value, k')

/-- The calls made one after the other. -/
def Run (k : Kernel α) : List Call → Kernel α → Prop
  | [], k' => k' = k
  | c :: cs, k' => ∃ value k₁, Steps A k c value k₁ ∧ Run k₁ cs k'

/-- The state after calls that all return. -/
def after (k : Kernel α) : List Call → Option (Kernel α)
  | [] => some k
  | c :: cs =>
    if k.canCall c then
      match perform A c k with
      | .ok (_, k) => after k cs
      | .error _ => none
    else none

/-- What `after` computes is a run. -/
theorem run_of_after {k k' : Kernel α} {cs : List Call} (h : after A k cs = some k') : Run A k cs k' := by
  induction cs generalizing k with
  | nil =>
    cases h
    rfl
  | cons c cs ih =>
    simp only [after] at h
    split_ifs at h with hlive
    split at h
    · rename_i value k₁ hrun
      exact ⟨value, k₁, ⟨hlive, hrun⟩, ih h⟩
    · cases h

/-- A run whose last state passes a test. -/
theorem exists_run (k : Kernel α) (cs : List Call) (test : Kernel α → Bool)
    (h : (after A k cs).any test = true) : ∃ k', Run A k cs k' ∧ test k' = true := by
  cases hafter : after A k cs with
  | none =>
    rw [hafter] at h
    cases h
  | some k' =>
    rw [hafter] at h
    exact ⟨k', run_of_after A hafter, h⟩

/-- A kernel that has just booted. -/
def Kernel.boot (frames : α) : Kernel α :=
  { frames := frames, tasks := fun _ => none, nextTaskId := 1, halves := fun _ => .empty
    freelist := ⟨[], Nat.zero_le _⟩, nextMmapAddr := mmapBase
    regions := fun _ => none, regionIds := [], nextShmemId := 1 }

end

/-- Where the kernel sees physical memory. -/
def hhdmOffset : Nat := 0xFFFF800000000000

/-- A machine with one megabyte of usable memory. -/
def smallMachine : Kernel Physical.Pmm := .boot (Physical.init [⟨true, 0x100000, 0x100000⟩] fun _ => none)

end Folkering.Memory
