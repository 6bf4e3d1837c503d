/-
  The allocator in its SYSTEM: callers that hold blocks, and what they may do.

  A run starts from the memory map the bootloader hands over and is a sequence of calls.  The callers
  keep the blocks they were given (`held`), free only what they hold, with the order it was allocated
  with, and may write anything they like INTO the blocks they hold: the free lists live in the free
  pages themselves, so an allocator that listed a held page would be corrupted by such a write.

  `Safe` is the statement of purpose: held blocks never overlap, each is aligned to its size and lies
  in one region of the map, and none shares a byte with a block on a free list.
-/
import Folkering.Physical.Model
import Folkering.Lib.Spans

namespace Folkering.Physical

open Chain Word64 Spans

/-! ## Blocks and calls -/

/-- A block of `2^order` pages. -/
structure Block where
  addr : Nat
  order : Nat
deriving Repr, DecidableEq

/-- Size in bytes of a block of the given order. -/
def blockSize (order : Nat) : Nat := pageSize * 2 ^ order

/-- The bytes of a block. -/
def Block.span (b : Block) : Span := ⟨b.addr, b.addr + blockSize b.order⟩

/-- What a client of the kernel does next. -/
inductive Call where
  | allocPage
  | allocPages (order : Nat)
  | allocContiguous (numPages : Nat)
  | freePages (addr order : Nat)
  /-- a holder writes into its own memory -/
  | clientWrite (ptr : Nat) (word : Option Nat)
deriving Repr, DecidableEq

/-- The allocator and the blocks its callers hold. -/
structure Sys where
  pmm : Pmm
  held : List Block

/-- The callers' side after an allocation: a block that was returned is now held. -/
def Sys.hold (held : List Block) (order : Nat) : Option Nat × Pmm → Sys
  | (some addr, p) => { pmm := p, held := ⟨addr, order⟩ :: held }
  | (none, p) => { pmm := p, held := held }

section

variable (hhdm : Nat)

/-- One call. -/
def step (s : Sys) : Call → Except Panic Sys
  | .allocPage => .ok (Sys.hold s.held 0 (s.pmm.allocPage hhdm))
  | .allocPages order => .ok (Sys.hold s.held order (s.pmm.allocPages hhdm order))
  | .allocContiguous n =>
    .ok (Sys.hold s.held (contiguousOrder n 10 0) (s.pmm.allocContiguous hhdm n))
  | .freePages addr order => do
    let p ← s.pmm.freePages hhdm addr order
    .ok { pmm := p, held := s.held.erase ⟨addr, order⟩ }
  | .clientWrite ptr word =>
    let a := s.pmm.allocator
    .ok { s with pmm := { s.pmm with allocator :=
      { a with mem := Function.update a.mem ptr word } } }

/-- The callers' discipline: free what you hold, write where you hold. -/
def Disciplined (s : Sys) : Call → Prop
  | .freePages addr order => ⟨addr, order⟩ ∈ s.held
  | .clientWrite ptr _ => ∃ b ∈ s.held, ∃ x, b.span.Has x ∧ physToVirt hhdm x = ptr
  | _ => True

/-- A sequence of calls; a panic ends it. -/
def run (s : Sys) : List Call → Except Panic Sys
  | [] => .ok s
  | c :: cs => match step hhdm s c with
    | .ok s => run s cs
    | .error e => .error e

/-- Every call of the sequence is disciplined in the state it is made in. -/
def DisciplinedRun (s : Sys) : List Call → Prop
  | [] => True
  | c :: cs => Disciplined hhdm s c ∧ match step hhdm s c with
    | .ok s => DisciplinedRun s cs
    | .error _ => True

end

/-! ## The boot map -/

/-- The addresses of an entry. -/
def MemoryMapEntry.span (e : MemoryMapEntry) : Span := ⟨e.base, e.base + e.length⟩

/-- A usable entry as the boot protocol promises it: whole pages inside the address space. -/
def MemoryMapEntry.WholePages (e : MemoryMapEntry) : Prop :=
  pageSize ∣ e.base ∧ pageSize ∣ e.length ∧ e.base + e.length ≤ 2 ^ 64

/-- The usable entries are whole pages and do not overlap. -/
structure GoodMap (map : List MemoryMapEntry) : Prop where
  wholePages : ∀ e ∈ map, e.usable = true → e.WholePages
  apart : Packed ((map.filter (·.usable)).map MemoryMapEntry.span)

/-- The span of what a bump arena has not handed out. -/
def BootstrapRegion.tail (r : BootstrapRegion) : Span := ⟨r.nextPage, r.endPage⟩

/-- The regions registered at boot. -/
def registered (map : List MemoryMapEntry) : List Span :=
  ((init map fun _ => none).bootstrap.getD []).map BootstrapRegion.tail

/-- Boot: nothing is held. -/
def boot (map : List MemoryMapEntry) (mem : Nat → Option Nat) : Sys :=
  { pmm := init map mem, held := [] }

/-! ## Safety -/

/-- The block is aligned to its size and lies inside ONE of the regions. -/
def Placed (regions : List Span) (b : Block) : Prop :=
  blockSize b.order ∣ b.addr ∧ ∃ r ∈ regions, b.span.Within r

/-- **What the allocator is for.**  Each free list is a finite list of blocks (so "the blocks on it"
    makes sense), and no byte is owned twice. -/
structure Safe (hhdm : Nat) (regions : List Span) (s : Sys) : Prop where
  heldApart : Packed (s.held.map Block.span)
  heldPlaced : ∀ b ∈ s.held, Placed regions b
  freeApart : ∀ order ≤ maxOrder, ∃ l : List Nat,
    Linked s.pmm.allocator.mem (s.pmm.allocator.freeLists order) (l.map (physToVirt hhdm)) ∧
    ∀ addr ∈ l, addr < 2 ^ 64 ∧ ∀ b ∈ s.held, Apart b.span (Block.span ⟨addr, order⟩)

/-! ## Runs -/

/-- The bump arenas' rounding stays inside the machine word for a block of this order: the block size
    is not shifted out of the word, and no arena's cursor is rounded past its end. -/
def RoundsWithinWord (p : Pmm) (order : Nat) : Prop :=
  order ≤ 51 ∧ ∀ r ∈ p.bootstrap.getD [], r.nextPage + blockSize order ≤ 2 ^ 64

/-- The condition on a call, given the state before it. -/
def CallFits (s : Sys) : Call → Prop
  | .allocPages order => RoundsWithinWord s.pmm order
  | .allocContiguous n => RoundsWithinWord s.pmm (contiguousOrder n 10 0)
  | _ => True

/-- Regions of the map that touch do so at a multiple of the largest buddy block, so that no pair of
    buddies straddles two regions. -/
def TouchAtMaxBlocks (regions : List Span) : Prop :=
  ∀ r ∈ regions, ∀ r' ∈ regions, r.hi = r'.lo → blockSize maxOrder ∣ r.hi

/-- The states reached by disciplined callers whose calls all fit. -/
inductive Reach (hhdm : Nat) (map : List MemoryMapEntry) : Sys → Prop
  | boot (mem : Nat → Option Nat) : Reach hhdm map (boot map mem)
  | call {s s' : Sys} (c : Call) : Reach hhdm map s → Disciplined hhdm s c → CallFits s c →
      step hhdm s c = .ok s' → Reach hhdm map s'

end Folkering.Physical
