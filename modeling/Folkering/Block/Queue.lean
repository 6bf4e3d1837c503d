/-
  The VIRTQUEUE of the drivers (`drivers/virtio.rs`).

  Descriptors that are not in use form a list threaded through their own `next` fields, from
  `freeHead` on; `numFree` counts them.  Block/FreeList says what the operations do to that list.

  An address in a descriptor is the DMA area it points to: the block driver sets up six of them, one set for
  single sectors and one for bursts, and uses no other.
-/
import Folkering.Block.Driver

namespace Folkering.Block

/-! ## Descriptors and rings -/

/-- The DMA areas the driver sets up. -/
inductive Area where
  | reqHeader
  | reqData
  | reqStatus
  | burstHeader
  | burstData
  | burstStatus
deriving Repr, DecidableEq

/-- A descriptor of the table. -/
structure VirtqDesc where
  addr : Option Area
  len : Nat
  /-- `VRING_DESC_F_NEXT` -/
  hasNext : Bool
  /-- `VRING_DESC_F_WRITE`: the device writes this buffer -/
  writable : Bool
  next : Nat
deriving Repr, DecidableEq

/-- The queue.  The indices into the rings are 16 bits wide and wrap. -/
structure Virtqueue where
  desc : Nat → VirtqDesc
  queueSize : Nat
  freeHead : Nat
  numFree : Nat
  availRing : Nat → Nat
  nextAvail : Nat
  usedRing : Nat → Nat × Nat
  usedIdx : Nat
  lastUsedIdx : Nat

/-- `u16::wrapping_add(1)`. -/
def wrapSucc (i : Nat) : Nat := (i + 1) % 2 ^ 16

/-- The queue at setup, all descriptors in one free list. -/
def Virtqueue.new (queueSize : Nat) : Virtqueue :=
  { desc := fun i => ⟨none, 0, false, false, if i + 1 < queueSize then i + 1 else 0xFFFF⟩
    queueSize
    freeHead := 0
    numFree := queueSize
    availRing := fun _ => 0
    nextAvail := 0
    usedRing := fun _ => (0, 0)
    usedIdx := 0
    lastUsedIdx := 0 }

/-- One descriptor is written. -/
def Virtqueue.setDesc (q : Virtqueue) (i : Nat) (d : VirtqDesc) : Virtqueue :=
  { q with desc := Function.update q.desc i d }

/-- Take the head of the free list. -/
def Virtqueue.allocDesc (q : Virtqueue) : Option (Nat × Virtqueue) :=
  if q.numFree = 0 then none
  else some (q.freeHead,
    { q with freeHead := (q.desc q.freeHead).next, numFree := q.numFree - 1 })

/-- Give a descriptor back to the free list. -/
def Virtqueue.freeDesc (q : Virtqueue) (i : Nat) : Virtqueue :=
  { q.setDesc i { q.desc i with next := q.freeHead } with freeHead := i, numFree := q.numFree + 1 }

/-- Put a chain on the available ring. -/
def Virtqueue.submit (q : Virtqueue) (head : Nat) : Virtqueue :=
  { q with
    availRing := Function.update q.availRing (q.nextAvail % q.queueSize) head
    nextAvail := wrapSucc q.nextAvail }

/-- The next completed chain and its length, if there is one. -/
def Virtqueue.popUsed (q : Virtqueue) : Option (Nat × Nat) × Virtqueue :=
  if q.usedIdx = q.lastUsedIdx then (none, q)
  else (some (q.usedRing (q.lastUsedIdx % q.queueSize)),
    { q with lastUsedIdx := wrapSucc q.lastUsedIdx })

/-- What the device reads of the available ring. -/
def Virtqueue.rings (q : Virtqueue) : Nat × (Nat → Nat) × Nat := (q.queueSize, q.availRing, q.nextAvail)

end Folkering.Block
