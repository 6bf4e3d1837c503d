/-
  The CAPABILITY TABLE of the kernel (`capability/mod.rs`, `capability/types.rs`).

  1. **Types** — `CapabilityType` and the relation `grants`: which held capability authorises which
     request.  Range capabilities compare ends computed with a checked addition.
  2. **Table** — 4096 slots, slot 0 reserved, and `nextId`, the slot tried first.  `revoke` empties a
     slot.
  3. **Kernel** — the table together with each task's list of capability ids.  The list of a task
     keeps the ids of revoked capabilities; only the table says what is live.
-/
import Folkering.Physical.Model

namespace Folkering.Capability

/-- The number of a task. -/
abbrev TaskId := Nat
/-- The index of a capability in the table. -/
abbrev CapabilityId := Nat

/-! ## Capability types -/

/-- What a capability gives the right to. -/
inductive CapabilityType where
  | all
  | ipcSend (target : TaskId)
  | ipcSendAny
  | ipcReceive
  | memory (basePage numPages : Nat) (writable : Bool)
  | resource (handle : Nat)
  | taskControl
  | scheduler
  | hardware (device : Nat)
  | framebuffer (physBase size : Nat)
  | dmaRegion (physBase size : Nat)
  | mmioRegion (physBase size : Nat)
  | ioPort (base size : Nat)
  | driverPrivilege
  | rawBlockIo
deriving Repr, DecidableEq

/-- `u64::checked_add`. -/
def checkedAdd (a b : Nat) : Option Nat := if a + b < 2 ^ 64 then some (a + b) else none

/-- The held range encloses the required one, and neither wraps. -/
def rangeCovers (b1 s1 b2 s2 : Nat) : Bool :=
  match checkedAdd b1 s1, checkedAdd b2 s2 with
  | some heldEnd, some reqEnd => b1 ≤ b2 && reqEnd ≤ heldEnd
  | _, _ => false

/-- The arms after `All` and the exact match. -/
def CapabilityType.grantsOther : CapabilityType → CapabilityType → Bool
  | .ipcSendAny, .ipcSend _ => true
  | .memory b1 n1 w1, .memory b2 n2 w2 => rangeCovers b1 n1 b2 n2 && (w1 || !w2)
  | .framebuffer b1 s1, .framebuffer b2 s2 => rangeCovers b1 s1 b2 s2
  | .dmaRegion b1 s1, .dmaRegion b2 s2 => rangeCovers b1 s1 b2 s2
  | .mmioRegion b1 s1, .mmioRegion b2 s2 => rangeCovers b1 s1 b2 s2
  -- ports are 16 bits wide, so the sums cannot overflow 32 bits
  | .ioPort b1 s1, .ioPort b2 s2 => b1 ≤ b2 && b2 + s2 ≤ b1 + s1
  | _, _ => false

/-- A held capability of the first type authorises a request of the second. -/
def CapabilityType.grants (self required : CapabilityType) : Bool :=
  if self = .all then true
  else if self = required then true
  else self.grantsOther required

/-- Capabilities bound to hardware, which IPC must not pass on. -/
def isNonTransferable : CapabilityType → Bool
  | .dmaRegion _ _ | .mmioRegion _ _ | .ioPort _ _ | .framebuffer _ _ | .driverPrivilege
  | .rawBlockIo => true
  | _ => false

/-- The errors of the capability calls. -/
inductive CapError where
  | notFound
  | revoked
  | permissionDenied
  | tableFull
  | invalidId
  | nonTransferable
deriving Repr, DecidableEq

/-! ## The table -/

/-- An entry of the global table. -/
structure CapabilityEntry where
  capType : CapabilityType
  owner : TaskId
  refCount : Nat
  valid : Bool
deriving Repr, DecidableEq

/-- A fresh entry, valid and held once. -/
def CapabilityEntry.new (capType : CapabilityType) (owner : TaskId) : CapabilityEntry :=
  { capType, owner, refCount := 1, valid := true }

/-- The entries of the table. -/
def maxCapabilities : Nat := 4096

/-- The global table and the number it hands out next. -/
structure CapabilityTable where
  entries : Fin maxCapabilities → Option CapabilityEntry
  nextId : Nat

/-- Id 0 means "no capability", so ids start at 1. -/
def CapabilityTable.new : CapabilityTable := { entries := fun _ => none, nextId := 1 }

/-- Fill a slot and try the one after it next time. -/
def CapabilityTable.fill (t : CapabilityTable) (i : Fin maxCapabilities) (entry : CapabilityEntry) :
    CapabilityTable :=
  { entries := Function.update t.entries i (some entry), nextId := i + 1 }

/-- The first empty slot from 1 on. -/
def CapabilityTable.firstFree (t : CapabilityTable) : Option (Fin maxCapabilities) :=
  (List.finRange maxCapabilities).find? fun i => i.val ≠ 0 && (t.entries i).isNone

/-- Store an entry under the next number. -/
def CapabilityTable.allocate (t : CapabilityTable) (entry : CapabilityEntry) :
    Except CapError (CapabilityId × CapabilityTable) :=
  if h : t.nextId < maxCapabilities then
    if (t.entries ⟨t.nextId, h⟩).isSome then
      match t.firstFree with
      | some i => .ok (i.val, t.fill i entry)
      | none => .error .tableFull
    else .ok (t.nextId, t.fill ⟨t.nextId, h⟩ entry)
  else .error .tableFull

/-- The entry of a number in range. -/
def CapabilityTable.get (t : CapabilityTable) (id : CapabilityId) : Option CapabilityEntry :=
  if h : id < maxCapabilities then t.entries ⟨id, h⟩ else none

/-- Mark an entry as revoked. -/
def CapabilityTable.revoke (t : CapabilityTable) (id : CapabilityId) :
    Except CapError CapabilityTable :=
  if h : id < maxCapabilities then
    match t.entries ⟨id, h⟩ with
    | some _ => .ok { t with entries := Function.update t.entries ⟨id, h⟩ none }
    | none => .error .notFound
  else .error .invalidId

/-! ## The kernel -/

/-- The table, the tasks with their capability lists, and the blocks handed back to the page
    allocator (address and order, latest first). -/
structure Kernel where
  table : CapabilityTable
  tasks : TaskId → Option (List CapabilityId)
  freedPages : List (Nat × Nat)

/-- Add an id to the list of a task; nothing happens when there is no such task. -/
def Kernel.pushCapability (k : Kernel) (task : TaskId) (id : CapabilityId) : Kernel :=
  { k with tasks := Function.update k.tasks task ((k.tasks task).map (· ++ [id])) }

/-- Allocate an entry and record its number with the task. -/
def Kernel.grant (k : Kernel) (task : TaskId) (capType : CapabilityType) :
    Except CapError (CapabilityId × Kernel) :=
  match k.table.allocate (.new capType task) with
  | .ok (id, table) => .ok (id, { k with table }.pushCapability task id)
  | .error e => .error e

/-- A live entry of the table that authorises the request. -/
def Kernel.authorises (k : Kernel) (required : CapabilityType) (id : CapabilityId) : Bool :=
  match k.table.get id with
  | some entry => entry.valid && entry.capType.grants required
  | none => false

/-- The task holds a valid capability that covers the required one. -/
def Kernel.hasCapability (k : Kernel) (task : TaskId) (required : CapabilityType) : Bool :=
  match k.tasks task with
  | some ids => ids.any (k.authorises required)
  | none => false

/-- The task may send to the target; the kernel's task 0 may always. -/
def Kernel.hasIpcSend (k : Kernel) (task target : TaskId) : Bool :=
  if task = 0 then true else k.hasCapability task (.ipcSend target)

/-- The task may map the framebuffer range. -/
def Kernel.hasFramebufferAccess (k : Kernel) (task : TaskId) (physAddr size : Nat) : Bool :=
  k.hasCapability task (.framebuffer physAddr size)

/-- The task may map the device range. -/
def Kernel.hasMmioAccess (k : Kernel) (task : TaskId) (physAddr size : Nat) : Bool :=
  k.hasCapability task (.mmioRegion physAddr size)

/-- Revoke a capability. -/
def Kernel.revoke (k : Kernel) (id : CapabilityId) : Except CapError Kernel :=
  match k.table.revoke id with
  | .ok table => .ok { k with table }
  | .error e => .error e

/-- Hand the pages behind a DMA region back to the page allocator. -/
def Kernel.freeBacking (k : Kernel) : Option CapabilityType → Kernel
  | some (.dmaRegion physBase size) =>
    let numPages := (size + 4095) % 2 ^ 64 / 4096
    { k with freedPages := (physBase, Physical.contiguousOrder numPages 10 0) :: k.freedPages }
  | _ => k

/-- Release what stands behind a capability, then revoke it. -/
def Kernel.revokeWithCleanup (k : Kernel) (id : CapabilityId) : Except CapError Kernel :=
  (k.freeBacking ((k.table.get id).map (·.capType))).revoke id

/-- An id that `check` found transferable. -/
structure TransferableCap where
  id : CapabilityId
deriving Repr, DecidableEq

/-- The proof that a capability may be handed on, if it may. -/
def TransferableCap.check (k : Kernel) (id : CapabilityId) : Option TransferableCap :=
  match k.table.get id with
  | some entry => if isNonTransferable entry.capType then none else some ⟨id⟩
  | none => none

/-- Copy a capability of one task to another, under a new id. -/
def Kernel.transfer (k : Kernel) (fromTask toTask : TaskId) (cap : TransferableCap) :
    Except CapError (CapabilityId × Kernel) :=
  match k.tasks fromTask, k.tasks toTask with
  | some held, some _ =>
    if cap.id ∈ held then
      match k.table.get cap.id with
      | some entry =>
        if isNonTransferable entry.capType then .error .nonTransferable
        else k.grant toTask entry.capType
      | none => .error .notFound
    else .error .permissionDenied
  | _, _ => .error .notFound

/-! ## Sequences of calls -/

/-- The calls that change who holds what. -/
inductive Call where
  | grant (task : TaskId) (capType : CapabilityType)
  | transfer (fromTask toTask : TaskId) (cap : TransferableCap)
  | revoke (id : CapabilityId)
  | revokeWithCleanup (id : CapabilityId)
deriving Repr, DecidableEq

/-- One call; a call that fails changes nothing. -/
def Kernel.step (k : Kernel) : Call → Kernel
  | .grant task capType => match k.grant task capType with
    | .ok (_, k') => k'
    | .error _ => k
  | .transfer fromTask toTask cap => match k.transfer fromTask toTask cap with
    | .ok (_, k') => k'
    | .error _ => k
  | .revoke id => match k.revoke id with
    | .ok k' => k'
    | .error _ => k
  | .revokeWithCleanup id => match k.revokeWithCleanup id with
    | .ok k' => k'
    | .error _ => k

/-- A sequence of calls. -/
def Kernel.run (k : Kernel) (calls : List Call) : Kernel := calls.foldl Kernel.step k

/-- The kernel before the first call: the given tasks exist and hold nothing. -/
def Kernel.boot (tasks : List TaskId) : Kernel :=
  { table := .new, tasks := fun t => if t ∈ tasks then some [] else none, freedPages := [] }

end Folkering.Capability
