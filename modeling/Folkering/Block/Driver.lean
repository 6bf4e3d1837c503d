/-
  The VIRTIO BLOCK DRIVER and its device (`drivers/virtio_blk.rs`, single sectors).

  Every request goes through ONE page: a header, the data and the status byte.  The driver fills the page, puts a chain
  of three descriptors into the ring and waits.  The device works at its own pace (`Move`): it FETCHES a chain, and then
  has the request that stands in the page at that time; it FINISHES a fetched request, whichever it is, and writes the
  data of a read and the status byte into the page.  It is honest about success: a request finished with status 0 has
  been performed.  Any other request may or may not have been performed.

  The wait ends with an interrupt or times out.  `irq_handler` does not look at what has been completed, and `do_io` does
  not look at the head `pop_used` gives it, so an interrupt can come before the request is finished, and a completion can
  be that of an earlier request.  A chain that timed out stays with the device and its descriptors are never freed; they
  are counted only.
-/
import Mathlib

namespace Folkering.Block

/-! ## The page and the device -/

/-- `SECTOR_SIZE`. -/
def sectorSize : Nat := 512

/-- The bytes of a sector. -/
abbrev Sector := Fin sectorSize → UInt8

/-- The errors of the driver. -/
inductive BlockError where
  | notInitialized
  | deviceNotFound
  | queueSetupFailed
  | ioError
  | timeout
  | invalidSector
  | deviceFailed
deriving Repr, DecidableEq

/-- `VIRTIO_BLK_T_IN` and `VIRTIO_BLK_T_OUT`. -/
inductive ReqType where
  | input
  | output
deriving Repr, DecidableEq

/-- `VIRTIO_BLK_S_OK`. -/
def statusOk : UInt8 := 0

/-- The page at `req_buf_phys`: `VirtioBlkReqHeader`, 512 bytes of data, the status byte. -/
structure Page where
  reqType : ReqType
  sector : Nat
  data : Sector
  status : UInt8

/-- A request the device has fetched.  The data is what a write is to put on the disk. -/
structure Request where
  reqType : ReqType
  sector : Nat
  data : Sector

/-- The disk, the page and the requests: `waiting` chains are in the ring and not fetched, `held` requests are fetched
    and not finished. -/
structure Shared where
  content : Nat → Sector
  page : Page
  waiting : Nat
  held : List Request

/-- What the device does to the disk and the page for a request. -/
def Shared.perform (d : Shared) (req : Request) : Shared :=
  match req.reqType with
  | .input => { d with page := { d.page with data := d.content req.sector } }
  | .output => { d with content := Function.update d.content req.sector req.data }

/-- The status byte is written, and the device is done with a request. -/
def Shared.answer (d : Shared) (i : Nat) (status : UInt8) : Shared :=
  { d with page := { d.page with status }, held := d.held.eraseIdx i }

/-- One move of the device. -/
inductive Move where
  | fetch
  | finish (i : Nat) (status : UInt8) (performed : Bool)

/-- A request that is reported as successful has been performed. -/
def Shared.move (d : Shared) : Move → Shared
  | .fetch =>
    if d.waiting = 0 then d
    else { d with waiting := d.waiting - 1, held := d.held ++ [⟨d.page.reqType, d.page.sector, d.page.data⟩] }
  | .finish i status performed =>
    match d.held[i]? with
    | none => d
    | some req => (if status == statusOk || performed then d.perform req else d).answer i status

/-- Move after move. -/
def Shared.moves (d : Shared) (ms : List Move) : Shared := ms.foldl Shared.move d

/-- What happens during one request: the moves of the device until the wait ends, whether an interrupt ends it, the
    moves in the pause before the status byte is read again, and those until the next request. -/
structure Wait where
  moves : List Move
  interrupt : Bool
  pause : List Move
  rest : List Move

/-- The device ignores the request. -/
def Wait.none : Wait := ⟨[], false, [], []⟩

/-! ## The driver -/

/-- The driver's state of the device. -/
structure VirtioBlkDevice where
  capacity : Nat
  numFree : Nat
deriving Repr, DecidableEq

/-- The driver, what it shares with the device, and the waits to come. -/
structure World where
  device : Option VirtioBlkDevice
  shared : Shared
  waits : List Wait

/-- The page is filled: a read leaves the data of the last request in it. -/
def Shared.prepare (d : Shared) (reqType : ReqType) (sector : Nat) (data : Sector) : Shared :=
  { d with
    page :=
      { reqType
        sector
        data := match reqType with
          | .input => d.page.data
          | .output => data
        status := 0xFF } }

/-- The chain is put into the ring. -/
def Shared.submit (d : Shared) : Shared := { d with waiting := d.waiting + 1 }

/-- What is in the caller's buffer after a successful request. -/
def Shared.returned (d : Shared) (reqType : ReqType) (data : Sector) : Sector :=
  match reqType with
  | .input => d.page.data
  | .output => data

/-- The end of `do_io`, after an interrupt: the status byte is read, and once more after a pause. -/
def Shared.complete (d : Shared) (reqType : ReqType) (data : Sector) (wait : Wait) : Except BlockError Sector × Shared :=
  let d' := if d.page.status != statusOk then d.moves wait.pause else d
  (if d'.page.status != statusOk then .error .ioError else .ok (d'.returned reqType data), d'.moves wait.rest)

/-- `do_io`: one request, and the wait for its completion. -/
def World.doIo (w : World) (reqType : ReqType) (sector : Nat) (data : Sector) : Except BlockError Sector × World :=
  match w.device with
  | none => (.error .notInitialized, w)
  | some blk =>
    if blk.capacity ≤ sector then (.error .invalidSector, w)
    else
      let prepared := w.shared.prepare reqType sector data
      -- three descriptors: header, data, status
      if blk.numFree < 3 then (.error .ioError, { w with shared := prepared })
      else
        let wait := w.waits.headD .none
        let d := prepared.submit.moves wait.moves
        if wait.interrupt then
          -- whatever `pop_used` gives, the chain of this request is freed
          let (result, d') := d.complete reqType data wait
          (result, { w with shared := d', waits := w.waits.tail })
        else
          -- the wait gives up, and the descriptors stay in the ring
          (.error .timeout, ⟨some { blk with numFree := blk.numFree - 3 }, d.moves wait.rest, w.waits.tail⟩)

/-- The buffers of the source before they are filled. -/
def zeroSector : Sector := fun _ => 0

/-- The read-back check: the first 32 and the last 32 bytes agree. -/
def echoes (verify buf : Sector) : Bool :=
  decide (∀ i : Fin sectorSize, i.val < 32 ∨ 480 ≤ i.val → verify i = buf i)

/-- The rounds of `block_write`: write; if that fails, read back and compare; else try again. -/
def World.writeRounds (w : World) (sector : Nat) (buf : Sector) : Nat → Except BlockError Unit × World
  | 0 => (.error .ioError, w)
  | n + 1 =>
    match w.doIo .output sector buf with
    | (.ok _, w₁) => (.ok (), w₁)
    | (.error _, w₁) =>
      match w₁.doIo .input sector zeroSector with
      | (.ok verify, w₂) => if echoes verify buf then (.ok (), w₂) else w₂.writeRounds sector buf n
      | (.error _, w₂) => w₂.writeRounds sector buf n

/-- `block_write`: at most three rounds. -/
def World.blockWrite (w : World) (sector : Nat) (buf : Sector) : Except BlockError Unit × World :=
  w.writeRounds sector buf 3

/-! ## Several sectors -/

/-- Sector `i` of a byte buffer. -/
def sectorOf (buf : List UInt8) (i : Nat) : Sector := fun j => buf.getD (i * sectorSize + j) 0

/-- The loop of `write_sectors`, from sector `i` on. -/
def World.writeSectorsFrom (w : World) (sector : Nat) (buf : List UInt8) : Nat → Nat → Except BlockError Unit × World
  | 0, _ => (.ok (), w)
  | n + 1, i =>
    if buf.length < i * sectorSize + sectorSize then (.error .invalidSector, w)
    else match w.blockWrite (sector + i) (sectorOf buf i) with
      | (.ok _, w') => w'.writeSectorsFrom sector buf n (i + 1)
      | (.error e, w') => (.error e, w')

/-- `write_sectors`. -/
def World.writeSectors (w : World) (sector : Nat) (buf : List UInt8) (count : Nat) : Except BlockError Unit × World :=
  w.writeSectorsFrom sector buf count 0

end Folkering.Block
